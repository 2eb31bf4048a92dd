import Mathlib.Order.Interval.Finset.Nat
import Pintos.Filesys.Format

/-!
# The free map and its file

`filesys/free-map.c` over whole runs. From `free_map_create` or `free_map_open`
on, sectors are allocated and released, directly and by the inodes that grow and
go; `Serving` is what such a run can lead to. The file of the free map holds the
map in memory after each step (`free_map_never_lags`).

The caller of `free_map_release` must own what it releases: the sectors that were
allocated and given to no file are kept account of by `own`, and the files, by the
sectors of their inodes, by `made`. A restart loses the files of more than 122
sectors, whose tables were in memory.
-/

namespace Pintos

open Library Library.Prog

variable {k k' : Fs} {N : Nodes} {u s a : ℕ} {i : Inode} {nd nd' : Node} {own made : Finset ℕ}

/-! ### Runs of sectors -/

/-- Marking sectors keeps a file system well formed. -/
theorem Wf.markRun (hw : Wf k N u) (b cnt : ℕ) : Wf { k with freeMap := k.freeMap.setMultiple b cnt true } N u := by
  have hmono : ∀ j, k.freeMap.bit j = true → (k.freeMap.setMultiple b cnt true).bit j = true := by
    intro j hj
    simp only [Bitmap.setMultiple, hj, ite_self]
  exact ⟨hw.cache, hw.laid.of_map rfl ⟨hmono 0 hw.laid.low.1, hmono 1 hw.laid.low.2⟩ fun _ _ _ b _ => hmono b, hw.opened⟩

/-- `free_map_allocate` of any number of sectors, with the free map's file open. -/
theorem freeMapAllocate_run (hw : Wf k N 0) (hm : MapOpen k N) (hc : MapClear k N) (cnt : ℕ) :
    wp (freeMapAllocate persistFreeMap cnt)
      (fun o k' => (∃ b B, o = some b ∧ b + cnt ≤ k.freeMap.bitCnt ∧ (∀ j, b ≤ j → j < b + cnt → k.freeMap.bit j = false) ∧
          Persisted N { k with freeMap := k.freeMap.setMultiple b cnt true } B ∧
          k' = { k with freeMap := k.freeMap.setMultiple b cnt true, buffers := B }) ∨
        o = none ∧ k' = k)
      (fun _ => False) k := by
  rw [freeMapAllocate, wp_bind, wp_gets]
  cases hscan : k.freeMap.scan 0 cnt false with
  | none =>
    rw [wp_pure]
    exact .inr ⟨rfl, rfl⟩
  | some b =>
    obtain ⟨hle, hclear⟩ := Bitmap.scan_eq_some hscan
    obtain ⟨f, j, nd₀, hf, -⟩ := id hm
    have h0 : k.freeMapFile ≠ 0 := k.files.ne_null hf
    have hspec := persistFreeMap_persists { k with freeMap := k.freeMap.setMultiple b cnt true } N 0 (hw.markRun b cnt) hm
    rw [wp_bind, wp_modify, wp_bind, wp_gets, if_neg h0, wp_bind]
    refine wp_mono hspec ?_ fun _ he => he.1 hc
    rintro ok _ ⟨rfl, B, hB, rfl⟩
    rw [if_pos rfl, wp_pure]
    exact .inl ⟨b, B, rfl, hle, hclear, hB, rfl⟩

/-- `free_map_release` of any number of sectors that are marked. -/
theorem freeMapRelease_run {b cnt : ℕ} (hw : Wf k N 0) (hm : MapOpen k N) (hc : MapClear k N)
    (hle : b + cnt ≤ k.freeMap.bitCnt) (hbit : ∀ j, b ≤ j → j < b + cnt → k.freeMap.bit j = true) :
    wp (freeMapRelease persistFreeMap b cnt)
      (fun _ k' => ∃ B, Persisted N { k with freeMap := k.freeMap.setMultiple b cnt false } B ∧
        k' = { k with freeMap := k.freeMap.setMultiple b cnt false, buffers := B })
      (fun _ => False) k := by
  have hall : k.freeMap.all b cnt = true := by
    rw [Bitmap.all, Bitmap.contains, Bool.not_eq_true', List.any_eq_false]
    intro j hj
    rw [hbit (b + j) (by omega) (by have := List.mem_range.1 hj; omega)]
    simp
  obtain ⟨nd₀, hN₀, hfile⟩ := hm.mapFile hw
  have hspec : wp persistFreeMap _ _ { k with freeMap := k.freeMap.setMultiple b cnt false } :=
    bitmapWrite_spec 7 hw.cache hN₀ (hfile.of_map rfl)
  rw [freeMapRelease, wp_bind, wp_gets, if_pos hle, if_pos hall, wp_bind, wp_modify, wp_bind]
  refine wp_mono hspec ?_ fun _ he => he.1 hc
  rintro - _ ⟨-, B, hB, rfl⟩
  exact ⟨B, hB, rfl⟩

/-! ### The invariant -/

/-- **The free map is in its file**, and the sectors `own` are marked but belong to no file. -/
structure MapReady (k : Fs) (N : Nodes) (own made : Finset ℕ) : Prop where
  wf : Wf k N 0
  mapOpen : MapOpen k N
  sync : MapSync k N
  clear : MapClear k N
  bound : ∀ j, k.freeMap.bit j = true → j < k.freeMap.bitCnt
  kept : ∀ a i, k.inodes.cell a = some i → i.removed = true → 2 ≤ i.sector
  owned : ∀ b ∈ own, 2 ≤ b ∧ k.freeMap.bit b = true ∧ ∀ s nd, N s = some nd → b ∉ s :: nd.blocks
  known : ∀ s ∈ made, ∃ nd, N s = some nd

namespace MapReady

variable (h : MapReady k N own made)

include h

theorem freeMapFile_ne : k.freeMapFile ≠ 0 := by
  obtain ⟨f, j, nd₀, hf, -⟩ := h.mapOpen
  exact k.files.ne_null hf

/-- A sector that no file has is the sector of no inode. -/
theorem node_of_owned (hs : s ∈ own) : N s = none := by
  cases hN : N s with
  | none => rfl
  | some nd => exact absurd List.mem_cons_self ((h.owned s hs).2.2 s nd hN)

/-- The map changes, and is written to the file. -/
theorem persisted {M : Bitmap} {B : Buffers} {own' : Finset ℕ} (hM : M.bitCnt = k.freeMap.bitCnt)
    (hw : Wf { k with freeMap := M } N 0) (hbound : ∀ j, M.bit j = true → j < M.bitCnt)
    (howned : ∀ b ∈ own', 2 ≤ b ∧ M.bit b = true ∧ ∀ s nd, N s = some nd → b ∉ s :: nd.blocks)
    (hB : Persisted N { k with freeMap := M } B) : MapReady { k with freeMap := M, buffers := B } N own' made := by
  have hsize : M.fileSize = k.freeMap.fileSize := congrArg Bitmap.byteCnt hM
  have hw' := hw.persisted (fun nd hN => by rw [hsize]; exact h.mapOpen.fileSize_le hN) hB
  refine ⟨hw', ?_, hB.sync, fun b hb => ?_, hbound, h.kept, howned, h.known⟩
  · obtain ⟨f, j, nd₀, hf, hj, hsec, hdeny, hN₀, hle⟩ := h.mapOpen
    exact ⟨f, j, nd₀, hf, hj, hsec, hdeny, hN₀, by rw [hsize]; exact hle⟩
  · change b + 1 < B.disk.capacity
    rw [hB.capacity]
    exact h.clear b hb

/-- Sectors are allocated. -/
theorem allocated {b cnt : ℕ} {B : Buffers} (hle : b + cnt ≤ k.freeMap.bitCnt)
    (hfree : ∀ j, b ≤ j → j < b + cnt → k.freeMap.bit j = false)
    (hB : Persisted N { k with freeMap := k.freeMap.setMultiple b cnt true } B) :
    MapReady { k with freeMap := k.freeMap.setMultiple b cnt true, buffers := B } N (own ∪ Finset.Ico b (b + cnt)) made := by
  refine h.persisted rfl (h.wf.markRun b cnt) (fun j hj => ?_) (fun j hj => ?_) hB
  · simp only [Bitmap.setMultiple] at hj ⊢
    split_ifs at hj with hin
    · omega
    · exact h.bound j hj
  · rw [Finset.mem_union, Finset.mem_Ico] at hj
    simp only [Bitmap.setMultiple]
    rcases hj with hj | hj
    · obtain ⟨h2, hbit, hno⟩ := h.owned j hj
      refine ⟨h2, ?_, hno⟩
      rw [hbit, ite_self]
    · have hclear := hfree j hj.1 hj.2
      refine ⟨?_, if_pos hj, fun s nd hN => h.wf.laid.notMem_of_clear hclear hN⟩
      -- the first two sectors are never free
      have hlow := h.wf.laid.low
      rcases j with - | - | j
      · rw [hlow.1] at hclear
        cases hclear
      · rw [hlow.2] at hclear
        cases hclear
      · omega

/-- Sectors that were owned are released. -/
theorem released {b cnt : ℕ} {B : Buffers} (hown : ∀ j, b ≤ j → j < b + cnt → j ∈ own)
    (hB : Persisted N { k with freeMap := k.freeMap.setMultiple b cnt false } B) :
    MapReady { k with freeMap := k.freeMap.setMultiple b cnt false, buffers := B } N (own \ Finset.Ico b (b + cnt)) made := by
  have hkeep : ∀ j, ¬ (b ≤ j ∧ j < b + cnt) → (k.freeMap.setMultiple b cnt false).bit j = k.freeMap.bit j := fun j hj => if_neg hj
  have hlow : ∀ j < 2, ¬ (b ≤ j ∧ j < b + cnt) := fun j hj hin => by
    have := (h.owned j (hown j hin.1 hin.2)).1
    omega
  have hw : Wf { k with freeMap := k.freeMap.setMultiple b cnt false } N 0 := by
    refine ⟨h.wf.cache, h.wf.laid.of_map rfl ⟨?_, ?_⟩ fun s nd hN j hj hbit => ?_, h.wf.opened⟩
    · rw [hkeep 0 (hlow 0 (by decide))]
      exact h.wf.laid.low.1
    · rw [hkeep 1 (hlow 1 (by decide))]
      exact h.wf.laid.low.2
    · rw [hkeep j fun hin => (h.owned j (hown j hin.1 hin.2)).2.2 s nd hN hj]
      exact hbit
  refine h.persisted rfl hw (fun j hj => ?_) (fun j hj => ?_) hB
  · simp only [Bitmap.setMultiple] at hj ⊢
    split_ifs at hj with hin
    exact h.bound j hj
  · rw [Finset.mem_sdiff, Finset.mem_Ico] at hj
    obtain ⟨h2, hbit, hno⟩ := h.owned j hj.1
    exact ⟨h2, by rw [hkeep j hj.2]; exact hbit, hno⟩

/-- A file other than the free map's comes or changes. -/
theorem edited {new : List ℕ} {own' made' : Finset ℕ} (he : Edited k N s nd new nd' k') (hs : s ≠ 0)
    (hown : ∀ b ∈ own', b ∈ own ∧ b ∉ s :: nd.blocks) (hmade : ∀ t ∈ made', t = s ∨ t ∈ made) :
    MapReady k' (Function.update N s (some nd')) own' made' := by
  have hother : ∀ t nd₁, Function.update N s (some nd') t = some nd₁ → t = s ∧ nd₁ = nd' ∨ N t = some nd₁ := by
    intro t nd₁ ht
    by_cases hts : t = s
    · subst hts
      rw [Function.update_self] at ht
      exact .inl ⟨rfl, (Option.some.inj ht).symm⟩
    · rw [Function.update_of_ne hts] at ht
      exact .inr ht
  refine ⟨he.wf, ?_, he.sync hs h.freeMapFile_ne h.sync, fun b hb => ?_, fun j hj => ?_, fun a i hi hrem => ?_, fun b hb => ?_,
    fun t ht => ?_⟩
  · obtain ⟨f, j, nd₀, hf, hj, hsec, hdeny, hN₀, hle⟩ := h.mapOpen.steady he.steady he.bitCnt
    exact ⟨f, j, nd₀, hf, hj, hsec, hdeny, by rw [Function.update_of_ne (Ne.symm hs)]; exact hN₀, hle⟩
  · rw [mapBlocks, Function.update_of_ne (Ne.symm hs)] at hb
    rw [he.capacity]
    exact h.clear b hb
  · rw [he.bits, Bool.or_eq_true, decide_eq_true_eq] at hj
    rw [he.bitCnt]
    rcases hj with hj | hj
    · exact h.bound j hj
    · rw [h.wf.laid.size]
      exact (he.fresh j hj).1
  · have hcell := he.steady.inodes a
    rw [hi] at hcell
    obtain ⟨i', hi', heq⟩ := Option.map_eq_some_iff.1 hcell.symm
    simp only [Inode.handle, Prod.mk.injEq] at heq
    rw [← heq.1]
    exact h.kept a i' hi' (heq.2.2.1.trans hrem)
  · obtain ⟨hmem, hnot⟩ := hown b hb
    obtain ⟨h2, hbit, hno⟩ := h.owned b hmem
    refine ⟨h2, by rw [he.bits, hbit, Bool.true_or], fun t nd₁ ht => ?_⟩
    rcases hother t nd₁ ht with ⟨rfl, rfl⟩ | ht
    · -- the sectors that the file took were free
      rw [he.blocks, List.mem_cons, List.mem_append]
      rintro (rfl | hold | hnew)
      · exact hnot List.mem_cons_self
      · exact hnot (List.mem_cons_of_mem _ hold)
      · have := (he.fresh b hnew).2
        rw [hbit] at this
        cases this
    · exact hno t nd₁ ht
  · by_cases hts : t = s
    · exact ⟨nd', by rw [hts, Function.update_self]⟩
    · obtain ⟨nd₁, hN₁⟩ := h.known t ((hmade t ht).resolve_left hts)
      exact ⟨nd₁, by rw [Function.update_of_ne hts]; exact hN₁⟩

/-- An inode is opened. -/
theorem opens (ho : Opens k s a k') (hN : N s = some nd) : MapReady k' N own made := by
  have hcap : k'.buffers.disk.capacity = k.buffers.disk.capacity := (ho.keeps h.wf).capacity
  refine ⟨ho.wf h.wf hN, ho.mapOpen h.mapOpen, ho.mapSync h.wf h.sync, fun b hb => by rw [hcap]; exact h.clear b hb,
    by rw [ho.freeMap]; exact h.bound, fun b i hi hrem => ?_, by rw [ho.freeMap]; exact h.owned, h.known⟩
  by_cases hb : b = a
  · subst hb
    obtain ⟨i', hi', -, hcase⟩ := ho.cell_self
    rw [hi] at hi'
    cases hi'
    rcases hcase with ⟨j, hj, rfl⟩ | ⟨-, -, hnot, -⟩
    · exact h.kept b j hj hrem
    · rw [hnot] at hrem
      cases hrem
  · rw [ho.cell_of_ne hb] at hi
    exact h.kept b i hi hrem

/-- An inode other than the free map's is closed. -/
theorem closes {N' : Nodes} (hc : Closes k N a i k' N') (hi : k.inodes.cell a = some i) (hs : i.sector ≠ 0) :
    MapReady k' N' own (if i.openCnt = 1 ∧ i.removed then made.erase i.sector else made) := by
  have h0 : i.sector = 0 → i.openCnt ≠ 1 := fun h => absurd h hs
  have hnode : ∀ t nd, N' t = some nd → N t = some nd := by
    intro t nd ht
    rw [hc.nodes] at ht
    split_ifs at ht
    exact ht
  have hbits : ∀ j, k'.freeMap.bit j = true → k.freeMap.bit j = true := by
    intro j hj
    cases hc with
    | more => exact hj
    | last => exact hj
    | removed _ _ _ hM _ =>
      change _ = true at hj
      rw [hM.bit, Bool.and_eq_true] at hj
      exact hj.1
  refine ⟨hc.wf h.wf h.mapOpen hi (h.kept a i hi), hc.mapOpen h.mapOpen hi h0, hc.mapSync h.sync h0, fun b hb => ?_,
    fun j hj => by rw [hc.bitCnt]; exact h.bound j (hbits j hj), fun b j hj hrem => ?_, fun b hb => ?_, fun t ht => ?_⟩
  · obtain ⟨nd₀, hN₀, hmem⟩ := mem_mapBlocks hb
    rw [hc.capacity]
    exact h.clear b (by rw [mapBlocks_eq (hnode 0 nd₀ hN₀)]; exact hmem)
  · by_cases hb : b = a
    · subst hb
      rw [hc.cell_self hi] at hj
      split_ifs at hj
      cases hj
      exact h.kept b i hi hrem
    · rw [hc.cell_of_ne hb] at hj
      exact h.kept b j hj hrem
  · obtain ⟨h2, hbit, hno⟩ := h.owned b hb
    refine ⟨h2, ?_, fun t nd ht => hno t nd (hnode t nd ht)⟩
    cases hc with
    | more => exact hbit
    | last => exact hbit
    | removed _ _ hN hM _ =>
      rw [hM.bit, hbit, decide_eq_true (hno _ _ hN)]
      rfl
  · rw [hc.nodes]
    split_ifs at ht with hgone
    · obtain ⟨hne, hmem⟩ := Finset.mem_erase.1 ht
      rw [if_neg fun hg => hne hg.1]
      exact h.known t hmem
    · rw [if_neg fun hg => hgone hg.2]
      exact h.known t ht

/-- An inode is marked as removed. -/
theorem removes (hi : k.inodes.cell a = some i) (hs : 2 ≤ i.sector) :
    MapReady { k with inodes := k.inodes.set a fun i => { i with removed := true } } N own made := by
  refine ⟨h.wf.set a fun _ => ⟨rfl, rfl⟩, ?_, h.sync, h.clear, h.bound, fun b j hj hrem => ?_, h.owned, h.known⟩
  · obtain ⟨f, j, nd₀, hf, hj, hsec, hdeny, hN₀, hle⟩ := h.mapOpen
    have hne : f.inode ≠ a := by
      rintro rfl
      rw [hi] at hj
      cases hj
      omega
    exact ⟨f, j, nd₀, hf, by rw [Heap.cell_set_of_ne _ _ hne]; exact hj, hsec, hdeny, hN₀, hle⟩
  · by_cases hb : b = a
    · subst hb
      rw [Heap.cell_set_self, hi] at hj
      cases hj
      exact hs
    · rw [Heap.cell_set_of_ne _ _ hb] at hj
      exact h.kept b j hj hrem

/-- Sectors are read. -/
theorem reads (hr : k.Reads k') : MapReady k' N own made := by
  obtain ⟨B, hB, rfl⟩ := id hr
  refine ⟨hr.wf h.wf, h.mapOpen, fun nd hN j hj => ?_, fun b hb => ?_, h.bound, h.kept, h.owned, h.known⟩
  · rw [byteAt_keeps hB]
    exact h.sync nd hN j hj
  · change b + 1 < B.disk.capacity
    rw [hB.capacity]
    exact h.clear b hb

end MapReady

theorem MapOnly.ready {n : ℤ} (h : MapOnly k N n) (hf : OneFile k) (hmade : ∀ s ∈ made, ∃ nd, N s = some nd) :
    MapReady k N ∅ made := by
  refine ⟨h.wf, h.mapOpen hf, h.sync, h.clear, h.bound, fun a i hi hrem => ?_, by simp, hmade⟩
  obtain ⟨j, hj, -, -, hnot, -⟩ := h.inode
  rw [h.only a i hi, hj] at hi
  cases hi
  rw [hnot] at hrem
  cases hrem

/-! ### A restart -/

/-- The inode in sector `s` of the disk holds the sectors of its file itself. -/
def Disk.Direct (d : Disk) (s : ℕ) : Prop := bytesToSectors (InodeDisk.decode (d.sectors s)).length ≤ directPointers

instance (d : Disk) : DecidablePred d.Direct := fun _ => inferInstanceAs (Decidable (_ ≤ _))

/-- Closing the free map's file leaves the disk alone. -/
theorem closeMap_buffers (hi : k.inodes.cell a = some i) (hdeny : i.denyWriteCnt = 0) (hrem : i.removed = false) {p : ℕ}
    {f : File} (hf : k.files.cell p = some f) (ha : f.inode = a) :
    wp (fileClose p) (fun _ k' => k'.buffers = k.buffers) (fun _ => True) k := by
  subst ha
  have hclose : ∀ k' : Fs, k'.inodes = k.inodes → k'.buffers = k.buffers →
      wp (inodeClose f.inode >>= fun _ => modify fun k => { k with files := k.files.free p })
        (fun _ k' => k'.buffers = k.buffers) (fun _ => True) k' := by
    intro k' hI hB
    have hi' : k'.inodes.cell f.inode = some i := by rw [hI]; exact hi
    rw [wp_bind]
    by_cases hcnt : i.openCnt = 1
    · refine wp_mono (inodeClose_last hi' hcnt hrem) ?_ fun _ _ => trivial
      rintro - _ rfl
      exact hB
    · refine wp_mono (inodeClose_more hi' hcnt) ?_ fun _ _ => trivial
      rintro - _ rfl
      exact hB
  rw [fileClose, wp_onlyIf]
  refine ⟨fun _ => ?_, fun h0 => absurd h0 (not_not.2 (k.files.ne_null hf))⟩
  rw [wp_bind, fileAllowWrite, wp_bind]
  refine wp_fileAt hf ?_
  rw [wp_onlyIf]
  refine ⟨fun _ => ?_, fun _ => ?_⟩
  · -- a count of zero cannot be decreased
    rw [wp_bind, updateFile, wp_modify, inodeAllowWrite, wp_bind]
    refine wp_inodeAt hi ?_
    rw [hdeny, if_neg fun hlt => absurd hlt.1 (lt_irrefl 0), wp_stop]
    trivial
  · rw [wp_bind]
    refine wp_fileAt hf ?_
    exact hclose k rfl rfl

/-- **`filesys_done`** leaves on the disk what was in the cache. -/
theorem filesysDone_disk (h : MapReady k N own made) :
    wp filesysDone (fun _ k' => k'.buffers.disk.capacity = k.buffers.disk.capacity ∧
      ∀ s, k'.buffers.disk.sectors s = k.buffers.content s) (fun _ => True) k := by
  obtain ⟨f, i, nd, hf, hi, hsec, hdeny, -⟩ := h.mapOpen
  have hrem : i.removed = false := by
    cases hrem : i.removed with
    | false => rfl
    | true =>
      have := h.kept _ i hi hrem
      omega
  rw [filesysDone, wp_bind, cached, wp_within]
  refine wp_post (bufferCacheWriteDirtiesOnce_spec h.wf.cache) ?_
  rintro - B ⟨hB, hsectors⟩
  rw [freeMapClose, wp_bind, wp_gets]
  have hclose : wp (fileClose k.freeMapFile) (fun _ k' => k'.buffers = B) (fun _ => True) { k with buffers := B } :=
    closeMap_buffers (k := { k with buffers := B }) hi hdeny hrem hf rfl
  refine wp_post hclose ?_
  intro _ k' hk'
  rw [hk']
  exact ⟨hB.capacity, hsectors⟩

/-- The files of `N` that a disk keeps. -/
def Nodes.on (N : Nodes) (l : Finset ℕ) : Nodes := fun s => if s ∈ l then N s else none

theorem Nodes.on_eq_some {l : Finset ℕ} (h : N.on l s = some nd) : s ∈ l ∧ N s = some nd := by
  unfold Nodes.on at h
  split_ifs at h with hs
  exact ⟨hs, h⟩

/-- The files that hold their sectors themselves are still there when all else in memory is lost. -/
theorem Laid.restart {d : Disk} {l : Finset ℕ} (h : Laid k.buffers k.tables k.freeMap N)
    (hcap : d.capacity = k.buffers.disk.capacity) (hd : ∀ s, d.sectors s = k.buffers.content s) (hl : ∀ s ∈ l, d.Direct s) :
    Laid (Buffers.init d) .empty k.freeMap (N.on l) := by
  have hcontent : ∀ s, (Buffers.init d).content s = k.buffers.content s := hd
  have hof := fun s nd (hN : N.on l s = some nd) => (Nodes.on_eq_some hN).2
  refine ⟨fun s nd hN => ?_, fun s nd hN b hb => ?_, fun s nd hN => h.two_le s nd (hof s nd hN),
    fun s nd hN => h.nodup s nd (hof s nd hN), fun s nd t nd' hN hN' => h.disjoint s nd t nd' (hof s nd hN) (hof t nd' hN'),
    fun s nd t nd' hN hN' => h.tables s nd t nd' (hof s nd hN) (hof t nd' hN'), fun s nd hN j hj hlt => ?_, h.low,
    h.size.trans hcap.symm⟩
  · obtain ⟨hs, hN⟩ := Nodes.on_eq_some hN
    have hk := h.disk s nd hN
    have hdirect : nd.blocks.length ≤ 122 := by
      have := hl s hs
      rw [Disk.Direct, hd, hk.bytesToSectors] at this
      exact this
    rw [hcontent]
    exact ⟨⟨hk.fits, hk.length, hk.isdir, hk.card, hk.short, hk.direct, fun hlong => absurd hdirect (by omega)⟩, hk.table,
      hk.small⟩
  · have := h.marked s nd (hof s nd hN) b hb
    exact ⟨by change b < d.capacity; rw [hcap]; exact this.1, this.2⟩
  · unfold byteAt
    rw [hcontent]
    exact h.tail s nd (hof s nd hN) j hj hlt

/-- `free_map_file = file_open (inode_open (FREE_MAP_SECTOR))` with nothing in memory. -/
theorem openFreeMapFile_boot {d : Disk} {M : Bitmap} (hcap : 0 < d.capacity) :
    wp openFreeMapFile
      (fun _ k' => ∃ B, Buffers.Keeps (Buffers.init d) B ∧ k' = ({ Fs.boot d with freeMap := M }.load 0 B).mapFile 1)
      (fun _ => False) { Fs.boot d with freeMap := M } := by
  obtain ⟨k, hk⟩ : ∃ k : Fs, k = { Fs.boot d with freeMap := M } := ⟨_, rfl⟩
  have hnil : k.openInodes = [] := by rw [hk]; rfl
  have hnext : k.inodes.next = 1 := by rw [hk]; rfl
  have hbuf : k.buffers = Buffers.init d := by rw [hk]; rfl
  rw [← hk, openFreeMapFile, wp_bind, inodeOpen, wp_bind, wp_gets, hnil, List.find?_nil, wp_bind, wp_gets, wp_bind, wp_modify,
    wp_bind, cached, wp_within]
  refine wp_post (bufferCacheRead_spec (by rw [hbuf]; exact Buffers.wf_init d) fun hn => absurd (by rw [hbuf]; exact hcap) hn) ?_
  rintro b B ⟨rfl, hB⟩
  have hrest : ∀ k₁ : Fs, k₁ = k.load 0 B →
      wp (fileOpen 1 >>= fun p => do
          modify fun k => { k with freeMapFile := p }
          if p = 0 then stop .formatFailed else pure ())
        (fun _ k' => ∃ B, Buffers.Keeps (Buffers.init d) B ∧ k' = (k.load 0 B).mapFile 1) (fun _ => False) k₁ := by
    rintro k₁ rfl
    have hi : (k.load 0 B).inodes.cell 1 = some ⟨0, 1, false, 0, InodeDisk.decode (k.buffers.content 0)⟩ := by
      rw [Fs.load, ← hnext]
      exact k.inodes.cell_alloc_self _
    rw [wp_bind]
    refine wp_post (fileOpen_spec hi) ?_
    rintro p k₂ ⟨rfl, rfl⟩
    rw [wp_bind, wp_modify, if_neg (k.load 0 B).files.pos.ne', wp_pure]
    exact ⟨B, by rw [← hbuf]; exact hB, rfl⟩
  rw [wp_bind, updateInode, wp_modify, wp_pure, hnext]
  refine hrest _ ?_
  rw [Fs.load, hnil, ← hnext, Heap.set_alloc]

/-- **`filesys_init (false)`** after `filesys_done`: the free map is the one that was there before. -/
theorem MapReady.restart {d : Disk} (h : MapReady k N own made) (hcap : d.capacity = k.buffers.disk.capacity)
    (hd : ∀ s, d.sectors s = k.buffers.content s) (h0 : 0 ∈ made) (hdirect : d.Direct 0) :
    wp (filesysInit false) (fun _ k' => k'.freeMap = k.freeMap ∧
      MapReady k' (N.on (made.filter d.Direct)) ∅ (made.filter d.Direct)) (fun _ => False) (Fs.boot d) := by
  obtain ⟨nd, hN⟩ := h.known 0 h0
  have hmem : 0 ∈ made.filter d.Direct := Finset.mem_filter.2 ⟨h0, hdirect⟩
  have hN' : N.on (made.filter d.Direct) 0 = some nd := by rw [Nodes.on, if_pos hmem]; exact hN
  have hpos : 0 < d.capacity := by
    rw [hcap]
    exact (h.wf.laid.marked 0 nd hN 0 List.mem_cons_self).1
  have hlaid := h.wf.laid.restart (l := made.filter d.Direct) hcap hd fun s hs => (Finset.mem_filter.1 hs).2
  -- the state once the file is open, with the map that is in it
  have hready : ∀ B, Buffers.Keeps (Buffers.init d) B →
      MapReady (({ Fs.boot d with freeMap := k.freeMap }.load 0 B).mapFile 1) (N.on (made.filter d.Direct)) ∅
        (made.filter d.Direct) := by
    intro B hB
    obtain ⟨k₀, hk₀⟩ : ∃ k₀ : Fs, k₀ = { Fs.boot d with freeMap := k.freeMap } := ⟨_, rfl⟩
    have hnone : ∀ b, k₀.inodes.cell b = none := fun b => by rw [hk₀]; rfl
    have hnext : k₀.inodes.next = 1 := by rw [hk₀]; rfl
    have hbuf : k₀.buffers = Buffers.init d := by rw [hk₀]; rfl
    have hfiles : ∀ p, k₀.files.cell p = none := fun p => by rw [hk₀]; rfl
    have hmap : k₀.freeMap = k.freeMap := by rw [hk₀]
    have hw₀ : Wf k₀ (N.on (made.filter d.Direct)) 0 := by
      rw [hk₀]
      exact ⟨Buffers.wf_init d, hlaid, by rintro _ _ ⟨⟩, by rintro _ ⟨⟩, List.nodup_nil, by rintro _ _ _ _ ⟨⟩, by rintro _ _ ⟨⟩,
        by rintro _ _ ⟨⟩⟩
    rw [← hk₀]
    rw [← hbuf] at hB
    have hw := (Wf.load hw₀ hN' hB (fun b i hi => by rw [hnone] at hi; cases hi) (f := ⟨0, 1, false, 0, _⟩) rfl rfl).openers 1 1
    have hcell : ((k₀.load 0 B).mapFile 1).inodes.cell 1 =
        some ⟨0, 2, false, 0, InodeDisk.decode (k₀.buffers.content 0)⟩ := by
      change ((k₀.inodes.alloc _).set 1 _).cell 1 = _
      rw [Heap.cell_set_self, ← hnext, Heap.cell_alloc_self]
      rfl
    have hfile : OneFile ((k₀.load 0 B).mapFile 1) := oneFile_mapFile hfiles
    have hcontent : ∀ s, B.content s = k.buffers.content s := fun s => by
      rw [hB.content, hbuf]
      exact hd s
    refine ⟨⟨hw.cache, hw.laid, hw.opened⟩, ⟨_, _, nd, hfile.open_file, hcell, rfl, rfl, hN', ?_⟩, fun nd' h' j hj => ?_, fun b hb => ?_,
      fun j hj => ?_, fun b i hi hrem => ?_, by simp, fun s hs => ?_⟩
    · change k₀.freeMap.fileSize ≤ nd.length
      rw [hmap]
      exact h.mapOpen.fileSize_le hN
    · change byteAt B nd' j = k₀.freeMap.bytes j
      change j < k₀.freeMap.fileSize at hj
      rw [hmap] at hj ⊢
      unfold byteAt
      rw [hcontent]
      exact h.sync nd' (Nodes.on_eq_some h').2 j hj
    · change b + 1 < B.disk.capacity
      rw [hB.capacity, hbuf]
      change b + 1 < d.capacity
      rw [mapBlocks_eq hN'] at hb
      rw [hcap]
      exact h.clear b (by rw [mapBlocks_eq hN]; exact hb)
    · change k₀.freeMap.bit j = true at hj
      change j < k₀.freeMap.bitCnt
      rw [hmap] at hj ⊢
      exact h.bound j hj
    · -- the inode just read is not removed, and there is no other
      by_cases hb : b = 1
      · rw [hb, hcell] at hi
        cases hi
        cases hrem
      · change ((k₀.inodes.alloc _).set 1 _).cell b = _ at hi
        rw [Heap.cell_set_of_ne _ _ hb, Heap.cell_alloc_of_ne _ _ (by rw [hnext]; exact hb), hnone] at hi
        cases hi
    · obtain ⟨nd', hs'⟩ := h.known s (Finset.mem_filter.1 hs).1
      exact ⟨nd', by rw [Nodes.on, if_pos hs]; exact hs'⟩
  rw [filesysInit, wp_bind, freeMapInit, wp_modify, wp_bind, onlyIf, if_neg (by decide), wp_pure, freeMapOpen, wp_bind]
  refine wp_post (openFreeMapFile_boot hpos) ?_
  rintro - k₁ ⟨B, hB, rfl⟩
  have hr := hready B hB
  rw [wp_bind]
  have hread : wp bitmapRead _ _ (({ Fs.boot d with freeMap := _ }.load 0 B).mapFile 1) :=
    bitmapRead_spec (M := ((Bitmap.create d.capacity).mark 0).mark 1) hr.wf hr.mapOpen hr.sync hr.bound ?_
  · refine wp_mono hread ?_ fun _ he => he.1 hr.clear
    rintro ok k' ⟨rfl, hk'⟩
    rw [if_pos rfl, wp_pure]
    refine ⟨?_, hr.reads hk'⟩
    obtain ⟨B', -, rfl⟩ := hk'
    rfl
  · change d.capacity = k.freeMap.bitCnt
    rw [h.wf.laid.size, hcap]

/-! ### Runs -/

/-- **What a run leads to** from `free_map_create` or `free_map_open` on, with the sectors `own` in the hands
of the caller and the inodes of the files in the sectors `made`. -/
inductive Serving : Fs → Finset ℕ → Finset ℕ → Prop
  /-- `free_map_create` on a disk of any contents. -/
  | create {d : Disk} {k : Fs} : freeMapCreate (Fs.blank d) = .ok ((), k) → Serving k ∅ {0}
  /-- `free_map_open` after `do_format`. -/
  | format {d : Disk} {k : Fs} : filesysInit true (Fs.boot d) = .ok ((), k) → Serving k ∅ {0, 1}
  /-- `free_map_open` on a disk that was shut down, where the file has at most 122 sectors. -/
  | restart {k k₁ k₂ : Fs} {own made : Finset ℕ} : Serving k own made → filesysDone k = .ok ((), k₁) →
      k₁.buffers.disk.Direct 0 → filesysInit false (Fs.boot k₁.buffers.disk) = .ok ((), k₂) →
      Serving k₂ ∅ (made.filter k₁.buffers.disk.Direct)
  /-- `free_map_allocate`, which succeeds. -/
  | allocate {k k' : Fs} {own made : Finset ℕ} {cnt b : ℕ} : Serving k own made →
      freeMapAllocate persistFreeMap cnt k = .ok (some b, k') → Serving k' (own ∪ Finset.Ico b (b + cnt)) made
  /-- `free_map_allocate`, which fails. -/
  | refuse {k k' : Fs} {own made : Finset ℕ} {cnt : ℕ} : Serving k own made →
      freeMapAllocate persistFreeMap cnt k = .ok (none, k') → Serving k' own made
  /-- `free_map_release` of sectors of the caller. -/
  | release {k k' : Fs} {own made : Finset ℕ} {b cnt : ℕ} : Serving k own made → (∀ j, b ≤ j → j < b + cnt → j ∈ own) →
      freeMapRelease persistFreeMap b cnt k = .ok ((), k') → Serving k' (own \ Finset.Ico b (b + cnt)) made
  /-- `inode_create` in a sector of the caller, with all that growing the inode allocates. -/
  | createInode {k k' : Fs} {own made : Finset ℕ} {s : ℕ} {length : ℤ} {isdir ok : Bool} : Serving k own made → s ∈ own →
      length < 2 ^ 31 → inodeCreate s length isdir k = .ok (ok, k') → Serving k' (own.erase s) (insert s made)
  /-- `inode_open`. -/
  | openInode {k k' : Fs} {own made : Finset ℕ} {s a : ℕ} : Serving k own made → s ∈ made → inodeOpen s k = .ok (a, k') →
      Serving k' own made
  /-- `inode_write_at`, with all that growing the inode allocates. -/
  | write {k k' : Fs} {own made : Finset ℕ} {a off n : ℕ} {i : Inode} {buf : ℕ → UInt8} {size : ℤ} : Serving k own made →
      k.inodes.cell a = some i → i.sector ≠ 0 → size < 2 ^ 31 → off < 2 ^ 31 →
      inodeWriteAt persistFreeMap a buf size off k = .ok (n, k') → Serving k' own made
  /-- `inode_remove`. -/
  | remove {k k' : Fs} {own made : Finset ℕ} {a : ℕ} {i : Inode} : Serving k own made → k.inodes.cell a = some i →
      2 ≤ i.sector → inodeRemove a k = .ok ((), k') → Serving k' own made
  /-- `inode_close`, with all that it releases. -/
  | close {k k' : Fs} {own made : Finset ℕ} {a : ℕ} {i : Inode} : Serving k own made → k.inodes.cell a = some i →
      i.sector ≠ 0 → inodeClose a k = .ok ((), k') →
      Serving k' own (if i.openCnt = 1 ∧ i.removed then made.erase i.sector else made)

/-- The invariant holds along every run; the free map's file is one of the files. -/
theorem Serving.ready (h : Serving k own made) : 0 ∈ made ∧ ∃ N, MapReady k N own made := by
  induction h with
  | @create d k hrun =>
    obtain ⟨N, hmap, hfile, -⟩ := wp_of_ok (freeMapCreate_spec d) hrun
    refine ⟨Finset.mem_singleton_self 0, N, hmap.ready hfile fun s hs => ?_⟩
    rw [Finset.mem_singleton.1 hs]
    exact hmap.node
  | @format d k hrun =>
    obtain ⟨N, hf⟩ := wp_of_ok (filesysInit_format d) hrun
    refine ⟨Finset.mem_insert_self 0 _, N, hf.map.ready hf.file fun s hs => ?_⟩
    rcases Finset.mem_insert.1 hs with rfl | hs
    · exact hf.map.node
    · obtain ⟨nd, hN, -⟩ := hf.root
      exact ⟨nd, by rw [Finset.mem_singleton.1 hs]; exact hN⟩
  | restart _ hdone hdirect hinit ih =>
    obtain ⟨h0, N, hr⟩ := ih
    obtain ⟨hcap, hd⟩ := wp_of_ok (filesysDone_disk hr) hdone
    exact ⟨Finset.mem_filter.2 ⟨h0, hdirect⟩, _, (wp_of_ok (hr.restart hcap hd h0 hdirect) hinit).2⟩
  | @allocate k k' own made cnt b _ hrun ih =>
    obtain ⟨h0, N, hr⟩ := ih
    rcases wp_of_ok (freeMapAllocate_run hr.wf hr.mapOpen hr.clear cnt) hrun with ⟨b', B, hb, hle, hfree, hB, rfl⟩ | ⟨hb, -⟩
    · cases hb
      exact ⟨h0, N, hr.allocated hle hfree hB⟩
    · cases hb
  | @refuse k k' own made cnt _ hrun ih =>
    obtain ⟨h0, N, hr⟩ := ih
    rcases wp_of_ok (freeMapAllocate_run hr.wf hr.mapOpen hr.clear cnt) hrun with ⟨b', B, hb, -⟩ | ⟨-, rfl⟩
    · cases hb
    · exact ⟨h0, N, hr⟩
  | @release k k' own made b cnt _ hown hrun ih =>
    obtain ⟨h0, N, hr⟩ := ih
    have hlong : wp (freeMapRelease persistFreeMap b cnt) (fun _ _ => b + cnt ≤ k.freeMap.bitCnt) (fun _ => True) k := by
      rw [freeMapRelease, wp_bind, wp_gets, wp_ite]
      exact ⟨fun hle => wp_post wp_true fun _ _ _ => hle, fun _ => trivial⟩
    have hspec := freeMapRelease_run hr.wf hr.mapOpen hr.clear (wp_of_ok hlong hrun)
      fun j h1 h2 => (hr.owned j (hown j h1 h2)).2.1
    obtain ⟨B, hB, rfl⟩ := wp_of_ok hspec hrun
    exact ⟨h0, N, hr.released hown hB⟩
  | @createInode k k' own made s length isdir ok _ hs hlen hrun ih =>
    obtain ⟨h0, N, hr⟩ := ih
    obtain ⟨h2, hbit, hno⟩ := hr.owned s hs
    have hroom : Laid.Room k.buffers k.freeMap N s (.empty isdir) := by
      refine ⟨fun b hb => ?_, by rintro _ ⟨⟩, by simp [Node.empty], fun t nd hN _ b hb => ?_, fun _ _ _ _ hz => absurd rfl hz⟩
      · rw [List.mem_singleton.1 hb, ← hr.wf.laid.size]
        exact ⟨hr.bound s hbit, hbit⟩
      · rw [List.mem_singleton.1 hb]
        exact hno t nd hN
    obtain ⟨-, -, new, nd, hc⟩ := wp_of_ok (inodeCreate_spec hr.wf (fun _ => hr.mapOpen) (hr.node_of_owned hs) hroom hlen) hrun
    refine ⟨Finset.mem_insert_of_mem h0, _, hr.edited hc.edited (by omega) (fun b hb => ?_) fun t ht => Finset.mem_insert.1 ht⟩
    obtain ⟨hne, hmem⟩ := Finset.mem_erase.1 hb
    exact ⟨hmem, by simpa [Node.empty] using hne⟩
  | openInode _ hs hrun ih =>
    obtain ⟨h0, N, hr⟩ := ih
    obtain ⟨nd, hN⟩ := hr.known _ hs
    exact ⟨h0, N, hr.opens (wp_of_ok (inodeOpen_opens hr.wf hN) hrun) hN⟩
  | write _ hi hs hsize hoff hrun ih =>
    obtain ⟨h0, N, hr⟩ := ih
    obtain ⟨nd, hN, -⟩ := hr.wf.opened.node _ _ hi
    obtain ⟨new, nd', he, -⟩ := inodeWriteAt_result hr.wf hr.mapOpen hi hN hs hsize hoff hrun
    exact ⟨h0, _, hr.edited he hs (fun b hb => ⟨hb, (hr.owned b hb).2.2 _ nd hN⟩) fun t ht => .inr ht⟩
  | @remove k k' own made a i _ hi hs hrun ih =>
    obtain ⟨h0, N, hr⟩ := ih
    have hspec : wp (inodeRemove a) (fun _ k' => MapReady k' N own made) (fun _ => True) k := by
      rw [inodeRemove, wp_bind]
      refine wp_inodeAt hi ?_
      rw [updateInode, wp_modify]
      exact hr.removes hi hs
    exact ⟨h0, N, wp_of_ok hspec hrun⟩
  | close _ hi hs hrun ih =>
    obtain ⟨h0, N, hr⟩ := ih
    obtain ⟨N', hc⟩ := wp_of_ok (inodeClose_closes hr.wf hr.mapOpen hi (hr.kept _ _ hi)) hrun
    refine ⟨?_, N', hr.closes hc hi hs⟩
    split_ifs
    · exact Finset.mem_erase.2 ⟨Ne.symm hs, h0⟩
    · exact h0

/-- **The stored free map never lags the one in memory.** Wherever a run has led to, reading the file into a
new bitmap gives the free map, and a `free_map_allocate` returns, with nothing changed if it fails. -/
theorem free_map_never_lags (h : Serving k own made) :
    (∃ k', bitmapRead { k with freeMap := .create k.freeMap.bitCnt } = .ok (true, k') ∧ k'.freeMap = k.freeMap) ∧
      ∀ cnt, ∃ o k', freeMapAllocate persistFreeMap cnt k = .ok (o, k') ∧ (o = none → k' = k) := by
  obtain ⟨-, N, hr⟩ := h.ready
  refine ⟨?_, fun cnt => ?_⟩
  · have hread : wp bitmapRead (fun ok k' => ok = true ∧ k.Reads k') (fun _ => False)
        { k with freeMap := .create k.freeMap.bitCnt } :=
      wp_mono (bitmapRead_spec hr.wf hr.mapOpen hr.sync hr.bound rfl) (fun _ _ hk => hk) fun _ he => he.1 hr.clear
    obtain ⟨ok, k', hrun, rfl, B, -, rfl⟩ := exists_ok hread
    exact ⟨_, hrun, rfl⟩
  · obtain ⟨o, k', hrun, hcase⟩ := exists_ok (freeMapAllocate_run hr.wf hr.mapOpen hr.clear cnt)
    refine ⟨o, k', hrun, fun ho => ?_⟩
    rcases hcase with ⟨b, B, hb, -⟩ | ⟨-, rfl⟩
    · rw [ho] at hb
      cases hb
    · rfl

/-- On a disk of sixteen sectors, where sector `3` was allocated. -/
theorem free_map_never_lags_sixteen : ∃ k, Serving k (∅ ∪ Finset.Ico 3 4) {0} ∧
    ∃ k', bitmapRead { k with freeMap := .create k.freeMap.bitCnt } = .ok (true, k') ∧ k'.freeMap = k.freeMap := by
  have hrun : freeMapCreate.returns
      (fun _ k => (freeMapAllocate persistFreeMap 1).returns (fun o _ => o == some 3) k)
      (Fs.blank (Disk.blank 16 (by decide))) = true := by decide +kernel
  obtain ⟨⟨⟩, k, hcreate, hnext⟩ := exists_of_returns hrun
  obtain ⟨o, k', halloc, ho⟩ := exists_of_returns hnext
  rw [eq_of_beq ho] at halloc
  have h : Serving k' (∅ ∪ Finset.Ico 3 4) {0} := .allocate (.create hcreate) halloc
  exact ⟨k', h, (free_map_never_lags h).1⟩

end Pintos
