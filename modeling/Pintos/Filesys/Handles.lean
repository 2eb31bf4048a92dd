import Pintos.Filesys.HandleSpec

/-!
# Inodes in memory

What `inode_open` and `inode_close` do, as relations between the file system
before and after: `Opens` and `Closes`. Both leave the bytes of every file as
they are; closing an inode that was removed forgets a file.
-/

namespace Pintos

open Library Library.Prog

variable {k k' : Fs} {N N' : Nodes} {s a : ℕ} {i : Inode} {nd : Node}

/-! ### Opening -/

/-- **`inode_open`** of sector `s` returned `a`. -/
inductive Opens (k : Fs) (s : ℕ) : ℕ → Fs → Prop
  /-- The inode was in memory. -/
  | found {a : ℕ} {i : Inode} : k.inodes.cell a = some i → i.sector = s → Opens k s a (k.openers a 1)
  /-- The inode was read from its sector. -/
  | loaded {B : Buffers} : (∀ b i, k.inodes.cell b = some i → i.sector ≠ s) → Buffers.Keeps k.buffers B →
      Opens k s k.inodes.next (k.load s B)

theorem inodeOpen_opens (hw : Wf k N 0) (hN : N s = some nd) :
    wp (inodeOpen s) (fun a k' => Opens k s a k') (fun _ => False) k := by
  refine wp_post (inodeOpen_spec hw hN) ?_
  rintro a k' (⟨i, hi, hs, rfl⟩ | ⟨hnone, rfl, B, hB, rfl⟩)
  · exact .found hi hs
  · exact .loaded hnone hB

namespace Opens

theorem wf (h : Opens k s a k') (hw : Wf k N 0) (hN : N s = some nd) : Wf k' N 0 := by
  cases h with
  | found hi hs => exact hw.openers _ _
  | loaded hnone hB => exact hw.load hN hB hnone rfl rfl

theorem keeps (h : Opens k s a k') (hw : Wf k N 0) : Buffers.Keeps k.buffers k'.buffers := by
  cases h with
  | found hi hs => exact .refl hw.cache
  | loaded hnone hB => exact hB

theorem files (h : Opens k s a k') : k'.files = k.files := by cases h <;> rfl

theorem dirs (h : Opens k s a k') : k'.dirs = k.dirs := by cases h <;> rfl

theorem currDir (h : Opens k s a k') : k'.currDir = k.currDir := by cases h <;> rfl

theorem freeMap (h : Opens k s a k') : k'.freeMap = k.freeMap := by cases h <;> rfl

theorem freeMapFile (h : Opens k s a k') : k'.freeMapFile = k.freeMapFile := by cases h <;> rfl

theorem tables (h : Opens k s a k') : k'.tables = k.tables := by cases h <;> rfl

theorem cell_of_ne (h : Opens k s a k') {b : ℕ} (hb : b ≠ a) : k'.inodes.cell b = k.inodes.cell b := by
  cases h with
  | found hi hs => exact k.inodes.cell_set_of_ne _ hb
  | loaded hnone hB => exact k.inodes.cell_alloc_of_ne _ hb

/-- The inode was in memory, or it is at a new address. -/
theorem addr (h : Opens k s a k') : (∃ i, k.inodes.cell a = some i) ∨ a = k.inodes.next := by
  cases h with
  | found hi hs => exact .inl ⟨_, hi⟩
  | loaded hnone hB => exact .inr rfl

/-- The inode opened has one more opener than it had. -/
theorem cell_self (h : Opens k s a k') : ∃ i', k'.inodes.cell a = some i' ∧ i'.sector = s ∧
    ((∃ i, k.inodes.cell a = some i ∧ i' = { i with openCnt := i.openCnt + 1 }) ∨
      k.inodes.cell a = none ∧ i'.openCnt = 1 ∧ i'.removed = false ∧ i'.denyWriteCnt = 0) := by
  cases h with
  | @found _ i hi hs =>
    refine ⟨{ i with openCnt := i.openCnt + 1 }, ?_, hs, .inl ⟨i, hi, rfl⟩⟩
    simp [Fs.openers, hi]
  | loaded hnone hB => exact ⟨_, k.inodes.cell_alloc_self _, rfl, .inr ⟨k.inodes.cell_next, rfl, rfl, rfl⟩⟩

/-- An inode that was in memory is still there. -/
theorem cell (h : Opens k s a k') {b : ℕ} {i : Inode} (hi : k.inodes.cell b = some i) :
    k'.inodes.cell b = some { i with openCnt := i.openCnt + if b = a then 1 else 0 } := by
  by_cases hb : b = a
  · subst hb
    obtain ⟨i', hi', -, ⟨j, hj, rfl⟩ | ⟨hnone, -⟩⟩ := h.cell_self
    · rw [hi] at hj
      cases hj
      rw [hi', if_pos rfl]
    · rw [hi] at hnone
      cases hnone
  · rw [h.cell_of_ne hb, hi, if_neg hb, Int.add_zero]

theorem mapOpen (h : Opens k s a k') (hm : MapOpen k N) : MapOpen k' N := by
  obtain ⟨f, j, nd₀, hf, hj, hsec, hdeny, hN₀, hle⟩ := hm
  exact ⟨f, _, nd₀, by rw [h.files, h.freeMapFile]; exact hf, h.cell hj, hsec, hdeny, hN₀, by rw [h.freeMap]; exact hle⟩

theorem mapSync (h : Opens k s a k') (hw : Wf k N 0) (hm : MapSync k N) : MapSync k' N := by
  intro nd₀ hN₀ j hj
  rw [h.freeMap] at hj ⊢
  rw [byteAt_keeps (h.keeps hw)]
  exact hm nd₀ hN₀ j hj

end Opens

/-! ### Closing -/

/-- **`inode_close`** of the inode `i` at `a`. -/
inductive Closes (k : Fs) (N : Nodes) (a : ℕ) (i : Inode) : Fs → Nodes → Prop
  /-- Others have it open. -/
  | more : i.openCnt ≠ 1 → Closes k N a i (k.openers a (-1)) N
  /-- It leaves the memory. -/
  | last : i.openCnt = 1 → i.removed = false → Closes k N a i (k.drop a) N
  /-- It leaves the memory and its sectors are released. -/
  | removed {nd : Node} {M : Bitmap} {B : Buffers} : i.openCnt = 1 → i.removed = true → N i.sector = some nd →
      Cleared k.freeMap (i.sector :: nd.blocks) M → Persisted N { k with freeMap := M } B →
      Closes k N a i { k.drop a with freeMap := M, buffers := B } (Function.update N i.sector none)

theorem inodeClose_closes (hw : Wf k N 0) (hm : MapOpen k N) (hi : k.inodes.cell a = some i)
    (hs : i.removed = true → 2 ≤ i.sector) :
    wp (inodeClose a) (fun _ k' => ∃ N', Closes k N a i k' N') (Unless (MapClear k N)) k := by
  obtain ⟨nd, hN, -⟩ := hw.opened.node a i hi
  by_cases hcnt : i.openCnt = 1
  · cases hrem : i.removed with
    | false =>
      refine wp_mono (inodeClose_last hi hcnt hrem) ?_ fun _ h => h.elim
      rintro - k' rfl
      exact ⟨N, .last hcnt hrem⟩
    | true =>
      refine wp_post (inodeClose_removed hw hm hi hN hcnt hrem (by have := hs hrem; omega)) ?_
      rintro - k' ⟨M, B, hM, hB, rfl⟩
      exact ⟨_, .removed hcnt hrem hN hM hB⟩
  · refine wp_mono (inodeClose_more hi hcnt) ?_ fun _ h => h.elim
    rintro - k' rfl
    exact ⟨N, .more hcnt⟩

namespace Closes

theorem wf (h : Closes k N a i k' N') (hw : Wf k N 0) (hm : MapOpen k N) (hi : k.inodes.cell a = some i)
    (hs : i.removed = true → 2 ≤ i.sector) : Wf k' N' 0 := by
  cases h with
  | more => exact hw.openers _ _
  | last => exact hw.drop _
  | removed hcnt hrem hN hM hB => exact hw.reclaim hm hi hN (hs hrem) hM hB

theorem files (h : Closes k N a i k' N') : k'.files = k.files := by cases h <;> rfl

theorem dirs (h : Closes k N a i k' N') : k'.dirs = k.dirs := by cases h <;> rfl

theorem currDir (h : Closes k N a i k' N') : k'.currDir = k.currDir := by cases h <;> rfl

theorem freeMapFile (h : Closes k N a i k' N') : k'.freeMapFile = k.freeMapFile := by cases h <;> rfl

theorem tables (h : Closes k N a i k' N') : k'.tables = k.tables := by cases h <;> rfl

theorem bitCnt (h : Closes k N a i k' N') : k'.freeMap.bitCnt = k.freeMap.bitCnt := by
  cases h with
  | more => rfl
  | last => rfl
  | removed hcnt hrem hN hM hB => exact hM.bitCnt

theorem capacity (h : Closes k N a i k' N') : k'.buffers.disk.capacity = k.buffers.disk.capacity := by
  cases h with
  | more => rfl
  | last => rfl
  | removed hcnt hrem hN hM hB => exact hB.capacity

theorem next (h : Closes k N a i k' N') : k'.inodes.next = k.inodes.next := by cases h <;> rfl

theorem cell_of_ne (h : Closes k N a i k' N') {b : ℕ} (hb : b ≠ a) : k'.inodes.cell b = k.inodes.cell b := by
  cases h with
  | more => exact k.inodes.cell_set_of_ne _ hb
  | last => exact k.inodes.cell_free_of_ne hb
  | removed => exact k.inodes.cell_free_of_ne hb

theorem cell_self (h : Closes k N a i k' N') (hi : k.inodes.cell a = some i) :
    k'.inodes.cell a = if i.openCnt = 1 then none else some { i with openCnt := i.openCnt - 1 } := by
  cases h with
  | more hcnt =>
    rw [if_neg hcnt]
    simp [Fs.openers, hi, Int.sub_eq_add_neg]
  | last hcnt =>
    rw [if_pos hcnt]
    exact k.inodes.cell_free_self a
  | removed hcnt =>
    rw [if_pos hcnt]
    exact k.inodes.cell_free_self a

/-- No file comes, and only a removed one goes. -/
theorem nodes (h : Closes k N a i k' N') {s : ℕ} : N' s = if s = i.sector ∧ i.openCnt = 1 ∧ i.removed then none else N s := by
  cases h with
  | more hcnt => rw [if_neg fun h => hcnt h.2.1]
  | last hcnt hrem => rw [if_neg fun h => by simp [hrem] at h]
  | removed hcnt hrem =>
    by_cases hs : s = i.sector
    · rw [if_pos ⟨hs, hcnt, hrem⟩, hs, Function.update_self]
    · rw [if_neg fun h => hs h.1, Function.update_of_ne hs]

theorem bytes (h : Closes k N a i k' N') (hw : Wf k N 0) (hN : N s = some nd) (hs : s ≠ 0) {j : ℕ}
    (hj : j < 512 * nd.blocks.length) : byteAt k'.buffers nd j = byteAt k.buffers nd j := by
  cases h with
  | more => rfl
  | last => rfl
  | removed hcnt hrem hN' hM hB =>
    unfold byteAt
    exact congrFun (hB.content _ (hw.laid.notMem_mapBlocks hN (List.mem_cons_of_mem _ (block_mem hj)) (.inl hs))) _

/-- The free map's file stays open, since closing it once more does not take its inode out of memory. -/
theorem mapOpen (h : Closes k N a i k' N') (hm : MapOpen k N) (hi : k.inodes.cell a = some i)
    (h0 : i.sector = 0 → i.openCnt ≠ 1) : MapOpen k' N' := by
  obtain ⟨f, j, nd₀, hf, hj, hsec, hdeny, hN₀, hle⟩ := hm
  have hN₀' : N' 0 = some nd₀ := by
    rw [h.nodes, if_neg fun hc => h0 hc.1.symm hc.2.1]
    exact hN₀
  have hle' : k'.freeMap.fileSize ≤ nd₀.length := by rw [Bitmap.fileSize, h.bitCnt]; exact hle
  have hf' : k'.files.cell k'.freeMapFile = some f := by rw [h.files, h.freeMapFile]; exact hf
  by_cases hfa : f.inode = a
  · rw [hfa, hi] at hj
    cases hj
    have hcell := h.cell_self hi
    rw [if_neg (h0 hsec), ← hfa] at hcell
    exact ⟨f, _, nd₀, hf', hcell, hsec, hdeny, hN₀', hle'⟩
  · exact ⟨f, j, nd₀, hf', by rw [h.cell_of_ne hfa]; exact hj, hsec, hdeny, hN₀', hle'⟩

theorem mapSync (h : Closes k N a i k' N') (hm : MapSync k N) (h0 : i.sector = 0 → i.openCnt ≠ 1) : MapSync k' N' := by
  cases h with
  | more => exact hm
  | last => exact hm
  | removed hcnt hrem hN' hM hB =>
    intro nd₀ hN₀ j hj
    rw [Function.update_of_ne fun h => h0 h.symm hcnt] at hN₀
    exact hB.sync nd₀ hN₀ j hj

end Closes

end Pintos
