import Pintos.Filesys.WriteSpec

/-!
# Opening and closing

`inode_open` and `inode_reopen` count one more opener and `inode_close` one less;
the last `inode_close` takes the inode out of memory, and if it was removed it
releases its sectors, which are then free in the map and in the map's file
(`inodeClose_removed`). `inode_create` writes a new inode to a sector that was
allocated for it (`inodeCreate_spec`).
-/

namespace Pintos

open Library Library.Prog Library.Bytes

variable {k k' : Fs} {N N₀ : Nodes} {u s a : ℕ} {i : Inode} {nd nd₀ : Node} {d : InodeDisk} {E : Halt → Prop}

/-! ### Releasing a sector -/

theorem MapFile.of_map {M : Bitmap} {B : Buffers} (h : MapFile k nd) (hM : M.bitCnt = k.freeMap.bitCnt) :
    MapFile { k with freeMap := M, buffers := B } nd :=
  ⟨h.open_file, h.nodup, by rw [Bitmap.fileSize, hM]; exact h.long⟩

theorem Persisted.trans {M M' : Bitmap} {B B' : Buffers} (h : Persisted N { k with freeMap := M } B)
    (h' : Persisted N { k with freeMap := M', buffers := B } B') (hM : M.bitCnt = M'.bitCnt) :
    Persisted N { k with freeMap := M' } B' := by
  refine ⟨h'.wf, h'.capacity.trans h.capacity, fun b hb => (h'.content b hb).trans (h.content b hb), h'.sync,
    fun nd hN j hj hlt => ?_⟩
  refine (h'.rest nd hN j hj hlt).trans (h.rest nd hN j ?_ hlt)
  change M.fileSize ≤ j
  rw [Bitmap.fileSize, hM]
  exact hj

/-- **`free_map_release`** of a sector that is marked. -/
theorem freeMapRelease_spec {b : ℕ} (hc : k.buffers.Wf) (hN : N 0 = some nd₀) (hm : MapFile k nd₀) (hlt : b < k.freeMap.bitCnt)
    (hbit : k.freeMap.bit b = true) :
    wp (freeMapRelease persistFreeMap b 1)
      (fun _ k' => ∃ B, Persisted N { k with freeMap := k.freeMap.setMultiple b 1 false } B ∧
        k' = { k with freeMap := k.freeMap.setMultiple b 1 false, buffers := B })
      (Unless (MapClear k N)) k := by
  rw [freeMapRelease, wp_bind, wp_gets, if_pos (by omega), if_pos (by rw [Bitmap.all_one]; exact hbit), wp_bind, wp_modify,
    wp_bind]
  have hspec : wp persistFreeMap _ _ { k with freeMap := k.freeMap.setMultiple b 1 false } :=
    bitmapWrite_spec 7 hc hN (hm.of_map rfl)
  refine wp_post hspec ?_
  rintro - _ ⟨-, B, hB, rfl⟩
  exact ⟨B, hB, rfl⟩

/-- The map `M` without the marks of the sectors in `l`. -/
structure Cleared (M : Bitmap) (l : List ℕ) (M' : Bitmap) : Prop where
  bitCnt : M'.bitCnt = M.bitCnt
  bit : ∀ j, M'.bit j = (M.bit j && decide (j ∉ l))

theorem Cleared.nil (M : Bitmap) : Cleared M [] M := ⟨rfl, by simp⟩

theorem Cleared.cons {M M' : Bitmap} {b : ℕ} {l : List ℕ} (h : Cleared (M.setMultiple b 1 false) l M') :
    Cleared M (b :: l) M' := by
  refine ⟨h.bitCnt, fun j => ?_⟩
  rw [h.bit, Bitmap.bit_setMultiple_one]
  by_cases hj : j = b <;> simp [hj]

/-- The loops of `inode_close` release the blocks of the inode. -/
theorem releaseLoop_spec {j n : ℕ} (hi : k.inodes.cell a = some i) (hr : Repr k.tables i.data nd) (hN : N 0 = some nd₀)
    (hm : MapFile k nd₀) (hp : Persisted N k k.buffers) (hn : j + n = nd.blocks.length) (hnodup : nd.blocks.Nodup)
    (hmark : ∀ b ∈ nd.blocks.drop j, b < k.freeMap.bitCnt ∧ k.freeMap.bit b = true) :
    wp (releaseLoop a nd.blocks.length j n)
      (fun _ k' => ∃ M B, Cleared k.freeMap (nd.blocks.drop j) M ∧ Persisted N { k with freeMap := M } B ∧
        k' = { k with freeMap := M, buffers := B })
      (Unless (MapClear k N)) k := by
  induction n generalizing k j with
  | zero =>
    rw [releaseLoop, wp_pure, List.drop_eq_nil_of_le (by omega)]
    exact ⟨_, _, .nil _, hp, rfl⟩
  | succ n ih =>
    have hlt : j < nd.blocks.length := by omega
    have hdrop : nd.blocks.drop j = nd.blocks.get ⟨j, hlt⟩ :: nd.blocks.drop (j + 1) := List.drop_eq_getElem_cons hlt
    obtain ⟨b, hb⟩ : ∃ b, nd.blocks.get ⟨j, hlt⟩ = b := ⟨_, rfl⟩
    rw [hb] at hdrop
    have hget : nd.blocks[j]? = some b := by
      rw [← hb]
      exact List.getElem?_eq_getElem hlt
    rw [releaseLoop, wp_bind]
    refine wp_inodeAt hi ?_
    rw [wp_bind, blockToRelease, if_pos hr.short]
    refine hr.block_spec hget ?_
    obtain ⟨hblt, hbit⟩ := hmark b (hdrop ▸ List.mem_cons_self)
    refine wp_seq (freeMapRelease_spec hp.wf hN hm hblt hbit) (fun _ he => he) ?_
    rintro - _ ⟨B, hB, rfl⟩
    -- the blocks that remain are other blocks, and still marked
    have hnotMem : b ∉ nd.blocks.drop (j + 1) := by
      have := hnodup.sublist (List.drop_sublist j nd.blocks)
      rw [hdrop] at this
      exact (List.nodup_cons.1 this).1
    have hp' : Persisted N { k with freeMap := k.freeMap.setMultiple b 1 false, buffers := B } B :=
      ⟨hB.wf, rfl, fun _ _ => rfl, hB.sync, fun _ _ _ _ _ => rfl⟩
    refine wp_mono (ih hi hr (hm.of_map rfl) hp' (by omega) fun c hc => ?_) ?_ (Unless.mono fun hclear c hc => ?_)
    · have hne : c ≠ b := fun h => hnotMem (h ▸ hc)
      obtain ⟨hclt, hcbit⟩ := hmark c (hdrop ▸ List.mem_cons_of_mem _ hc)
      refine ⟨hclt, ?_⟩
      rw [Bitmap.bit_setMultiple_one, if_neg hne]
      exact hcbit
    · rintro - _ ⟨M, B', hM, hB', rfl⟩
      rw [hdrop]
      exact ⟨M, B', hM.cons, hB.trans hB' hM.bitCnt.symm, rfl⟩
    · change c + 1 < B.disk.capacity
      rw [hB.capacity]
      exact hclear c hc

/-! ### Closing -/

/-- The inodes but the one at `a`. -/
def Fs.drop (k : Fs) (a : ℕ) : Fs := { k with inodes := k.inodes.free a, openInodes := k.openInodes.filter (· ≠ a) }

/-- The inode at `a` with another number of openers. -/
def Fs.openers (k : Fs) (a : ℕ) (n : ℤ) : Fs :=
  { k with inodes := k.inodes.set a fun i => { i with openCnt := i.openCnt + n } }

/-- `inode_close` of an inode that others have open. -/
theorem inodeClose_more (hi : k.inodes.cell a = some i) (hcnt : i.openCnt ≠ 1) :
    wp (inodeClose a) (fun _ k' => k' = k.openers a (-1)) (fun _ => False) k := by
  rw [inodeClose, wp_onlyIf]
  refine ⟨fun _ => ?_, fun h0 => absurd h0 (not_not.2 (k.inodes.ne_null hi))⟩
  rw [wp_bind]
  refine wp_inodeAt hi ?_
  rw [wp_bind, updateInode, wp_modify, onlyIf, if_neg (by omega), wp_pure]
  rfl

/-- The last `inode_close` of an inode that was not removed. -/
theorem inodeClose_last (hi : k.inodes.cell a = some i) (hcnt : i.openCnt = 1) (hrem : i.removed = false) :
    wp (inodeClose a) (fun _ k' => k' = k.drop a) (fun _ => False) k := by
  rw [inodeClose, wp_onlyIf]
  refine ⟨fun _ => ?_, fun h0 => absurd h0 (not_not.2 (k.inodes.ne_null hi))⟩
  rw [wp_bind]
  refine wp_inodeAt hi ?_
  rw [wp_bind, updateInode, wp_modify, onlyIf, if_pos (by omega), wp_bind, wp_modify, wp_bind, onlyIf,
    if_neg (by simp [hrem]), wp_pure, wp_modify, Fs.drop, Heap.free_set]

/-- **The last `inode_close` of an inode that was removed** releases its sectors. -/
theorem inodeClose_removed (hw : Wf k N 0) (hm : MapOpen k N) (hi : k.inodes.cell a = some i) (hN : N i.sector = some nd)
    (hcnt : i.openCnt = 1) (hrem : i.removed = true) (hs : i.sector ≠ 0) :
    wp (inodeClose a)
      (fun _ k' => ∃ M B, Cleared k.freeMap (i.sector :: nd.blocks) M ∧ Persisted N { k with freeMap := M } B ∧
        k' = { k.drop a with freeMap := M, buffers := B })
      (Unless (MapClear k N)) k := by
  have hr := hw.repr hi hN
  have hmark : ∀ b ∈ i.sector :: nd.blocks, b < k.freeMap.bitCnt ∧ k.freeMap.bit b = true := by
    intro b hb
    rw [hw.laid.size]
    exact hw.laid.marked i.sector nd hN b hb
  have hnodup := hw.laid.nodup i.sector nd hN
  obtain ⟨f, j, nd₀, hf, hj, hsec, hdeny, hN₀, hle⟩ := hm
  have hne : f.inode ≠ a := by
    intro h
    rw [h, hi] at hj
    cases hj
    exact hs hsec
  rw [inodeClose, wp_onlyIf]
  refine ⟨fun _ => ?_, fun h0 => absurd h0 (not_not.2 (k.inodes.ne_null hi))⟩
  rw [wp_bind]
  refine wp_inodeAt hi ?_
  rw [wp_bind, updateInode, wp_modify, onlyIf, if_pos (by omega), wp_bind, wp_modify, wp_bind, onlyIf, if_pos hrem]
  -- the inode is in memory until its sectors are released, and so is the free map's
  obtain ⟨k₁, hk₁⟩ : ∃ k₁, k₁ = { k with
    inodes := k.inodes.set a fun i => { i with openCnt := i.openCnt - 1 }, openInodes := k.openInodes.filter (· ≠ a) } :=
    ⟨_, rfl⟩
  have hi₁ : k₁.inodes.cell a = some { i with openCnt := i.openCnt - 1 } := by simp [hk₁, hi]
  have hj₁ : k₁.inodes.cell f.inode = some j := by
    rw [hk₁]
    exact (k.inodes.cell_set_of_ne _ hne).trans hj
  have hfile : MapFile k₁ nd₀ := by
    refine ⟨⟨f, j, ?_, hj₁, hdeny, ?_⟩, (List.nodup_cons.1 (hw.laid.nodup 0 nd₀ hN₀)).2, ?_⟩
    · rw [hk₁]; exact hf
    · rw [hk₁]; exact hw.repr hj (by rw [hsec]; exact hN₀)
    · rw [hk₁]; exact hle
  have hr₁ : Repr k₁.tables i.data nd := by rw [hk₁]; exact hr
  have hbuf : k₁.buffers = k.buffers := by rw [hk₁]
  have hmap : k₁.freeMap = k.freeMap := by rw [hk₁]
  have hmark₀ := hmark i.sector List.mem_cons_self
  rw [← hk₁, wp_bind]
  have hrel : wp (freeMapRelease persistFreeMap i.sector 1) _ _ k₁ :=
    freeMapRelease_spec (hbuf ▸ hw.cache) hN₀ hfile (hmap ▸ hmark₀.1) (hmap ▸ hmark₀.2)
  have hclear : MapClear k N → MapClear k₁ N := fun h b hb => hbuf ▸ h b hb
  refine wp_mono hrel ?_ (Unless.mono hclear)
  rintro - _ ⟨B, hB, rfl⟩
  rw [wp_bind]
  refine wp_inodeAt hi₁ ?_
  rw [hr.bytesToSectors, wp_bind, onlyIf, if_neg (by have := hr.short; unfold sectorSize; omega), wp_pure]
  have hp : Persisted N { k₁ with freeMap := k₁.freeMap.setMultiple i.sector 1 false, buffers := B } B :=
    ⟨hB.wf, rfl, fun _ _ => rfl, hB.sync, fun _ _ _ _ _ => rfl⟩
  have hloop : wp (releaseLoop a nd.blocks.length 0 nd.blocks.length) _ _
      { k₁ with freeMap := k₁.freeMap.setMultiple i.sector 1 false, buffers := B } :=
    releaseLoop_spec (N := N) hi₁ hr₁ hN₀ (hfile.of_map rfl) hp (Nat.zero_add _) (List.nodup_cons.1 hnodup).2
      fun b hb => by
        rw [List.drop_zero] at hb
        have hb' := hmark b (List.mem_cons_of_mem _ hb)
        have hne : b ≠ i.sector := fun h => (List.nodup_cons.1 hnodup).1 (h ▸ hb)
        refine ⟨hmap ▸ hb'.1, ?_⟩
        rw [Bitmap.bit_setMultiple_one, if_neg hne, hmap]
        exact hb'.2
  refine wp_mono hloop ?_ (Unless.mono fun h b hb => ?_)
  · rintro - _ ⟨M, B', hM, hB', rfl⟩
    rw [List.drop_zero] at hM
    have hcleared := hM.cons
    rw [hmap] at hcleared
    rw [wp_modify]
    refine ⟨M, B', hcleared, ?_, ?_⟩
    · have htrans := hB.trans hB' hM.bitCnt.symm
      exact ⟨htrans.wf, by rw [htrans.capacity, hbuf], fun b hb => by rw [htrans.content b hb, hbuf], htrans.sync,
        fun nd hN j hj hlt => by rw [htrans.rest nd hN j hj hlt, hbuf]⟩
    · simp only [hk₁, Fs.drop, Heap.free_set]
  · change b + 1 < B.disk.capacity
    rw [hB.capacity, hbuf]
    exact h b hb

/-! ### Well-formedness -/

/-- Change the handles, and neither the sectors nor the data of inodes. -/
theorem Wf.of_inodes {I : Heap Inode} {l : List ℕ} (hw : Wf k N 0)
    (hI : ∀ a i', I.cell a = some i' → ∃ i, k.inodes.cell a = some i ∧ i'.sector = i.sector ∧ i'.data = i.data)
    (hl : l.Nodup) (hmem : ∀ a, a ∈ l ↔ ∃ i, I.cell a = some i) : Wf { k with inodes := I, openInodes := l } N 0 := by
  have ho := hw.opened
  refine ⟨hw.cache, hw.laid, fun a i hi => (hmem a).2 ⟨i, hi⟩, fun a ha => (hmem a).1 ha, hl, ?_, ?_, ?_⟩
  · intro a₁ i₁ a₂ i₂ h₁ h₂ heq
    obtain ⟨j₁, hj₁, hs₁, -⟩ := hI a₁ i₁ h₁
    obtain ⟨j₂, hj₂, hs₂, -⟩ := hI a₂ i₂ h₂
    exact ho.unique a₁ j₁ a₂ j₂ hj₁ hj₂ (hs₁.symm.trans (heq.trans hs₂))
  · intro a i' hi'
    obtain ⟨i, hi, hs, hd⟩ := hI a i' hi'
    rw [hs, hd]
    exact ho.node a i hi
  · intro a i' hi' h0
    obtain ⟨i, hi, hs, hd⟩ := hI a i' hi'
    rw [hs, hd]
    exact ho.sync a i hi h0

theorem Wf.mem_iff (hw : Wf k N u) (a : ℕ) : a ∈ k.openInodes ↔ ∃ i, k.inodes.cell a = some i :=
  ⟨hw.opened.live a, fun ⟨i, hi⟩ => hw.opened.listed a i hi⟩

/-- Change an inode in memory, but neither its sector nor its data. -/
theorem Wf.set (hw : Wf k N 0) (a : ℕ) {f : Inode → Inode} (hf : ∀ i, (f i).sector = i.sector ∧ (f i).data = i.data) :
    Wf { k with inodes := k.inodes.set a f } N 0 := by
  refine hw.of_inodes (l := k.openInodes) (fun b i' hi' => ?_) hw.opened.nodup fun b => ?_
  · by_cases hb : b = a
    · subst hb
      rw [Heap.cell_set_self] at hi'
      obtain ⟨i, hi, rfl⟩ := Option.map_eq_some_iff.1 hi'
      exact ⟨i, hi, hf i⟩
    · rw [k.inodes.cell_set_of_ne f hb] at hi'
      exact ⟨i', hi', rfl, rfl⟩
  · rw [hw.mem_iff]
    by_cases hb : b = a
    · subst hb
      rw [Heap.cell_set_self]
      cases k.inodes.cell b <;> simp
    · rw [k.inodes.cell_set_of_ne f hb]

theorem Wf.openers (hw : Wf k N 0) (a : ℕ) (n : ℤ) : Wf (k.openers a n) N 0 := hw.set a fun _ => ⟨rfl, rfl⟩

theorem Wf.drop (hw : Wf k N 0) (a : ℕ) : Wf (k.drop a) N 0 := by
  refine hw.of_inodes (fun b i' hi' => ?_) (hw.opened.nodup.filter _) fun b => ?_
  · by_cases hb : b = a
    · subst hb
      rw [Heap.cell_free_self] at hi'
      cases hi'
    · rw [k.inodes.cell_free_of_ne hb] at hi'
      exact ⟨i', hi', rfl, rfl⟩
  · rw [List.mem_filter, hw.mem_iff]
    by_cases hb : b = a
    · subst hb
      simp
    · rw [k.inodes.cell_free_of_ne hb]
      simp [hb]

/-- Forget a file whose inode is not in memory. -/
theorem Wf.forget (hw : Wf k N 0) (hs : ∀ a i, k.inodes.cell a = some i → i.sector ≠ s) :
    Wf k (Function.update N s none) 0 := by
  have ho := hw.opened
  refine ⟨hw.cache, hw.laid.remove s, ho.listed, ho.live, ho.nodup, ho.unique, fun a i hi => ?_, ho.sync⟩
  rw [Function.update_of_ne (hs a i hi)]
  exact ho.node a i hi

/-- Unmark sectors of a file that was forgotten. -/
theorem Wf.of_cleared {M : Bitmap} {l : List ℕ} (hw : Wf k N 0) (hM : Cleared k.freeMap l M) (hlow : ∀ b ∈ l, 2 ≤ b)
    (hfree : ∀ s' nd', N s' = some nd' → ∀ b ∈ s' :: nd'.blocks, b ∉ l) : Wf { k with freeMap := M } N 0 := by
  have hlow' : ∀ b < 2, b ∉ l := fun b hb hmem => by have := hlow b hmem; omega
  refine ⟨hw.cache, hw.laid.of_map hM.bitCnt ⟨?_, ?_⟩ fun s' nd' hN' b hb hbit => ?_, hw.opened⟩
  · rw [hM.bit, hw.laid.low.1]
    simpa using hlow' 0 (by decide)
  · rw [hM.bit, hw.laid.low.2]
    simpa using hlow' 1 (by decide)
  · rw [hM.bit, hbit]
    simpa using hfree s' nd' hN' b hb

/-- The sectors of a removed file are released. -/
theorem Wf.reclaim {M : Bitmap} {B : Buffers} (hw : Wf k N 0) (hm : MapOpen k N) (hi : k.inodes.cell a = some i)
    (hN : N i.sector = some nd) (hs : 2 ≤ i.sector) (hM : Cleared k.freeMap (i.sector :: nd.blocks) M)
    (hB : Persisted N { k with freeMap := M } B) :
    Wf { k.drop a with freeMap := M, buffers := B } (Function.update N i.sector none) 0 := by
  have hgone : ∀ b j, (k.drop a).inodes.cell b = some j → j.sector ≠ i.sector := by
    intro b j hj heq
    by_cases hb : b = a
    · subst hb
      rw [Fs.drop, Heap.cell_free_self] at hj
      cases hj
    · rw [Fs.drop, k.inodes.cell_free_of_ne hb] at hj
      exact hb (hw.opened.unique b j a i hj hi heq)
  have hsome : ∀ s' nd', Function.update N i.sector none s' = some nd' → s' ≠ i.sector ∧ N s' = some nd' := by
    intro s' nd' hN'
    by_cases hs' : s' = i.sector
    · rw [hs', Function.update_self] at hN'
      cases hN'
    · rw [Function.update_of_ne hs'] at hN'
      exact ⟨hs', hN'⟩
  have hw₁ : Wf { k.drop a with freeMap := M } (Function.update N i.sector none) 0 := by
    refine ((hw.drop a).forget hgone).of_cleared (l := i.sector :: nd.blocks) hM (fun b hb => ?_) fun s' nd' hN' b hb hmem => ?_
    · rcases List.mem_cons.1 hb with rfl | hb
      · exact hs
      · exact hw.laid.two_le _ nd hN b hb
    · obtain ⟨hne, hN''⟩ := hsome s' nd' hN'
      exact hne (hw.laid.disjoint s' nd' i.sector nd hN'' hN b hb hmem)
  have hzero : Function.update N i.sector none 0 = N 0 := Function.update_of_ne (by omega) _ _
  have hmap : mapBlocks (Function.update N i.sector none) = mapBlocks N := by rw [mapBlocks, mapBlocks, hzero]
  refine hw₁.persisted (B := B) (fun nd₀ hN₀ => ?_) ⟨hB.wf, hB.capacity, fun b hb => hB.content b (hmap ▸ hb), ?_, ?_⟩
  · rw [hzero] at hN₀
    have := hm.fileSize_le hN₀
    change M.fileSize ≤ nd₀.length
    rwa [Bitmap.fileSize, hM.bitCnt]
  · rw [hzero]
    exact hB.sync
  · rw [hzero]
    exact hB.rest

/-- A new inode in memory. -/
theorem Wf.load {B : Buffers} {f : Inode} (hw : Wf k N 0) (hN : N s = some nd) (hB : Buffers.Keeps k.buffers B)
    (hnone : ∀ a i, k.inodes.cell a = some i → i.sector ≠ s) (hf : f.sector = s)
    (hd : f.data = InodeDisk.decode (k.buffers.content s)) :
    Wf { k with inodes := k.inodes.alloc f, openInodes := k.inodes.next :: k.openInodes, buffers := B } N 0 := by
  have hk := hw.keeps hB
  have ho := hk.opened
  have hcases : ∀ a i, (k.inodes.alloc f).cell a = some i → a = k.inodes.next ∧ i = f ∨ k.inodes.cell a = some i := by
    intro a i hi
    by_cases ha : a = k.inodes.next
    · subst ha
      rw [Heap.cell_alloc_self] at hi
      exact .inl ⟨rfl, (Option.some.inj hi).symm⟩
    · rw [k.inodes.cell_alloc_of_ne f ha] at hi
      exact .inr hi
  have hself : f.data = InodeDisk.decode (B.content s) := by rw [hB.content]; exact hd
  refine ⟨hk.cache, hk.laid, fun a i hi => ?_, fun a ha => ?_, ?_, fun a₁ i₁ a₂ i₂ h₁ h₂ heq => ?_, fun a i hi => ?_,
    fun a i hi h0 => ?_⟩
  · rcases hcases a i hi with ⟨rfl, -⟩ | hi
    · exact List.mem_cons_self
    · exact List.mem_cons_of_mem _ (ho.listed a i hi)
  · rcases List.mem_cons.1 ha with rfl | ha
    · exact ⟨f, Heap.cell_alloc_self _ _⟩
    · obtain ⟨i, hi⟩ := ho.live a ha
      exact ⟨i, k.inodes.cell_alloc f hi⟩
  · refine List.nodup_cons.2 ⟨fun hmem => ?_, ho.nodup⟩
    obtain ⟨i, hi⟩ := ho.live _ hmem
    exact k.inodes.ne_next hi rfl
  · rcases hcases a₁ i₁ h₁ with ⟨ha₁, hf₁⟩ | hi₁ <;> rcases hcases a₂ i₂ h₂ with ⟨ha₂, hf₂⟩ | hi₂
    · rw [ha₁, ha₂]
    · exact absurd (by rw [← heq, hf₁, hf]) (hnone a₂ i₂ hi₂)
    · exact absurd (by rw [heq, hf₂, hf]) (hnone a₁ i₁ hi₁)
    · exact ho.unique a₁ i₁ a₂ i₂ hi₁ hi₂ heq
  · rcases hcases a i hi with ⟨-, rfl⟩ | hi
    · refine ⟨nd, by rw [hf]; exact hN, ?_⟩
      rw [hd]
      exact (hw.laid.disk s nd hN).toRepr
    · exact ho.node a i hi
  · rcases hcases a i hi with ⟨-, rfl⟩ | hi
    · rw [hf]
      exact hself
    · exact ho.sync a i hi h0

/-! ### Opening -/

/-- The inode of sector `s` as `inode_open` brings it into memory. -/
def Fs.load (k : Fs) (s : ℕ) (B : Buffers) : Fs :=
  { k with inodes := k.inodes.alloc ⟨s, 1, false, 0, InodeDisk.decode (k.buffers.content s)⟩,
           openInodes := k.inodes.next :: k.openInodes, buffers := B }

theorem inodeReopen_spec (hi : k.inodes.cell a = some i) :
    wp (inodeReopen a) (fun b k' => b = a ∧ k' = k.openers a 1) (fun _ => False) k := by
  rw [inodeReopen, wp_bind, onlyIf, if_pos (k.inodes.ne_null hi), wp_bind]
  refine wp_inodeAt hi ?_
  rw [updateInode, wp_modify, wp_pure]
  exact ⟨rfl, rfl⟩

/-- **`inode_open`** finds the inode in memory, or brings it there. -/
theorem inodeOpen_spec (hw : Wf k N 0) (hN : N s = some nd) :
    wp (inodeOpen s)
      (fun a k' => (∃ i, k.inodes.cell a = some i ∧ i.sector = s ∧ k' = k.openers a 1) ∨
        (∀ b i, k.inodes.cell b = some i → i.sector ≠ s) ∧ a = k.inodes.next ∧
          ∃ B, Buffers.Keeps k.buffers B ∧ k' = k.load s B)
      (fun _ => False) k := by
  rw [inodeOpen, wp_bind, wp_gets]
  cases hfind : k.openInodes.find? fun a => (k.inodes.cell a).any fun i => i.sector == s with
  | some a =>
    obtain ⟨i, hi, hs⟩ : ∃ i, k.inodes.cell a = some i ∧ i.sector = s := by
      have hany := List.find?_some hfind
      cases hc : k.inodes.cell a with
      | none => simp [hc] at hany
      | some i => exact ⟨i, rfl, by simpa [hc] using hany⟩
    refine wp_post (inodeReopen_spec hi) ?_
    rintro b k' ⟨rfl, rfl⟩
    exact .inl ⟨i, hi, hs, rfl⟩
  | none =>
    have hnone : ∀ b i, k.inodes.cell b = some i → i.sector ≠ s := by
      intro b i hi hs
      have := List.find?_eq_none.1 hfind b (hw.opened.listed b i hi)
      simp [hi, hs] at this
    have hlt := (hw.laid.marked s nd hN s List.mem_cons_self).1
    rw [wp_bind, wp_gets, wp_bind, wp_modify, wp_bind]
    have hread : wp (cached (bufferCacheRead s false)) _ _ { k with
        inodes := k.inodes.alloc ⟨s, 1, false, 0, InodeDisk.zero⟩, openInodes := k.inodes.next :: k.openInodes } :=
      cachedRead_spec hw.cache
    refine wp_mono hread ?_ fun e he => he.1 (by simpa using hlt)
    rintro b _ ⟨rfl, B, hB, rfl⟩
    rw [wp_bind, updateInode, wp_modify, wp_pure]
    refine .inr ⟨hnone, rfl, B, hB, ?_⟩
    rw [Fs.load]
    simp only [Heap.set_alloc]

/-! ### Creating -/

/-- An inode of more than 512 sectors is not created: there is no table for the first 512. -/
theorem inodeGrow_new_long {L : ℤ} {Q : Bool → Fs → Prop} (h0 : k.temp.length = 0) (hi : k.temp.indirect = 0)
    (hd : k.temp.doublyIndirect = 0) (hL : 512 * 512 < L) (h31 : L < 2 ^ 31) :
    wp (inodeGrow persistFreeMap s .temp L) Q Benign k := by
  have hnever : wp (inodeGrow persistFreeMap s .temp L) (fun _ _ => False) (fun _ => True) k := by
    obtain ⟨n, rfl⟩ := Int.eq_ofNat_of_zero_le (show 0 ≤ L by omega)
    have hlong : 512 < bytesToSectors (n : ℤ) := bytesToSectors_long (by omega) (by omega)
    have hcur : bytesToSectors 0 = 0 := bytesToSectors_natCast (n := 0) (by decide)
    rw [inodeGrow, wp_bind, readData, wp_gets, if_neg (by omega), wp_bind, wp_gets, wp_ite]
    refine ⟨fun _ => trivial, fun _ => ?_⟩
    simp only [h0, hcur]
    generalize bytesToSectors (n : ℤ) = c at hlong ⊢
    rw [if_neg (by unfold directPointers; omega), if_neg (by unfold sectorSize; omega), wp_ite]
    refine ⟨fun _ => ?_, fun _ => trivial⟩
    rw [wp_bind, doublyIndirectTable, wp_bind, readData, wp_gets, if_pos hd, wp_bind, newTable, wp_bind, wp_gets, wp_ite]
    refine ⟨fun _ => ?_, fun _ => trivial⟩
    rw [wp_bind, wp_modify, wp_pure, wp_bind, updateData, wp_modify, wp_pure]
    -- the loop runs at least once, and follows the null pointer in the new table
    obtain ⟨m, rfl⟩ : ∃ m, c = m + 1 := ⟨c - 1, by omega⟩
    rw [Nat.sub_zero, wp_bind, growLoop, wp_bind, doublySlot, wp_bind, doublyIndirectTable, wp_bind, readData, wp_gets,
      if_neg k.tables.pos.ne', hi]
    refine wp_tableAt (j := 0) (k.tables.cell_alloc_self _) ?_
    rw [if_pos (by rfl), wp_bind, tableAt, wp_bind, wp_gets, wp_bind, wp_orStop]
    refine ⟨fun T hT => ?_, fun _ => trivial⟩
    change (k.tables.alloc _).cell 0 = some T at hT
    rw [Heap.null] at hT
    cases hT
  exact wp_mono ((inodeGrow_stops persistFreeMap_stops s .temp L).wp hnever) (fun _ _ h => h.elim) fun _ he => he.2

/-- An empty file. -/
def Node.empty (isdir : Bool) : Node := ⟨0, isdir, [], 0⟩

/-- The inode of a file that is not in memory is written to its sector. -/
theorem Edited.put {B : Buffers} {d' : InodeDisk} (hw : Wf k N 0) (hnone : ∀ a i, k.inodes.cell a = some i → i.sector ≠ s)
    (hroom : Laid.Room k.buffers k.freeMap N s nd) (hkept : Kept k.tables d' nd)
    (htail : ∀ j, nd.length ≤ j → j < 512 * nd.blocks.length → byteAt k.buffers nd j = 0)
    (hB : Written k.buffers s d'.bytes 0 sectorSize B) : Edited k N s nd [] nd { k with buffers := B } := by
  have ho := hw.opened
  have hother : ∀ b, b ≠ s → B.content b = k.buffers.content b := fun b hb => by rw [hB.content, if_neg hb]
  have hself : InodeDisk.decode (B.content s) = d' := by
    rw [hB.content, if_pos rfl, Block.write_all]
    exact InodeDisk.decode_encode hkept.fits
  have hbyte : ∀ s' nd', N s' = some nd' → s' ≠ s → ∀ j < 512 * nd'.blocks.length, byteAt B nd' j = byteAt k.buffers nd' j := by
    intro s' nd' hN' hs j hj
    unfold byteAt
    rw [hother]
    exact fun heq => hroom.disjoint s' nd' hN' hs s List.mem_cons_self (List.mem_cons_of_mem _ (heq ▸ block_mem hj))
  refine ⟨⟨hB.wf, hw.laid.put hB.capacity hother (by rw [hself]; exact hkept) hroom fun j hj hlt => ?_, ho.listed, ho.live,
    ho.nodup, ho.unique, fun a i hi => ?_, fun a i hi h0 => ?_⟩, ⟨rfl, rfl, rfl, rfl, rfl, fun _ => rfl, rfl⟩, hB.capacity, rfl,
    rfl, le_rfl, (List.append_nil _).symm, fun _ => rfl, rfl, List.nodup_nil, by simp, by simp, by simp,
    fun s' nd' hN' hs _ => hbyte s' nd' hN' hs, fun hs hfile hsync nd₀ hN₀ j hj => ?_⟩
  · have hne : nd.blocks.getD (j / 512) 0 ≠ s := fun heq => (List.nodup_cons.1 hroom.nodup).1 (heq ▸ block_mem hlt)
    unfold byteAt
    rw [hother _ hne]
    exact htail j hj hlt
  · rw [Function.update_of_ne (hnone a i hi)]
    exact ho.node a i hi
  · change i.data = InodeDisk.decode (B.content i.sector)
    rw [hother _ (hnone a i hi)]
    exact ho.sync a i hi h0
  · rw [Function.update_of_ne (Ne.symm hs)] at hN₀
    by_cases hlt : j < 512 * nd₀.blocks.length
    · exact (hbyte 0 nd₀ hN₀ (Ne.symm hs) j hlt).trans (hsync nd₀ hN₀ j hj)
    · -- past the blocks of the map's file both read sector 0
      refine Eq.trans ?_ (hsync nd₀ hN₀ j hj)
      change byteAt B nd₀ j = byteAt k.buffers nd₀ j
      unfold byteAt
      rw [List.getD_eq_default _ _ (by omega), hother 0 (Ne.symm hs)]

/-- The memory of `inode_create` is its own. -/
theorem Edited.of_temp {d : InodeDisk} {new : List ℕ} {nd' : Node} (h : Edited { k with temp := d } N s nd new nd' k') :
    Edited k N s nd new nd' k' :=
  ⟨h.wf, ⟨h.steady.files, h.steady.dirs, h.steady.openInodes, h.steady.freeMapFile, h.steady.currDir, h.steady.inodes,
    h.steady.next⟩, h.capacity, h.bitCnt, h.isdir, h.length_le, h.blocks, h.next, h.tables, h.nodup, h.fresh, h.bits, h.first, h.other,
    h.sync⟩

/-- What `inode_create` does: a file of `L` zeros is in sector `s`. -/
structure Created (k : Fs) (N : Nodes) (s L : ℕ) (isdir : Bool) (new : List ℕ) (nd : Node) (k' : Fs) : Prop where
  edited : Edited k N s (.empty isdir) new nd k'
  length : nd.length = L
  zero : ∀ j < nd.length, byteAt k'.buffers nd j = 0

/-- The inode that `inode_create` starts from. -/
theorem kept_new (T : Heap Table) (isdir : Bool) :
    Kept T { InodeDisk.zero with magic := inodeMagic, isdir := isdir } (.empty isdir) :=
  ⟨⟨⟨by cases isdir <;> exact ⟨by decide, by decide⟩, by cases isdir <;> decide, fun _ => Nat.two_pow_pos 32, Nat.two_pow_pos 32, Nat.two_pow_pos 32⟩, rfl, rfl,
    by simp [Node.empty, sectorsFor], Nat.zero_le _, fun _ _ _ hb => (by simp [Node.empty] at hb),
    fun h => absurd h (by simp [Node.empty])⟩, rfl, fun _ => rfl⟩

/-- The end of `inode_create`: the inode is written, for the second time if it has grown. -/
theorem createEnd_spec {L : ℕ} {isdir : Bool} (new : List ℕ) {d : InodeDisk} (hd : k'.temp = d) (hw : Wf k' N 0)
    (hnone : ∀ a i, k'.inodes.cell a = some i → i.sector ≠ s) (hroom : Laid.Room k'.buffers k'.freeMap N s nd)
    (hkept : Kept k'.tables d nd) (htail : ∀ j, nd.length ≤ j → j < 512 * nd.blocks.length → byteAt k'.buffers nd j = 0)
    (hedit : ∀ k'', Edited k' N s nd [] nd k'' → Edited k N₀ s (.empty isdir) new nd k'') (hlen : nd.length = L)
    (hzero : ∀ j < nd.length, byteAt k'.buffers nd j = 0) :
    wp (do
        onlyIf (true = true) do
          let d ← readData .temp
          cached (bufferCacheWrite s d.bytes 0 sectorSize)
        pure true)
      (fun ok k'' => ok = true ∧ Created k N₀ s L isdir new nd k'') (Unless (s + 1 < k'.buffers.disk.capacity)) k' := by
  have hle := hkept.length_le
  rw [wp_bind, onlyIf, if_pos rfl, wp_bind, readData, wp_gets, hd]
  refine wp_post (cachedWrite_spec hw.cache le_rfl) ?_
  rintro - _ ⟨B, hB, rfl⟩
  rw [wp_pure]
  refine ⟨rfl, hedit _ (.put hw hnone hroom hkept htail hB), hlen, fun j hj => ?_⟩
  have hne : nd.blocks.getD (j / 512) 0 ≠ s := fun heq =>
    (List.nodup_cons.1 hroom.nodup).1 (heq ▸ block_mem (by omega))
  change byteAt B nd j = 0
  unfold byteAt
  rw [hB.content, if_neg hne]
  exact hzero j hj

/-- **`inode_create`** in a sector that is marked and belongs to no file. -/
theorem inodeCreate_spec {L : ℤ} {isdir : Bool} (hw : Wf k N 0) (hm : k.freeMapFile ≠ 0 → MapOpen k N) (hN : N s = none)
    (hroom : Laid.Room k.buffers k.freeMap N s (.empty isdir)) (h31 : L < 2 ^ 31) :
    wp (inodeCreate s L isdir)
      (fun ok k' => ok = true ∧ 0 ≤ L ∧ ∃ new nd, Created k N s L.toNat isdir new nd k')
      (Unless (0 ≤ L ∧ L ≤ 512 * 512 ∧ s + 1 < k.buffers.disk.capacity ∧
        (0 < L → GrowRoom k N s (.empty isdir) L.toNat))) k := by
  rw [inodeCreate, wp_ite]
  refine ⟨fun h0 => ?_, fun h0 => ⟨fun h => h0 h.1, by decide⟩⟩
  rw [wp_bind, wp_modify]
  obtain ⟨d, hd⟩ : ∃ d : InodeDisk, d = { InodeDisk.zero with magic := inodeMagic, isdir := isdir } := ⟨_, rfl⟩
  rw [← hd]
  obtain ⟨k₁, hk₁⟩ : ∃ k₁ : Fs, k₁ = { k with temp := d } := ⟨_, rfl⟩
  rw [← hk₁]
  have hw₁ : Wf k₁ N 0 := by rw [hk₁]; exact ⟨hw.cache, hw.laid, hw.opened⟩
  have hm₁ : k₁.freeMapFile ≠ 0 → MapOpen k₁ N := by rw [hk₁]; exact hm
  have hkept : Kept k₁.tables d (.empty isdir) := hd ▸ kept_new _ isdir
  have hroom₁ : Laid.Room k₁.buffers k₁.freeMap N s (.empty isdir) := by rw [hk₁]; exact hroom
  have htemp : k₁.temp = d := by rw [hk₁]
  have hcap : k₁.buffers = k.buffers := by rw [hk₁]
  have hnone : ∀ a i, k₁.inodes.cell a = some i → i.sector ≠ s := by
    intro a i hi hs
    obtain ⟨nd, hN', -⟩ := hw₁.opened.node a i hi
    rw [hs, hN] at hN'
    cases hN'
  have hback : ∀ {new nd k''}, Edited k₁ N s (.empty isdir) new nd k'' → Edited k N s (.empty isdir) new nd k'' := by
    intro new nd k'' h
    rw [hk₁] at h
    exact h.of_temp
  rcases lt_trichotomy L 0 with hneg | rfl | hpos
  · omega
  · -- an empty file
    rw [wp_bind, inodeGrow, wp_bind, readData, wp_gets, htemp, if_pos (by rw [hd]; exact le_rfl), wp_pure]
    refine wp_mono (createEnd_spec (L := 0) [] htemp hw₁ hnone hroom₁ hkept
      (fun _ _ h => absurd h (by simp [Node.empty])) (fun _ h => hback h) rfl fun _ h => absurd h (Nat.not_lt_zero _)) ?_
      (Unless.mono fun h => by rw [hcap]; exact h.2.2.1)
    rintro ok k'' ⟨hok, hc⟩
    exact ⟨hok, le_rfl, [], _, hc⟩
  · by_cases hmax : L ≤ 512 * 512
    swap
    · rw [wp_bind]
      refine wp_mono (inodeGrow_new_long (Q := fun _ _ => False) (by rw [htemp, hd]; rfl) (by rw [htemp, hd]; rfl)
        (by rw [htemp, hd]; rfl) (by omega) h31) (fun _ _ h => h.elim) fun e he => ⟨fun h => hmax h.2.1, he⟩
    obtain ⟨n, rfl⟩ := Int.eq_ofNat_of_zero_le h0
    have ht : Target k₁ N .temp s (.empty isdir) d := by
      refine ⟨by rw [← htemp]; rfl, hkept, hroom₁, fun _ _ h => absurd h (by simp [Node.empty]), fun nd' h => ?_, fun a h => ?_,
        fun _ => hN⟩
      · rw [hN] at h
        cases h
      · cases h
    refine wp_seq (inodeGrow_spec persistFreeMap_persists hw₁ hm₁ ht (L := n) (by simpa [Node.empty] using hpos) (by omega))
      (Unless.mono fun h => ?_) ?_
    · have hg := h.2.2.2 hpos
      rw [Int.toNat_natCast] at hg
      rw [hk₁]
      exact ⟨hg.capacity, hg.sector, hg.map, hg.free, hg.table⟩
    rintro ok k₂ ⟨rfl, new, nd, hlen, hg⟩
    have hedit : Edited k₁ N s (.empty isdir) new nd k₂ := .of_grown hg hw₁ hroom₁ (Nat.zero_le _)
    have hself : Function.update N s (some nd) s = some nd := Function.update_self _ _ _
    have hblocks : nd.blocks = new := hg.blocks
    have hle := hedit.node.length_le
    have hnone₂ : ∀ a i, k₂.inodes.cell a = some i → i.sector ≠ s := by
      intro a i hi
      have := hg.steady.inodes a
      rw [hi] at this
      obtain ⟨j, hj, heq⟩ := Option.map_eq_some_iff.1 this.symm
      have hsec : j.sector = i.sector := congrArg Prod.fst heq
      rw [← hsec]
      exact hnone a j hj
    have hzero : ∀ j < nd.length, byteAt k₂.buffers nd j = 0 := by
      intro j hj
      have hmem : nd.blocks.getD (j / 512) 0 ∈ new := hblocks ▸ block_mem (by omega)
      unfold byteAt
      rw [(hg.zero _ hmem).2]
      rfl
    refine wp_mono (createEnd_spec (L := n) new (Option.some.inj hg.data) hg.wf hnone₂ (hg.wf.laid.room hself)
      hedit.node (hg.wf.laid.tail s nd hself) (fun k'' h => hback ?_) hlen hzero) ?_ (Unless.mono fun h => ?_)
    · simpa using hedit.trans h
    · rintro ok k'' ⟨hok, hc⟩
      exact ⟨hok, h0, new, nd, hc⟩
    · rw [hg.capacity, hcap]
      exact h.2.2.1

end Pintos
