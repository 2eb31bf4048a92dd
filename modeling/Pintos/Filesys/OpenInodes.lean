import Pintos.Filesys.Mirror

/-!
# Open inodes

Runs of the operations of `filesys/inode.c` from a formatted file system. A
caller of `inode_create` has the sector from `free_map_allocate`, as
`filesys_create` and `SYS_MKDIR` do, and opens only sectors in which an inode was
created, as they stand in directories; the state of a run remembers both. The
sectors of the free map and of the root directory are the callers' from the
start.
-/

namespace Pintos

open Library Library.Prog Library.Bytes

variable {S C : Set ℕ} {k k' : Fs} {i : Inode} {u a s : ℕ} {persist : FsM Bool}

/-! ### The operations -/

/-- **`inode_grow`** of an inode in memory. -/
theorem inodeGrow_inode {L : ℤ} (hp : Confined persist) (h : Mirrored S C k 0) (hi : k.inodes.cell a = some i) (hL : InRange L) :
    wp (inodeGrow persist i.sector (.inode a) L)
      (fun _ k' => Mirrored S C k' 0 ∧ Steady k k' ∧ ∃ i', k'.inodes.cell a = some i' ∧ L ≤ i'.data.length)
      (fun _ => True) k := by
  by_cases hlt : i.data.length < L
  · have hC := (h.sector a i hi).1
    have hsync := h.sync a i hi (k.inodes.ne_null hi)
    have hdisk := h.disk _ hC
    rw [← hsync] at hdisk
    have hg : Growth S C k (.inode a) i.data k :=
      ⟨h.exempt a, .refl k, by rw [Fs.dataOf, hi]; rfl, hdisk.1⟩
    have hat : GrowsAt k (.inode a) i.sector := by
      intro b j hj
      refine ⟨fun hs => ?_, fun hb => ?_⟩
      · rw [h.unique b j a i hj hi hs]
      · cases hb
        rw [hi] at hj
        cases hj
        rfl
    refine wp_post (inodeGrow_mirrored hp hg hat (h.made hC) hdisk.2 hL hlt) ?_
    rintro - k' ⟨-, hm, hs, d', hd', hlen, -⟩
    obtain ⟨i', hi', rfl⟩ := Option.map_eq_some_iff.1 hd'
    rw [Set.insert_eq_of_mem hC] at hm
    exact ⟨hm, hs, i', hi', hlen.ge⟩
  · exact inodeGrow_noop hi (not_lt.1 hlt) ⟨h, .refl k, i, hi, not_lt.1 hlt⟩

/-- **`byte_to_sector`** gives a sector for data, unless `pos` is null. -/
theorem byteToSector_mirrored {pos : ℤ} (hp : Confined persist) (h : Mirrored S C k 0) (hpos : InRange pos) :
    wp (byteToSector persist a pos)
      (fun b k' => Mirrored S C k' 0 ∧ Steady k k' ∧ (pos ≠ 0 → DataSector S k'.freeMap b ∧ 0 < pos)) (fun _ => True) k := by
  rw [byteToSector, wp_bind]
  refine wp_inodeAt_of fun i hi => ?_
  rw [wp_bind]
  refine wp_post (inodeGrow_inode hp h hi hpos) ?_
  rintro - k₁ ⟨hm, hs, i₁, hi₁, hle⟩
  by_cases h0 : pos = 0
  · refine wp_post (sectorOf_pure pos) ?_
    rintro b k' rfl
    exact ⟨hm, hs, fun hne => absurd h0 hne⟩
  · refine wp_post (sectorOf_block hi₁ (hm.blocks a i₁ hi₁) hpos h0 hle) ?_
    rintro b k' ⟨hb, hpos0, rfl⟩
    exact ⟨hm, hs, fun _ => ⟨hb, hpos0⟩⟩

/-- A chunk reaches at most to the end of a sector. -/
theorem chunk_le {off : ℤ} (h0 : 0 ≤ off) (x y : ℕ) :
    (if x < (if y < ofSigned (512 - off.tmod 512) then y else ofSigned (512 - off.tmod 512)) then x
      else (if y < ofSigned (512 - off.tmod 512) then y else ofSigned (512 - off.tmod 512))) ≤ 512 := by
  have hle : ofSigned (512 - off.tmod 512) ≤ 512 := by
    rw [Int.tmod_eq_emod_of_nonneg h0]
    unfold ofSigned
    omega
  split_ifs <;> omega

/-- **The loop of `inode_write_at`.** -/
theorem writeLoop_mirrored {n written : ℕ} {size off : ℤ} {buf : ℕ → UInt8} (hp : Confined persist) (h : Mirrored S C k 0)
    (h0 : 0 ≤ off) (hr : InRange off) :
    wp (writeLoop persist a buf n size off written) (fun _ k' => Mirrored S C k' 0 ∧ Steady k k') (fun _ => True) k := by
  induction n generalizing k size off written with
  | zero => exact ⟨h, .refl k⟩
  | succ n ih =>
    rw [writeLoop, wp_ite]
    refine ⟨fun _ => ⟨h, .refl k⟩, fun _ => ?_⟩
    rw [wp_bind]
    refine wp_inodeAt_of fun i hi => ?_
    rw [wp_bind]
    -- the growth at the start of the round
    refine wp_post (Q := fun _ k' => Mirrored S C k' 0 ∧ Steady k k') ?_ ?_
    · rw [wp_onlyIf]
      refine ⟨fun _ => ?_, fun _ => ⟨h, .refl k⟩⟩
      rw [wp_bind]
      exact wp_post (inodeGrow_inode hp h hi (wrap_inRange _)) fun _ k' hk => ⟨hk.1, hk.2.1⟩
    rintro - k₁ ⟨h₁, hs₁⟩
    rw [wp_bind]
    refine wp_inodeAt_of fun i₁ hi₁ => ?_
    have hc := chunk_le h0 (ofSigned size) (ofSigned (i₁.data.length - off.tmod 512))
    dsimp only
    generalize (if ofSigned size < (if ofSigned (i₁.data.length - off.tmod 512) < ofSigned (512 - off.tmod 512)
        then ofSigned (i₁.data.length - off.tmod 512) else ofSigned (512 - off.tmod 512)) then ofSigned size
      else (if ofSigned (i₁.data.length - off.tmod 512) < ofSigned (512 - off.tmod 512)
        then ofSigned (i₁.data.length - off.tmod 512) else ofSigned (512 - off.tmod 512))) = c at hc ⊢
    rw [wp_bind]
    refine wp_post (byteToSector_mirrored hp h₁ (wrap_inRange _)) ?_
    rintro b k₂ ⟨h₂, hs₂, hb⟩
    rw [wp_ite]
    refine ⟨fun _ => ⟨h₂, hs₁.trans hs₂⟩, fun hc0 => ?_⟩
    have hne : wrap (off + c) ≠ 0 := by
      have := hr.2
      unfold wrap toSigned ofSigned
      split_ifs <;> omega
    obtain ⟨hdata, hpos⟩ := hb hne
    rw [wp_bind]
    refine wp_post (cachedWrite_untouched h₂.cache hdata.2) ?_
    rintro - k₃ ⟨B, hB, rfl⟩
    refine wp_post (ih (h₂.untouched hB) hpos.le (wrap_inRange _)) ?_
    rintro - k₄ ⟨h₄, hs₄⟩
    have hs₃ : Steady k₂ { k₂ with buffers := B } := ⟨rfl, rfl, rfl, rfl, rfl, fun _ => rfl, rfl⟩
    exact ⟨h₄, (hs₁.trans hs₂).trans (hs₃.trans hs₄)⟩

/-- **`inode_write_at`.** -/
theorem inodeWriteAt_mirrored {size off : ℤ} {buf : ℕ → UInt8} (hp : Confined persist) (h : Mirrored S C k 0) (h0 : 0 ≤ off)
    (hr : InRange off) :
    wp (inodeWriteAt persist a buf size off) (fun _ k' => Mirrored S C k' 0 ∧ Steady k k') (fun _ => True) k := by
  rw [inodeWriteAt, wp_bind]
  refine wp_inodeAt_of fun i _ => ?_
  rw [wp_ite]
  exact ⟨fun _ => ⟨h, .refl k⟩, fun _ => writeLoop_mirrored hp h h0 hr⟩

theorem persistFreeMap_confined : Confined persistFreeMap := bitmapWrite_confined 8

/-- **`inode_create`** in a sector set aside, of which no inode is in memory. -/
theorem inodeCreate_mirrored {L : ℤ} {isdir : Bool} (h : Mirrored S C k 0) (hs : s ∈ S)
    (hnone : ∀ a i, k.inodes.cell a = some i → i.sector ≠ s) (hL : InRange L) :
    wp (inodeCreate s L isdir) (fun _ k' => Mirrored S (insert s C) k' 0 ∧ Steady k k') (fun _ => True) k := by
  rw [inodeCreate]
  by_cases h0 : 0 ≤ L
  swap
  · rw [if_neg h0]
    exact trivial
  rw [if_pos h0, wp_bind, wp_modify]
  set d : InodeDisk := { InodeDisk.zero with magic := inodeMagic, isdir := isdir } with hd
  set k₁ : Fs := { k with temp := d } with hk₁
  have hk : Steady k k₁ := ⟨rfl, rfl, rfl, rfl, rfl, fun _ => rfl, rfl⟩
  have h₁ : Mirrored S C k₁ 0 :=
    ⟨h.cache, h.size, h.marked, h.made, h.disk, h.listed, h.live, h.nodup, h.unique, h.sector, h.blocks, h.sync, h.file⟩
  have hwhole : Whole S k₁ d := by
    have hn : bytesToSectors (0 : ℤ) = 0 := by decide
    refine ⟨⟨(kept_new k.tables isdir).fits, le_rfl, fun _ j hj => ?_, fun hl => ?_⟩, fun _ => rfl⟩
    · change j.1 < bytesToSectors 0 at hj
      rw [hn] at hj
      cases hj
    · change directPointers < bytesToSectors 0 at hl
      rw [hn] at hl
      cases hl
  have hat : GrowsAt k .temp s := fun a i hi => ⟨fun his => absurd his (hnone a i hi), by simp⟩
  -- the inode is grown, or it is empty
  have hgrow : wp (inodeGrow persistFreeMap s .temp L)
      (fun ok k' => ok = true ∧ (Mirrored S C k' 0 ∨ Mirrored S (insert s C) k' 0) ∧ Steady k k' ∧ Whole S k' k'.temp)
      (fun _ => True) k₁ := by
    by_cases hlt : d.length < L
    · refine wp_post (inodeGrow_mirrored persistFreeMap_confined ⟨h₁, .refl _, rfl, hwhole.blocks⟩ (fun a i hi => hat a i hi) hs hwhole.small hL hlt) ?_
      rintro ok k' ⟨rfl, hm, hst, d', hd', -, hw⟩
      cases hd'
      exact ⟨rfl, .inr hm, hk.trans hst, hw⟩
    · rw [inodeGrow, wp_bind, readData, wp_gets, if_pos (not_lt.1 hlt), wp_pure]
      exact ⟨rfl, .inl h₁, hk, hwhole⟩
  rw [wp_bind]
  refine wp_post hgrow ?_
  rintro ok k₂ ⟨rfl, hm, hst, hw⟩
  have hat₂ := hat.steady hst
  -- and then it is written to its sector
  have hput : ∀ C', Mirrored S C' k₂ 0 → insert s C' = insert s C →
      wp (do
        onlyIf (true = true) do
          let d ← readData .temp
          cached (bufferCacheWrite s d.bytes 0 sectorSize)
        pure true) (fun _ k' => Mirrored S (insert s C) k' 0 ∧ Steady k k') (fun _ => True) k₂ := by
    intro C' hm' heq
    rw [wp_bind, onlyIf, if_pos rfl, wp_bind, readData, wp_gets]
    refine wp_mono (cachedWrite_spec hm'.cache (by decide)) ?_ fun _ _ => trivial
    rintro - k' ⟨B, hB, rfl⟩
    rw [wp_pure, ← heq]
    refine ⟨hm'.put hs hw hB (fun a i hi his => ?_) fun i hi => ?_, hst.trans ⟨rfl, rfl, rfl, rfl, rfl, fun _ => rfl, rfl⟩⟩
    · exact absurd ((hat₂ a i hi).1 his) (by simp)
    · rw [Heap.null] at hi
      cases hi
  rcases hm with hm | hm
  · exact hput C hm rfl
  · exact hput _ hm (Set.insert_idem s C)

/-- Change the handles, and neither the sectors nor the data of inodes. -/
theorem Mirrored.of_inodes {I : Heap Inode} {l : List ℕ} (h : Mirrored S C k 0)
    (hI : ∀ a i', I.cell a = some i' →
      ∃ i, k.inodes.cell a = some i ∧ i'.sector = i.sector ∧ i'.data = i.data ∧ i'.removed = i.removed)
    (hl : l.Nodup) (hmem : ∀ a, a ∈ l ↔ ∃ i, I.cell a = some i) (hnext : I.next = k.inodes.next) :
    Mirrored S C { k with inodes := I, openInodes := l } 0 := by
  refine ⟨h.cache, h.size, h.marked, h.made, h.disk, fun a i hi => (hmem a).2 ⟨i, hi⟩, fun a ha => (hmem a).1 ha, hl, ?_, ?_, ?_, ?_, ?_⟩
  · intro a i a' i' hi hi' heq
    obtain ⟨j, hj, hs, -⟩ := hI a i hi
    obtain ⟨j', hj', hs', -⟩ := hI a' i' hi'
    exact h.unique a j a' j' hj hj' (by rw [← hs, ← hs', heq])
  · intro a i hi
    obtain ⟨j, hj, hs, -, hr⟩ := hI a i hi
    rw [hs, hr]
    exact h.sector a j hj
  · intro a i hi
    obtain ⟨j, hj, -, hd, -⟩ := hI a i hi
    rw [hd]
    exact h.blocks a j hj
  · intro a i hi h0
    obtain ⟨j, hj, hs, hd, -⟩ := hI a i hi
    rw [hs, hd]
    exact h.sync a j hj h0
  · intro f hf
    refine ⟨(h.file f hf).1.trans_eq hnext.symm, fun i hi => ?_⟩
    obtain ⟨j, hj, -, hd, -⟩ := hI _ i hi
    rw [hd]
    exact (h.file f hf).2 j hj

theorem Mirrored.mem_iff (h : Mirrored S C k u) (a : ℕ) : a ∈ k.openInodes ↔ ∃ i, k.inodes.cell a = some i :=
  ⟨h.live a, fun ⟨i, hi⟩ => h.listed a i hi⟩

theorem Mirrored.openers (h : Mirrored S C k 0) (a : ℕ) (n : ℤ) : Mirrored S C (k.openers a n) 0 := by
  have hcell : ∀ b, (k.openers a n).inodes.cell b =
      (k.inodes.cell b).map fun i => { i with openCnt := i.openCnt + if b = a then n else 0 } := by
    intro b
    by_cases hb : b = a
    · subst hb
      rw [Fs.openers, Heap.cell_set_self]
      simp
    · rw [Fs.openers, Heap.cell_set_of_ne _ _ hb]
      simp [hb]
  refine h.of_inodes (fun b i' hi' => ?_) h.nodup (fun b => ?_) rfl
  · obtain ⟨i, hi, rfl⟩ := Option.map_eq_some_iff.1 ((hcell b).symm.trans hi')
    exact ⟨i, hi, rfl, rfl, rfl⟩
  · rw [h.mem_iff b]
    change _ ↔ ∃ i, (k.openers a n).inodes.cell b = some i
    rw [hcell b]
    cases k.inodes.cell b <;> simp

theorem Mirrored.drop (h : Mirrored S C k 0) (a : ℕ) : Mirrored S C (k.drop a) 0 := by
  refine h.of_inodes (fun b i' hi' => ⟨i', k.inodes.cell_of_free hi', rfl, rfl, rfl⟩) (h.nodup.filter _) (fun b => ?_) rfl
  rw [List.mem_filter, h.mem_iff b, decide_eq_true_iff]
  by_cases hb : b = a
  · subst hb
    simp
  · rw [Heap.cell_free_of_ne _ hb]
    exact ⟨fun hm => hm.1, fun hm => ⟨hm, hb⟩⟩

/-- **`inode_open`** gives the inode in memory, or reads it from its sector. -/
theorem inodeOpen_mirrored (h : Mirrored S C k 0) : wp (inodeOpen s) (fun a k' => Opens k s a k') (fun _ => True) k := by
  rw [inodeOpen, wp_bind, wp_gets]
  cases hf : k.openInodes.find? fun a => (k.inodes.cell a).any fun i => i.sector == s with
  | some a =>
    have hsome := List.find?_some hf
    obtain ⟨i, hi, hs⟩ := (Option.any_eq_true _ _).1 hsome
    refine wp_mono (inodeReopen_spec hi) ?_ fun _ he => he.elim
    rintro b k' ⟨rfl, rfl⟩
    exact .found hi (beq_iff_eq.1 hs)
  | none =>
    have hnone : ∀ b i, k.inodes.cell b = some i → i.sector ≠ s := by
      intro b i hi his
      refine List.find?_eq_none.1 hf b (h.listed b i hi) ?_
      rw [hi]
      exact beq_iff_eq.2 his
    rw [wp_bind, wp_gets, wp_bind, wp_modify, wp_bind]
    refine wp_mono (cachedRead_spec h.cache) ?_ fun _ _ => trivial
    rintro b k' ⟨rfl, B, hB, rfl⟩
    rw [wp_bind, updateInode, wp_modify, wp_pure]
    have hload := Opens.loaded hnone hB
    rw [Fs.load, ← Heap.set_alloc k.inodes ⟨s, 1, false, 0, InodeDisk.zero⟩
      fun i => { i with data := InodeDisk.decode (k.buffers.content s) }] at hload
    exact hload

theorem Opens.mirrored (ho : Opens k s a k') (h : Mirrored S C k 0) (hs : s ∈ C) : Mirrored S C k' 0 := by
  cases ho with
  | found => exact h.openers _ _
  | @loaded B hnone hB =>
    have hm := h.untouched (Untouched.of_keeps hB)
    have hcases : ∀ b i, (k.load s B).inodes.cell b = some i →
        b = k.inodes.next ∧ i = ⟨s, 1, false, 0, InodeDisk.decode (k.buffers.content s)⟩ ∨ k.inodes.cell b = some i := by
      intro b i hi
      by_cases hb : b = k.inodes.next
      · subst hb
        rw [Fs.load, Heap.cell_alloc_self] at hi
        exact .inl ⟨rfl, (Option.some.inj hi).symm⟩
      · rw [Fs.load, Heap.cell_alloc_of_ne _ _ hb] at hi
        exact .inr hi
    refine ⟨hm.cache, hm.size, hm.marked, hm.made, hm.disk, ?_, ?_, ?_, ?_, ?_, ?_, ?_, ?_⟩
    · intro b i hi
      rcases hcases b i hi with ⟨rfl, -⟩ | hi
      · exact List.mem_cons_self
      · exact List.mem_cons_of_mem _ (h.listed b i hi)
    · intro b hb
      rcases List.mem_cons.1 hb with rfl | hb
      · exact ⟨_, k.inodes.cell_alloc_self _⟩
      · obtain ⟨i, hi⟩ := h.live b hb
        exact ⟨i, k.inodes.cell_alloc _ hi⟩
    · refine List.nodup_cons.2 ⟨fun hmem => ?_, h.nodup⟩
      obtain ⟨i, hi⟩ := h.live _ hmem
      exact k.inodes.ne_next hi rfl
    · intro b i b' i' hi hi' heq
      rcases hcases b i hi with ⟨rfl, rfl⟩ | hi <;> rcases hcases b' i' hi' with ⟨rfl, rfl⟩ | hi'
      · rfl
      · exact absurd heq.symm (hnone b' i' hi')
      · exact absurd heq (hnone b i hi)
      · exact h.unique b i b' i' hi hi' heq
    · intro b i hi
      rcases hcases b i hi with ⟨rfl, rfl⟩ | hi
      · exact ⟨hs, rfl⟩
      · exact h.sector b i hi
    · intro b i hi
      rcases hcases b i hi with ⟨rfl, rfl⟩ | hi
      · exact (h.disk s hs).1
      · exact h.blocks b i hi
    · intro b i hi h0
      rcases hcases b i hi with ⟨rfl, rfl⟩ | hi
      · change InodeDisk.decode (k.buffers.content s) = InodeDisk.decode (B.content s)
        rw [hB.content]
      · exact hm.sync b i hi h0
    · intro f hf
      refine ⟨(h.file f hf).1.trans (Nat.lt_succ_self _), fun i hi => ?_⟩
      rcases hcases _ i hi with ⟨hnext, -⟩ | hi
      · exact absurd hnext (h.file f hf).1.ne
      · exact (h.file f hf).2 i hi

/-- **`inode_close`** of an inode that was not removed. -/
theorem inodeClose_mirrored (h : Mirrored S C k 0) :
    wp (inodeClose a)
      (fun _ k' => k' = k ∨ ∃ i, k.inodes.cell a = some i ∧
        (i.openCnt ≠ 1 ∧ k' = k.openers a (-1) ∨ i.openCnt = 1 ∧ k' = k.drop a)) (fun _ => True) k := by
  by_cases h0 : a = 0
  · subst h0
    exact .inl rfl
  cases hi : k.inodes.cell a with
  | none =>
    rw [inodeClose, onlyIf, if_pos h0, wp_bind, inodeAt, wp_bind, wp_gets, wp_orStop]
    refine ⟨fun i hi' => ?_, fun _ => trivial⟩
    rw [hi] at hi'
    cases hi'
  | some i =>
    by_cases hcnt : i.openCnt = 1
    · refine wp_mono (inodeClose_last hi hcnt (h.sector a i hi).2) ?_ fun _ he => he.elim
      rintro - k' rfl
      exact .inr ⟨i, rfl, .inr ⟨hcnt, rfl⟩⟩
    · refine wp_mono (inodeClose_more hi hcnt) ?_ fun _ he => he.elim
      rintro - k' rfl
      exact .inr ⟨i, rfl, .inl ⟨hcnt, rfl⟩⟩

/-! ### Runs -/

/-- The file system, and what the callers of `inode_create` and `inode_open` know. -/
structure Holdings where
  /-- The file system. -/
  fs : Fs
  /-- The sectors that callers have taken for inodes. -/
  owned : List ℕ
  /-- The sectors in which an inode was created. -/
  made : List ℕ

/-- An operation of the file system. -/
def Holdings.onFs {α : Type} (m : FsM α) : Prog Holdings Halt α := within Holdings.fs (fun k l => { l with fs := k }) m

/-- The operations on inodes. -/
inductive InodeOp where
  /-- `free_map_allocate (1, &sector)`, for an inode. -/
  | allocate
  /-- `inode_create`. -/
  | create (sector : ℕ) (length : ℤ) (isdir : Bool)
  /-- `inode_open`. -/
  | openAt (sector : ℕ)
  /-- `inode_reopen`. -/
  | reopen (a : ℕ)
  /-- `inode_close`. -/
  | close (a : ℕ)
  /-- `inode_write_at`. -/
  | writeAt (a : ℕ) (buffer : ℕ → UInt8) (size offset : ℤ)
  /-- `inode_grow`, of an inode in memory. -/
  | grow (a : ℕ) (length : ℤ)

/-- An operation on inodes; the result is a sector, an address or a count, as it has one. -/
def inodeStep : InodeOp → Prog Holdings Halt ℕ
  | .allocate => do
    let found ← Holdings.onFs (freeMapAllocate persistFreeMap 1)
    match found with
    | none => pure 0
    | some sector => do
      modify fun l => { l with owned := sector :: l.owned }
      pure sector
  | .create s L isdir => do
    let _ ← Holdings.onFs (inodeCreate s L isdir)
    modify fun l => { l with made := s :: l.made }
    pure 0
  | .openAt s => Holdings.onFs (inodeOpen s)
  | .reopen a => Holdings.onFs (inodeReopen a)
  | .close a => do
    Holdings.onFs (inodeClose a)
    pure 0
  | .writeAt a buffer size offset => Holdings.onFs (inodeWriteAt persistFreeMap a buffer size offset)
  | .grow a L => do
    let i ← Holdings.onFs (inodeAt a)
    let _ ← Holdings.onFs (inodeGrow persistFreeMap i.sector (.inode a) L)
    pure 0

/-- What callers see to: an inode is created in a sector that was taken for it and is not open, and opened where one
was created; lengths and offsets are of type `off_t`, and an offset is not negative (`file_seek`). -/
def InodeOp.Ok (l : Holdings) : InodeOp → Prop
  | .create s L _ => s ∈ l.owned ∧ InRange L ∧ ∀ a i, l.fs.inodes.cell a = some i → i.sector ≠ s
  | .openAt s => s ∈ l.made
  | .writeAt _ _ _ offset => 0 ≤ offset ∧ InRange offset
  | .grow _ L => InRange L
  | _ => True

/-- The operation closes the inode at `a` for the last time. -/
def InodeOp.ClosesLast (l : Holdings) (a : ℕ) : InodeOp → Prop
  | .close b => b = a ∧ ∃ i, l.fs.inodes.cell a = some i ∧ i.openCnt = 1
  | _ => False

/-- The inodes in memory mirror their sectors, for these callers. -/
def Holdings.Mirrors (l : Holdings) : Prop := Mirrored { s | s ∈ l.owned } { s | s ∈ l.made } l.fs 0

variable {l l' : Holdings}

theorem Holdings.wp_onFs {α : Type} {m : FsM α} {Q : α → Holdings → Prop} {E : Halt → Prop} :
    wp (Holdings.onFs m) Q E l ↔ wp m (fun r k => Q r { l with fs := k }) E l.fs := wp_within

/-- The inodes in memory stay there, for the same sectors. -/
def Stays (k k' : Fs) (a : ℕ) : Prop :=
  ∀ i, k.inodes.cell a = some i → ∃ i', k'.inodes.cell a = some i' ∧ i'.sector = i.sector

theorem Stays.refl (k : Fs) (a : ℕ) : Stays k k a := fun i hi => ⟨i, hi, rfl⟩

theorem Steady.stays (h : Steady k k') (a : ℕ) : Stays k k' a := fun _ hi => by
  obtain ⟨d, hd⟩ := h.cell hi
  exact ⟨_, hd, rfl⟩

theorem stays_openers (k : Fs) (b : ℕ) (n : ℤ) (a : ℕ) : Stays k (k.openers b n) a := by
  intro i hi
  by_cases ha : a = b
  · subst ha
    exact ⟨{ i with openCnt := i.openCnt + n }, by rw [Fs.openers, Heap.cell_set_self, hi]; rfl, rfl⟩
  · exact ⟨i, by rw [Fs.openers, Heap.cell_set_of_ne _ _ ha]; exact hi, rfl⟩

/-- **Every operation keeps the mirror**, and the inodes that it does not close for the last time in memory. -/
theorem inodeStep_mirrors (h : l.Mirrors) (op : InodeOp) (hop : op.Ok l) :
    wp (inodeStep op) (fun _ l' => l'.Mirrors ∧ l.made ⊆ l'.made ∧ ∀ a, ¬ op.ClosesLast l a → Stays l.fs l'.fs a)
      (fun _ => True) l := by
  cases op with
  | allocate =>
    rw [inodeStep, wp_bind, Holdings.wp_onFs]
    refine wp_post (freeMapAllocate_takes persistFreeMap_confined h) ?_
    rintro o k' (⟨b, rfl, ht⟩ | ⟨rfl, B, hB, rfl⟩)
    · dsimp only
      rw [wp_bind, wp_modify, wp_pure]
      have hset : { s | s ∈ b :: l.owned } = insert b { s | s ∈ l.owned } := Set.ext fun s => List.mem_cons
      obtain ⟨B, -, rfl⟩ := id ht.frame
      refine ⟨?_, List.Subset.refl _, fun a _ => .refl _ a⟩
      rw [Holdings.Mirrors, hset]
      exact ht.reserve h
    · exact ⟨h.untouched hB, List.Subset.refl _, fun a _ => .refl _ a⟩
  | create s L isdir =>
    obtain ⟨hs, hL, hnone⟩ := hop
    rw [inodeStep, wp_bind, Holdings.wp_onFs]
    refine wp_post (inodeCreate_mirrored h hs hnone hL) ?_
    rintro ok k' ⟨hm, hst⟩
    rw [wp_bind, wp_modify, wp_pure]
    have hset : { c | c ∈ s :: l.made } = insert s { c | c ∈ l.made } := Set.ext fun c => List.mem_cons
    refine ⟨?_, List.subset_cons_self _ _, fun a _ => hst.stays a⟩
    rw [Holdings.Mirrors, hset]
    exact hm
  | openAt s =>
    rw [inodeStep, Holdings.wp_onFs]
    refine wp_post (inodeOpen_mirrored h) ?_
    intro a k' ho
    refine ⟨ho.mirrored h hop, List.Subset.refl _, fun b _ i hi => ⟨_, ho.cell hi, rfl⟩⟩
  | reopen a =>
    rw [inodeStep, Holdings.wp_onFs, inodeReopen, wp_bind, wp_onlyIf]
    refine ⟨fun _ => ?_, fun _ => ⟨h, List.Subset.refl _, fun b _ => .refl _ b⟩⟩
    rw [wp_bind]
    refine wp_inodeAt_of fun i _ => ?_
    exact ⟨h.openers a 1, List.Subset.refl _, fun b _ => stays_openers _ a 1 b⟩
  | close a =>
    rw [inodeStep, wp_bind, Holdings.wp_onFs]
    refine wp_post (inodeClose_mirrored h) ?_
    rintro - k' (rfl | ⟨i, hi, ⟨-, rfl⟩ | ⟨hcnt, rfl⟩⟩)
    · exact ⟨h, List.Subset.refl _, fun b _ => .refl _ b⟩
    · exact ⟨h.openers a (-1), List.Subset.refl _, fun b _ => stays_openers _ a (-1) b⟩
    · refine ⟨h.drop a, List.Subset.refl _, fun b hb j hj => ⟨j, ?_, rfl⟩⟩
      have hba : b ≠ a := by
        rintro rfl
        exact hb ⟨rfl, i, hi, hcnt⟩
      change (l.fs.inodes.free a).cell b = some j
      rw [Heap.cell_free_of_ne _ hba]
      exact hj
  | writeAt a buffer size offset =>
    rw [inodeStep, Holdings.wp_onFs]
    refine wp_post (inodeWriteAt_mirrored persistFreeMap_confined h hop.1 hop.2) ?_
    rintro n k' ⟨hm, hst⟩
    exact ⟨hm, List.Subset.refl _, fun b _ => hst.stays b⟩
  | grow a L =>
    rw [inodeStep, wp_bind, Holdings.wp_onFs]
    refine wp_inodeAt_of fun i hi => ?_
    rw [wp_bind, Holdings.wp_onFs]
    refine wp_post (inodeGrow_inode persistFreeMap_confined h hi hop) ?_
    rintro - k' ⟨hm, hst, -⟩
    exact ⟨hm, List.Subset.refl _, fun b _ => hst.stays b⟩

/-- The blocks of an inode of a well-formed file system are sectors for data. -/
theorem Wf.whole {N : Nodes} {nd : Node} (hw : Wf k N u) (hN : N s = some nd) (hS : ∀ c ∈ S, c < 2) :
    Whole S k (InodeDisk.decode (k.buffers.content s)) := by
  have hk := hw.laid.disk s nd hN
  have hdata : ∀ b ∈ nd.blocks, DataSector S k.freeMap b := fun b hb =>
    ⟨(hw.laid.marked s nd hN b (List.mem_cons_of_mem _ hb)).2, fun hmem => absurd (hS b hmem)
      (Nat.not_lt.2 (hw.laid.two_le s nd hN b hb))⟩
  refine ⟨⟨hk.fits, ?_, fun hn j hj => ?_, fun hn _ => ?_⟩, fun hn => ?_⟩
  · rw [hk.length]
    exact Int.natCast_nonneg _
  · rw [hk.bytesToSectors] at hn hj
    rw [hk.direct hn j _ (List.getElem?_eq_getElem hj)]
    exact hdata _ (List.getElem_mem hj)
  · rw [hk.bytesToSectors] at hn
    obtain ⟨htab, t, ht, hblocks⟩ := hk.indirect hn
    refine ⟨t, by rw [htab]; exact ht, fun j hj => ?_⟩
    rw [hk.bytesToSectors] at hj
    rw [hblocks j _ (List.getElem?_eq_getElem hj)]
    exact hdata _ (List.getElem_mem hj)
  · rw [hk.bytesToSectors] at hn
    rw [hk.table, hk.small hn]

/-- A formatted file system, with the two sectors that inodes are in. -/
def Holdings.start (k : Fs) : Holdings := ⟨k, [0, 1], [0, 1]⟩

theorem Formatted.mirrors {N : Nodes} (h : Formatted k N) : (Holdings.start k).Mirrors := by
  have hw := h.map.wf
  obtain ⟨nd₀, hN₀⟩ := h.map.node
  obtain ⟨nd₁, hN₁, -⟩ := h.root
  have hlow : ∀ c ∈ ({ s | s ∈ [0, 1] } : Set ℕ), c < 2 := by
    intro c hc
    rcases List.mem_pair.1 hc with rfl | rfl <;> decide
  have hdisk : ∀ c ∈ ({ s | s ∈ [0, 1] } : Set ℕ), Whole { s | s ∈ [0, 1] } k (InodeDisk.decode (k.buffers.content c)) := by
    intro c hc
    rcases List.mem_pair.1 hc with rfl | rfl
    · exact hw.whole hN₀ hlow
    · exact hw.whole hN₁ hlow
  obtain ⟨i, hi, hsec, -, hrem, -⟩ := h.map.inode
  have hself : ∀ a j, k.inodes.cell a = some j → a = 1 ∧ j = i := by
    intro a j hj
    have ha := h.map.only a j hj
    subst ha
    rw [hi] at hj
    exact ⟨rfl, (Option.some.inj hj).symm⟩
  have hsync := hw.opened.sync
  refine ⟨hw.cache, hw.laid.size, fun c hc => ?_, subset_rfl, fun c hc => ⟨(hdisk c hc).blocks, (hdisk c hc).small⟩,
    hw.opened.listed, hw.opened.live, hw.opened.nodup, hw.opened.unique, fun a j hj => ?_, fun a j hj => ?_, hsync, fun f hf => ?_⟩
  · rcases List.mem_pair.1 hc with rfl | rfl
    · exact hw.laid.low.1
    · exact hw.laid.low.2
  · obtain ⟨rfl, rfl⟩ := hself a j hj
    rw [hsec]
    exact ⟨List.mem_cons_self, hrem⟩
  · obtain ⟨rfl, rfl⟩ := hself a j hj
    rw [hsync 1 j hj Nat.one_ne_zero, hsec]
    exact (hdisk 0 List.mem_cons_self).blocks
  · obtain ⟨-, rfl⟩ := (h.file.cell _ f).1 hf
    refine ⟨k.inodes.lt_next hi, fun j hj => ?_⟩
    obtain ⟨-, rfl⟩ := hself _ j hj
    rw [(hw.repr hi (by rw [hsec]; exact hN₀)).length]
    exact Int.ofNat_le.2 (h.map.size nd₀ hN₀)

/-- Every run from a formatted file system keeps the mirror. -/
theorem reachable_mirrors {d : Disk} {k₀ : Fs} (hformat : filesysInit true (Fs.boot d) = .ok ((), k₀))
    (hrun : Run inodeStep (fun op l => op.Ok l) (Holdings.start k₀) l) : l.Mirrors := by
  obtain ⟨N, hN⟩ := wp_of_ok (filesysInit_format d) hformat
  refine hrun.invariant hN.mirrors fun op l hl hop => ?_
  exact wp_post (inodeStep_mirrors hl op hop) fun _ _ h => h.1

/-- An inode that is not closed for the last time stays in memory. -/
theorem stays_run (h : l.Mirrors) (hrun : Run inodeStep (fun op l => op.Ok l ∧ ¬ op.ClosesLast l a) l l') :
    l'.Mirrors ∧ l.made ⊆ l'.made ∧ Stays l.fs l'.fs a := by
  refine hrun.invariant (I := fun l' => l'.Mirrors ∧ l.made ⊆ l'.made ∧ Stays l.fs l'.fs a)
    ⟨h, List.Subset.refl _, .refl _ a⟩ ?_
  rintro op l₁ ⟨hm, hmade, hstay⟩ ⟨hop, hlast⟩
  refine wp_post (inodeStep_mirrors hm op hop) ?_
  rintro r l₂ ⟨hm₂, hmade₂, hstay₂⟩
  refine ⟨hm₂, List.Subset.trans hmade hmade₂, fun i hi => ?_⟩
  obtain ⟨i₁, hi₁, hs₁⟩ := hstay i hi
  obtain ⟨i₂, hi₂, hs₂⟩ := hstay₂ a hlast i₁ hi₁
  exact ⟨i₂, hi₂, hs₂.trans hs₁⟩

/-- Opening a sector of which the inode is in memory gives that inode. -/
theorem Opens.eq_of_cell {b : ℕ} (ho : Opens k i.sector b k') (h : Mirrored S C k u) (hi : k.inodes.cell a = some i) : b = a := by
  cases ho with
  | found hj hs => exact h.unique _ _ _ _ hj hi hs
  | loaded hnone => exact absurd rfl (hnone a i hi)

theorem Opens.content_eq (ho : Opens k s a k') (c : ℕ) : k'.buffers.content c = k.buffers.content c := by
  cases ho with
  | found => rfl
  | loaded _ hB => exact hB.content c

theorem openAt_opens (h : l.Mirrors) {r : ℕ} (hopen : inodeStep (.openAt s) l = .ok (r, l')) : Opens l.fs s r l'.fs := by
  have hwp : wp (inodeStep (.openAt s)) (fun r l' => Opens l.fs s r l'.fs) (fun _ => True) l := by
    rw [inodeStep, Holdings.wp_onFs]
    exact inodeOpen_mirrored h
  exact wp_of_ok hwp hopen

/-- **In-memory inodes are unique and mirror their sectors.** In every state that operations on inodes reach from a
formatted file system, `open_inodes` has one inode for a sector at most, and the data of every inode are what its sector
holds; a sector that is opened again before the inode is closed for the last time gives the same inode; and an inode that
is closed and opened again has the data that it had. -/
theorem open_inodes_mirror_sectors {d : Disk} {k₀ : Fs} (hformat : filesysInit true (Fs.boot d) = .ok ((), k₀))
    (hrun : Run inodeStep (fun op l => op.Ok l) (Holdings.start k₀) l) :
    l.fs.openInodes.Nodup ∧
    (∀ a ∈ l.fs.openInodes, ∃ i, l.fs.inodes.cell a = some i ∧ i.data = InodeDisk.decode (l.fs.buffers.content i.sector) ∧
      ∀ a' ∈ l.fs.openInodes, ∀ i', l.fs.inodes.cell a' = some i' → i'.sector = i.sector → a' = a) ∧
    (∀ s a l₁ l₂ a' l₃, s ∈ l.made → inodeStep (.openAt s) l = .ok (a, l₁) →
      Run inodeStep (fun op l => op.Ok l ∧ ¬ op.ClosesLast l a) l₁ l₂ → inodeStep (.openAt s) l₂ = .ok (a', l₃) → a' = a) ∧
    ∀ a i l₁ l₂ r a', l.fs.inodes.cell a = some i → inodeStep (.close a) l = .ok (r, l₁) →
      inodeStep (.openAt i.sector) l₁ = .ok (a', l₂) → ∃ i', l₂.fs.inodes.cell a' = some i' ∧ i'.data = i.data := by
  have h := reachable_mirrors hformat hrun
  refine ⟨h.nodup, fun a ha => ?_, fun s a l₁ l₂ a' l₃ hs hopen hrun' hopen' => ?_, fun a i l₁ l₂ r a' hi hclose hopen => ?_⟩
  · obtain ⟨i, hi⟩ := h.live a ha
    exact ⟨i, hi, h.sync a i hi (l.fs.inodes.ne_null hi), fun a' _ i' hi' heq => h.unique a' i' a i hi' hi heq⟩
  · obtain ⟨i₁, hi₁, rfl, -⟩ := (openAt_opens h hopen).cell_self
    obtain ⟨h₂, -, hstay⟩ := stays_run (wp_of_ok (inodeStep_mirrors h (.openAt i₁.sector) hs) hopen).1 hrun'
    obtain ⟨i₂, hi₂, hsec⟩ := hstay i₁ hi₁
    rw [← hsec] at hopen'
    exact (openAt_opens h₂ hopen').eq_of_cell h₂ hi₂
  · have hclose' : wp (inodeStep (.close a)) (fun _ l₁ => l₁.Mirrors ∧ l₁.made = l.made ∧ l₁.fs.buffers = l.fs.buffers)
        (fun _ => True) l := by
      rw [inodeStep, wp_bind, Holdings.wp_onFs]
      refine wp_post (inodeClose_mirrored h) ?_
      rintro - k' (rfl | ⟨j, -, ⟨-, rfl⟩ | ⟨-, rfl⟩⟩)
      · exact ⟨h, rfl, rfl⟩
      · exact ⟨h.openers a (-1), rfl, rfl⟩
      · exact ⟨h.drop a, rfl, rfl⟩
    obtain ⟨h₁, hmade, hB⟩ := wp_of_ok hclose' hclose
    have hs : i.sector ∈ l₁.made := by
      rw [hmade]
      exact (h.sector a i hi).1
    have ho := openAt_opens h₁ hopen
    obtain ⟨i', hi', hsec, -⟩ := ho.cell_self
    have hsync := (ho.mirrored h₁ hs).sync a' i' hi' (l₂.fs.inodes.ne_null hi')
    refine ⟨i', hi', ?_⟩
    rw [hsync, hsec, ho.content_eq, hB]
    exact (h.sync a i hi (l.fs.inodes.ne_null hi)).symm

/-- A disk of sixteen sectors is formatted and a file of 600 bytes is made and opened: its data in memory are those in its
sector. -/
theorem open_inodes_mirror_new_file : ∃ k₀ l a i, filesysInit true (Fs.boot (Disk.blank 16 (by decide))) = .ok ((), k₀) ∧
    Run inodeStep (fun op l => op.Ok l) (Holdings.start k₀) l ∧ l.fs.inodes.cell a = some i ∧ i.data.length = 600 ∧
    i.data = InodeDisk.decode (l.fs.buffers.content i.sector) := by
  have hcheck : (filesysInit true).returns (fun _ k => (inodeStep .allocate).returns (fun s l₁ =>
      decide (2 ≤ s) && decide (s ∈ l₁.owned) && decide (l₁.made = [0, 1]) &&
        (inodeStep (.create s 600 false)).returns (fun _ l₂ => decide (s ∈ l₂.made) &&
          (inodeStep (.openAt s)).returns (fun a l₃ => (l₃.fs.inodes.cell a).any fun i => decide (i.data.length = 600)) l₂) l₁)
      (Holdings.start k)) (Fs.boot (Disk.blank 16 (by decide))) = true := by decide +kernel
  obtain ⟨⟨⟩, k₀, hformat, hcheck⟩ := exists_of_returns hcheck
  obtain ⟨s, l₁, h₁, hcheck⟩ := exists_of_returns hcheck
  simp only [Bool.and_eq_true, decide_eq_true_eq] at hcheck
  obtain ⟨⟨⟨h2, hown⟩, hmade⟩, hcheck⟩ := hcheck
  obtain ⟨r, l₂, h₂, hcheck⟩ := exists_of_returns hcheck
  simp only [Bool.and_eq_true, decide_eq_true_eq] at hcheck
  obtain ⟨hmade₂, hcheck⟩ := hcheck
  obtain ⟨a, l₃, h₃, hcheck⟩ := exists_of_returns hcheck
  obtain ⟨i, hi, hlen⟩ := (Option.any_eq_true _ _).1 hcheck
  have hrun₁ : Run inodeStep (fun op l => op.Ok l) (Holdings.start k₀) l₁ :=
    .tail (i := .allocate) (.refl _) trivial h₁
  have hnone : ∀ b j, l₁.fs.inodes.cell b = some j → j.sector ≠ s := by
    intro b j hj hs
    have hmem := ((reachable_mirrors hformat hrun₁).sector b j hj).1
    rw [hmade, hs] at hmem
    rcases List.mem_pair.1 hmem with rfl | rfl <;> omega
  have hrun₂ : Run inodeStep (fun op l => op.Ok l) (Holdings.start k₀) l₂ :=
    .tail (i := .create s 600 false) hrun₁ ⟨hown, ⟨by decide, by decide⟩, hnone⟩ h₂
  have hrun : Run inodeStep (fun op l => op.Ok l) (Holdings.start k₀) l₃ := .tail (i := .openAt s) hrun₂ hmade₂ h₃
  have ha : a ∈ l₃.fs.openInodes := (reachable_mirrors hformat hrun).listed a i hi
  obtain ⟨-, hsync, -⟩ := open_inodes_mirror_sectors hformat hrun
  obtain ⟨i', hi', hdata, -⟩ := hsync a ha
  rw [hi] at hi'
  cases hi'
  exact ⟨k₀, l₃, a, i, hformat, hrun, hi, of_decide_eq_true hlen, hdata⟩

end Pintos
