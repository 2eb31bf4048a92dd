import Pintos.Filesys.Format

/-!
# Inodes in memory mirror their sectors

`open_inodes` holds one `struct inode` for a sector at most, and between
operations the data in memory are what the sector holds, however the inodes are
created, opened, grown, written and closed. Unlike `Wf` this is not about the
files: a file may be of any length, also of more than 512 sectors, whose blocks
`inode_grow` loses, and blocks need not be apart. What matters is only that no
write ever reaches the sector of an inode but the one that `inode_grow` or
`inode_create` makes for it. A sector is either set aside for an inode by a
caller of `free_map_allocate`, or `inode_grow` has allocated it for data: the
blocks through which data are written are of the second kind.
-/

namespace Pintos

open Library Library.Prog Library.Bytes

/-! ### Sectors for inodes and sectors for data -/

/-- Sector `b` is for data: it is marked in the free map `M`, and not one of the sectors `S` of inodes. -/
def DataSector (S : Set ℕ) (M : Bitmap) (b : ℕ) : Prop := M.bit b = true ∧ b ∉ S

/-- **The blocks that can be found satisfy `P`**: those in `start`, or in the table of an inode of at most 512
sectors. -/
structure BlocksIn (P : ℕ → Prop) (T : Heap Table) (d : InodeDisk) : Prop where
  fits : d.Fits
  nonneg : 0 ≤ d.length
  direct : bytesToSectors d.length ≤ directPointers →
    ∀ i : Fin directPointers, i.1 < bytesToSectors d.length → P (d.start i)
  indirect : directPointers < bytesToSectors d.length → bytesToSectors d.length ≤ sectorSize →
    ∃ t, T.cell d.indirect = some t ∧ ∀ i : Fin 512, i.1 < bytesToSectors d.length → P (t i)

/-- The tables stay, and an entry that satisfied `P` satisfies `P'`. -/
def EntriesKeep (P P' : ℕ → Prop) (T T' : Heap Table) : Prop :=
  ∀ a t, T.cell a = some t → ∃ t', T'.cell a = some t' ∧ ∀ i, P (t i) → P' (t' i)

/-- The contents of the sectors in `S` stay. -/
structure Untouched (S : Set ℕ) (B B' : Buffers) : Prop where
  wf : B'.Wf
  capacity : B'.disk.capacity = B.disk.capacity
  content : ∀ s ∈ S, B'.content s = B.content s

variable {S C : Set ℕ} {P P' : ℕ → Prop} {T T' : Heap Table} {B B' B'' : Buffers} {k k' : Fs} {d d' : InodeDisk}
  {i : Inode} {u a s b : ℕ} {r : DataRef} {persist : FsM Bool}

theorem EntriesKeep.of_imp (h : ∀ b, P b → P' b) : EntriesKeep P P' T T := fun _ t ht => ⟨t, ht, fun i => h (t i)⟩

theorem BlocksIn.mono (h : BlocksIn P T d) (hP : ∀ b, P b → P' b) (hT : EntriesKeep P P' T T') : BlocksIn P' T' d := by
  refine ⟨h.fits, h.nonneg, fun hn i hi => hP _ (h.direct hn i hi), fun hn hn' => ?_⟩
  obtain ⟨t, ht, hblocks⟩ := h.indirect hn hn'
  obtain ⟨t', ht', hkeep⟩ := hT _ t ht
  exact ⟨t', ht', fun i hi => hkeep i (hblocks i hi)⟩

theorem Untouched.refl (h : B.Wf) : Untouched S B B := ⟨h, rfl, fun _ _ => rfl⟩

theorem Untouched.trans (h : Untouched S B B') (h' : Untouched S B' B'') : Untouched S B B'' :=
  ⟨h'.wf, h'.capacity.trans h.capacity, fun s hs => (h'.content s hs).trans (h.content s hs)⟩

theorem Untouched.of_keeps (h : Buffers.Keeps B B') : Untouched S B B' := ⟨h.wf, h.capacity, fun s _ => h.content s⟩

/-- A write to a sector that is not in `S`, if it returns. -/
theorem cachedWrite_untouched {src : ℕ → UInt8} {ofs n : ℕ} (hc : k.buffers.Wf) (hb : b ∉ S) :
    wp (cached (bufferCacheWrite b src ofs n)) (fun _ k' => ∃ B, Untouched S k.buffers B ∧ k' = { k with buffers := B })
      (fun _ => True) k := by
  by_cases hn : ofs + n ≤ sectorSize
  · refine wp_mono (cachedWrite_spec hc hn) ?_ fun _ _ => trivial
    rintro - k' ⟨B, hB, rfl⟩
    refine ⟨B, ⟨hB.wf, hB.capacity, fun s hs => ?_⟩, rfl⟩
    rw [hB.content, if_neg]
    rintro rfl
    exact hb hs
  · rw [cached, wp_within, bufferCacheWrite]
    refine wp_seq wp_true (fun _ h => h) fun a st _ => ?_
    refine wp_seq wp_true (fun _ h => h) fun _ _ _ => ?_
    rw [if_neg hn, wp_stop]
    trivial

/-! ### The invariant -/

/-- **The inodes in memory mirror their sectors.** `S` are the sectors set aside for inodes and `C` those in which an
inode was created. The inode at `u`, which is being grown, is not written back yet. -/
structure Mirrored (S C : Set ℕ) (k : Fs) (u : ℕ) : Prop where
  cache : k.buffers.Wf
  size : k.freeMap.bitCnt = k.buffers.disk.capacity
  marked : ∀ s ∈ S, k.freeMap.bit s = true
  made : C ⊆ S
  disk : ∀ s ∈ C, BlocksIn (DataSector S k.freeMap) k.tables (InodeDisk.decode (k.buffers.content s)) ∧
    (bytesToSectors (InodeDisk.decode (k.buffers.content s)).length ≤ directPointers →
      (InodeDisk.decode (k.buffers.content s)).indirect = 0)
  listed : ∀ a i, k.inodes.cell a = some i → a ∈ k.openInodes
  live : ∀ a ∈ k.openInodes, ∃ i, k.inodes.cell a = some i
  nodup : k.openInodes.Nodup
  unique : ∀ a i a' i', k.inodes.cell a = some i → k.inodes.cell a' = some i' → i.sector = i'.sector → a = a'
  sector : ∀ a i, k.inodes.cell a = some i → i.sector ∈ C ∧ i.removed = false
  blocks : ∀ a i, k.inodes.cell a = some i → BlocksIn (DataSector S k.freeMap) k.tables i.data
  sync : ∀ a i, k.inodes.cell a = some i → a ≠ u → i.data = InodeDisk.decode (k.buffers.content i.sector)
  file : ∀ f, k.files.cell k.freeMapFile = some f → f.inode < k.inodes.next ∧
    ∀ i, k.inodes.cell f.inode = some i → (k.freeMap.fileSize : ℤ) ≤ i.data.length

namespace Mirrored

/-- Write to sectors that are not those of inodes. -/
theorem untouched (h : Mirrored S C k u) (hB : Untouched S k.buffers B) : Mirrored S C { k with buffers := B } u := by
  refine ⟨hB.wf, h.size.trans hB.capacity.symm, h.marked, h.made, fun s hs => ?_, h.listed, h.live, h.nodup, h.unique, h.sector,
    h.blocks, fun a i hi hu => ?_, h.file⟩
  · change BlocksIn _ _ (InodeDisk.decode (B.content s)) ∧ (bytesToSectors (InodeDisk.decode (B.content s)).length ≤ _ →
      (InodeDisk.decode (B.content s)).indirect = 0)
    rw [hB.content s (h.made hs)]
    exact h.disk s hs
  · change i.data = InodeDisk.decode (B.content i.sector)
    rw [hB.content _ (h.made (h.sector a i hi).1)]
    exact h.sync a i hi hu

/-- Change the free map, the tables and the sectors set aside, where the inodes have no blocks. -/
theorem of_map {M : Bitmap} {S' : Set ℕ} (h : Mirrored S C k u) (hcnt : M.bitCnt = k.freeMap.bitCnt)
    (hmark : ∀ s ∈ S', M.bit s = true) (hS : S ⊆ S') (hP : ∀ b, DataSector S k.freeMap b → DataSector S' M b)
    (hT : EntriesKeep (DataSector S k.freeMap) (DataSector S' M) k.tables T) :
    Mirrored S' C { k with freeMap := M, tables := T } u := by
  refine ⟨h.cache, hcnt.trans h.size, hmark, h.made.trans hS, fun s hs => ⟨(h.disk s hs).1.mono hP hT, (h.disk s hs).2⟩, h.listed,
    h.live, h.nodup, h.unique, h.sector, fun a i hi => (h.blocks a i hi).mono hP hT, h.sync, fun f hf => ?_⟩
  refine ⟨(h.file f hf).1, fun i hi => ?_⟩
  unfold Bitmap.fileSize
  rw [show ({ k with freeMap := M, tables := T } : Fs).freeMap.bitCnt = k.freeMap.bitCnt from hcnt]
  exact (h.file f hf).2 i hi

theorem exempt (h : Mirrored S C k 0) (u : ℕ) : Mirrored S C k u :=
  { h with sync := fun a i hi _ => h.sync a i hi (k.inodes.ne_null hi) }

end Mirrored

/-! ### Finding a block -/

theorem tdiv_of_nonpos {x : ℤ} (h : x ≤ 0) : x.tdiv 512 = -(-x / 512) := by
  rw [← Int.tdiv_eq_ediv_of_nonneg (by omega), Int.neg_tdiv, Int.neg_neg]

/-- A length whose sectors an inode can have. -/
theorem bytesToSectors_small {L : ℤ} (h0 : 0 ≤ L) (hL : InRange L) (hs : bytesToSectors L ≤ sectorSize * sectorSize) :
    L.toNat + 511 < 2 ^ 31 ∧ bytesToSectors L = sectorsFor L.toNat := by
  obtain ⟨n, rfl⟩ := Int.eq_ofNat_of_zero_le h0
  have hn : n < 2 ^ 31 := by
    have := hL.2
    omega
  by_cases hsmall : n + 511 < 2 ^ 31
  · exact ⟨hsmall, bytesToSectors_natCast hsmall⟩
  · -- the sum overflows, and the number of sectors is huge
    exfalso
    have hwrap : wrap ((n : ℤ) + 511) = n + 511 - 2 ^ 32 := by
      unfold wrap toSigned ofSigned
      split_ifs <;> omega
    rw [bytesToSectors, hwrap, tdiv_of_nonpos (by omega)] at hs
    unfold ofSigned sectorSize at hs
    omega

theorem bytesToSectors_neg {pos : ℤ} (h : pos < 0) (hr : InRange pos) : bytesToSectors pos = 0 ∨ 512 < bytesToSectors pos := by
  have := hr.1
  rw [bytesToSectors, wrap_eq ⟨by omega, by omega⟩]
  by_cases h511 : 0 ≤ pos + 511
  · rw [Int.tdiv_eq_ediv_of_nonneg h511]
    unfold ofSigned
    omega
  · rw [tdiv_of_nonpos (by omega)]
    unfold ofSigned
    omega

/-- Looking for a block changes nothing. -/
theorem sectorOf_pure (pos : ℤ) : wp (sectorOf a pos) (fun _ k' => k' = k) (fun _ => True) k := by
  have hstart : ∀ d j, wp (startAt d j) (fun _ k' => k' = k) (fun _ => True) k := by
    intro d j
    rw [startAt]
    split_ifs
    · rfl
    · trivial
  have htable : ∀ t j, wp (tableAt t j) (fun _ k' => k' = k) (fun _ => True) k := by
    intro t j
    rw [tableAt, wp_bind, wp_gets, wp_bind, wp_orStop]
    refine ⟨fun T _ => ?_, fun _ => trivial⟩
    split_ifs
    · rfl
    · trivial
  rw [sectorOf, wp_bind, inodeAt, wp_bind, wp_gets, wp_orStop]
  refine ⟨fun i _ => ?_, fun _ => trivial⟩
  simp only [wp_ite, wp_stop]
  exact ⟨fun _ => hstart _ _, fun _ => ⟨fun _ => trivial, fun _ => ⟨fun _ => hstart _ _, fun _ => ⟨fun _ => htable _ _,
    fun _ => ⟨fun _ => trivial, fun _ => trivial⟩⟩⟩⟩⟩

/-- The block before `pos`, if it can be found. -/
theorem sectorOf_block {pos : ℤ} (hi : k.inodes.cell a = some i) (hb : BlocksIn P k.tables i.data) (hr : InRange pos)
    (h0 : pos ≠ 0) (hpos : pos ≤ i.data.length) : wp (sectorOf a pos) (fun b k' => P b ∧ 0 < pos ∧ k' = k) (fun _ => True) k := by
  rw [sectorOf, wp_bind]
  refine wp_inodeAt hi ?_
  have hplace : bytesToSectors pos ≠ 0 → bytesToSectors i.data.length ≤ sectorSize * sectorSize → bytesToSectors pos - 1 < 512 →
      0 < pos ∧ bytesToSectors pos - 1 < bytesToSectors i.data.length := by
    intro htarget hs hlt
    obtain ⟨hsmall, heq⟩ := bytesToSectors_small hb.nonneg hb.fits.length hs
    have hpos0 : 0 < pos := by
      by_contra hneg
      rcases bytesToSectors_neg (show pos < 0 by omega) hr with h | h <;> omega
    obtain ⟨n, rfl⟩ := Int.eq_ofNat_of_zero_le hpos0.le
    rw [heq, bytesToSectors_natCast (by omega)]
    unfold sectorsFor
    omega
  rw [if_neg h0, wp_ite]
  refine ⟨fun _ => trivial, fun htarget => ?_⟩
  rw [wp_ite]
  refine ⟨fun hn => ?_, fun hn => ?_⟩
  · rw [startAt]
    by_cases hj : bytesToSectors pos - 1 < directPointers
    · obtain ⟨hpos0, hlt⟩ := hplace htarget (hn.trans (by decide)) (hj.trans (by decide))
      rw [dif_pos hj, wp_pure]
      exact ⟨hb.direct hn ⟨_, hj⟩ hlt, hpos0, rfl⟩
    · rw [dif_neg hj, wp_stop]
      trivial
  · rw [wp_ite]
    refine ⟨fun hn' => ?_, fun hn' => ?_⟩
    · obtain ⟨t, ht, hblocks⟩ := hb.indirect (Nat.not_le.1 hn) hn'
      by_cases hj : bytesToSectors pos - 1 < 512
      · obtain ⟨hpos0, hlt⟩ := hplace htarget (hn'.trans (by decide)) hj
        exact wp_tableAt ht ⟨_, hj⟩ ⟨hblocks ⟨_, hj⟩ hlt, hpos0, rfl⟩
      · rw [tableAt, wp_bind, wp_gets, wp_bind, ht, wp_orStop_some, dif_neg hj, wp_stop]
        trivial
    · rw [wp_ite, wp_stop, wp_stop]
      exact ⟨fun _ => trivial, fun _ => trivial⟩

/-! ### Writing the free map -/

/-- A write of the free map that changes nothing but sectors for data. -/
def Confined (persist : FsM Bool) : Prop :=
  ∀ S C k u, Mirrored S C k u →
    wp persist (fun _ k' => ∃ B, Untouched S k.buffers B ∧ k' = { k with buffers := B }) (fun _ => True) k

/-- The loop of `inode_write_at` inside a file, where it does not grow. -/
theorem writeLoop_confined {n size off written : ℕ} {buf : ℕ → UInt8} (hc : k.buffers.Wf) (hi : k.inodes.cell a = some i)
    (hb : BlocksIn (DataSector S k.freeMap) k.tables i.data) (hin : ((off + size : ℕ) : ℤ) ≤ i.data.length) :
    wp (writeLoop persist a buf n size off written)
      (fun _ k' => ∃ B, Untouched S k.buffers B ∧ k' = { k with buffers := B }) (fun _ => True) k := by
  induction n generalizing k size off written with
  | zero => exact ⟨_, .refl hc, rfl⟩
  | succ n ih =>
    have hL := hb.fits.length.2
    rw [writeLoop, wp_ite]
    refine ⟨fun _ => ⟨_, .refl hc, rfl⟩, fun hsize => ?_⟩
    have hofs : (off : ℤ).tmod 512 = ((off % 512 : ℕ) : ℤ) := by
      rw [Int.tmod_eq_emod_of_nonneg (by omega)]
      omega
    have hmod : off % 512 ≤ off := Nat.mod_le _ _
    rw [wp_bind]
    refine wp_inodeAt hi ?_
    simp only [hofs]
    rw [wp_bind, onlyIf, if_neg (by rw [wrap_eq ⟨by omega, by omega⟩]; omega), wp_pure, wp_bind]
    refine wp_inodeAt hi ?_
    -- the chunk is not longer than what is to be written
    set c := (if ofSigned (size : ℤ) < _ then _ else _ : ℕ) with hcdef
    have hcs : c ≤ size := by
      have : ofSigned (size : ℤ) = size := by rw [ofSigned_of_nonneg (by omega) (by omega)]; simp
      rw [hcdef, this]
      split_ifs <;> omega
    have hpos : wrap ((off : ℤ) + c) = ((off + c : ℕ) : ℤ) := by rw [wrap_eq ⟨by omega, by omega⟩]; push_cast; rfl
    rw [wp_bind, hpos, byteToSector, wp_bind]
    refine wp_inodeAt hi ?_
    rw [wp_bind]
    refine inodeGrow_noop hi (by push_cast at hin ⊢; omega) ?_
    by_cases hc0 : c = 0
    · refine wp_post (sectorOf_pure _) ?_
      rintro b k' rfl
      rw [if_pos hc0, wp_pure]
      exact ⟨_, .refl hc, rfl⟩
    · refine wp_post (sectorOf_block hi hb ⟨by omega, by push_cast at hin ⊢; omega⟩ (by omega)
        (by push_cast at hin ⊢; omega)) ?_
      rintro b k' ⟨hdata, -, rfl⟩
      rw [if_neg hc0, wp_bind]
      refine wp_post (cachedWrite_untouched hc hdata.2) ?_
      rintro - k' ⟨B, hB, rfl⟩
      have hsub : wrap ((size : ℤ) - c) = ((size - c : ℕ) : ℤ) := by
        rw [wrap_eq ⟨by omega, by omega⟩]
        omega
      rw [hsub]
      refine wp_post (ih hB.wf hi hb (by omega)) ?_
      rintro - k' ⟨B', hB', rfl⟩
      exact ⟨B', hB.trans hB', rfl⟩

/-- **`bitmap_write`** writes inside the free map's file. -/
theorem bitmapWrite_confined (n : ℕ) : Confined (bitmapWrite n) := by
  intro S C k u h
  cases n with
  | zero => exact trivial
  | succ n =>
    rw [bitmapWrite, wp_bind, wp_gets, wp_bind, wp_gets, wp_bind, fileAt, wp_bind, wp_gets, wp_orStop]
    refine ⟨fun f hf => ?_, fun _ => trivial⟩
    rw [wp_bind, inodeWriteAt, wp_bind]
    refine wp_inodeAt_of fun i hi => ?_
    rw [wp_ite]
    refine ⟨fun _ => ⟨_, .refl h.cache, rfl⟩, fun _ => ?_⟩
    have hin : ((0 + k.freeMap.fileSize : ℕ) : ℤ) ≤ i.data.length := by
      rw [Nat.zero_add]
      exact (h.file f hf).2 i hi
    exact wp_post (writeLoop_confined h.cache hi (h.blocks _ i hi) hin) fun _ _ h => h

theorem setMultiple_clear {M : Bitmap} (hb : M.bit b = false) : (M.setMultiple b 1 true).setMultiple b 1 false = M := by
  have hbit : ((M.setMultiple b 1 true).setMultiple b 1 false).bit = M.bit := by
    funext j
    rw [Bitmap.bit_setMultiple_one, Bitmap.bit_setMultiple_one]
    split_ifs with hj
    · rw [hj, hb]
    · rfl
  exact congrArg (Bitmap.mk M.bitCnt) hbit

/-- A sector was taken from the free map. -/
structure Takes (S : Set ℕ) (k : Fs) (b : ℕ) (k' : Fs) : Prop where
  lt : b < k.buffers.disk.capacity
  clear : k.freeMap.bit b = false
  frame : ∃ B, Untouched S k.buffers B ∧ k' = { k with freeMap := k.freeMap.setMultiple b 1 true, buffers := B }

/-- What is marked stays marked. -/
theorem DataSector.mark {M : Bitmap} {c : ℕ} (h : DataSector S M c) (b : ℕ) : DataSector S (M.setMultiple b 1 true) c := by
  refine ⟨?_, h.2⟩
  rw [Bitmap.bit_setMultiple_one]
  split_ifs
  · rfl
  · exact h.1

theorem Mirrored.mark (h : Mirrored S C k u) (b : ℕ) : Mirrored S C { k with freeMap := k.freeMap.setMultiple b 1 true } u := by
  refine h.of_map (T := k.tables) rfl (fun s hs => ?_) subset_rfl (fun c hc => hc.mark b) (.of_imp fun c hc => hc.mark b)
  rw [Bitmap.bit_setMultiple_one]
  split_ifs
  · rfl
  · exact h.marked s hs

/-- **`free_map_allocate`** takes a sector, or it changes nothing but sectors for data. -/
theorem freeMapAllocate_takes (hp : Confined persist) (h : Mirrored S C k u) :
    wp (freeMapAllocate persist 1)
      (fun o k' => (∃ b, o = some b ∧ Takes S k b k') ∨ o = none ∧ ∃ B, Untouched S k.buffers B ∧ k' = { k with buffers := B })
      (fun _ => True) k := by
  rw [freeMapAllocate, wp_bind, wp_gets]
  cases hscan : k.freeMap.scan 0 1 false with
  | none => exact .inr ⟨rfl, _, .refl h.cache, rfl⟩
  | some b =>
    obtain ⟨hlt, hclear, -⟩ := Bitmap.scan_one_eq_some hscan
    rw [h.size] at hlt
    rw [wp_bind, wp_modify, wp_bind, wp_gets, wp_ite]
    refine ⟨fun _ => .inl ⟨b, rfl, hlt, hclear, _, .refl h.cache, rfl⟩, fun _ => ?_⟩
    rw [wp_bind]
    refine wp_post (hp S C _ u (h.mark b)) ?_
    rintro ok k' ⟨B, hB, rfl⟩
    rw [wp_ite, wp_pure, wp_bind, wp_modify, wp_pure]
    refine ⟨fun _ => .inl ⟨b, rfl, hlt, hclear, B, hB, rfl⟩, fun _ => .inr ⟨rfl, B, hB, ?_⟩⟩
    rw [setMultiple_clear hclear]

namespace Takes

theorem notMem (h : Takes S k b k') (hm : Mirrored S C k u) : b ∉ S := by
  intro hb
  have := hm.marked b hb
  rw [h.clear] at this
  cases this

/-- The sector is for data. -/
theorem mirrored (h : Takes S k b k') (hm : Mirrored S C k u) : Mirrored S C k' u := by
  obtain ⟨B, hB, rfl⟩ := h.frame
  exact (hm.mark b).untouched hB

theorem data (h : Takes S k b k') (hm : Mirrored S C k u) : DataSector S k'.freeMap b := by
  obtain ⟨B, -, rfl⟩ := h.frame
  refine ⟨?_, h.notMem hm⟩
  rw [Bitmap.bit_setMultiple_one, if_pos rfl]

/-- The sector is set aside for an inode. -/
theorem reserve (h : Takes S k b k') (hm : Mirrored S C k u) : Mirrored (insert b S) C k' u := by
  obtain ⟨B, hB, rfl⟩ := h.frame
  have hP : ∀ c, DataSector S k.freeMap c → DataSector (insert b S) (k.freeMap.setMultiple b 1 true) c := by
    rintro c ⟨hc, hS⟩
    refine ⟨(DataSector.mark ⟨hc, hS⟩ b).1, ?_⟩
    rintro (rfl | hmem)
    · rw [h.clear] at hc
      cases hc
    · exact hS hmem
  have hmark : ∀ s ∈ insert b S, (k.freeMap.setMultiple b 1 true).bit s = true := by
    rintro s (rfl | hs)
    · rw [Bitmap.bit_setMultiple_one, if_pos rfl]
    · exact (hm.mark b).marked s hs
  have hkeep : Mirrored (insert b S) C { k with freeMap := k.freeMap.setMultiple b 1 true } u :=
    hm.of_map (T := k.tables) rfl hmark (Set.subset_insert b S) hP (.of_imp hP)
  -- the write of the map spared the sectors that inodes are in
  refine ⟨hB.wf, hkeep.size.trans hB.capacity.symm, hkeep.marked, hkeep.made, fun s hs => ?_, hkeep.listed, hkeep.live, hkeep.nodup,
    hkeep.unique, hkeep.sector, hkeep.blocks, fun a i hi hu => ?_, hkeep.file⟩
  · have hs' := hkeep.disk s hs
    rw [show ({ k with freeMap := k.freeMap.setMultiple b 1 true } : Fs).buffers.content s = B.content s from
      (hB.content s (hm.made hs)).symm] at hs'
    exact hs'
  · change i.data = InodeDisk.decode (B.content i.sector)
    rw [hB.content _ (hm.made (hm.sector a i hi).1)]
    exact hm.sync a i hi hu

end Takes

/-! ### Growing -/

/-- What is in the slot is a sector for data. -/
def Holds (S : Set ℕ) (k : Fs) (r : DataRef) (slot : Slot) : Prop :=
  ∃ b, k.slotVal r slot = some b ∧ DataSector S k.freeMap b

/-- **Halfway through `inode_grow`** of the inode with the data `d`. -/
structure Growth (S C : Set ℕ) (k₀ : Fs) (r : DataRef) (d : InodeDisk) (k : Fs) : Prop where
  mirrored : Mirrored S C k r.addr
  steady : Steady k₀ k
  data : k.dataOf r = some d
  blocks : BlocksIn (DataSector S k.freeMap) k.tables d

/-- A sector for data is stored in a slot, if there is such a slot. -/
theorem storeSlot_slotVal (hd : k.dataOf r = some d) (slot : Slot) :
    wp (storeSlot r b slot) (fun _ k' => (∃ c, k.slotVal r slot = some c) ∧ k' = k.storeIn r d b slot) (fun _ => True) k := by
  cases slot with
  | direct i =>
    rw [storeSlot]
    by_cases hi : i < directPointers
    · have heq : Function.update d.start ⟨i, hi⟩ b = fun j => if j.1 = i then b else d.start j := by
        funext j
        simp only [Function.update_apply, Fin.ext_iff]
      rw [dif_pos hi]
      refine wp_updateData hd ⟨⟨d.start ⟨i, hi⟩, ?_⟩, ?_⟩
      · rw [Fs.slotVal, hd, Option.bind_some, dif_pos hi]
      · rw [Fs.storeIn, heq]
    · rw [dif_neg hi, wp_stop]
      trivial
  | entry t j =>
    rw [storeSlot, wp_bind, tableAt, wp_bind, wp_gets, wp_bind, wp_orStop]
    refine ⟨fun T hT => ?_, fun _ => trivial⟩
    by_cases hj : j < 512
    · have heq : (fun T : Table => Function.update T (Fin.ofNat 512 j) b) = fun T l => if l.1 = j then b else T l := by
        funext T l
        simp only [Function.update_apply, Fin.ext_iff, Fin.ofNat, Nat.mod_eq_of_lt hj]
      rw [dif_pos hj, wp_pure, wp_modify, heq]
      refine ⟨⟨T ⟨j, hj⟩, ?_⟩, rfl⟩
      rw [Fs.slotVal, hT, Option.bind_some, dif_pos hj]
    · rw [dif_neg hj, wp_stop]
      trivial

/-- After the store every slot holds what it held, or the sector. -/
theorem slotVal_storeIn_cases (hd : k.dataOf r = some d) {slot slot' : Slot} {c : ℕ} (hc : k.slotVal r slot' = some c) :
    (k.storeIn r d b slot).slotVal r slot' = some b ∨
      (k.storeIn r d b slot).slotVal r slot' = some c ∧ slot' ≠ slot := by
  cases slot with
  | direct i =>
    cases slot' with
    | direct j =>
      simp only [Fs.slotVal, hd, Option.bind_some, Fs.storeIn, Fs.dataOf_setData hd, Slot.direct.injEq, ne_eq] at hc ⊢
      split_ifs at hc ⊢ with h1 h2
      · exact .inl rfl
      · exact .inr ⟨hc, h2⟩
    | entry t j =>
      refine .inr ⟨?_, by simp⟩
      rw [Fs.storeIn, Fs.slotVal, Fs.setData_tables]
      exact hc
  | entry t i =>
    cases slot' with
    | direct j =>
      refine .inr ⟨?_, by simp⟩
      rw [Fs.storeIn, Fs.slotVal, Fs.dataOf_congr rfl rfl]
      exact hc
    | entry t' j =>
      obtain ⟨T, hT, hval⟩ := Option.bind_eq_some_iff.1 hc
      by_cases ht : t' = t
      · subst ht
        simp only [Fs.slotVal, Fs.storeIn, Heap.cell_set_self, hT, Option.map_some, Option.bind_some, ne_eq, Slot.entry.injEq,
          true_and] at hval ⊢
        split_ifs at hval ⊢ with h1 h2
        · exact .inl rfl
        · exact .inr ⟨hval, h2⟩
      · refine .inr ⟨?_, fun h => ht (Slot.entry.inj h).1⟩
        rw [Fs.slotVal, Fs.storeIn, Heap.cell_set_of_ne _ _ ht]
        exact hc

/-- The tables after the store of a sector for data. -/
theorem entriesKeep_storeIn (hb : P b) (slot : Slot) : EntriesKeep P P k.tables (k.storeIn r d b slot).tables := by
  cases slot with
  | direct i =>
    rw [Fs.storeIn, Fs.setData_tables]
    exact .of_imp fun _ h => h
  | entry t j =>
    intro t' T hT
    by_cases ht : t' = t
    · subst ht
      refine ⟨_, by rw [Fs.storeIn, Heap.cell_set_self, hT]; rfl, fun l hl => ?_⟩
      simp only
      split_ifs
      · exact hb
      · exact hl
    · exact ⟨T, by rw [Fs.storeIn, Heap.cell_set_of_ne _ _ ht]; exact hT, fun _ h => h⟩

/-- The data of the inode that is being grown change, and not its length. -/
theorem Mirrored.setData (h : Mirrored S C k r.addr) (hd : k.dataOf r = some d) (hlen : d.length ≤ d'.length)
    (hb : BlocksIn (DataSector S k.freeMap) k.tables d') : Mirrored S C (k.setData d' r) r.addr := by
  cases r with
  | temp =>
    exact ⟨h.cache, h.size, h.marked, h.made, h.disk, h.listed, h.live, h.nodup, h.unique, h.sector, h.blocks, h.sync, h.file⟩
  | inode a =>
    obtain ⟨i₀, hi₀, rfl⟩ := Option.map_eq_some_iff.1 hd
    refine ⟨h.cache, h.size, h.marked, h.made, h.disk, ?_, ?_, h.nodup, ?_, ?_, ?_, ?_, ?_⟩
    · intro b j hj
      obtain ⟨i, hi, -⟩ := Fs.cell_setData_cases hj
      exact h.listed b i hi
    · intro b hb'
      obtain ⟨i, hi⟩ := h.live b hb'
      rw [Fs.setData_cell, hi]
      split_ifs
      · exact ⟨_, rfl⟩
      · exact ⟨i, rfl⟩
    · intro b₁ i₁ b₂ i₂ h₁ h₂ heq
      obtain ⟨j₁, hj₁, hs₁, -⟩ := Fs.cell_setData_cases h₁
      obtain ⟨j₂, hj₂, hs₂, -⟩ := Fs.cell_setData_cases h₂
      exact h.unique b₁ j₁ b₂ j₂ hj₁ hj₂ (hs₁.symm.trans (heq.trans hs₂))
    · intro b j hj
      change ((k.inodes.set a _).cell b) = some j at hj
      by_cases hb' : b = a
      · subst hb'
        rw [Heap.cell_set_self, hi₀] at hj
        cases hj
        exact h.sector b i₀ hi₀
      · rw [Heap.cell_set_of_ne _ _ hb'] at hj
        exact h.sector b j hj
    · intro b j hj
      obtain ⟨i, hi, -, ⟨-, hdata⟩ | ⟨-, rfl⟩⟩ := Fs.cell_setData_cases hj
      · rw [hdata]
        exact hb
      · exact h.blocks b j hi
    · intro b j hj hu
      obtain ⟨i, hi, -, ⟨hr, -⟩ | ⟨-, rfl⟩⟩ := Fs.cell_setData_cases hj
      · cases hr
        exact absurd rfl hu
      · exact h.sync b j hi hu
    · intro f hf
      refine ⟨(h.file f hf).1, fun j hj => ?_⟩
      obtain ⟨i, hi, -, ⟨hr, hdata⟩ | ⟨-, rfl⟩⟩ := Fs.cell_setData_cases hj
      · have hle := (h.file f hf).2 i hi
        have hi' : k.inodes.cell a = some i := by
          cases hr
          exact hi
        rw [hi₀] at hi'
        cases hi'
        rw [hdata]
        exact hle.trans hlen
      · exact (h.file f hf).2 j hi

/-- A sector for data is stored for the inode. -/
theorem Growth.storeIn {k₀ : Fs} (hg : Growth S C k₀ r d k) (hb : DataSector S k.freeMap b) (h32 : b < 2 ^ 32) (slot : Slot) :
    ∃ d', Growth S C k₀ r d' (k.storeIn r d b slot) ∧ d'.length = d.length ∧ d'.indirect = d.indirect := by
  have hs := hg.steady.trans (Steady.storeIn k r d b slot)
  cases slot with
  | direct i =>
    have hf := hg.blocks.fits
    have hblocks : BlocksIn (DataSector S k.freeMap) k.tables { d with start := fun j => if j.1 = i then b else d.start j } := by
      refine ⟨⟨hf.length, hf.magic, fun l => ?_, hf.indirect, hf.doubly⟩, hg.blocks.nonneg, fun hn l hl => ?_, hg.blocks.indirect⟩
      · simp only
        split_ifs
        · exact h32
        · exact hf.start l
      · simp only
        split_ifs
        · exact hb
        · exact hg.blocks.direct hn l hl
    refine ⟨_, ⟨hg.mirrored.setData hg.data le_rfl hblocks, hs, Fs.dataOf_setData hg.data _, ?_⟩, rfl, rfl⟩
    rw [Fs.storeIn, Fs.setData_freeMap, Fs.setData_tables]
    exact hblocks
  | entry t j =>
    have hT := entriesKeep_storeIn (k := k) (r := r) (d := d) hb (.entry t j)
    refine ⟨d, ⟨?_, hs, ?_, hg.blocks.mono (fun _ h => h) hT⟩, rfl, rfl⟩
    · exact hg.mirrored.of_map (M := k.freeMap) rfl hg.mirrored.marked subset_rfl (fun _ h => h) hT
    · rw [Fs.storeIn, Fs.dataOf_congr rfl rfl]
      exact hg.data

/-- Only sectors for data were written to. -/
theorem Growth.untouched {k₀ : Fs} (hg : Growth S C k₀ r d k) (hB : Untouched S k.buffers B) :
    Growth S C k₀ r d { k with buffers := B } := by
  refine ⟨hg.mirrored.untouched hB, hg.steady.trans ⟨rfl, rfl, rfl, rfl, rfl, fun _ => rfl, rfl⟩, ?_, hg.blocks⟩
  rw [Fs.dataOf_congr rfl rfl]
  exact hg.data

/-- One round of the loop of `inode_grow`. -/
theorem allocateSlot_growth {k₀ : Fs} (hp : Confined persist) (hg : Growth S C k₀ r d k) (slot : Slot) :
    wp (allocateSlot persist r slot)
      (fun _ k' => (∃ d', Growth S C k₀ r d' k' ∧ d'.length = d.length ∧ d'.indirect = d.indirect) ∧ Holds S k' r slot ∧
        ∀ slot', Holds S k r slot' → Holds S k' r slot')
      (fun _ => True) k := by
  rw [allocateSlot, wp_bind]
  refine wp_post (freeMapAllocate_takes hp hg.mirrored) ?_
  rintro o k₁ (⟨b, rfl, ht⟩ | ⟨rfl, -⟩)
  swap
  · exact trivial
  have hm₁ := ht.mirrored hg.mirrored
  have hb := ht.data hg.mirrored
  have h32 : b < 2 ^ 32 := by
    have := ht.lt
    have := k.buffers.disk.capacity_le
    omega
  have hkeep : ∀ c, DataSector S k.freeMap c → DataSector S k₁.freeMap c := by
    obtain ⟨B, -, rfl⟩ := ht.frame
    exact fun c hc => hc.mark b
  have hg₁ : Growth S C k₀ r d k₁ := by
    obtain ⟨B, -, rfl⟩ := ht.frame
    refine ⟨hm₁, hg.steady.trans ⟨rfl, rfl, rfl, rfl, rfl, fun _ => rfl, rfl⟩, ?_, hg.blocks.mono hkeep (.of_imp hkeep)⟩
    rw [Fs.dataOf_congr rfl rfl]
    exact hg.data
  have hval : ∀ slot', k₁.slotVal r slot' = k.slotVal r slot' := by
    obtain ⟨B, -, rfl⟩ := ht.frame
    exact fun slot' => Fs.slotVal_congr rfl rfl rfl slot'
  rw [wp_bind, wp_orStop_some, wp_bind]
  refine wp_post (storeSlot_slotVal hg₁.data slot) ?_
  rintro - k₂ ⟨⟨c, hc⟩, rfl⟩
  obtain ⟨d', hg₂, hlen, hind⟩ := hg₁.storeIn hb h32 slot
  refine wp_post (cachedWrite_untouched hg₂.mirrored.cache hb.2) ?_
  rintro - k₃ ⟨B, hB, rfl⟩
  refine ⟨⟨d', hg₂.untouched hB, hlen, hind⟩, ?_, fun slot' h' => ?_⟩
  · refine ⟨b, ?_, by simpa using hb⟩
    rw [Fs.slotVal_congr rfl rfl rfl]
    rcases slotVal_storeIn_cases hg₁.data hc with h | ⟨-, h⟩
    · exact h
    · exact absurd rfl h
  · obtain ⟨c', hc', hdata⟩ := h'
    rw [← hval] at hc'
    have hcases : (k₁.storeIn r d b slot).slotVal r slot' = some b ∨ _ := slotVal_storeIn_cases hg₁.data hc'
    rcases hcases with h | ⟨h, -⟩
    · exact ⟨b, by rw [Fs.slotVal_congr rfl rfl rfl]; exact h, by simpa using hb⟩
    · exact ⟨c', by rw [Fs.slotVal_congr rfl rfl rfl]; exact h, by simpa using hkeep c' hdata⟩

/-- The loop of `inode_grow`, from what a round does. -/
theorem growLoop_rule {slot : ℕ → FsM Slot} {I : ℕ → Fs → Prop}
    (hround : ∀ i k, I i k → wp (slot i) (fun s k₁ =>
      wp (allocateSlot persist r s) (fun _ k' => I (i + 1) k') (fun _ => True) k₁) (fun _ => True) k) {i n : ℕ} (hI : I i k) : wp (growLoop persist r slot i n) (fun _ k' => I (i + n) k') (fun _ => True) k := by
  induction n generalizing i k with
  | zero => exact hI
  | succ n ih =>
    rw [growLoop, wp_bind]
    refine wp_post (hround i k hI) fun s k₁ hs => ?_
    rw [wp_bind]
    refine wp_post hs fun _ k' hI' => ?_
    have := ih hI'
    rwa [Nat.add_right_comm] at this

/-- The loop of the branches for at most 512 sectors fills the slots, in `start` or in the table at `t`. -/
theorem growLoop_growth {k₀ : Fs} {t m n : ℕ} (hp : Confined persist) (hg : Growth S C k₀ r d k)
    (hslots : ∀ j < m, Holds S k r (slotOf t j)) :
    wp (growLoop persist r (fun i => pure (slotOf t i)) m n)
      (fun _ k' => (∃ d', Growth S C k₀ r d' k' ∧ d'.length = d.length ∧ d'.indirect = d.indirect) ∧
        ∀ j < m + n, Holds S k' r (slotOf t j)) (fun _ => True) k := by
  refine growLoop_rule (I := fun i k' => (∃ d', Growth S C k₀ r d' k' ∧ d'.length = d.length ∧ d'.indirect = d.indirect) ∧
    ∀ j < i, Holds S k' r (slotOf t j)) ?_ ⟨⟨d, hg, rfl, rfl⟩, hslots⟩
  rintro i k₁ ⟨⟨d₁, hg₁, hlen₁, hind₁⟩, hslots₁⟩
  rw [wp_pure]
  refine wp_post (allocateSlot_growth hp hg₁ _) ?_
  rintro - k₂ ⟨⟨d₂, hg₂, hlen₂, hind₂⟩, hself, hkeep⟩
  refine ⟨⟨d₂, hg₂, hlen₂.trans hlen₁, hind₂.trans hind₁⟩, fun j hj => ?_⟩
  rcases Nat.lt_succ_iff_lt_or_eq.1 hj with hj | rfl
  · exact hkeep _ (hslots₁ j hj)
  · exact hself

/-- A table is allocated. -/
theorem newTable_growth {k₀ : Fs} {T : Table} (hg : Growth S C k₀ r d k) :
    wp (newTable T)
      (fun t k' => Growth S C k₀ r d k' ∧ t ≠ 0 ∧ t < 2 ^ 32 ∧ k'.tables.cell t = some T ∧ k'.freeMap = k.freeMap)
      (fun _ => True) k := by
  rw [newTable, wp_bind, wp_gets, wp_ite]
  refine ⟨fun h32 => ?_, fun _ => trivial⟩
  rw [wp_bind, wp_modify, wp_pure]
  have hT : EntriesKeep (DataSector S k.freeMap) (DataSector S k.freeMap) k.tables (k.tables.alloc T) := fun a t ht =>
    ⟨t, k.tables.cell_alloc T ht, fun _ h => h⟩
  refine ⟨⟨?_, hg.steady.trans ⟨rfl, rfl, rfl, rfl, rfl, fun _ => rfl, rfl⟩, ?_, hg.blocks.mono (fun _ h => h) hT⟩,
    k.tables.pos.ne', h32, k.tables.cell_alloc_self T, rfl⟩
  · exact hg.mirrored.of_map (M := k.freeMap) rfl hg.mirrored.marked subset_rfl (fun _ h => h) hT
  · rw [Fs.dataOf_congr rfl rfl]
    exact hg.data

/-- The data of the inode change. -/
theorem Growth.setData {k₀ : Fs} (hg : Growth S C k₀ r d k) (hlen : d.length ≤ d'.length)
    (hb : BlocksIn (DataSector S k.freeMap) k.tables d') : Growth S C k₀ r d' (k.setData d' r) := by
  refine ⟨hg.mirrored.setData hg.data hlen hb, hg.steady.trans (Steady.setData k d' r), Fs.dataOf_setData hg.data d', ?_⟩
  rw [Fs.setData_freeMap, Fs.setData_tables]
  exact hb

/-- The table for at most 512 sectors is there, or it is allocated and has the blocks of `start`. -/
theorem indirectTable_growth {k₀ : Fs} (hg : Growth S C k₀ r d k)
    (hsmall : bytesToSectors d.length ≤ directPointers → d.indirect = 0) (hshort : bytesToSectors d.length ≤ sectorSize) :
    wp (indirectTable r (bytesToSectors d.length))
      (fun t k' => t ≠ 0 ∧ (∃ d', Growth S C k₀ r d' k' ∧ d'.length = d.length ∧ d'.indirect = t) ∧
        ∀ j < bytesToSectors d.length, Holds S k' r (slotOf t j)) (fun _ => True) k := by
  rw [indirectTable, wp_bind]
  refine wp_readData hg.data ?_
  rw [wp_ite]
  refine ⟨fun h0 => ?_, fun h0 => ?_⟩
  · rw [wp_ite]
    refine ⟨fun hn => ?_, fun _ => trivial⟩
    rw [wp_bind]
    refine wp_post (newTable_growth hg) ?_
    rintro t k₁ ⟨hg₁, ht0, ht32, htab, hmap⟩
    have hf := hg.blocks.fits
    rw [wp_bind]
    refine wp_updateData hg₁.data ?_
    rw [wp_pure]
    refine ⟨ht0, ⟨_, hg₁.setData le_rfl ?_, rfl, rfl⟩, fun j hj => ?_⟩
    · refine ⟨⟨hf.length, hf.magic, hf.start, ht32, hf.doubly⟩, hg.blocks.nonneg, hg₁.blocks.direct, fun hl _ => ?_⟩
      exact absurd hn (Nat.not_le.2 hl)
    · have hj' : j < directPointers := hj.trans_le hn
      refine ⟨d.start ⟨j, hj'⟩, ?_, ?_⟩
      · rw [slotOf, if_neg ht0, Fs.slotVal, Fs.setData_tables, htab, Option.bind_some, dif_pos (hj'.trans (by decide))]
        dsimp only
        rw [dif_pos hj', if_pos hj]
      · rw [Fs.setData_freeMap, hmap]
        exact hg.blocks.direct hn ⟨j, hj'⟩ hj
  · have hn : directPointers < bytesToSectors d.length := by
      by_contra hn
      exact h0 (hsmall (Nat.not_lt.1 hn))
    obtain ⟨T, hT, hblocks⟩ := hg.blocks.indirect hn hshort
    rw [wp_pure]
    refine ⟨h0, ⟨d, hg, rfl, rfl⟩, fun j hj => ?_⟩
    have hj' : j < 512 := hj.trans_le hshort
    refine ⟨T ⟨j, hj'⟩, ?_, hblocks ⟨j, hj'⟩ hj⟩
    rw [slotOf, if_neg h0, Fs.slotVal, hT, Option.bind_some, dif_pos hj']

/-- The table of the branch for more than 512 sectors. -/
theorem doublyIndirectTable_growth {k₀ : Fs} (hg : Growth S C k₀ r d k) :
    wp (doublyIndirectTable r) (fun _ k' => ∃ d', Growth S C k₀ r d' k' ∧ d'.length = d.length) (fun _ => True) k := by
  rw [doublyIndirectTable, wp_bind]
  refine wp_readData hg.data ?_
  rw [wp_ite]
  refine ⟨fun _ => ?_, fun _ => ?_⟩
  · rw [wp_bind]
    refine wp_post (newTable_growth hg) ?_
    rintro t k₁ ⟨hg₁, -, ht32, -⟩
    have hf := hg.blocks.fits
    rw [wp_bind]
    refine wp_updateData hg₁.data ?_
    rw [wp_pure]
    refine ⟨_, hg₁.setData le_rfl ?_, rfl⟩
    exact ⟨⟨hf.length, hf.magic, hf.start, hf.indirect, ht32⟩, hg.blocks.nonneg, hg₁.blocks.direct, hg₁.blocks.indirect⟩
  · rw [tableAt, wp_bind, wp_gets, wp_bind, wp_orStop]
    refine ⟨fun T _ => ?_, fun _ => trivial⟩
    split_ifs
    · exact ⟨d, hg, rfl⟩
    · trivial

/-- The loop of the branch for more than 512 sectors. -/
theorem growLoop_doubly {k₀ : Fs} {m n : ℕ} (hp : Confined persist) (hg : Growth S C k₀ r d k) :
    wp (growLoop persist r (doublySlot r) m n) (fun _ k' => ∃ d', Growth S C k₀ r d' k' ∧ d'.length = d.length) (fun _ => True) k := by
  refine growLoop_rule (I := fun _ k' => ∃ d', Growth S C k₀ r d' k' ∧ d'.length = d.length) ?_ ⟨d, hg, rfl⟩
  rintro i k₁ ⟨d₁, hg₁, hlen₁⟩
  have hround : ∀ k₂ d₂ slot, Growth S C k₀ r d₂ k₂ → d₂.length = d.length →
      wp (allocateSlot persist r slot) (fun _ k' => ∃ d', Growth S C k₀ r d' k' ∧ d'.length = d.length) (fun _ => True) k₂ := by
    intro k₂ d₂ slot hg₂ hlen₂
    refine wp_post (allocateSlot_growth hp hg₂ slot) ?_
    rintro - k₃ ⟨⟨d₃, hg₃, hlen₃, -⟩, -⟩
    exact ⟨d₃, hg₃, hlen₃.trans hlen₂⟩
  rw [doublySlot, wp_bind]
  refine wp_post (doublyIndirectTable_growth hg₁) ?_
  rintro t k₂ ⟨d₂, hg₂, hlen₂⟩
  rw [wp_bind, tableAt, wp_bind, wp_gets, wp_bind, wp_orStop]
  refine ⟨fun T _ => ?_, fun _ => trivial⟩
  split_ifs with hj
  swap
  · trivial
  rw [wp_pure, wp_ite]
  refine ⟨fun _ => ?_, fun _ => ?_⟩
  · rw [wp_bind]
    refine wp_post (newTable_growth hg₂) ?_
    rintro t' k₃ ⟨hg₃, -⟩
    exact hround k₃ d₂ _ hg₃ (hlen₂.trans hlen₁)
  · exact hround k₂ d₂ _ hg₂ (hlen₂.trans hlen₁)

/-! ### Writing an inode back -/

/-- The inode `d` is complete: its blocks are sectors for data, and it has no table that it does not need. -/
structure Whole (S : Set ℕ) (k : Fs) (d : InodeDisk) : Prop where
  blocks : BlocksIn (DataSector S k.freeMap) k.tables d
  small : bytesToSectors d.length ≤ directPointers → d.indirect = 0

/-- **An inode is written to its sector**: it is the one in memory, if there is one for the sector. -/
theorem Mirrored.put (h : Mirrored S C k u) (hs : s ∈ S) (hd : Whole S k d) (hB : Written k.buffers s d.bytes 0 sectorSize B)
    (hself : ∀ a i, k.inodes.cell a = some i → i.sector = s → i.data = d)
    (hu : ∀ i, k.inodes.cell u = some i → i.sector = s) : Mirrored S (insert s C) { k with buffers := B } 0 := by
  have hput : InodeDisk.decode (B.content s) = d := by
    rw [hB.content, if_pos rfl, Block.write_all]
    exact InodeDisk.decode_encode hd.blocks.fits
  have hother : ∀ c, c ≠ s → B.content c = k.buffers.content c := fun c hc => by rw [hB.content, if_neg hc]
  refine ⟨hB.wf, h.size.trans hB.capacity.symm, h.marked, Set.insert_subset hs h.made, fun c hc => ?_, h.listed, h.live, h.nodup,
    h.unique, fun a i hi => ⟨Set.mem_insert_of_mem _ (h.sector a i hi).1, (h.sector a i hi).2⟩, h.blocks, fun a i hi _ => ?_, h.file⟩
  · change BlocksIn _ _ (InodeDisk.decode (B.content c)) ∧ (bytesToSectors (InodeDisk.decode (B.content c)).length ≤ _ →
      (InodeDisk.decode (B.content c)).indirect = 0)
    by_cases hcs : c = s
    · rw [hcs, hput]
      exact ⟨hd.blocks, hd.small⟩
    · rw [hother c hcs]
      exact h.disk c (hc.resolve_left hcs)
  · change i.data = InodeDisk.decode (B.content i.sector)
    by_cases his : i.sector = s
    · rw [his, hput]
      exact hself a i hi his
    · rw [hother _ his]
      refine h.sync a i hi fun hau => his (hu i ?_)
      rw [← hau]
      exact hi

/-- The inode in sector `s` is the one that is grown, and no other in memory is. -/
def GrowsAt (k : Fs) (r : DataRef) (s : ℕ) : Prop := ∀ a i, k.inodes.cell a = some i → (i.sector = s ↔ r = .inode a)

theorem GrowsAt.steady (h : GrowsAt k r s) (hs : Steady k k') : GrowsAt k' r s := by
  intro a i hi
  have hcell := hs.inodes a
  rw [hi] at hcell
  obtain ⟨j, hj, heq⟩ := Option.map_eq_some_iff.1 hcell.symm
  have hsec : j.sector = i.sector := congrArg Prod.fst heq
  rw [← hsec]
  exact h a j hj

/-- The end of `inode_grow`. -/
theorem growEnd_mirrored {k₀ : Fs} {L : ℤ} (hg : Growth S C k₀ r d k) (hat : GrowsAt k₀ r s) (hs : s ∈ S) (hle : d.length ≤ L)
    (hd : Whole S k { d with length := L }) :
    wp (do
        updateData (fun d => { d with length := L }) r
        let d ← readData r
        cached (bufferCacheWrite s d.bytes 0 sectorSize)
        pure true)
      (fun ok k' => ok = true ∧ Mirrored S (insert s C) k' 0 ∧ Steady k₀ k' ∧
        ∃ d', k'.dataOf r = some d' ∧ d'.length = L ∧ Whole S k' d') (fun _ => True) k := by
  have hg' : Growth S C k₀ r { d with length := L } (k.setData { d with length := L } r) := hg.setData hle hd.blocks
  rw [wp_bind]
  refine wp_updateData hg.data ?_
  rw [wp_bind]
  refine wp_readData hg'.data ?_
  rw [wp_bind]
  refine wp_mono (cachedWrite_spec hg'.mirrored.cache (by decide)) ?_ fun _ _ => trivial
  rintro - k' ⟨B, hB, rfl⟩
  have hat' := hat.steady hg'.steady
  rw [wp_pure]
  refine ⟨rfl, hg'.mirrored.put hs ⟨hg'.blocks, hd.small⟩ hB (fun a i hi his => ?_) fun i hi => ?_,
    hg'.steady.trans ⟨rfl, rfl, rfl, rfl, rfl, fun _ => rfl, rfl⟩, _, ?_, rfl, hg'.blocks, hd.small⟩
  · have hr := (hat' a i hi).1 his
    have hdata := hg'.data
    rw [hr, Fs.dataOf, ← hr, hi] at hdata
    exact Option.some.inj hdata
  · refine (hat' _ i hi).2 ?_
    cases r with
    | temp => rw [DataRef.addr, Heap.null] at hi; cases hi
    | inode a => rfl
  · rw [Fs.dataOf_congr rfl rfl]
    exact hg'.data

theorem bytesToSectors_mono {L L' : ℤ} (h0 : 0 ≤ L) (hle : L ≤ L') (hr : InRange L')
    (hs : bytesToSectors L' ≤ sectorSize * sectorSize) : bytesToSectors L ≤ bytesToSectors L' := by
  obtain ⟨hsmall, heq⟩ := bytesToSectors_small (h0.trans hle) hr hs
  obtain ⟨n, rfl⟩ := Int.eq_ofNat_of_zero_le h0
  rw [heq, bytesToSectors_natCast (by omega)]
  unfold sectorsFor
  omega

/-- **`inode_grow`**, to any length. -/
theorem inodeGrow_mirrored {L : ℤ} (hp : Confined persist) (hg : Growth S C k r d k) (hat : GrowsAt k r s) (hs : s ∈ S)
    (hsmall : bytesToSectors d.length ≤ directPointers → d.indirect = 0) (hL : InRange L) (hlt : d.length < L) :
    wp (inodeGrow persist s r L)
      (fun ok k' => ok = true ∧ Mirrored S (insert s C) k' 0 ∧ Steady k k' ∧
        ∃ d', k'.dataOf r = some d' ∧ d'.length = L ∧ Whole S k' d') (fun _ => True) k := by
  have h0 := hg.blocks.nonneg
  rw [inodeGrow, wp_bind]
  refine wp_readData hg.data ?_
  rw [if_neg (by omega), wp_bind, wp_gets, wp_ite]
  refine ⟨fun _ => trivial, fun _ => ?_⟩
  rw [wp_ite]
  refine ⟨fun hn => ?_, fun hn => ?_⟩
  · -- at most 122 sectors
    have hmono := bytesToSectors_mono h0 hlt.le hL (hn.trans (by decide))
    rw [wp_bind]
    refine wp_post (growLoop_growth (t := 0) hp hg fun j hj => ?_) ?_
    · have hj' : j < directPointers := hj.trans_le (hmono.trans hn)
      refine ⟨d.start ⟨j, hj'⟩, ?_, hg.blocks.direct (hmono.trans hn) ⟨j, hj'⟩ hj⟩
      rw [slotOf, if_pos rfl, Fs.slotVal, hg.data, Option.bind_some, dif_pos hj']
    · rintro - k₁ ⟨⟨d₁, hg₁, hlen₁, hind₁⟩, hslots⟩
      rw [Nat.add_sub_cancel' hmono] at hslots
      have hf := hg₁.blocks.fits
      refine growEnd_mirrored hg₁ hat hs (by omega) ⟨⟨⟨hL, hf.magic, hf.start, hf.indirect, hf.doubly⟩, by simp only; omega,
        fun _ j hj => ?_, fun hl _ => absurd hn (Nat.not_le.2 hl)⟩, fun _ => hind₁.trans (hsmall (hmono.trans hn))⟩
      obtain ⟨b, hb, hdata⟩ := hslots j.1 hj
      rw [slotOf, if_pos rfl, Fs.slotVal, hg₁.data, Option.bind_some, dif_pos j.2, Option.some.injEq] at hb
      change DataSector S k₁.freeMap (d₁.start j)
      rw [show d₁.start j = b from hb]
      exact hdata
  rw [wp_ite]
  refine ⟨fun hn' => ?_, fun hn' => ?_⟩
  · -- at most 512 sectors
    have hmono := bytesToSectors_mono h0 hlt.le hL (hn'.trans (by decide))
    rw [wp_bind]
    refine wp_post (indirectTable_growth hg hsmall (hmono.trans hn')) ?_
    rintro t k₁ ⟨ht0, ⟨d₁, hg₁, hlen₁, hind₁⟩, hslots₁⟩
    have hslot : (fun i => pure (Slot.entry t i) : ℕ → FsM Slot) = fun i => pure (slotOf t i) := by
      funext i
      rw [slotOf, if_neg ht0]
    rw [wp_bind, hslot]
    refine wp_post (growLoop_growth hp hg₁ hslots₁) ?_
    rintro - k₂ ⟨⟨d₂, hg₂, hlen₂, hind₂⟩, hslots⟩
    rw [Nat.add_sub_cancel' hmono] at hslots
    have hf := hg₂.blocks.fits
    have hentry : ∀ j : Fin 512, j.1 < bytesToSectors L → ∃ T, k₂.tables.cell t = some T ∧ DataSector S k₂.freeMap (T j) := by
      intro j hj
      obtain ⟨b, hb, hdata⟩ := hslots j.1 hj
      rw [slotOf, if_neg ht0, Fs.slotVal] at hb
      obtain ⟨T, hT, hval⟩ := Option.bind_eq_some_iff.1 hb
      rw [dif_pos j.2, Option.some.injEq] at hval
      exact ⟨T, hT, by rw [show T j = b from hval]; exact hdata⟩
    refine growEnd_mirrored hg₂ hat hs (by omega) ⟨⟨⟨hL, hf.magic, hf.start, hf.indirect, hf.doubly⟩, by simp only; omega,
      fun hs' => absurd hs' hn, fun hl _ => ?_⟩, fun hs' => absurd hs' hn⟩
    obtain ⟨T, hT, -⟩ := hentry 0 ((Nat.zero_le _).trans_lt hl)
    refine ⟨T, by simp only; rw [hind₂, hind₁]; exact hT, fun j hj => ?_⟩
    obtain ⟨T', hT', hdata⟩ := hentry j hj
    rw [hT] at hT'
    cases hT'
    exact hdata
  rw [wp_ite]
  refine ⟨fun _ => ?_, fun _ => trivial⟩
  · -- more than 512 sectors, of which none can be found
    rw [wp_bind]
    refine wp_post (doublyIndirectTable_growth hg) ?_
    rintro t k₁ ⟨d₁, hg₁, hlen₁⟩
    rw [wp_bind]
    refine wp_post (growLoop_doubly hp hg₁) ?_
    rintro - k₂ ⟨d₂, hg₂, hlen₂⟩
    have hf := hg₂.blocks.fits
    exact growEnd_mirrored hg₂ hat hs (by omega) ⟨⟨⟨hL, hf.magic, hf.start, hf.indirect, hf.doubly⟩, by simp only; omega,
      fun hs' => absurd hs' hn, fun _ hs' => absurd hs' hn'⟩, fun hs' => absurd hs' hn⟩

end Pintos
