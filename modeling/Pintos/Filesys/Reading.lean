import Pintos.Filesys.Contents

/-!
# What reading gives

`inode_read_at` gives the bytes of the file, as many as were asked for and are
there, and moves sectors in and out of the cache, but changes nothing else
(`ReadsExactly`): `byte_to_sector` is asked for positions inside the file only,
so that it never grows it. The one thing that can go wrong is the read-ahead at
the last sector of the disk, and `inode_read_at_exact_iff` says exactly when it
does.
-/

namespace Pintos

open Library Library.Prog Library.Bytes

variable {k : Fs} {a : ℕ} {i : Inode} {nd : Node} {size off : ℤ}

/-- **`inode_read_at` is exact**: it returns `max (0, min (size, length - offset))` bytes, those of the contents from
`offset` on, and every inode, the free map and the content of every sector are as before. -/
def ReadsExactly (k : Fs) (a : ℕ) (size off : ℤ) : Prop :=
  ∃ i bytes r B, k.inodes.cell a = some i ∧ contents k i.data = some bytes ∧
    inodeReadAt persistFreeMap a size off k = .ok (r, { k with buffers := B }) ∧ Buffers.Keeps k.buffers B ∧
    (r.length : ℤ) = max 0 (min size (i.data.length - off)) ∧ r = (bytes.drop off.toNat).take size.toNat

/-- A part of a file. -/
theorem take_drop_fileBytes (B : Buffers) (nd : Node) (m off n : ℕ) :
    ((fileBytes B nd 0 m).drop off).take n = fileBytes B nd off (min n (m - off)) := by
  refine List.ext_getElem (by simp) fun j h₁ h₂ => ?_
  simp only [fileBytes, List.getElem_take, List.getElem_drop, List.getElem_map, List.getElem_range, Nat.zero_add]

/-- A size that is not positive asks for nothing. -/
theorem inodeReadAt_nonpos {persist : FsM Bool} (hsize : size ≤ 0) : inodeReadAt persist a size off k = .ok ([], k) := by
  rw [inodeReadAt, Int.toNat_of_nonpos hsize, readLoop]
  rfl

/-- What a read returns, for sizes of either sign. -/
theorem inodeReadAt_returns (hc : k.buffers.Wf) (hi : k.inodes.cell a = some i) (hr : Repr k.tables i.data nd)
    (hsize : size < 2 ^ 31) (h0 : 0 ≤ off) (hoff : off < 2 ^ 31) :
    wp (inodeReadAt persistFreeMap a size off)
      (fun r k' => r = fileBytes k.buffers nd off.toNat (min size.toNat (nd.length - off.toNat)) ∧
        Buffers.Admits (nd.blocksIn off.toNat (min size.toNat (nd.length - off.toNat))) k.buffers ∧
        ∃ B, Buffers.Keeps k.buffers B ∧ k' = { k with buffers := B })
      (fun e => e = .sectorOutOfRange ∧
        ¬ Buffers.Admits (nd.blocksIn off.toNat (min size.toNat (nd.length - off.toNat))) k.buffers) k := by
  obtain ⟨off, rfl⟩ := Int.eq_ofNat_of_zero_le h0
  rw [Int.toNat_natCast]
  by_cases hs : size ≤ 0
  · unfold wp
    rw [inodeReadAt_nonpos hs, Int.toNat_of_nonpos hs, Nat.zero_min]
    exact ⟨rfl, trivial, _, .refl hc, rfl⟩
  · obtain ⟨size, rfl⟩ := Int.eq_ofNat_of_zero_le (Int.le_of_lt (Int.not_le.1 hs))
    exact inodeReadAt_exact hc hi hr (by exact_mod_cast hsize) (by exact_mod_cast hoff)

/-- **`inode_read_at` is exact** if and only if each block of the bytes read is in the cache when its turn comes or is
not the last sector of the disk. -/
theorem inode_read_at_exact_iff (hc : k.buffers.Wf) (hi : k.inodes.cell a = some i) (hr : Repr k.tables i.data nd)
    (hsize : size < 2 ^ 31) (h0 : 0 ≤ off) (hoff : off < 2 ^ 31) :
    ReadsExactly k a size off ↔
      Buffers.Admits (nd.blocksIn off.toNat (min size.toNat (nd.length - off.toNat))) k.buffers := by
  have hread := inodeReadAt_returns hc hi hr hsize h0 hoff
  constructor
  · rintro ⟨_, _, r, B, -, -, hrun, -⟩
    exact (wp_of_ok hread hrun).2.1
  · intro hadmits
    obtain ⟨r, _, hrun, hbytes, -, B, hB, rfl⟩ := exists_ok (wp_mono hread (fun _ _ h => h) fun _ he => he.2 hadmits)
    refine ⟨i, _, r, B, hi, contents_eq hr, hrun, hB, ?_, ?_⟩
    · rw [hbytes, length_fileBytes, hr.length]
      omega
    · rw [hbytes, take_drop_fileBytes]

namespace Sample

/-- The file of one byte whose block is sector `b`. -/
def oneByte (b : ℕ) : InodeDisk :=
  { InodeDisk.zero with start := fun j => if j.1 = 0 then b else 0, length := 1, magic := inodeMagic }

/-- The sample file system as it is just after a start, with that file open at address `2`. -/
def opened (b : ℕ) : Fs := { fs with inodes := fs.inodes.set 2 fun i => { i with data := oneByte b } }

theorem oneByte_repr {b : ℕ} (hb : b < 2 ^ 32) (T : Heap Table) : Repr T (oneByte b) ⟨1, false, [b], 0⟩ := by
  have hstart : ∀ j : Fin directPointers, (oneByte b).start j = if j.1 = 0 then b else 0 := fun _ => rfl
  refine ⟨⟨?_, ?_, fun j => ?_, ?_, ?_⟩, rfl, rfl, by simp [sectorsFor], by simp, fun _ j c hc => ?_,
    fun h => absurd h (by simp)⟩
  · change InRange 1
    exact ⟨by decide, by decide⟩
  · change inodeMagic < 2 ^ 32
    decide
  · rw [hstart]
    split_ifs
    · exact hb
    · exact Nat.two_pow_pos 32
  · exact Nat.two_pow_pos 32
  · exact Nat.two_pow_pos 32
  · obtain ⟨hlt, rfl⟩ := List.getElem?_eq_some_iff.1 hc
    have h0 : j.1 = 0 := Nat.lt_one_iff.1 hlt
    rw [hstart, if_pos h0]
    simp [h0]

theorem opened_admits_iff (b : ℕ) : Buffers.Admits (Node.blocksIn ⟨1, false, [b], 0⟩ 0 1) (opened b).buffers ↔ b + 1 < 8 := by
  simp [Node.blocksIn, Buffers.Admits, Buffers.Cached, opened, fs, Buffers.init, disk]

end Sample

/-- The one byte of a file in sector `6` of eight. -/
theorem inode_read_at_exact_first : ReadsExactly (Sample.opened 6) 2 1 0 :=
  (inode_read_at_exact_iff (Buffers.wf_init _) rfl (Sample.oneByte_repr (by decide) _) (by decide) le_rfl (by decide)).2
    ((Sample.opened_admits_iff 6).2 (by decide))

/-- **A file in the last sector of the disk**: reading its one byte reads ahead past the end. -/
theorem inode_read_at_last_sector : (Sample.opened 7).buffers.Wf ∧ 7 < (Sample.opened 7).buffers.disk.capacity ∧
    (∃ i, (Sample.opened 7).inodes.cell 2 = some i ∧ Repr (Sample.opened 7).tables i.data ⟨1, false, [7], 0⟩) ∧
    ¬ ReadsExactly (Sample.opened 7) 2 1 0 := by
  have hr : Repr (Sample.opened 7).tables (Sample.oneByte 7) ⟨1, false, [7], 0⟩ := Sample.oneByte_repr (by decide) _
  refine ⟨Buffers.wf_init _, by decide, ⟨_, rfl, hr⟩, ?_⟩
  rw [inode_read_at_exact_iff (Buffers.wf_init _) rfl hr (by decide) le_rfl (by decide)]
  intro h
  exact absurd ((Sample.opened_admits_iff 7).1 h) (by decide)

end Pintos
