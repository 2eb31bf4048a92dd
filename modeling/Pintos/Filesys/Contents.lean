import Mathlib.Tactic.FinCases
import Pintos.Filesys.WriteSpec

/-!
# What writing does to the contents of files

The contents of an inode are computed from the inode, the tables in memory and
the cache (`contents`); in a well-formed file system they are the bytes of the
node (`contents_eq`). `inode_write_at_contents` describes a write by them, and
`inode_write_at_writes_all` says when a write is not cut short.
-/

namespace Pintos

open Library Library.Prog Library.Bytes

variable {k k' : Fs} {N : Nodes} {s a n off : ℕ} {i : Inode} {nd nd' : Node} {d : InodeDisk} {buf : ℕ → UInt8}

/-! ### Contents -/

/-- The sector of block `j` of an inode, if it has one. -/
def blockOf (T : Heap Table) (d : InodeDisk) (j : ℕ) : Option ℕ :=
  if bytesToSectors d.length ≤ directPointers then (if h : j < directPointers then some (d.start ⟨j, h⟩) else none)
  else if bytesToSectors d.length ≤ sectorSize then
    (T.cell d.indirect).bind fun t => if h : j < 512 then some (t ⟨j, h⟩) else none
  else none

/-- **The contents of an inode**: as many bytes as it is long, from its sectors, through the cache. There
are none if a sector cannot be found. -/
def contents (k : Fs) (d : InodeDisk) : Option (List UInt8) :=
  if (List.range (bytesToSectors d.length)).all (fun j => (blockOf k.tables d j).isSome) then
    some ((List.range d.length.toNat).map fun j =>
      k.buffers.content ((blockOf k.tables d (j / 512)).getD 0) (Fin.ofNat sectorSize j))
  else none

/-- The contents of the inode in sector `s`. -/
def contentsAt (k : Fs) (s : ℕ) : Option (List UInt8) := contents k (InodeDisk.decode (k.buffers.content s))

theorem Repr.blockOf_eq {T : Heap Table} (h : Repr T d nd) {j : ℕ} (hj : j < nd.blocks.length) :
    blockOf T d j = some (nd.blocks.getD j 0) := by
  have hb : nd.blocks[j]? = some (nd.blocks.getD j 0) := by
    rw [List.getD_eq_getElem _ _ hj]
    exact List.getElem?_eq_getElem hj
  rw [blockOf, h.bytesToSectors]
  by_cases hs : nd.blocks.length ≤ directPointers
  · have hlt : j < directPointers := hj.trans_le hs
    rw [if_pos hs, dif_pos hlt, h.direct hs ⟨j, hlt⟩ _ hb]
  · obtain ⟨htab, t, ht, hblocks⟩ := h.indirect (Nat.lt_of_not_le hs)
    have hlt : j < 512 := hj.trans_le h.short
    rw [if_neg hs, if_pos h.short, htab, ht, Option.bind_some, dif_pos hlt, hblocks ⟨j, hlt⟩ _ hb]

theorem contents_eq (h : Repr k.tables d nd) : contents k d = some (fileBytes k.buffers nd 0 nd.length) := by
  have hle := h.length_le
  rw [contents, if_pos, h.length, Int.toNat_natCast, fileBytes]
  · refine congrArg some (List.map_congr_left fun j hj => ?_)
    have hlt := List.mem_range.1 hj
    rw [h.blockOf_eq (by omega), Option.getD_some, Nat.zero_add, byteAt]
  · rw [List.all_eq_true]
    intro j hj
    rw [List.mem_range, h.bytesToSectors] at hj
    rw [h.blockOf_eq hj]
    rfl

theorem Wf.contentsAt_eq {u : ℕ} (hw : Wf k N u) (hN : N s = some nd) :
    contentsAt k s = some (fileBytes k.buffers nd 0 nd.length) :=
  contents_eq (hw.laid.disk s nd hN).toRepr

/-- A file other than the one that was changed and the free map's has the same contents. -/
theorem Edited.contentsAt_eq {new : List ℕ} (h : Edited k N s nd new nd' k') (hw : Wf k N 0) {s' : ℕ} (hs' : N s' ≠ none)
    (hs : s' ≠ s) (h0 : s' ≠ 0) : contentsAt k' s' = contentsAt k s' := by
  obtain ⟨nd₁, hN₁⟩ := Option.ne_none_iff_exists'.1 hs'
  have hN₁' : Function.update N s (some nd') s' = some nd₁ := by rw [Function.update_of_ne hs]; exact hN₁
  rw [h.wf.contentsAt_eq hN₁', hw.contentsAt_eq hN₁]
  refine congrArg some (List.map_congr_left fun j hj => ?_)
  have hle := (hw.laid.disk s' nd₁ hN₁).length_le
  have hlt := List.mem_range.1 hj
  exact h.other s' nd₁ hN₁ hs (.inl h0) _ (by omega)

/-! ### A write by its contents -/

theorem fileBytes_eq_iff {B : Buffers} {f : ℕ → UInt8} (h : ∀ j < n, byteAt B nd (off + j) = f j) :
    fileBytes B nd off n = (List.range n).map f :=
  List.map_congr_left fun j hj => h j (List.mem_range.1 hj)

theorem getD_fileBytes (B : Buffers) (nd : Node) (m j : ℕ) :
    (fileBytes B nd 0 m).getD j 0 = if j < m then byteAt B nd j else 0 := by
  by_cases h : j < m
  · rw [if_pos h, List.getD_eq_getElem _ _ (by simpa using h)]
    simp [fileBytes]
  · rw [if_neg h]
    exact List.getD_eq_default _ _ (by simpa using h)

theorem writeCount_le (length off size : ℕ) : writeCount length off size ≤ size := by
  unfold writeCount
  split_ifs <;> omega

/-- What a write that was not denied leaves. -/
theorem WroteAt.contents_eq {size : ℕ} {new : List ℕ} (h : WroteAt k N s nd buf off size new nd' k') (hs : s ≠ 0) :
    fileBytes k'.buffers nd' 0 nd'.length = (List.range nd'.length).map fun j =>
      if off ≤ j ∧ j < off + writeCount nd.length off size then buf (j - off)
      else (fileBytes k.buffers nd 0 nd.length).getD j 0 := by
  refine fileBytes_eq_iff fun j hj => ?_
  rw [Nat.zero_add, h.bytes hs j hj, overlay, getD_fileBytes]

/-- `inode_write_at` with the kernel's own write of the free map. -/
theorem inodeWriteAt_wrote {size : ℕ} (hw : Wf k N 0) (hm : MapOpen k N) (hi : k.inodes.cell a = some i)
    (hN : N i.sector = some nd) (hdeny : i.denyWriteCnt = 0) (hsize : size < 2 ^ 31) (hoff : off < 2 ^ 31) :
    wp (inodeWriteAt persistFreeMap a buf size off)
      (fun w k' => w = writeCount nd.length off size ∧ ∃ new nd', WroteAt k N i.sector nd buf off size new nd' k')
      (Unless (WriteRoom k N i.sector nd off size)) k :=
  inodeWriteAt_spec hw hi hN hdeny (fun _ => ⟨persistFreeMap_persists, fun _ => hm⟩) persistFreeMap_stops hsize hoff

/-- What `inode_write_at` leaves, if it returns: the node of the file after it and the bytes in it. -/
theorem inodeWriteAt_result {size : ℤ} (hw : Wf k N 0) (hm : MapOpen k N) (hi : k.inodes.cell a = some i)
    (hN : N i.sector = some nd) (hs : i.sector ≠ 0) (hsize : size < 2 ^ 31) (hoff : off < 2 ^ 31)
    (hrun : inodeWriteAt persistFreeMap a buf size off k = .ok (n, k')) :
    ∃ new nd', Edited k N i.sector nd new nd' k' ∧ (n : ℤ) ≤ max size 0 ∧
      fileBytes k'.buffers nd' 0 nd'.length = (List.range nd'.length).map (fun j =>
        if off ≤ j ∧ j < off + n then buf (j - off) else (fileBytes k.buffers nd 0 nd.length).getD j 0) ∧
      (if n = 0 then nd.length else max nd.length (off + n)) ≤ nd'.length ∧
      (nd'.length : ℤ) ≤ max (nd.length : ℤ) (off + size) := by
  have hsame : n = 0 → k' = k → ∃ new nd', Edited k N i.sector nd new nd' k' ∧ (n : ℤ) ≤ max size 0 ∧
      fileBytes k'.buffers nd' 0 nd'.length = (List.range nd'.length).map (fun j =>
        if off ≤ j ∧ j < off + n then buf (j - off) else (fileBytes k.buffers nd 0 nd.length).getD j 0) ∧
      (if n = 0 then nd.length else max nd.length (off + n)) ≤ nd'.length ∧
      (nd'.length : ℤ) ≤ max (nd.length : ℤ) (off + size) := by
    rintro rfl rfl
    refine ⟨[], nd, .refl hw hN, by simp, fileBytes_eq_iff fun j hj => ?_, by simp, by simp⟩
    rw [if_neg (by omega), getD_fileBytes, if_pos hj, Nat.zero_add]
  by_cases hdeny : i.denyWriteCnt = 0
  · by_cases hneg : size ≤ 0
    · -- nothing is to be written
      have hnone : wp (inodeWriteAt persistFreeMap a buf size off) (fun w k₁ => w = 0 ∧ k₁ = k) (fun _ => False) k := by
        rw [inodeWriteAt, wp_bind]
        refine wp_inodeAt hi ?_
        rw [if_neg (by simp [hdeny]), Int.toNat_of_nonpos hneg, writeLoop, wp_pure]
        exact ⟨rfl, rfl⟩
      obtain ⟨hn, hk⟩ := wp_of_ok hnone hrun
      exact hsame hn hk
    · obtain ⟨m, rfl⟩ := Int.eq_ofNat_of_zero_le (le_of_lt (lt_of_not_ge hneg))
      obtain ⟨rfl, new, nd', hwrote⟩ := wp_of_ok (inodeWriteAt_wrote hw hm hi hN hdeny (by omega) hoff) hrun
      have hcount := writeCount_le nd.length off m
      refine ⟨new, nd', hwrote.edited, by omega, hwrote.contents_eq hs, ?_, ?_⟩
      · rw [hwrote.length, lengthAfter]
        split_ifs <;> omega
      · rw [hwrote.length, lengthAfter]
        split_ifs <;> omega
  · have hnone : wp (inodeWriteAt persistFreeMap a buf size off) (fun w k₁ => w = 0 ∧ k₁ = k) (fun _ => False) k := by
      rw [inodeWriteAt, wp_bind]
      refine wp_inodeAt hi ?_
      rw [if_pos hdeny, wp_pure]
      exact ⟨rfl, rfl⟩
    obtain ⟨hn, hk⟩ := wp_of_ok hnone hrun
    exact hsame hn hk

/-! ### A small file system -/

namespace Sample

/-- The free map of a disk of eight sectors: inodes are in sectors `0`, `1` and `4`, and the map is in `2`. -/
def map : Bitmap := ⟨8, fun j => j = 0 || j = 1 || j = 2 || j = 4⟩

/-- The inode of the free map. -/
def mapInode : InodeDisk :=
  { InodeDisk.zero with length := 4, magic := inodeMagic, start := fun j => if j.1 = 0 then 2 else 0 }

/-- The inode of an empty root directory. -/
def rootInode : InodeDisk := { InodeDisk.zero with magic := inodeMagic, isdir := true }

/-- The inode of an empty file. -/
def fileInode : InodeDisk := { InodeDisk.zero with magic := inodeMagic }

/-- The disk. -/
def disk : Disk where
  capacity := 8
  sectors s := if s = 0 then mapInode.encode else if s = 1 then rootInode.encode
    else if s = 2 then Block.zero.write 0 4 map.bytes else if s = 4 then fileInode.encode else Block.zero
  capacity_le := by decide

/-- The two inodes in memory: the free map's at address `1` and the file's at `2`. -/
def inodes : Heap Inode :=
  ((Heap.empty.alloc ⟨0, 2, false, 0, mapInode⟩).alloc ⟨4, 2, false, 0, fileInode⟩)

/-- The file system: the free map's file is open, and so is the empty file. -/
def fs : Fs where
  buffers := .init disk
  freeMap := map
  freeMapFile := 1
  inodes := inodes
  openInodes := [2, 1]
  tables := .empty
  temp := .zero
  files := (Heap.empty.alloc ⟨1, 0, false⟩).alloc ⟨2, 0, false⟩
  dirs := .empty
  currDir := 0

/-- Its files. -/
def nodes : Nodes := fun s =>
  if s = 0 then some ⟨4, false, [2], 0⟩ else if s = 1 then some ⟨0, true, [], 0⟩
  else if s = 4 then some ⟨0, false, [], 0⟩ else none

theorem nodes_cases {s : ℕ} {nd : Node} (h : nodes s = some nd) :
    s = 0 ∧ nd = ⟨4, false, [2], 0⟩ ∨ s = 1 ∧ nd = ⟨0, true, [], 0⟩ ∨ s = 4 ∧ nd = ⟨0, false, [], 0⟩ := by
  unfold nodes at h
  split_ifs at h with h0 h1 h4
  · exact .inl ⟨h0, (Option.some.inj h).symm⟩
  · exact .inr (.inl ⟨h1, (Option.some.inj h).symm⟩)
  · exact .inr (.inr ⟨h4, (Option.some.inj h).symm⟩)

theorem inodes_cases {a : ℕ} {i : Inode} (h : inodes.cell a = some i) :
    a = 1 ∧ i = ⟨0, 2, false, 0, mapInode⟩ ∨ a = 2 ∧ i = ⟨4, 2, false, 0, fileInode⟩ := by
  by_cases h2 : a = 2
  · subst h2
    exact .inr ⟨rfl, (Option.some.inj h).symm⟩
  · by_cases h1 : a = 1
    · subst h1
      exact .inl ⟨rfl, (Option.some.inj h).symm⟩
    · rw [inodes, Heap.cell_alloc_of_ne _ _ h2, Heap.cell_alloc_of_ne _ _ h1] at h
      cases h

theorem mapInode_fits : mapInode.Fits := by
  refine ⟨by unfold Bytes.InRange; decide, by decide, fun j => ?_, by decide, by decide⟩
  simp only [mapInode]
  split_ifs <;> decide

theorem rootInode_fits : rootInode.Fits :=
  ⟨by unfold Bytes.InRange; decide, by decide, fun _ => Nat.two_pow_pos 32, by decide, by decide⟩

theorem fileInode_fits : fileInode.Fits :=
  ⟨by unfold Bytes.InRange; decide, by decide, fun _ => Nat.two_pow_pos 32, by decide, by decide⟩

theorem content_eq (s : ℕ) : fs.buffers.content s = disk.sectors s := rfl

theorem decode_map : InodeDisk.decode (fs.buffers.content 0) = mapInode := InodeDisk.decode_encode mapInode_fits

theorem decode_root : InodeDisk.decode (fs.buffers.content 1) = rootInode := InodeDisk.decode_encode rootInode_fits

theorem decode_file : InodeDisk.decode (fs.buffers.content 4) = fileInode := InodeDisk.decode_encode fileInode_fits

theorem map_kept : Kept fs.tables mapInode ⟨4, false, [2], 0⟩ := by
  refine ⟨⟨mapInode_fits, rfl, rfl, rfl, by decide, fun _ j b hb => ?_, fun h => absurd h (by decide)⟩, rfl, fun _ => rfl⟩
  obtain ⟨hlt, rfl⟩ := List.getElem?_eq_some_iff.1 hb
  have h0 : j.1 = 0 := Nat.lt_one_iff.1 hlt
  simp only [mapInode, h0, if_pos]
  rfl

theorem root_kept : Kept fs.tables rootInode ⟨0, true, [], 0⟩ :=
  ⟨⟨rootInode_fits, rfl, rfl, rfl, by decide, fun _ _ _ hb => (by simp at hb), fun h => absurd h (by decide)⟩, rfl,
    fun _ => rfl⟩

theorem file_kept : Kept fs.tables fileInode ⟨0, false, [], 0⟩ :=
  ⟨⟨fileInode_fits, rfl, rfl, rfl, by decide, fun _ _ _ hb => (by simp at hb), fun h => absurd h (by decide)⟩, rfl,
    fun _ => rfl⟩

theorem laid : Laid fs.buffers fs.tables fs.freeMap nodes := by
  refine ⟨?_, ?_, ?_, ?_, ?_, ?_, ?_, ⟨rfl, rfl⟩, rfl⟩
  · intro s nd h
    rcases nodes_cases h with ⟨rfl, rfl⟩ | ⟨rfl, rfl⟩ | ⟨rfl, rfl⟩
    · rw [decode_map]
      exact map_kept
    · rw [decode_root]
      exact root_kept
    · rw [decode_file]
      exact file_kept
  · intro s nd h b hb
    rcases nodes_cases h with ⟨rfl, rfl⟩ | ⟨rfl, rfl⟩ | ⟨rfl, rfl⟩ <;> fin_cases hb <;> exact ⟨by decide, rfl⟩
  · intro s nd h b hb
    rcases nodes_cases h with ⟨rfl, rfl⟩ | ⟨rfl, rfl⟩ | ⟨rfl, rfl⟩ <;> fin_cases hb
    decide
  · intro s nd h
    rcases nodes_cases h with ⟨rfl, rfl⟩ | ⟨rfl, rfl⟩ | ⟨rfl, rfl⟩ <;> decide
  · intro s nd s' nd' h h' b hb hb'
    rcases nodes_cases h with ⟨rfl, rfl⟩ | ⟨rfl, rfl⟩ | ⟨rfl, rfl⟩ <;>
      rcases nodes_cases h' with ⟨rfl, rfl⟩ | ⟨rfl, rfl⟩ | ⟨rfl, rfl⟩ <;> fin_cases hb <;> simp_all
  · intro s nd s' nd' h h' h0
    rcases nodes_cases h with ⟨rfl, rfl⟩ | ⟨rfl, rfl⟩ | ⟨rfl, rfl⟩ <;> exact absurd rfl h0
  · intro s nd h j hj hlt
    rcases nodes_cases h with ⟨rfl, rfl⟩ | ⟨rfl, rfl⟩ | ⟨rfl, rfl⟩
    · -- the map has four bytes, and zeros follow
      have hlt' : j < 512 := by simpa using hlt
      have hdiv : j / 512 = 0 := by omega
      have hj' : ¬ j < 4 := by simpa using hj
      simp [byteAt, hdiv, content_eq, disk, Block.write, Block.zero, Fin.ofNat, Nat.mod_eq_of_lt hlt', hj']
    · simp at hlt
    · simp at hlt

theorem wf : Wf fs nodes 0 := by
  refine ⟨Buffers.wf_init _, laid, ?_, ?_, by decide, ?_, ?_, ?_⟩
  · intro a i h
    rcases inodes_cases h with ⟨rfl, -⟩ | ⟨rfl, -⟩ <;> decide
  · intro a ha
    fin_cases ha
    · exact ⟨_, rfl⟩
    · exact ⟨_, rfl⟩
  · intro a i a' i' h h' hs
    rcases inodes_cases h with ⟨rfl, rfl⟩ | ⟨rfl, rfl⟩ <;> rcases inodes_cases h' with ⟨rfl, rfl⟩ | ⟨rfl, rfl⟩ <;> simp_all
  · intro a i h
    rcases inodes_cases h with ⟨rfl, rfl⟩ | ⟨rfl, rfl⟩
    · exact ⟨_, rfl, map_kept.toRepr⟩
    · exact ⟨_, rfl, file_kept.toRepr⟩
  · intro a i h _
    rcases inodes_cases h with ⟨rfl, rfl⟩ | ⟨rfl, rfl⟩
    · exact decode_map.symm
    · exact decode_file.symm

theorem mapOpen : MapOpen fs nodes := ⟨_, _, _, rfl, rfl, rfl, rfl, rfl, by decide⟩

theorem mapSync : MapSync fs nodes := by
  intro nd h j hj
  cases h
  have hj' : j < 4 := hj
  have hdiv : j / 512 = 0 := by omega
  have hmod : j % 512 = j := Nat.mod_eq_of_lt (by omega)
  simp only [byteAt, hdiv, content_eq, disk, Fin.ofNat, hmod]
  simp [hj', fs, Block.write]

theorem writeRoom {off size : ℕ} (h : off + size ≤ 512) : WriteRoom fs nodes 4 ⟨0, false, [], 0⟩ off size := by
  refine ⟨fun j _ _ hj => absurd hj (Nat.not_lt_zero _), fun _ => ⟨by omega, by decide, by decide, fun _ b hb => ?_, ?_, ?_⟩⟩
  · have hb2 : b = 2 := by simpa [mapBlocks, nodes] using hb
    subst hb2
    decide
  · have hone : sectorsFor (off + size) ≤ 1 := by
      unfold sectorsFor
      omega
    have hfree : 1 ≤ fs.freeMap.freeBelow (fs.buffers.disk.capacity - 1) := by decide
    exact (Nat.sub_le _ _).trans (hone.trans hfree)
  · intro hl
    unfold sectorsFor at hl
    omega

/-- A write to the empty file. -/
theorem wrote {off size : ℕ} (buf : ℕ → UInt8) (h : off + size ≤ 512) :
    ∃ k' new nd', inodeWriteAt persistFreeMap 2 buf size off fs = .ok (writeCount 0 off size, k') ∧
      WroteAt fs nodes 4 ⟨0, false, [], 0⟩ buf off size new nd' k' := by
  have hN : nodes 4 = some ⟨0, false, [], 0⟩ := rfl
  have hspec : wp (inodeWriteAt persistFreeMap 2 buf size off) _ _ fs :=
    inodeWriteAt_wrote wf mapOpen rfl hN rfl (by omega) (by omega)
  obtain ⟨w, k', hrun, rfl, new, nd', hwrote⟩ :=
    exists_ok (wp_mono hspec (fun _ _ h => h) fun _ => Unless.elim (writeRoom h))
  exact ⟨k', new, nd', hrun, hwrote⟩

end Sample

/-! ### How much is written -/

/-- The disk's last sector is none of those that a write of `size` bytes at `off` reads or writes: not a block
of the file in the range, and if the file grows neither its inode, nor a block of the free map, nor the sectors
that are allocated. -/
structure Spared (k : Fs) (N : Nodes) (s : ℕ) (nd : Node) (off size : ℕ) : Prop where
  blocks : ∀ j, off ≤ j → j < off + size → j / 512 < nd.blocks.length →
    nd.blocks.getD (j / 512) 0 + 1 < k.buffers.disk.capacity
  inode : nd.length < off + size → s + 1 < k.buffers.disk.capacity
  map : nd.blocks.length < sectorsFor (off + size) → MapClear k N
  free : sectorsFor (off + size) - nd.blocks.length ≤ k.freeMap.freeBelow (k.buffers.disk.capacity - 1)

theorem Spared.room {size : ℕ} (h : Spared k N s nd off size) (hw : Wf k N 0) (hm : MapOpen k N)
    (hsec : sectorsFor (off + size) ≤ 122) : WriteRoom k N s nd off size := by
  refine ⟨h.blocks, fun hlt => ⟨?_, hm.capacity_le hw, h.inode hlt, h.map, h.free, fun hl => ?_⟩⟩
  · unfold sectorsFor at hsec
    omega
  · omega

/-- No sector of an inode is the disk's last. -/
def SparesLast (k : Fs) (d : InodeDisk) : Prop :=
  ∀ j b, j < bytesToSectors d.length → blockOf k.tables d j = some b → b + 1 < k.buffers.disk.capacity

theorem SparesLast.clear (h : SparesLast k d) (hr : Repr k.tables d nd) : nd.Clear k := by
  intro b hb
  obtain ⟨j, hj, rfl⟩ := List.getElem_of_mem hb
  refine h j _ (by rw [hr.bytesToSectors]; exact hj) ?_
  rw [hr.blockOf_eq hj, List.getD_eq_getElem _ _ hj]

/-- **What a write does to contents.** The file has its old contents, followed by zeros, with the bytes
written in their place; they are read back; and the other files but the free map's are as they were. -/
theorem inode_write_at_contents {size : ℤ} (hw : Wf k N 0) (hm : MapOpen k N) (hi : k.inodes.cell a = some i)
    (hs : i.sector ≠ 0) (hsize : size < 2 ^ 31) (hoff : off < 2 ^ 31)
    (hrun : inodeWriteAt persistFreeMap a buf size off k = .ok (n, k')) :
    ∃ old i', contents k i.data = some old ∧ k'.inodes.cell a = some i' ∧ i'.sector = i.sector ∧
      contents k' i'.data = some ((List.range i'.data.length.toNat).map fun j =>
        if off ≤ j ∧ j < off + n then buf (j - off) else old.getD j 0) ∧
      (if n = 0 then i.data.length else max i.data.length (off + n)) ≤ i'.data.length ∧
      i'.data.length ≤ max i.data.length (off + size) ∧
      (∀ bytes k'', inodeReadAt persistFreeMap a n off k' = .ok (bytes, k'') → bytes = (List.range n).map buf) ∧
      (SparesLast k' i'.data → ∃ bytes k'', inodeReadAt persistFreeMap a n off k' = .ok (bytes, k'')) ∧
      ∀ s', N s' ≠ none → s' ≠ i.sector → s' ≠ 0 → contentsAt k' s' = contentsAt k s' := by
  obtain ⟨nd, hN, hr⟩ := hw.opened.node a i hi
  obtain ⟨new, nd', hedit, hle, hbytes, hlow, hhigh⟩ := inodeWriteAt_result hw hm hi hN hs hsize hoff hrun
  obtain ⟨d, hd, hr'⟩ := hedit.cell hi
  have hread : wp (inodeReadAt persistFreeMap a n off) _ _ k' :=
    inodeReadAt_spec hedit.wf hd (Function.update_self _ _ _) (by omega) hoff
  have hcov : min n (nd'.length - off) = n := by
    split_ifs at hlow <;> omega
  refine ⟨_, _, contents_eq hr, hd, rfl, ?_, ?_, ?_, ?_, ?_, fun s' hs' hne h0 => hedit.contentsAt_eq hw hs' hne h0⟩
  · rw [contents_eq hr', hbytes, hr'.length, Int.toNat_natCast]
  · rw [hr.length, hr'.length]
    split_ifs at hlow ⊢ <;> omega
  · rw [hr.length, hr'.length]
    exact hhigh
  · intro bytes k'' hrun'
    rw [(wp_of_ok hread hrun').1, hcov]
    refine fileBytes_eq_iff fun j hj => ?_
    -- byte `off + j` of the new contents is byte `j` of the buffer
    have hlt : off + j < nd'.length := by
      rw [if_neg (by omega)] at hlow
      omega
    have hat := congrArg (fun l => l.getD (off + j) 0) hbytes
    simp only [getD_fileBytes, if_pos hlt] at hat
    rw [hat, List.getD_eq_getElem _ _ (by simpa using hlt)]
    simp only [List.getElem_map, List.getElem_range]
    rw [if_pos (by omega), Nat.add_sub_cancel_left]
  · intro hspare
    obtain ⟨bytes, k'', hrun', -⟩ := exists_ok (wp_mono hread (fun _ _ h => h) fun _ => Unless.elim (hspare.clear hr'))
    exact ⟨bytes, k'', hrun'⟩

/-- A file of which a block was allocated: the free map's contents are others than before. -/
theorem Edited.map_contents_ne {new : List ℕ} (h : Edited k N s nd new nd' k') (hw : Wf k N 0) (hm : MapOpen k N)
    (hsync : MapSync k N) (hs : s ≠ 0) (hnew : new ≠ []) : contentsAt k' 0 ≠ contentsAt k 0 := by
  obtain ⟨f, i, nd₀, hf, -, -, -, hN₀, hlen⟩ := hm
  have hN₀' : Function.update N s (some nd') 0 = some nd₀ := by rw [Function.update_of_ne (Ne.symm hs)]; exact hN₀
  rw [h.wf.contentsAt_eq hN₀', hw.contentsAt_eq hN₀]
  intro heq
  have hsync' := h.sync hs (k.files.ne_null hf) hsync nd₀ hN₀'
  obtain ⟨b, l, rfl⟩ := List.exists_cons_of_ne_nil hnew
  obtain ⟨hlt, hclear⟩ := h.fresh b List.mem_cons_self
  have hsize : b / 8 < k.freeMap.fileSize := by
    rw [Bitmap.fileSize, Bitmap.byteCnt, hw.laid.size]
    omega
  have hsize' : b / 8 < k'.freeMap.fileSize := by
    rw [Bitmap.fileSize, h.bitCnt]
    exact hsize
  -- the byte that holds bit `b` would be the same, and so would bit `b`
  have hbyte : k'.freeMap.bytes (b / 8) = k.freeMap.bytes (b / 8) := by
    have hat := congrArg (fun l => l.getD (b / 8) 0) (Option.some.inj heq)
    simp only [getD_fileBytes, if_pos (hsize.trans_le hlen)] at hat
    rw [← hsync' _ hsize', hat, hsync nd₀ hN₀ _ hsize]
  have hbit : bitOf k'.freeMap.bytes b = bitOf k.freeMap.bytes b := by simp only [bitOf, hbyte]
  rw [Bitmap.bytes, Bitmap.bytes, bitOf_bitsByte, bitOf_bitsByte, h.bits, hclear] at hbit
  simp at hbit

/-- A byte written to an empty file. -/
theorem Sample.write_ok : ∃ k', inodeWriteAt persistFreeMap 2 (fun _ => 7) ((1 : ℕ) : ℤ) ((0 : ℕ) : ℤ) fs = .ok (1, k') ∧
    contentsAt k' 0 ≠ contentsAt fs 0 := by
  obtain ⟨k', new, nd', hrun, hwrote⟩ := wrote (fun _ => 7) (by decide : 0 + 1 ≤ 512)
  refine ⟨k', hrun, hwrote.edited.map_contents_ne wf mapOpen mapSync (by decide) ?_⟩
  rintro rfl
  have hcard := hwrote.edited.node.card
  rw [hwrote.edited.blocks, hwrote.length] at hcard
  exact absurd hcard (by decide)

/-- A byte written to an empty file is read back. -/
theorem inode_write_at_contents_first : ∃ k' i', k'.inodes.cell 2 = some i' ∧ contents k' i'.data = some [7] ∧
    ∀ bytes k'', inodeReadAt persistFreeMap 2 ((1 : ℕ) : ℤ) ((0 : ℕ) : ℤ) k' = .ok (bytes, k'') → bytes = [7] := by
  obtain ⟨k', hrun, -⟩ := Sample.write_ok
  obtain ⟨old, i', -, hi', -, hcontents, hlow, hhigh, hread, -⟩ :=
    inode_write_at_contents Sample.wf Sample.mapOpen (i := ⟨4, 2, false, 0, Sample.fileInode⟩) rfl (by decide) (by decide)
      (Nat.two_pow_pos 31) hrun
  have hlen : i'.data.length = 1 := by
    have h0 : Sample.fileInode.length = 0 := rfl
    simp only [h0] at hlow hhigh
    simp at hlow hhigh
    omega
  refine ⟨k', i', hi', ?_, hread⟩
  rw [hcontents, hlen]
  rfl

/-- The same write changes the contents of another inode, the free map's. -/
theorem inode_write_at_changes_map : ∃ k', inodeWriteAt persistFreeMap 2 (fun _ => 7) ((1 : ℕ) : ℤ) ((0 : ℕ) : ℤ) Sample.fs =
    .ok (1, k') ∧ Wf Sample.fs Sample.nodes 0 ∧ Sample.nodes 0 ≠ none ∧ contentsAt k' 0 ≠ contentsAt Sample.fs 0 := by
  obtain ⟨k', hrun, hne⟩ := Sample.write_ok
  exact ⟨k', hrun, Sample.wf, by decide, hne⟩

end Pintos
