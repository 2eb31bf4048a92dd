import Mathlib.Data.List.Sort
import Pintos.Filesys.Reading
import Pintos.Filesys.HandleSpec

/-!
# Growth

What `inode_grow` does to an inode is said here in the program's own terms, the
sector of a block (`blockOf`) and the bits of the free map. Up to 512 sectors it
is a clean extension (`inode_grow_extends`), as long as the last sector of the
disk is spared, and after any number of growths `byte_to_sector` and
`inode_close` find the sectors that were allocated. Past 512 sectors they do not
(`growth_lookup_agree_iff`): `byte_to_sector` is not implemented there.
-/

namespace Pintos

open Library Library.Prog Library.Bytes

variable {k k' : Fs} {N : Nodes} {r : DataRef} {s a : ℕ} {i : Inode} {nd nd' : Node} {d : InodeDisk} {new : List ℕ}

/-! ### One growth -/

/-- The last sector of the disk is none of those that growing to `L` bytes writes: not the inode's, and if sectors are
to be allocated no block of the free map's file and none of them. There is memory for a table, if one is needed. -/
structure GrowSpared (k : Fs) (N : Nodes) (s : ℕ) (nd : Node) (L : ℕ) : Prop where
  sector : s + 1 < k.buffers.disk.capacity
  map : nd.blocks.length < sectorsFor L → MapClear k N
  free : sectorsFor L - nd.blocks.length ≤ k.freeMap.freeBelow (k.buffers.disk.capacity - 1)
  table : 122 < sectorsFor L → nd.table = 0 → k.tables.next < 2 ^ 32
  boot : k.freeMapFile = 0 → k.buffers.disk.capacity ≤ 2 ^ 21

theorem GrowSpared.room {L : ℕ} (h : GrowSpared k N s nd L) (hw : Wf k N 0) (hm : k.freeMapFile ≠ 0 → MapOpen k N) :
    GrowRoom k N s nd L := by
  refine ⟨?_, h.sector, h.map, h.free, h.table⟩
  by_cases h0 : k.freeMapFile = 0
  · exact h.boot h0
  · exact (hm h0).capacity_le hw

/-- The node that a growth leaves in its sector. -/
theorem Grown.kept (h : Grown k N r s nd new nd' k') : Kept k'.tables (InodeDisk.decode (k'.buffers.content s)) nd' :=
  h.wf.laid.disk s nd' (Function.update_self ..)

namespace Sample

/-- The sample file system with its first `n` sectors marked. -/
def filled (n : ℕ) : Fs := { fs with freeMap := ⟨8, fun j => j < n⟩ }

theorem filled_wf {n : ℕ} (hn : 5 ≤ n) : Wf (filled n) nodes 0 := by
  refine ⟨wf.cache, wf.laid.of_map rfl ⟨decide_eq_true (by omega), decide_eq_true (by omega)⟩ fun s nd hN b hb _ => ?_,
    wf.opened⟩
  have hlt : b < 5 := by
    rcases nodes_cases hN with ⟨rfl, rfl⟩ | ⟨rfl, rfl⟩ | ⟨rfl, rfl⟩
    all_goals
      simp at hb
      omega
  exact decide_eq_true (by omega)

theorem filled_mapOpen (n : ℕ) : MapOpen (filled n) nodes := ⟨_, _, _, rfl, rfl, rfl, rfl, rfl, by simp [filled, Bitmap.fileSize, Bitmap.byteCnt]⟩

theorem filled_mapClear (n : ℕ) : MapClear (filled n) nodes := by
  intro b hb
  have hb2 : b = 2 := by simpa [mapBlocks, nodes] using hb
  subst hb2
  change 3 < 8
  decide

theorem filled_grows : ∃ k', inodeGrow persistFreeMap 4 (.inode 2) 1 (filled 5) = .ok (true, k') := by
  have h : (inodeGrow persistFreeMap 4 (.inode 2) 1).returns (fun ok _ => ok) (filled 5) = true := by decide +kernel
  obtain ⟨ok, k', hrun, rfl⟩ := exists_of_returns h
  exact ⟨k', hrun⟩

end Sample

/-- The sectors that a growth took from the free map, in the order in which it took them: `free_map_allocate` always
takes the first that is free. -/
def allocatedBy (k k' : Fs) : List ℕ :=
  (List.range k.freeMap.bitCnt).filter fun b => k'.freeMap.bit b && !k.freeMap.bit b

theorem Grown.allocatedBy_eq (h : Grown k N r s nd new nd' k') (hw : Wf k N 0) : allocatedBy k k' = new := by
  refine (List.Pairwise.filter _ List.pairwise_lt_range).eq_of_mem_iff h.sorted fun b => ?_
  rw [List.mem_filter, List.mem_range, h.bits, hw.laid.size]
  constructor
  · rintro ⟨-, hb⟩
    cases hbit : k.freeMap.bit b <;> simp [hbit] at hb
    exact hb
  · intro hb
    obtain ⟨hlt, hbit⟩ := h.fresh b hb
    simp [hlt, hbit, hb]

/-- **A sequence of `inode_grow` calls** with increasing lengths that all return true, for the inode at address `a` in
sector `s`: the state it leads to, the sectors that were assigned to the blocks of the inode, and its length. -/
inductive Growths (a s : ℕ) (k₀ : Fs) (blocks₀ : List ℕ) (L₀ : ℤ) : Fs → List ℕ → ℤ → Prop
  /-- No call. -/
  | nil : Growths a s k₀ blocks₀ L₀ k₀ blocks₀ L₀
  /-- One more call. -/
  | grow {k k' : Fs} {blocks : List ℕ} {L L' : ℤ} : Growths a s k₀ blocks₀ L₀ k blocks L → L < L' → L' < 2 ^ 31 →
      inodeGrow persistFreeMap s (.inode a) L' k = .ok (true, k') →
        Growths a s k₀ blocks₀ L₀ k' (blocks ++ allocatedBy k k') L'

/-- The inode at address `a` was removed, and has one opener left. -/
def Fs.condemn (k : Fs) (a : ℕ) : Fs :=
  { k with inodes := k.inodes.set a fun i => { i with openCnt := 1, removed := true } }

/-- **Growth and lookup agree** on an inode of `L` bytes, to whose blocks growth has assigned the sectors `blocks`:
`byte_to_sector` gives them, they are distinct, and when the inode has been removed the last `inode_close` frees them
and the inode's own sector, and no others. (The free map's own inode is never closed.) -/
structure LookupAgrees (k : Fs) (a : ℕ) (blocks : List ℕ) (L : ℤ) : Prop where
  lookup : ∀ pos : ℤ, 0 < pos → pos ≤ L → ∃ b, blocks[((pos - 1) / 512).toNat]? = some b ∧
    byteToSector persistFreeMap a pos k = .ok (b, k)
  nodup : blocks.Nodup
  release : ∀ i, k.inodes.cell a = some i → i.sector ≠ 0 → ∃ k', inodeClose a (k.condemn a) = .ok ((), k') ∧
    Cleared k.freeMap (i.sector :: blocks) k'.freeMap

/-- What is left of an inode by growths to at most 512 sectors. -/
structure GrownTo (k : Fs) (N : Nodes) (a s : ℕ) (nd : Node) : Prop where
  wf : Wf k N 0
  map : MapOpen k N
  clear : s ≠ 0 → MapClear k N
  cell : ∃ i, k.inodes.cell a = some i ∧ i.sector = s
  node : N s = some nd

theorem GrownTo.step {L : ℤ} (h : GrownTo k N a s nd) (hL : (nd.length : ℤ) < L) (hmax : L ≤ 512 * 512)
    (hrun : inodeGrow persistFreeMap s (.inode a) L k = .ok (true, k')) :
    ∃ N' nd', GrownTo k' N' a s nd' ∧ nd'.blocks = nd.blocks ++ allocatedBy k k' ∧ (nd'.length : ℤ) = L := by
  obtain ⟨i, hi, rfl⟩ := h.cell
  obtain ⟨n, rfl⟩ : ∃ n : ℕ, L = n := ⟨L.toNat, by omega⟩
  have hspec : wp (inodeGrow persistFreeMap i.sector (.inode a) n) _ _ k :=
    inodeGrow_spec persistFreeMap_persists h.wf (fun _ => h.map) (h.wf.target hi h.node) (by omega) (by exact_mod_cast hmax)
  obtain ⟨-, new, nd', hlen, hg⟩ := wp_of_ok hspec hrun
  have hedit : Edited k N i.sector nd new nd' k' := .of_grown hg h.wf (h.wf.laid.room h.node) (by omega)
  obtain ⟨d, hd, -⟩ := hedit.cell hi
  refine ⟨_, nd', ⟨hg.wf, hedit.mapOpen h.node h.map, fun hs b hb => ?_, ⟨_, hd, rfl⟩, Function.update_self ..⟩, ?_, by omega⟩
  · rw [hg.capacity]
    refine h.clear hs b ?_
    rwa [mapBlocks, Function.update_of_ne (Ne.symm hs)] at hb
  · rw [hg.allocatedBy_eq h.wf, hg.blocks]

theorem GrownTo.lookupAgrees (h : GrownTo k N a s nd) : LookupAgrees k a nd.blocks nd.length := by
  obtain ⟨i, hi, rfl⟩ := h.cell
  have hr := h.wf.repr hi h.node
  have hle := hr.length_le
  refine ⟨fun pos h0 hpos => ?_, (List.nodup_cons.1 (h.wf.laid.nodup _ nd h.node)).2, fun j hj hs => ?_⟩
  · obtain ⟨n, rfl⟩ : ∃ n : ℕ, pos = n := ⟨pos.toNat, by omega⟩
    have hidx : (((n : ℤ) - 1) / 512).toNat = (n - 1) / 512 := by omega
    have hlookup : wp (byteToSector persistFreeMap a n) (fun b k' => b = nd.blocks.getD ((n - 1) / 512) 0 ∧ k' = k)
        (fun _ => False) k := byteToSector_spec hi hr (by omega) (by omega) ⟨rfl, rfl⟩
    obtain ⟨b, k', hrun, rfl, rfl⟩ := exists_ok hlookup
    refine ⟨_, ?_, hrun⟩
    rw [hidx, List.getD_eq_getElem _ _ (by omega)]
    exact List.getElem?_eq_getElem (by omega)
  · rw [hi] at hj
    cases hj
    have hw : Wf (k.condemn a) N 0 := h.wf.set a fun _ => ⟨rfl, rfl⟩
    have hcell : (k.condemn a).inodes.cell a = some { i with openCnt := 1, removed := true } := by simp [Fs.condemn, hi]
    have hclose := inodeClose_removed hw ?_ hcell h.node rfl rfl hs
    · obtain ⟨⟨⟩, k', hrun, M, B, hM, -, rfl⟩ :=
        exists_ok (wp_mono hclose (fun _ _ h => h) fun _ => Unless.elim (h.clear hs))
      exact ⟨_, hrun, hM⟩
    · -- the free map's inode is another
      obtain ⟨f, j, nd₀, hf, hj, hsec, hdeny, hN₀, hsize⟩ := h.map
      have hne : f.inode ≠ a := by
        rintro heq
        rw [heq, hi] at hj
        cases hj
        exact hs hsec
      exact ⟨f, j, nd₀, hf, (k.inodes.cell_set_of_ne _ hne).trans hj, hsec, hdeny, hN₀, hsize⟩

/-- No byte of an inode of more than 512 sectors is found. -/
theorem byteToSector_long {pos L : ℤ} (hd : k.dataOf (.inode a) = some d) (hlen : d.length = L) (h : 512 * 512 < L)
    (h31 : L < 2 ^ 31) (h0 : pos ≠ 0) (hpos : pos ≤ L) :
    wp (byteToSector persistFreeMap a pos) (fun _ _ => False) (fun _ => True) k := by
  obtain ⟨n, rfl⟩ : ∃ n : ℕ, L = n := ⟨L.toNat, by omega⟩
  obtain ⟨i, hi, rfl⟩ := Option.map_eq_some_iff.1 hd
  rw [byteToSector, wp_bind]
  refine wp_inodeAt hi ?_
  rw [wp_bind]
  refine inodeGrow_noop hi (by omega) ?_
  exact sectorOf_long hd hlen (by exact_mod_cast h) (by exact_mod_cast h31) h0 fun _ _ => trivial

/-- The length of the inode along a sequence of growths. -/
theorem Growths.length {k₀ : Fs} {blocks₀ blocks : List ℕ} {L₀ L : ℤ} (h : Growths a s k₀ blocks₀ L₀ k blocks L)
    (hd : k₀.dataOf (.inode a) = some d) (hlen : d.length = L₀) (h31 : L₀ < 2 ^ 31) :
    L₀ ≤ L ∧ L < 2 ^ 31 ∧ ∃ d', k.dataOf (.inode a) = some d' ∧ d'.length = L := by
  induction h with
  | nil => exact ⟨le_rfl, h31, d, hd, hlen⟩
  | grow _ hlt hlt' hrun ih =>
    obtain ⟨hle, -, d', hd', hlen'⟩ := ih
    exact ⟨by omega, hlt', wp_of_ok (inodeGrow_length hd' (hlen'.symm ▸ hlt)) hrun⟩

/-- Up to 512 sectors the inode keeps a node. -/
theorem Growths.grownTo {k₀ : Fs} {blocks : List ℕ} {L : ℤ} (h : Growths a s k₀ nd.blocks nd.length k blocks L)
    (h₀ : GrownTo k₀ N a s nd) (hL : L ≤ 512 * 512) :
    ∃ N' nd', GrownTo k N' a s nd' ∧ nd'.blocks = blocks ∧ (nd'.length : ℤ) = L := by
  induction h with
  | nil => exact ⟨N, nd, h₀, rfl, rfl⟩
  | grow _ hlt _ hrun ih =>
    obtain ⟨N₁, nd₁, h₁, rfl, rfl⟩ := ih (by omega)
    exact h₁.step hlt hL hrun

/-- **Growth and lookup agree exactly up to 512 sectors**, after every sequence of growths. -/
theorem growth_lookup_agree_iff {k₀ : Fs} {blocks : List ℕ} {L : ℤ} (hw : Wf k₀ N 0) (hm : MapOpen k₀ N)
    (hclear : MapClear k₀ N) (hi : k₀.inodes.cell a = some i) (hN : N i.sector = some nd)
    (hrun : Growths a i.sector k₀ nd.blocks nd.length k blocks L) : LookupAgrees k a blocks L ↔ L ≤ 512 * 512 := by
  have h₀ : GrownTo k₀ N a i.sector nd := ⟨hw, hm, fun _ => hclear, ⟨i, hi, rfl⟩, hN⟩
  constructor
  · intro hagree
    by_contra hlong
    have hr := hw.repr hi hN
    have hshort := hr.length_lt
    have hd : k₀.dataOf (.inode a) = some i.data := by simp [Fs.dataOf, hi]
    obtain ⟨hle, h31, d, hd', hlen⟩ := hrun.length hd hr.length (by omega)
    -- the sector of the first byte is not found
    obtain ⟨b, -, hlookup⟩ := hagree.lookup 1 (by decide) (by omega)
    exact wp_of_ok (byteToSector_long hd' hlen (by omega) h31 (by decide) (by omega)) hlookup
  · intro hL
    obtain ⟨N', nd', h, rfl, rfl⟩ := hrun.grownTo h₀ hL
    exact h.lookupAgrees

/-- The empty file grows to a byte, and the byte is found. -/
theorem growth_lookup_agree_first : ∃ k' blocks, Growths 2 4 (Sample.filled 5) [] 0 k' blocks 1 ∧
    LookupAgrees k' 2 blocks 1 := by
  obtain ⟨k', hgrow⟩ := Sample.filled_grows
  have hrun : Growths 2 4 (Sample.filled 5) [] 0 k' ([] ++ allocatedBy (Sample.filled 5) k') 1 :=
    .grow .nil Int.one_pos (by decide) hgrow
  have hi : (Sample.filled 5).inodes.cell 2 = some ⟨4, 2, false, 0, Sample.fileInode⟩ := rfl
  have hN : Sample.nodes 4 = some ⟨0, false, [], 0⟩ := rfl
  have hiff := growth_lookup_agree_iff (Sample.filled_wf le_rfl) (Sample.filled_mapOpen 5) (Sample.filled_mapClear 5) hi hN hrun
  exact ⟨k', _, hrun, hiff.2 (by decide)⟩

namespace Sample

/-- The free map of a disk of 1024 sectors, whose first 517 are marked. -/
def longMap : Bitmap := ⟨1024, fun j => j < 517⟩

/-- The inode of that map. -/
def longMapInode : InodeDisk := { mapInode with length := 128 }

/-- The inode of a file of 512 sectors, whose table is at address `1`. -/
def longInode : InodeDisk := { fileInode with length := 512 * 512, indirect := 1 }

/-- The disk with that file in sectors `5` to `516`. -/
def longDisk : Disk where
  capacity := 1024
  sectors s := if s = 0 then longMapInode.encode else if s = 1 then rootInode.encode
    else if s = 2 then Block.zero.write 0 128 longMap.bytes else if s = 4 then longInode.encode else Block.zero
  capacity_le := by decide

/-- The file system with that file open at address `2`. -/
def long : Fs :=
  { fs with
    buffers := .init longDisk
    freeMap := longMap
    inodes := (Heap.empty.alloc ⟨0, 2, false, 0, longMapInode⟩).alloc ⟨4, 2, false, 0, longInode⟩
    tables := Heap.empty.alloc fun j => 5 + j.1 }

/-- Its node. -/
def longNode : Node := ⟨512 * 512, false, List.range' 5 512, 1⟩

/-- Its files. -/
def longNodes : Nodes := fun s =>
  if s = 0 then some ⟨128, false, [2], 0⟩ else if s = 1 then some ⟨0, true, [], 0⟩
  else if s = 4 then some longNode else none

theorem longNodes_cases {s : ℕ} {nd : Node} (h : longNodes s = some nd) :
    s = 0 ∧ nd = ⟨128, false, [2], 0⟩ ∨ s = 1 ∧ nd = ⟨0, true, [], 0⟩ ∨ s = 4 ∧ nd = longNode := by
  unfold longNodes at h
  split_ifs at h with h0 h1 h4
  · exact .inl ⟨h0, (Option.some.inj h).symm⟩
  · exact .inr (.inl ⟨h1, (Option.some.inj h).symm⟩)
  · exact .inr (.inr ⟨h4, (Option.some.inj h).symm⟩)

theorem longInodes_cases {a : ℕ} {i : Inode} (h : long.inodes.cell a = some i) :
    a = 1 ∧ i = ⟨0, 2, false, 0, longMapInode⟩ ∨ a = 2 ∧ i = ⟨4, 2, false, 0, longInode⟩ := by
  by_cases h2 : a = 2
  · subst h2
    exact .inr ⟨rfl, (Option.some.inj h).symm⟩
  · by_cases h1 : a = 1
    · subst h1
      exact .inl ⟨rfl, (Option.some.inj h).symm⟩
    · rw [long, Heap.cell_alloc_of_ne _ _ h2, Heap.cell_alloc_of_ne _ _ h1] at h
      cases h

theorem longMapInode_fits : longMapInode.Fits :=
  ⟨⟨by decide, by decide⟩, mapInode_fits.magic, mapInode_fits.start, mapInode_fits.indirect, mapInode_fits.doubly⟩

theorem longInode_fits : longInode.Fits :=
  ⟨⟨by decide, by decide⟩, fileInode_fits.magic, fileInode_fits.start, by decide, fileInode_fits.doubly⟩

theorem longMap_kept : Kept long.tables longMapInode ⟨128, false, [2], 0⟩ := by
  exact ⟨⟨longMapInode_fits, rfl, rfl, by decide, by decide, fun _ => map_kept.direct (by decide),
    fun h => absurd h (by decide)⟩, rfl, fun _ => rfl⟩

theorem longRoot_kept : Kept long.tables rootInode ⟨0, true, [], 0⟩ :=
  ⟨⟨rootInode_fits, rfl, rfl, rfl, by decide, fun _ _ _ hb => (by simp at hb), fun h => absurd h (by decide)⟩, rfl,
    fun _ => rfl⟩

theorem mem_longBlocks {b : ℕ} : b ∈ longNode.blocks ↔ 5 ≤ b ∧ b < 517 := by
  simp [longNode, List.mem_range'_1]

theorem long_kept : Kept long.tables longInode longNode := by
  have hlen : longNode.blocks.length = 512 := List.length_range' ..
  refine ⟨⟨longInode_fits, rfl, rfl, ?_, hlen.le, fun h => ?_, fun _ => ⟨rfl, _, rfl, fun j b hb => ?_⟩⟩, rfl, fun h => ?_⟩
  · rw [hlen]
    rfl
  · rw [hlen] at h
    exact absurd h (by decide)
  · obtain ⟨hlt, rfl⟩ := List.getElem?_eq_some_iff.1 hb
    simp [longNode]
  · rw [hlen] at h
    exact absurd h (by decide)

theorem long_laid : Laid long.buffers long.tables long.freeMap longNodes := by
  have hblock : ∀ s nd, longNodes s = some nd → ∀ b ∈ s :: nd.blocks, b < 517 ∧ (b ∈ nd.blocks → 2 ≤ b) := by
    intro s nd hN b hb
    rcases longNodes_cases hN with ⟨rfl, rfl⟩ | ⟨rfl, rfl⟩ | ⟨rfl, rfl⟩
    · simp at hb ⊢
      omega
    · simp at hb ⊢
      omega
    · rw [List.mem_cons, mem_longBlocks] at hb
      rw [mem_longBlocks]
      omega
  refine ⟨?_, ?_, fun s nd hN b hb => ?_, ?_, ?_, ?_, ?_, ⟨rfl, rfl⟩, rfl⟩
  · intro s nd hN
    rcases longNodes_cases hN with ⟨rfl, rfl⟩ | ⟨rfl, rfl⟩ | ⟨rfl, rfl⟩
    · exact (InodeDisk.decode_encode longMapInode_fits).symm ▸ longMap_kept
    · exact (InodeDisk.decode_encode rootInode_fits).symm ▸ longRoot_kept
    · exact (InodeDisk.decode_encode longInode_fits).symm ▸ long_kept
  · intro s nd hN b hb
    have hlt := (hblock s nd hN b hb).1
    exact ⟨hlt.trans (by decide), decide_eq_true hlt⟩
  · exact (hblock s nd hN b (List.mem_cons_of_mem s hb)).2 hb
  · intro s nd hN
    rcases longNodes_cases hN with ⟨rfl, rfl⟩ | ⟨rfl, rfl⟩ | ⟨rfl, rfl⟩
    · decide
    · decide
    · refine List.nodup_cons.2 ⟨fun h => ?_, List.nodup_range' ..⟩
      exact absurd (mem_longBlocks.1 h).1 (by decide)
  · intro s nd s' nd' hN hN' b hb hb'
    rcases longNodes_cases hN with ⟨rfl, rfl⟩ | ⟨rfl, rfl⟩ | ⟨rfl, rfl⟩ <;>
      rcases longNodes_cases hN' with ⟨rfl, rfl⟩ | ⟨rfl, rfl⟩ | ⟨rfl, rfl⟩ <;>
        simp [mem_longBlocks] at hb hb' ⊢ <;> omega
  · intro s nd s' nd' hN hN' h0 heq
    rcases longNodes_cases hN with ⟨rfl, rfl⟩ | ⟨rfl, rfl⟩ | ⟨rfl, rfl⟩ <;>
      rcases longNodes_cases hN' with ⟨rfl, rfl⟩ | ⟨rfl, rfl⟩ | ⟨rfl, rfl⟩ <;> simp [longNode] at h0 heq ⊢
  · intro s nd hN j hj hlt
    rcases longNodes_cases hN with ⟨rfl, rfl⟩ | ⟨rfl, rfl⟩ | ⟨rfl, rfl⟩
    · -- zeros follow the bytes of the map
      have hlt' : j < 512 := by simpa using hlt
      have hdiv : j / 512 = 0 := by omega
      have hj' : ¬ j < 128 := by simpa using hj
      have hcontent : long.buffers.content 2 = Block.zero.write 0 128 longMap.bytes := rfl
      simp [byteAt, hdiv, hcontent, Block.write, Block.zero, Fin.ofNat, Nat.mod_eq_of_lt hlt', hj']
    · simp at hlt
    · simp only [longNode, List.length_range'] at hj hlt
      omega

theorem long_wf : Wf long longNodes 0 := by
  refine ⟨Buffers.wf_init _, long_laid, ?_, ?_, by decide, ?_, ?_, ?_⟩
  · intro a i h
    rcases longInodes_cases h with ⟨rfl, -⟩ | ⟨rfl, -⟩ <;> decide
  · intro a ha
    fin_cases ha
    · exact ⟨_, rfl⟩
    · exact ⟨_, rfl⟩
  · intro a i a' i' h h' hs
    rcases longInodes_cases h with ⟨rfl, rfl⟩ | ⟨rfl, rfl⟩ <;> rcases longInodes_cases h' with ⟨rfl, rfl⟩ | ⟨rfl, rfl⟩ <;>
      simp_all
  · intro a i h
    rcases longInodes_cases h with ⟨rfl, rfl⟩ | ⟨rfl, rfl⟩
    · exact ⟨_, rfl, longMap_kept.toRepr⟩
    · exact ⟨_, rfl, long_kept.toRepr⟩
  · intro a i h _
    rcases longInodes_cases h with ⟨rfl, rfl⟩ | ⟨rfl, rfl⟩
    · exact (InodeDisk.decode_encode longMapInode_fits).symm
    · exact (InodeDisk.decode_encode longInode_fits).symm

theorem long_mapOpen : MapOpen long longNodes := ⟨_, _, _, rfl, rfl, rfl, rfl, rfl, by decide⟩

theorem long_mapClear : MapClear long longNodes := by
  intro b hb
  have hb2 : b = 2 := by simpa [mapBlocks, longNodes] using hb
  subst hb2
  decide

theorem long_grows : ∃ k', inodeGrow persistFreeMap 4 (.inode 2) (512 * 512 + 1) long = .ok (true, k') := by
  have h : (inodeGrow persistFreeMap 4 (.inode 2) (512 * 512 + 1)).returns (fun ok _ => ok) long = true := by
    decide +kernel
  obtain ⟨ok, k', hrun, rfl⟩ := exists_of_returns h
  exact ⟨k', hrun⟩
end Sample

/-- **The 513th sector**: `inode_grow` returns true, and `byte_to_sector` finds no byte of the file any more. -/
theorem growth_lookup_past_512 : Wf Sample.long Sample.longNodes 0 ∧ MapOpen Sample.long Sample.longNodes ∧
    MapClear Sample.long Sample.longNodes ∧ ∃ k' blocks,
      Growths 2 4 Sample.long Sample.longNode.blocks (512 * 512) k' blocks (512 * 512 + 1) ∧
      ¬ LookupAgrees k' 2 blocks (512 * 512 + 1) := by
  obtain ⟨k', hgrow⟩ := Sample.long_grows
  have hrun : Growths 2 4 Sample.long Sample.longNode.blocks (512 * 512) k'
      (Sample.longNode.blocks ++ allocatedBy Sample.long k') (512 * 512 + 1) := .grow .nil (by decide) (by decide) hgrow
  refine ⟨Sample.long_wf, Sample.long_mapOpen, Sample.long_mapClear, k', _, hrun, ?_⟩
  have hi : Sample.long.inodes.cell 2 = some ⟨4, 2, false, 0, Sample.longInode⟩ := rfl
  have hN : Sample.longNodes 4 = some Sample.longNode := rfl
  rw [growth_lookup_agree_iff Sample.long_wf Sample.long_mapOpen Sample.long_mapClear hi hN hrun]
  decide

end Pintos
