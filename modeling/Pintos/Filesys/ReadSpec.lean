import Pintos.Filesys.Layout
import Pintos.Filesys.ReadAhead
import Pintos.Filesys.Stops

/-!
# Reading

`byte_to_sector` inside a file gives the file's block (`byteToSector_spec`), and
`inode_read_at` gives the file's bytes, as many as there are, and changes
nothing but what is in the cache (`inodeReadAt_spec`). It stops only if it reads
ahead past the end of the disk.
-/

namespace Pintos

open Library Library.Prog Library.Bytes

variable {k : Fs} {N : Nodes} {u a : ℕ} {i : Inode} {nd : Node} {persist : FsM Bool} {E : Halt → Prop}

/-! ### The cache below -/

theorem cachedWrite_spec {s ofs n : ℕ} {src : ℕ → UInt8} (hw : k.buffers.Wf) (hn : ofs + n ≤ sectorSize) :
    wp (cached (bufferCacheWrite s src ofs n))
      (fun _ k' => ∃ B, Written k.buffers s src ofs n B ∧ k' = { k with buffers := B })
      (Unless (s + 1 < k.buffers.disk.capacity)) k := by
  rw [cached, wp_within]
  refine wp_post (bufferCacheWrite_spec hw hn fun h => ⟨h, by decide⟩) ?_
  exact fun _ B hB => ⟨B, hB, rfl⟩

theorem cachedRead_spec {s : ℕ} {write : Bool} (hw : k.buffers.Wf) :
    wp (cached (bufferCacheRead s write))
      (fun b k' => b = k.buffers.content s ∧ ∃ B, Buffers.Keeps k.buffers B ∧ k' = { k with buffers := B })
      (Unless (s + write.toNat < k.buffers.disk.capacity)) k := by
  rw [cached, wp_within]
  refine wp_post (bufferCacheRead_spec hw fun h => ⟨h, by decide⟩) ?_
  exact fun _ B hB => ⟨hB.1, B, hB.2, rfl⟩

/-- Reading the first of the sectors of a list. -/
theorem cachedRead_admits {s : ℕ} {l : List ℕ} (hw : k.buffers.Wf) :
    wp (cached (bufferCacheRead s true))
      (fun b k' => b = k.buffers.content s ∧ ∃ B, Buffers.Keeps k.buffers B ∧
        (Buffers.Admits (s :: l) k.buffers ↔ Buffers.Admits l B) ∧ k' = { k with buffers := B })
      (fun e => e = .sectorOutOfRange ∧ ¬ Buffers.Admits (s :: l) k.buffers) k := by
  rw [cached, wp_within]
  refine wp_post (bufferCacheRead_admits hw) ?_
  exact fun _ B hB => ⟨hB.1, B, hB.2.1, hB.2.2, rfl⟩

theorem wp_inodeAt {Q : Inode → Fs → Prop} (hi : k.inodes.cell a = some i) (hQ : Q i k) : wp (inodeAt a) Q E k := by
  rw [inodeAt, wp_bind, wp_gets, wp_orStop]
  refine ⟨fun j hj => ?_, fun hn => ?_⟩
  · rw [hi] at hj
    cases hj
    exact hQ
  · rw [hi] at hn
    cases hn

theorem wp_inodeAt_of {Q : Inode → Fs → Prop} (hQ : ∀ i, k.inodes.cell a = some i → Q i k) :
    wp (inodeAt a) Q (fun _ => True) k := by
  rw [inodeAt, wp_bind, wp_gets, wp_orStop]
  exact ⟨hQ, fun _ => trivial⟩

theorem wp_fileAt {Q : File → Fs → Prop} {p : ℕ} {f : File} (hf : k.files.cell p = some f) (hQ : Q f k) :
    wp (fileAt p) Q E k := by
  rw [fileAt, wp_bind, wp_gets, wp_orStop]
  refine ⟨fun g hg => ?_, fun hn => ?_⟩
  · rw [hf] at hg
    cases hg
    exact hQ
  · rw [hf] at hn
    cases hn

theorem wp_tableAt {Q : ℕ → Fs → Prop} {t : ℕ} {T : Table} (ht : k.tables.cell t = some T) (j : Fin 512) (hQ : Q (T j) k) :
    wp (tableAt t j.1) Q E k := by
  rw [tableAt, wp_bind, wp_gets, wp_bind, wp_orStop]
  refine ⟨fun T' hT => ?_, fun hn => ?_⟩
  · rw [ht] at hT
    cases hT
    rw [dif_pos j.2, wp_pure]
    exact hQ
  · rw [ht] at hn
    cases hn

theorem byteAt_keeps {B B' : Buffers} (hB : Buffers.Keeps B B') (nd : Node) (j : ℕ) : byteAt B' nd j = byteAt B nd j := by
  unfold byteAt
  rw [hB.content]

/-- Moving sectors in and out of the cache keeps a file system well formed. -/
theorem Wf.keeps (hw : Wf k N u) {B : Buffers} (hB : Buffers.Keeps k.buffers B) : Wf { k with buffers := B } N u :=
  hw.of_content hB.wf hB.capacity (fun s _ _ => hB.content s) fun _ nd _ j _ _ => byteAt_keeps hB nd j

/-- The node of an open inode. -/
theorem Wf.repr (hw : Wf k N u) (hi : k.inodes.cell a = some i) (hN : N i.sector = some nd) : Repr k.tables i.data nd := by
  obtain ⟨nd', hN', hr⟩ := hw.opened.node a i hi
  rw [hN] at hN'
  cases hN'
  exact hr

/-! ### Reading -/

/-- Growing an inode to a length that it has already does nothing. -/
theorem inodeGrow_noop {s : ℕ} {L : ℤ} {Q : Bool → Fs → Prop} (hi : k.inodes.cell a = some i) (hL : L ≤ i.data.length)
    (hQ : Q true k) : wp (inodeGrow persist s (.inode a) L) Q E k := by
  rw [inodeGrow, wp_bind, readData, wp_bind]
  refine wp_inodeAt hi ?_
  rw [wp_pure, if_pos hL, wp_pure]
  exact hQ

/-- The entry of `start` or of the table that holds block `j`. -/
theorem Repr.block_spec {d : InodeDisk} {j b : ℕ} {Q : ℕ → Fs → Prop} (hr : Repr k.tables d nd)
    (hb : nd.blocks[j]? = some b) (hQ : Q b k) :
    wp (if nd.blocks.length ≤ directPointers then startAt d j else tableAt d.indirect j) Q E k := by
  have hlt : j < nd.blocks.length := (List.getElem?_eq_some_iff.1 hb).1
  rw [wp_ite]
  refine ⟨fun hs => ?_, fun hl => ?_⟩
  · have hj : j < directPointers := hlt.trans_le hs
    rw [startAt, dif_pos hj, wp_pure, hr.direct hs ⟨j, hj⟩ b hb]
    exact hQ
  · obtain ⟨htab, t, ht, hblocks⟩ := hr.indirect (Nat.lt_of_not_le hl)
    rw [htab]
    refine wp_tableAt ht ⟨j, hlt.trans_le hr.short⟩ ?_
    rw [hblocks ⟨j, _⟩ b hb]
    exact hQ

/-- The sector of the byte before `pos`, which is in the file. -/
theorem sectorOf_spec {pos : ℕ} {Q : ℕ → Fs → Prop} (hi : k.inodes.cell a = some i) (hr : Repr k.tables i.data nd)
    (h0 : 0 < pos) (hpos : pos ≤ nd.length) (hQ : Q (nd.blocks.getD ((pos - 1) / 512) 0) k) :
    wp (sectorOf a pos) Q E k := by
  have hlen := hr.length_le
  have hshort := hr.length_lt
  have htarget : bytesToSectors pos = (pos - 1) / 512 + 1 := by
    rw [bytesToSectors_natCast (by omega)]
    unfold sectorsFor
    omega
  have hb : nd.blocks[(pos - 1) / 512]? = some (nd.blocks.getD ((pos - 1) / 512) 0) := by
    rw [List.getD_eq_getElem _ _ (by omega)]
    exact List.getElem?_eq_getElem (by omega)
  rw [sectorOf, wp_bind]
  refine wp_inodeAt hi ?_
  rw [if_neg (by omega), htarget, if_neg (by omega), hr.bytesToSectors, if_pos hr.short]
  exact hr.block_spec hb hQ

/-- **`byte_to_sector` inside a file** gives the block of the byte before `pos`. -/
theorem byteToSector_spec {pos : ℕ} {Q : ℕ → Fs → Prop} (hi : k.inodes.cell a = some i) (hr : Repr k.tables i.data nd)
    (h0 : 0 < pos) (hpos : pos ≤ nd.length) (hQ : Q (nd.blocks.getD ((pos - 1) / 512) 0) k) :
    wp (byteToSector persist a pos) Q E k := by
  rw [byteToSector, wp_bind]
  refine wp_inodeAt hi ?_
  rw [wp_bind]
  refine inodeGrow_noop hi (by rw [hr.length]; omega) ?_
  exact sectorOf_spec hi hr h0 hpos hQ

/-- `n` bytes of a file from `off` on. -/
def fileBytes (B : Buffers) (nd : Node) (off n : ℕ) : List UInt8 := (List.range n).map fun j => byteAt B nd (off + j)

@[simp] theorem length_fileBytes (B : Buffers) (nd : Node) (off n : ℕ) : (fileBytes B nd off n).length = n := by
  simp [fileBytes]

theorem fileBytes_add (B : Buffers) (nd : Node) (off m n : ℕ) :
    fileBytes B nd off (m + n) = fileBytes B nd off m ++ fileBytes B nd (off + m) n := by
  simp [fileBytes, List.range_add, Function.comp_def, Nat.add_assoc]

theorem fileBytes_keeps {B B' : Buffers} (hB : Buffers.Keeps B B') (nd : Node) (off n : ℕ) :
    fileBytes B' nd off n = fileBytes B nd off n := by
  simp only [fileBytes, byteAt_keeps hB]

/-- The part of a block that one round of the loop copies. -/
theorem map_block_eq_fileBytes (B : Buffers) (nd : Node) {off c : ℕ} (hc : off % 512 + c ≤ 512) :
    (List.range c).map (fun j => B.content (nd.blocks.getD (off / 512) 0) (Fin.ofNat sectorSize (off % 512 + j))) =
      fileBytes B nd off c := by
  refine List.map_congr_left fun j hj => ?_
  have hlt := List.mem_range.1 hj
  have hdiv : (off + j) / 512 = off / 512 := by omega
  have hmod : Fin.ofNat sectorSize (off + j) = Fin.ofNat sectorSize (off % 512 + j) := by
    refine Fin.ext ?_
    simp only [Fin.ofNat, sectorSize]
    omega
  rw [byteAt, hdiv, hmod]

/-- The blocks of a file that hold its `n` bytes from `off` on. -/
def Node.blocksIn (nd : Node) (off n : ℕ) : List ℕ :=
  if n = 0 then [] else (List.range' (off / 512) ((off + n - 1) / 512 - off / 512 + 1)).map (nd.blocks.getD · 0)

theorem Node.blocksIn_zero (nd : Node) (off : ℕ) : nd.blocksIn off 0 = [] := rfl

/-- The block of the first `c` bytes, and those of the rest. -/
theorem Node.blocksIn_add (nd : Node) {off c n : ℕ} (h0 : 0 < c) (hc : off % 512 + c ≤ 512)
    (hn : n ≠ 0 → off % 512 + c = 512) :
    nd.blocksIn off (c + n) = nd.blocks.getD (off / 512) 0 :: nd.blocksIn (off + c) n := by
  unfold Node.blocksIn
  rw [if_neg (by omega)]
  by_cases h : n = 0
  · have hlast : (off + (c + n) - 1) / 512 - off / 512 + 1 = 1 := by omega
    rw [if_pos h, hlast]
    rfl
  · have hfull := hn h
    have hcount : (off + (c + n) - 1) / 512 - off / 512 + 1 = ((off + c + n - 1) / 512 - (off + c) / 512 + 1) + 1 := by omega
    have hnext : (off + c) / 512 = off / 512 + 1 := by omega
    rw [if_neg h, hcount, List.range'_succ, List.map_cons, hnext]

/-- The blocks are the file's, if the bytes are. -/
theorem Node.mem_blocks_of_blocksIn {b off n : ℕ} (hb : b ∈ nd.blocksIn off n) (hn : off + n ≤ 512 * nd.blocks.length) :
    b ∈ nd.blocks := by
  unfold Node.blocksIn at hb
  split_ifs at hb with h0
  · cases hb
  obtain ⟨j, hj, rfl⟩ := List.mem_map.1 hb
  rw [List.mem_range'_1] at hj
  have hlt : j < nd.blocks.length := by omega
  rw [List.getD_eq_getElem _ _ hlt]
  exact List.getElem_mem hlt

/-- The bytes that one round copies: they end with those asked for, with the file or with the sector. -/
theorem exists_chunk {size off len : ℕ} (hsize : 0 < size) (hoff : off < len) :
    ∃ c : ℕ, (if (size : ℤ) < (if (len : ℤ) - off < 512 - ((off % 512 : ℕ) : ℤ) then (len : ℤ) - off
        else 512 - ((off % 512 : ℕ) : ℤ)) then (size : ℤ)
        else (if (len : ℤ) - off < 512 - ((off % 512 : ℕ) : ℤ) then (len : ℤ) - off
        else 512 - ((off % 512 : ℕ) : ℤ))) = (c : ℤ) ∧
      0 < c ∧ c ≤ size ∧ off + c ≤ len ∧ off % 512 + c ≤ 512 ∧ (c < size → off + c < len → off % 512 + c = 512) := by
  refine ⟨min size (min (len - off) (512 - off % 512)), ?_, by omega, by omega, by omega, by omega, by omega⟩
  split_ifs <;> omega

/-- The loop of `inode_read_at`: it returns exactly if the blocks to be read can be brought into the cache. -/
theorem readLoop_exact {n size off : ℕ} {acc : List UInt8} (hc : k.buffers.Wf) (hi : k.inodes.cell a = some i)
    (hr : Repr k.tables i.data nd) (hn : size ≤ n) (hsize : size < 2 ^ 31) (hoff : off < 2 ^ 31) :
    wp (readLoop persist a n size off acc)
      (fun r k' => r = acc ++ fileBytes k.buffers nd off (min size (nd.length - off)) ∧
        Buffers.Admits (nd.blocksIn off (min size (nd.length - off))) k.buffers ∧
        ∃ B, Buffers.Keeps k.buffers B ∧ k' = { k with buffers := B })
      (fun e => e = .sectorOutOfRange ∧ ¬ Buffers.Admits (nd.blocksIn off (min size (nd.length - off))) k.buffers) k := by
  induction n generalizing k size off acc with
  | zero =>
    rw [readLoop, wp_pure, Nat.le_zero.1 hn, Nat.zero_min]
    exact ⟨(List.append_nil acc).symm, trivial, _, .refl hc, rfl⟩
  | succ n ih =>
    have hlen := hr.length_le
    have hshort := hr.length_lt
    rw [readLoop, wp_ite]
    refine ⟨fun h0 => ?_, fun h0 => ?_⟩
    · have : size = 0 := by omega
      rw [wp_pure, this, Nat.zero_min]
      exact ⟨(List.append_nil acc).symm, trivial, _, .refl hc, rfl⟩
    rw [wp_bind]
    refine wp_inodeAt hi ?_
    have hmod : ((off : ℤ)).tmod 512 = ((off % 512 : ℕ) : ℤ) := by
      rw [Int.tmod_eq_emod_of_nonneg (by omega)]
      omega
    have hleft : wrap ((nd.length : ℤ) - off) = (nd.length : ℤ) - off := wrap_eq ⟨by omega, by omega⟩
    simp only [hr.length, hmod, hleft]
    by_cases hend : nd.length ≤ off
    · -- nothing is left of the file
      rw [if_pos (by split_ifs <;> omega), wp_pure, Nat.sub_eq_zero_of_le hend, Nat.min_zero]
      exact ⟨(List.append_nil acc).symm, trivial, _, .refl hc, rfl⟩
    have hpos : 0 < size := by omega
    obtain ⟨c, hchunk, hc0, hcs, hcl, hc512, hfull⟩ := exists_chunk hpos (Nat.lt_of_not_le hend)
    have hwrap : wrap ((off : ℤ) + c) = ((off + c : ℕ) : ℤ) := by
      rw [wrap_eq ⟨by omega, by omega⟩]
      simp
    have hblock : (off + c - 1) / 512 = off / 512 := by omega
    have hsplit : min size (nd.length - off) = c + min (size - c) (nd.length - (off + c)) := by omega
    have hblocks : nd.blocksIn off (min size (nd.length - off)) =
        nd.blocks.getD (off / 512) 0 :: nd.blocksIn (off + c) (min (size - c) (nd.length - (off + c))) := by
      rw [hsplit]
      exact nd.blocksIn_add hc0 hc512 fun hrest => hfull (by omega) (by omega)
    rw [hchunk, if_neg (by omega), hwrap, wp_bind, hblocks]
    refine byteToSector_spec hi hr (by omega) (by omega) ?_
    rw [hblock]
    refine wp_seq (cachedRead_admits hc) (fun _ he => he) ?_
    rintro b _ ⟨rfl, B, hB, hadmits, rfl⟩
    have hsub : ((size : ℤ) - c) = ((size - c : ℕ) : ℤ) := by omega
    rw [if_pos ⟨by omega, by omega⟩, hsub, hadmits]
    refine wp_post (ih hB.wf hi hr (by omega) (by omega) (by omega)) ?_
    rintro r _ ⟨rfl, hrest, B', hB', rfl⟩
    refine ⟨?_, hrest, B', hB.trans hB', rfl⟩
    rw [hsplit, fileBytes_add, fileBytes_keeps hB, ← map_block_eq_fileBytes _ _ (show off % 512 + c ≤ 512 by omega),
      List.append_assoc]
    rfl

/-- No block of the file is the disk's last sector, past which the cache would read ahead. -/
def Node.Clear (nd : Node) (k : Fs) : Prop := ∀ b ∈ nd.blocks, b + 1 < k.buffers.disk.capacity

/-- `inode_read_at` of an inode in memory, with the exact condition under which it returns. -/
theorem inodeReadAt_exact {size off : ℕ} (hc : k.buffers.Wf) (hi : k.inodes.cell a = some i) (hr : Repr k.tables i.data nd)
    (hsize : size < 2 ^ 31) (hoff : off < 2 ^ 31) :
    wp (inodeReadAt persist a size off)
      (fun r k' => r = fileBytes k.buffers nd off (min size (nd.length - off)) ∧
        Buffers.Admits (nd.blocksIn off (min size (nd.length - off))) k.buffers ∧
        ∃ B, Buffers.Keeps k.buffers B ∧ k' = { k with buffers := B })
      (fun e => e = .sectorOutOfRange ∧ ¬ Buffers.Admits (nd.blocksIn off (min size (nd.length - off))) k.buffers) k :=
  readLoop_exact hc hi hr (by simp) hsize hoff

/-- `inode_read_at` reads the node of an inode in memory. -/
theorem inodeReadAt_repr {size off : ℕ} (hc : k.buffers.Wf) (hi : k.inodes.cell a = some i) (hr : Repr k.tables i.data nd)
    (hsize : size < 2 ^ 31) (hoff : off < 2 ^ 31) :
    wp (inodeReadAt persist a size off)
      (fun r k' => r = fileBytes k.buffers nd off (min size (nd.length - off)) ∧
        ∃ B, Buffers.Keeps k.buffers B ∧ k' = { k with buffers := B })
      (Unless (nd.Clear k)) k := by
  refine wp_mono (inodeReadAt_exact hc hi hr hsize hoff) (fun _ _ h => ⟨h.1, h.2.2⟩) ?_
  rintro e ⟨rfl, hnot⟩
  refine ⟨fun hclear => hnot (.of_lt hc fun b hb => ?_), by decide⟩
  by_cases hn : min size (nd.length - off) = 0
  · rw [hn] at hb
    cases hb
  · have := hr.length_le
    exact hclear b (nd.mem_blocks_of_blocksIn hb (by omega))

/-- **`inode_read_at` reads the file**: from `off` on, as many bytes as are asked for and there are. -/
theorem inodeReadAt_spec {size off : ℕ} (hw : Wf k N u) (hi : k.inodes.cell a = some i) (hN : N i.sector = some nd)
    (hsize : size < 2 ^ 31) (hoff : off < 2 ^ 31) :
    wp (inodeReadAt persist a size off)
      (fun r k' => r = fileBytes k.buffers nd off (min size (nd.length - off)) ∧
        ∃ B, Buffers.Keeps k.buffers B ∧ k' = { k with buffers := B })
      (Unless (nd.Clear k)) k :=
  inodeReadAt_repr hw.cache hi (hw.repr hi hN) hsize hoff

end Pintos
