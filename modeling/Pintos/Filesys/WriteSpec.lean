import Pintos.Filesys.GrowSpec

/-!
# Writing

`inode_write_at` puts the bytes of the buffer in the file, which it grows as far
as it must, with zeros where nothing is written (`writeLoop_spec`). It does so in
every case but one: where the length of a file of less than a sector and the
number of bytes to write add up to the offset in the sector, the growth by which
the loop starts leaves nothing to write in, and the call returns with nothing
written (`Stuck`).

The free map is written to its file in one such call that does not grow it,
which is what the growth of files depends on (`bitmapWrite_persists`).
-/

namespace Pintos

open Library Library.Prog Library.Bytes

variable {k k' k'' : Fs} {N : Nodes} {u s a : ℕ} {i : Inode} {nd nd' nd'' : Node} {new new' : List ℕ} {d : InodeDisk} {persist : FsM Bool}
  {E : Halt → Prop}

/-! ### Changes to one file -/

/-- **A change to the file in sector `s`**: it has `new` sectors more, and the other files but the free
map's are as they were. If the free map's file is not open, it is as it was too. -/
structure Edited (k : Fs) (N : Nodes) (s : ℕ) (nd : Node) (new : List ℕ) (nd' : Node) (k' : Fs) : Prop where
  wf : Wf k' (Function.update N s (some nd')) 0
  steady : Steady k k'
  capacity : k'.buffers.disk.capacity = k.buffers.disk.capacity
  bitCnt : k'.freeMap.bitCnt = k.freeMap.bitCnt
  isdir : nd'.isdir = nd.isdir
  length_le : nd.length ≤ nd'.length
  blocks : nd'.blocks = nd.blocks ++ new
  next : nd'.table = 0 → k'.tables.next = k.tables.next
  tables : k'.tables.next + nd.tableCount = k.tables.next + nd'.tableCount
  nodup : new.Nodup
  fresh : ∀ b ∈ new, b < k.buffers.disk.capacity ∧ k.freeMap.bit b = false
  bits : ∀ j, k'.freeMap.bit j = (k.freeMap.bit j || decide (j ∈ new))
  first : ∀ b ∈ new, ∀ j < b, k'.freeMap.bit j = true
  other : ∀ s' nd₁, N s' = some nd₁ → s' ≠ s → s' ≠ 0 ∨ k.freeMapFile = 0 → ∀ j < 512 * nd₁.blocks.length,
    byteAt k'.buffers nd₁ j = byteAt k.buffers nd₁ j
  sync : s ≠ 0 → k.freeMapFile ≠ 0 → MapSync k N → MapSync k' (Function.update N s (some nd'))

namespace Edited

theorem node (h : Edited k N s nd new nd' k') : Kept k'.tables (InodeDisk.decode (k'.buffers.content s)) nd' :=
  h.wf.laid.disk s nd' (Function.update_self _ _ _)

theorem update_eq (hN : N s = some nd) : Function.update N s (some nd) = N := by
  rw [← hN, Function.update_eq_self]

/-- Only bytes of the file changed. -/
theorem of_content {B : Buffers} (hw : Wf k N 0) (hN : N s = some nd) (hB : B.Wf)
    (hcap : B.disk.capacity = k.buffers.disk.capacity) (hcontent : ∀ b, b ∉ nd.blocks → B.content b = k.buffers.content b)
    (htail : ∀ j, nd.length ≤ j → j < 512 * nd.blocks.length → byteAt B nd j = byteAt k.buffers nd j) :
    Edited k N s nd [] nd { k with buffers := B } := by
  have hbyte : ∀ s' nd₁, N s' = some nd₁ → s' ≠ s → ∀ j < 512 * nd₁.blocks.length, byteAt B nd₁ j = byteAt k.buffers nd₁ j := by
    intro s' nd₁ hN₁ hs j hj
    unfold byteAt
    rw [hcontent]
    intro hmem
    exact hs (hw.laid.disjoint s nd s' nd₁ hN hN₁ _ (List.mem_cons_of_mem _ hmem) (List.mem_cons_of_mem _ (block_mem hj))).symm
  refine ⟨?_, ⟨rfl, rfl, rfl, rfl, rfl, fun _ => rfl, rfl⟩, hcap, rfl, rfl, le_rfl, (List.append_nil _).symm, fun _ => rfl,
    rfl, List.nodup_nil, by simp, by simp, by simp, fun s' nd₁ hN₁ hs _ => hbyte s' nd₁ hN₁ hs, fun hs _ hsync nd₀ hN₀ j hj => ?_⟩
  · rw [update_eq hN]
    refine hw.of_content hB hcap (fun s' nd₁ hN₁ => hcontent s' (hw.laid.inode_notMem hN₁ hN)) fun s' nd₁ hN₁ j hj hlt => ?_
    by_cases hs : s' = s
    · subst hs
      rw [hN] at hN₁
      cases hN₁
      exact htail j hj hlt
    · exact hbyte s' nd₁ hN₁ hs j hlt
  · rw [update_eq hN] at hN₀
    by_cases hlt : j < 512 * nd₀.blocks.length
    · exact (hbyte 0 nd₀ hN₀ (Ne.symm hs) j hlt).trans (hsync nd₀ hN₀ j hj)
    · -- past the last block, where there is nothing to compare
      have hget : nd₀.blocks.getD (j / 512) 0 = 0 := List.getD_eq_default _ _ (by omega)
      have h0 : (0 : ℕ) ∉ nd.blocks := fun h => by have := hw.laid.two_le s nd hN 0 h; omega
      have hsame : byteAt B nd₀ j = byteAt k.buffers nd₀ j := by
        unfold byteAt
        rw [hget, hcontent 0 h0]
      exact hsame.trans (hsync nd₀ hN₀ j hj)

theorem keeps {B : Buffers} (hw : Wf k N 0) (hN : N s = some nd) (hB : Buffers.Keeps k.buffers B) :
    Edited k N s nd [] nd { k with buffers := B } :=
  of_content hw hN hB.wf hB.capacity (fun b _ => hB.content b) fun j _ _ => byteAt_keeps hB nd j

theorem refl (hw : Wf k N 0) (hN : N s = some nd) : Edited k N s nd [] nd k := keeps hw hN (.refl hw.cache)

/-- A file of more than 122 sectors has a table. -/
theorem table_ne_zero (h : Edited k N s nd new nd' k') (hl : 122 < nd'.blocks.length) : nd'.table ≠ 0 := by
  obtain ⟨-, T, hT, -⟩ := h.node.indirect hl
  exact k'.tables.ne_null hT

theorem trans (h : Edited k N s nd new nd' k') (h' : Edited k' (Function.update N s (some nd')) s nd' new' nd'' k'') :
    Edited k N s nd (new ++ new') nd'' k'' := by
  have hmono : ∀ b, k'.freeMap.bit b = false → k.freeMap.bit b = false ∧ b ∉ new := by
    intro b hb
    rw [h.bits, Bool.or_eq_false_iff, decide_eq_false_iff_not] at hb
    exact hb
  refine ⟨by simpa using h'.wf, h.steady.trans h'.steady, h'.capacity.trans h.capacity, h'.bitCnt.trans h.bitCnt,
    h'.isdir.trans h.isdir, h.length_le.trans h'.length_le, by rw [h'.blocks, h.blocks, List.append_assoc], fun h0 => ?_,
    ?_, ?_, fun b hb => ?_, fun j => ?_, fun b hb j hj => ?_, fun s' nd₁ hN₁ hs h0 j hj => ?_, fun hs h0 hsync => ?_⟩
  · have hshort : nd'.blocks.length ≤ 122 := by
      by_contra hl
      refine h'.table_ne_zero ?_ h0
      rw [h'.blocks, List.length_append]
      omega
    exact (h'.next h0).trans (h.next (h.node.small hshort))
  · have := h.tables
    have := h'.tables
    omega
  · exact List.Nodup.append h.nodup h'.nodup fun b hb hb' => (hmono b (h'.fresh b hb').2).2 hb
  · rcases List.mem_append.1 hb with hb | hb
    · exact h.fresh b hb
    · exact ⟨h.capacity ▸ (h'.fresh b hb).1, (hmono b (h'.fresh b hb).2).1⟩
  · rw [h'.bits, h.bits]
    simp [Bool.or_assoc]
  · rcases List.mem_append.1 hb with hb | hb
    · rw [h'.bits, h.first b hb j hj]
      rfl
    · exact h'.first b hb j hj
  · rw [h'.other s' nd₁ (by rw [Function.update_of_ne hs]; exact hN₁) hs (by rw [h.steady.freeMapFile]; exact h0) j hj]
    exact h.other s' nd₁ hN₁ hs h0 j hj
  · have := h'.sync hs (h.steady.freeMapFile ▸ h0) (h.sync hs h0 hsync)
    simpa using this

/-- Growing a file changes it. -/
theorem of_grown {r : DataRef} (h : Grown k N r s nd new nd' k') (hw : Wf k N 0) (hroom : Laid.Room k.buffers k.freeMap N s nd)
    (hlen : nd.length ≤ nd'.length) : Edited k N s nd new nd' k' := by
  refine ⟨h.wf, h.steady, h.capacity, h.bitCnt, h.isdir, hlen, h.blocks, h.next, h.tables, h.nodup, h.fresh, h.bits, h.first,
    fun s' nd₁ hN₁ hs h0 j hj => ?_, fun _ => h.sync⟩
  by_cases hs' : s' = 0
  · subst hs'
    exact h.rest nd₁ hN₁ j (fun hopen => absurd (h0.resolve_left (not_not.2 rfl)) hopen) hj
  · have hmem := List.mem_cons_of_mem s' (block_mem hj)
    unfold byteAt
    rw [h.content _ (fun hnew => h.free _ hnew s' nd₁ hN₁ hmem) (fun heq => ?_) (hw.laid.notMem_mapBlocks hN₁ hmem (.inl hs'))]
    exact hroom.disjoint s' nd₁ hN₁ hs s List.mem_cons_self (heq ▸ hmem)

end Edited

/-- What the bytes of a file other than the free map's are after it was grown: zeros follow. -/
theorem Grown.byteAt_self {r : DataRef} (h : Grown k N r s nd new nd' k') (hw : Wf k N 0) (hN : N s = some nd) (hs : s ≠ 0)
    {j : ℕ} (hj : j < nd'.length) :
    byteAt k'.buffers nd' j = if j < nd.length then byteAt k.buffers nd j else 0 := by
  have hkept : Kept k'.tables (InodeDisk.decode (k'.buffers.content s)) nd' := h.wf.laid.disk s nd' (Function.update_self _ _ _)
  have hle := hkept.length_le
  have hle' := (hw.laid.disk s nd hN).length_le
  rw [h.blocks] at hle
  rcases getD_append_cases nd.blocks new (j / 512) (by omega) with ⟨hlt, heq⟩ | ⟨hge, hmem⟩
  · have hj' : j < 512 * nd.blocks.length := by omega
    have hb := List.mem_cons_of_mem s (block_mem hj')
    have hold : byteAt k'.buffers nd' j = byteAt k.buffers nd j := by
      unfold byteAt
      rw [h.blocks, heq, h.content _ (fun hnew => h.free _ hnew s nd hN hb) (fun heq' => ?_)
        (hw.laid.notMem_mapBlocks hN hb (.inl hs))]
      exact (List.nodup_cons.1 (hw.laid.nodup s nd hN)).1 (heq' ▸ block_mem hj')
    rw [hold]
    split_ifs with hlen
    · rfl
    · exact hw.laid.tail s nd hN j (Nat.le_of_not_lt hlen) hj'
  · rw [if_neg (by omega), byteAt, h.blocks, (h.zero _ hmem).2]
    rfl

/-! ### Room -/

/-- **When writing succeeds**: no block that is written to is the disk's last sector, past which the cache
would read ahead, and there is room for the growth, if any. -/
structure WriteRoom (k : Fs) (N : Nodes) (s : ℕ) (nd : Node) (off size : ℕ) : Prop where
  clear : ∀ j, off ≤ j → j < off + size → j / 512 < nd.blocks.length →
    nd.blocks.getD (j / 512) 0 + 1 < k.buffers.disk.capacity
  grow : nd.length < off + size → off + size ≤ 512 * 512 ∧ GrowRoom k N s nd (off + size)

/-- Growth leaves the free sectors that it does not take. -/
theorem Edited.freeBelow_le (h : Edited k N s nd new nd' k') (c : ℕ) :
    k.freeMap.freeBelow c ≤ k'.freeMap.freeBelow c + new.length := by
  have hsub : ((Finset.range c).filter fun j => k.freeMap.bit j = false) ⊆
      ((Finset.range c).filter fun j => k'.freeMap.bit j = false) ∪ new.toFinset := by
    intro j hj
    rw [Finset.mem_filter] at hj
    rw [Finset.mem_union, Finset.mem_filter, h.bits, hj.2, List.mem_toFinset]
    by_cases hnew : j ∈ new
    · exact .inr hnew
    · exact .inl ⟨hj.1, by simp [hnew]⟩
  calc k.freeMap.freeBelow c ≤ _ := Finset.card_le_card hsub
    _ ≤ k'.freeMap.freeBelow c + new.toFinset.card := Finset.card_union_le _ _
    _ ≤ k'.freeMap.freeBelow c + new.length := Nat.add_le_add_left (List.toFinset_card_le new) _

/-- Growth for which there is room below the last sector does not take the last sector. -/
theorem Edited.new_clear (h : Edited k N s nd new nd' k')
    (hfree : new.length ≤ k.freeMap.freeBelow (k.buffers.disk.capacity - 1)) :
    ∀ b ∈ new, b + 1 < k.buffers.disk.capacity := by
  intro b hb
  by_contra hlast
  have hlt := (h.fresh b hb).1
  -- all free sectors below the last one would have been taken, and the last one too
  have hsub : ((Finset.range (k.buffers.disk.capacity - 1)).filter fun j => k.freeMap.bit j = false) ⊆
      new.toFinset.erase b := by
    intro j hj
    rw [Finset.mem_filter, Finset.mem_range] at hj
    have hmark := h.first b hb j (by omega)
    rw [h.bits, hj.2, Bool.false_or, decide_eq_true_iff] at hmark
    rw [Finset.mem_erase, List.mem_toFinset]
    exact ⟨by omega, hmark⟩
  have hcard := Finset.card_le_card hsub
  rw [Finset.card_erase_of_mem (List.mem_toFinset.2 hb), List.toFinset_card_of_nodup h.nodup] at hcard
  have hpos : 0 < new.length := List.length_pos_of_mem hb
  unfold Bitmap.freeBelow at hfree
  omega

/-- What room is left after a part of the write. -/
theorem Edited.room (h : Edited k N s nd new nd' k') (hw : Wf k N 0) (hN : N s = some nd) {off size c : ℕ} (hc : c ≤ size)
    (hL : nd'.length ≤ max nd.length (off + size)) (hroom : WriteRoom k N s nd off size) :
    WriteRoom k' (Function.update N s (some nd')) s nd' (off + c) (size - c) := by
  have hlen : nd.blocks.length + new.length = sectorsFor nd'.length := by
    rw [← List.length_append, ← h.blocks, h.node.card]
  have hcard := (hw.laid.disk s nd hN).card
  have hend : off + c + (size - c) = off + size := by omega
  have hclear : new ≠ [] → ∀ b ∈ new, b + 1 < k.buffers.disk.capacity := by
    intro hnew
    have hpos := List.length_pos_iff.2 hnew
    have hlt : nd.length < off + size := by
      by_contra hge
      have := h.length_le
      rw [show nd'.length = nd.length by omega] at hlen
      omega
    have hfree := (hroom.grow hlt).2.free
    have := sectorsFor_mono (show nd'.length ≤ off + size by omega)
    exact h.new_clear (by omega)
  refine ⟨fun j hj hlt hblock => ?_, fun hlt => ?_⟩
  · rw [h.capacity, h.blocks] at *
    rcases getD_append_cases nd.blocks new (j / 512) hblock with ⟨hold, heq⟩ | ⟨-, hmem⟩
    · rw [heq]
      exact hroom.clear j (by omega) (by omega) hold
    · exact hclear (List.ne_nil_of_mem hmem) _ hmem
  · rw [hend] at hlt ⊢
    obtain ⟨hmax, hg⟩ := hroom.grow (by have := h.length_le; omega)
    have hsec : sectorsFor nd'.length ≤ sectorsFor (off + size) := sectorsFor_mono (by omega)
    have hfree := h.freeBelow_le (k.buffers.disk.capacity - 1)
    refine ⟨hmax, by rw [h.capacity]; exact hg.capacity, by rw [h.capacity]; exact hg.sector, fun hmore b hb => ?_, ?_,
      fun hl h0 => ?_⟩
    · have hmap := hg.map (by rw [h.blocks, List.length_append] at hmore; omega)
      rw [h.capacity]
      obtain ⟨nd₀, hN₀, hb₀⟩ := mem_mapBlocks hb
      by_cases hs : s = 0
      · subst hs
        rw [Function.update_self] at hN₀
        cases hN₀
        rw [h.blocks] at hb₀
        rcases List.mem_append.1 hb₀ with hb₀ | hb₀
        · exact hmap b (by rw [mapBlocks_eq hN]; exact hb₀)
        · exact hclear (List.ne_nil_of_mem hb₀) b hb₀
      · rw [Function.update_of_ne (Ne.symm hs)] at hN₀
        exact hmap b (by rw [mapBlocks_eq hN₀]; exact hb₀)
    · have hfree' := hg.free
      rw [h.capacity, h.blocks, List.length_append]
      omega
    · have hshort : nd.blocks.length ≤ 122 := by
        by_contra hlong
        refine h.table_ne_zero ?_ h0
        rw [h.blocks, List.length_append]
        omega
      rw [h.next h0]
      exact hg.table hl ((hw.laid.disk s nd hN).small hshort)

/-! ### Growth on the way to a sector -/

/-- The bytes of a file over which `n` bytes of `buf` are written from `off` on, with zeros where there was
no file yet. -/
def overlay (k : Fs) (nd : Node) (buf : ℕ → UInt8) (off n j : ℕ) : UInt8 :=
  if off ≤ j ∧ j < off + n then buf (j - off) else if j < nd.length then byteAt k.buffers nd j else 0

theorem overlay_zero (k : Fs) (nd : Node) (buf : ℕ → UInt8) (off j : ℕ) :
    overlay k nd buf off 0 j = if j < nd.length then byteAt k.buffers nd j else 0 :=
  if_neg (by omega)

/-- The node of an inode in memory after a change. -/
theorem Edited.cell (h : Edited k N i.sector nd new nd' k') (hi : k.inodes.cell a = some i) :
    ∃ d, k'.inodes.cell a = some { i with data := d } ∧ Repr k'.tables d nd' := by
  obtain ⟨d, hd⟩ := h.steady.cell hi
  exact ⟨d, hd, h.wf.repr hd (Function.update_self _ _ _)⟩

/-- Growing an inode in memory to at least `L` bytes. -/
theorem inodeGrow_edits {L : ℕ} (hw : Wf k N 0) (hi : k.inodes.cell a = some i) (hN : N i.sector = some nd)
    (hp : nd.length < L → Persists persist ∧ (k.freeMapFile ≠ 0 → MapOpen k N)) (hmax : L ≤ 512 * 512) :
    wp (inodeGrow persist i.sector (.inode a) L)
      (fun _ k' => ∃ new nd', nd'.length = max nd.length L ∧ Edited k N i.sector nd new nd' k' ∧
        (i.sector ≠ 0 → ∀ j < nd'.length, byteAt k'.buffers nd' j = overlay k nd (fun _ => 0) 0 0 j))
      (Unless (nd.length < L → GrowRoom k N i.sector nd L)) k := by
  by_cases hL : nd.length < L
  · refine wp_mono (inodeGrow_spec (hp hL).1 hw (hp hL).2 (hw.target hi hN) hL hmax) ?_ (Unless.mono fun h => h hL)
    rintro - k' ⟨-, new, nd', hlen, hg⟩
    refine ⟨new, nd', by omega, .of_grown hg hw (hw.laid.room hN) (by omega), fun hs j hj => ?_⟩
    rw [hg.byteAt_self hw hN hs hj, overlay_zero]
  · refine inodeGrow_noop hi (by rw [(hw.repr hi hN).length]; omega) ?_
    refine ⟨[], nd, by omega, .refl hw hN, fun _ j hj => ?_⟩
    rw [overlay_zero, if_pos hj]

/-- However far an inode is grown, what returns has the length. -/
theorem inodeGrow_length {r : DataRef} {d : InodeDisk} {L : ℤ} (hd : k.dataOf r = some d) (hL : d.length < L) :
    wp (inodeGrow persist s r L) (fun _ k' => ∃ d', k'.dataOf r = some d' ∧ d'.length = L) (fun _ => True) k := by
  have hend : ∀ k₁, wp (do
      updateData (fun d => { d with length := L }) r
      let d ← readData r
      cached (bufferCacheWrite s d.bytes 0 sectorSize)
      pure true) (fun _ k' => ∃ d', k'.dataOf r = some d' ∧ d'.length = L) (fun _ => True) k₁ := by
    intro k₁
    cases hd₁ : k₁.dataOf r with
    | some d₁ =>
      rw [wp_bind]
      refine wp_updateData hd₁ ?_
      rw [wp_bind]
      refine wp_readData (Fs.dataOf_setData hd₁ _) ?_
      rw [wp_bind, cached, wp_within]
      refine wp_post wp_true fun _ B _ => ?_
      rw [wp_pure, Fs.dataOf_congr rfl rfl]
      exact ⟨_, Fs.dataOf_setData hd₁ _, rfl⟩
    | none =>
      cases r with
      | temp => cases hd₁
      | inode a =>
        have hcell : k₁.inodes.cell a = none := by simpa [Fs.dataOf] using hd₁
        rw [wp_bind, updateData, updateInode, wp_modify, wp_bind, readData, wp_bind, inodeAt, wp_bind, wp_gets, wp_orStop]
        refine ⟨fun i hi => ?_, fun _ => trivial⟩
        rw [Heap.cell_set_self, hcell] at hi
        cases hi
  rw [inodeGrow, wp_bind]
  refine wp_readData hd ?_
  rw [if_neg (by omega), wp_bind, wp_gets, wp_ite]
  refine ⟨fun _ => trivial, fun _ => ?_⟩
  simp only [wp_ite]
  refine ⟨fun _ => ?_, fun _ => ⟨fun _ => ?_, fun _ => ⟨fun _ => ?_, fun _ => trivial⟩⟩⟩
  · exact wp_seq wp_true (fun _ h => h) fun _ k₁ _ => hend k₁
  · exact wp_seq wp_true (fun _ h => h) fun _ _ _ => wp_seq wp_true (fun _ h => h) fun _ k₁ _ => hend k₁
  · exact wp_seq wp_true (fun _ h => h) fun _ _ _ => wp_seq wp_true (fun _ h => h) fun _ k₁ _ => hend k₁

theorem bytesToSectors_long {pos : ℕ} (h : 512 * 512 < pos) (h31 : pos < 2 ^ 31) : 512 < bytesToSectors pos := by
  by_cases hsmall : pos + 511 < 2 ^ 31
  · rw [bytesToSectors_natCast hsmall]
    unfold sectorsFor
    omega
  · have hwrap : wrap ((pos : ℤ) + 511) = pos + 511 - 2 ^ 32 := by
      unfold wrap toSigned ofSigned
      split_ifs <;> omega
    rw [bytesToSectors, hwrap]
    unfold ofSigned
    have := Int.tdiv_eq_ediv_of_nonneg (a := 2 ^ 32 - 511 - (pos : ℤ)) (b := 512) (by omega)
    rw [show (pos : ℤ) + 511 - 2 ^ 32 = -(2 ^ 32 - 511 - (pos : ℤ)) by omega, Int.neg_tdiv, this]
    omega

/-- A file of more than 512 sectors has no block that is found. -/
theorem sectorOf_long {pos : ℤ} {L : ℕ} {Q : ℕ → Fs → Prop} (hd : k.dataOf (.inode a) = some d) (hlen : d.length = L)
    (h : 512 * 512 < L) (h31 : L < 2 ^ 31) (hpos : pos ≠ 0) (hE : ∀ e, Benign e → E e) : wp (sectorOf a pos) Q E k := by
  obtain ⟨i, hi, rfl⟩ := Option.map_eq_some_iff.1 hd
  have hlong := bytesToSectors_long h h31
  rw [sectorOf, wp_bind]
  refine wp_inodeAt hi ?_
  rw [if_neg hpos, hlen, wp_ite]
  refine ⟨fun _ => hE _ (by decide), fun _ => ?_⟩
  rw [if_neg (by unfold directPointers; omega), if_neg (by unfold sectorSize; omega), wp_ite]
  exact ⟨fun _ => hE _ (by decide), fun _ => hE _ (by decide)⟩

/-- **`byte_to_sector`** grows the file up to `pos` and gives the block of the byte before it. -/
theorem byteToSector_edits {pos : ℕ} (hw : Wf k N 0) (hi : k.inodes.cell a = some i) (hN : N i.sector = some nd)
    (hp : nd.length < pos → Persists persist ∧ (k.freeMapFile ≠ 0 → MapOpen k N)) (hb : StopsFor Benign persist)
    (h0 : 0 < pos) (h31 : pos < 2 ^ 31) :
    wp (byteToSector persist a pos)
      (fun b k' => ∃ new nd', nd'.length = max nd.length pos ∧ b = nd'.blocks.getD ((pos - 1) / 512) 0 ∧
        Edited k N i.sector nd new nd' k' ∧
        (i.sector ≠ 0 → ∀ j < nd'.length, byteAt k'.buffers nd' j = overlay k nd (fun _ => 0) 0 0 j))
      (Unless (nd.length < pos → pos ≤ 512 * 512 ∧ GrowRoom k N i.sector nd pos)) k := by
  have hr := hw.repr hi hN
  have hshort := hr.length_lt
  rw [byteToSector, wp_bind]
  refine wp_inodeAt hi ?_
  by_cases hmax : pos ≤ 512 * 512
  · refine wp_seq (inodeGrow_edits hw hi hN hp hmax) (Unless.mono fun h hlt => (h hlt).2) ?_
    rintro - k' ⟨new, nd', hlen, he, hbytes⟩
    obtain ⟨d, hd, hr'⟩ := he.cell hi
    refine sectorOf_spec hd hr' h0 (by omega) ?_
    exact ⟨new, nd', hlen, rfl, he, hbytes⟩
  · -- the growth may return, but no sector is found in what it leaves
    have hlt : nd.length < pos := by omega
    have hnot : ∀ e, Benign e → Unless (nd.length < pos → pos ≤ 512 * 512 ∧ GrowRoom k N i.sector nd pos) e :=
      fun e he => ⟨fun h => hmax (h hlt).1, he⟩
    have hgrow : wp (inodeGrow persist i.sector (.inode a) pos)
        (fun _ k' => ∃ d', k'.dataOf (.inode a) = some d' ∧ d'.length = pos) (fun _ => True) k :=
      inodeGrow_length (hw.target hi hN).data (by rw [hr.length]; omega)
    refine wp_seq ((inodeGrow_stops hb i.sector (.inode a) pos).wp hgrow) (fun e he => hnot e he.2) ?_
    rintro - k' ⟨d, hd, hlen⟩
    exact sectorOf_long hd hlen (by omega) h31 (by omega) hnot

/-- A position that has left 31 bits has no sector. -/
theorem byteToSector_wrapped {pos : ℕ} {Q : ℕ → Fs → Prop} (hw : Wf k N u) (hi : k.inodes.cell a = some i)
    (hN : N i.sector = some nd) (h31 : 2 ^ 31 ≤ pos) (h32 : pos < 2 ^ 32 - 1024) (hE : ∀ e, Benign e → E e) :
    wp (byteToSector persist a (wrap pos)) Q E k := by
  have hr := hw.repr hi hN
  have hpos : wrap (pos : ℤ) = pos - 2 ^ 32 := by
    unfold wrap toSigned ofSigned
    split_ifs <;> omega
  have htarget : 512 < bytesToSectors (wrap pos) := by
    rw [hpos, bytesToSectors, wrap_eq ⟨by omega, by omega⟩,
      show (pos : ℤ) - 2 ^ 32 + 511 = -(2 ^ 32 - 511 - (pos : ℤ)) by omega, Int.neg_tdiv,
      Int.tdiv_eq_ediv_of_nonneg (by omega)]
    unfold ofSigned
    omega
  rw [byteToSector, wp_bind]
  refine wp_inodeAt hi ?_
  rw [wp_bind]
  refine inodeGrow_noop hi (by rw [hr.length, hpos]; omega) ?_
  rw [sectorOf, wp_bind]
  refine wp_inodeAt hi ?_
  rw [if_neg (by rw [hpos]; omega), if_neg (by omega), hr.bytesToSectors, if_pos hr.short, wp_ite]
  refine ⟨fun _ => ?_, fun _ => ?_⟩
  · rw [startAt, dif_neg (by unfold directPointers; omega), wp_stop]
    exact hE _ (by decide)
  · rw [tableAt, wp_bind, wp_gets, wp_bind, wp_orStop]
    refine ⟨fun T _ => ?_, fun _ => hE _ (by decide)⟩
    rw [dif_neg (by omega), wp_stop]
    exact hE _ (by decide)

/-! ### One chunk -/

/-- Different bytes of a file with the same place in a sector lie in different sectors. -/
theorem getD_blocks_inj {l : List ℕ} (hl : l.Nodup) {m n : ℕ} (hm : m < l.length) (hn : n < l.length)
    (h : l.getD m 0 = l.getD n 0) : m = n := by
  rw [List.getD_eq_getElem _ _ hm, List.getD_eq_getElem _ _ hn] at h
  exact (List.Nodup.getElem_inj_iff hl).1 h

/-- Writing `c` bytes inside one block of a file. -/
theorem byteAt_chunk {B : Buffers} {buf : ℕ → UInt8} {off c : ℕ} (hl : nd.blocks.Nodup) (hc : 0 < c)
    (hin : off + c ≤ 512 * nd.blocks.length) (hsec : off % 512 + c ≤ 512)
    (hB : Written k.buffers (nd.blocks.getD (off / 512) 0) buf (off % 512) c B) {j : ℕ} (hj : j < 512 * nd.blocks.length) :
    byteAt B nd j = if off ≤ j ∧ j < off + c then buf (j - off) else byteAt k.buffers nd j := by
  unfold byteAt
  rw [hB.content]
  by_cases hq : j / 512 = off / 512
  · have hmod : (Fin.ofNat sectorSize j).1 = j % 512 := rfl
    rw [if_pos (by rw [hq]), Block.write, hmod]
    by_cases hcov : off ≤ j ∧ j < off + c
    · rw [if_pos hcov, if_pos (by omega)]
      congr 1
      omega
    · rw [if_neg hcov, if_neg (by omega)]
  · rw [if_neg fun h => hq (getD_blocks_inj hl (by omega) (by omega) h), if_neg (by omega)]

/-- The same, as a change to the file. -/
theorem Edited.chunk {B : Buffers} {buf : ℕ → UInt8} {off c : ℕ} (hw : Wf k N 0) (hN : N s = some nd) (hc : 0 < c)
    (hin : off + c ≤ nd.length) (hsec : off % 512 + c ≤ 512)
    (hB : Written k.buffers (nd.blocks.getD (off / 512) 0) buf (off % 512) c B) :
    Edited k N s nd [] nd { k with buffers := B } := by
  have hle := (hw.laid.disk s nd hN).length_le
  have hl := (List.nodup_cons.1 (hw.laid.nodup s nd hN)).2
  refine .of_content hw hN hB.wf hB.capacity (fun b hb => ?_) fun j hj hlt => ?_
  · rw [hB.content, if_neg]
    rintro rfl
    exact hb (block_mem (by omega))
  · rw [byteAt_chunk hl hc (by omega) hsec hB hlt, if_neg (by omega)]

/-! ### The loop -/

/-- **The case in which nothing is written**: the loop grows the file by the bytes to write, and that is
just the offset in the sector. -/
def Stuck (length off size : ℕ) : Prop := 0 < size ∧ off % 512 = length + size

instance (length off size : ℕ) : Decidable (Stuck length off size) := inferInstanceAs (Decidable (_ ∧ _))

/-- How many bytes are written. -/
def writeCount (length off size : ℕ) : ℕ := if Stuck length off size then 0 else size

/-- The length of the file after the write. -/
def lengthAfter (length off size : ℕ) : ℕ :=
  if size = 0 then length else max length (off + writeCount length off size)

/-- What `inode_write_at` does to the file in sector `s`. -/
structure WroteAt (k : Fs) (N : Nodes) (s : ℕ) (nd : Node) (buf : ℕ → UInt8) (off size : ℕ) (new : List ℕ) (nd' : Node)
    (k' : Fs) : Prop where
  edited : Edited k N s nd new nd' k'
  length : nd'.length = lengthAfter nd.length off size
  bytes : s ≠ 0 → ∀ j < nd'.length, byteAt k'.buffers nd' j = overlay k nd buf off (writeCount nd.length off size) j

theorem GrowRoom.mono {L L' : ℕ} (h : GrowRoom k N s nd L) (hL : L' ≤ L) : GrowRoom k N s nd L' := by
  have hsec := sectorsFor_mono hL
  have := h.free
  exact ⟨h.capacity, h.sector, fun hlt => h.map (by omega), by omega, fun hl => h.table (by omega)⟩

theorem Edited.mapOpen (h : Edited k N s nd new nd' k') (hN : N s = some nd) (hm : MapOpen k N) :
    MapOpen k' (Function.update N s (some nd')) := by
  obtain ⟨f, j, nd₀, hf, hj, hsec, hdeny, hN₀, hle⟩ := hm.steady h.steady h.bitCnt
  by_cases hs : s = 0
  · subst hs
    rw [hN] at hN₀
    cases hN₀
    exact ⟨f, j, nd', hf, hj, hsec, hdeny, Function.update_self _ _ _, hle.trans h.length_le⟩
  · exact ⟨f, j, nd₀, hf, hj, hsec, hdeny, by rw [Function.update_of_ne (Ne.symm hs)]; exact hN₀, hle⟩

/-- The chunk that one round writes, once the file has `length` bytes. -/
theorem chunk_eq {length size off : ℕ} (hlen : length ≤ 512 * 512) (hsize : size < 2 ^ 31) :
    (if ofSigned (size : ℤ) < (if ofSigned ((length : ℤ) - ((off % 512 : ℕ) : ℤ)) < ofSigned (512 - ((off % 512 : ℕ) : ℤ))
        then ofSigned ((length : ℤ) - ((off % 512 : ℕ) : ℤ)) else ofSigned (512 - ((off % 512 : ℕ) : ℤ)))
      then ofSigned (size : ℤ)
      else (if ofSigned ((length : ℤ) - ((off % 512 : ℕ) : ℤ)) < ofSigned (512 - ((off % 512 : ℕ) : ℤ))
        then ofSigned ((length : ℤ) - ((off % 512 : ℕ) : ℤ)) else ofSigned (512 - ((off % 512 : ℕ) : ℤ)))) =
      if length < off % 512 then min size (512 - off % 512) else min size (min (length - off % 512) (512 - off % 512)) := by
  have h1 : ofSigned (size : ℤ) = size := by
    rw [ofSigned_of_nonneg (by omega) (by omega), Int.toNat_natCast]
  have h2 : ofSigned (512 - ((off % 512 : ℕ) : ℤ)) = 512 - off % 512 := by
    rw [ofSigned_of_nonneg (by omega) (by omega)]
    omega
  rw [h1, h2]
  by_cases hlt : length < off % 512
  · -- a negative number of bytes left counts as a large one
    have h3 : 512 ≤ ofSigned ((length : ℤ) - ((off % 512 : ℕ) : ℤ)) := by
      unfold ofSigned
      omega
    rw [if_pos hlt]
    split_ifs <;> omega
  · have h3 : ofSigned ((length : ℤ) - ((off % 512 : ℕ) : ℤ)) = length - off % 512 := by
      rw [ofSigned_of_nonneg (by omega) (by omega)]
      omega
    rw [if_neg hlt, h3]
    split_ifs <;> omega

/-- The growth at the start of a round. -/
theorem growFirst_spec {size off : ℕ} (hw : Wf k N 0) (hi : k.inodes.cell a = some i) (hN : N i.sector = some nd)
    (hp : nd.length < off + size → Persists persist ∧ (k.freeMapFile ≠ 0 → MapOpen k N)) (h0 : 0 < size) (hsize : size < 2 ^ 31) :
    wp (onlyIf (wrap (i.data.length - ((off % 512 : ℕ) : ℤ)) ≤ 0) do
        let growth := if (size : ℤ) < 512 then (size : ℤ) else 512
        let _ ← inodeGrow persist i.sector (.inode a) (wrap (i.data.length + growth))
        pure ())
      (fun _ k' => ∃ new nd', nd'.length = (if nd.length ≤ off % 512 then nd.length + min size 512 else nd.length) ∧
        Edited k N i.sector nd new nd' k' ∧
        (i.sector ≠ 0 → ∀ j < nd'.length, byteAt k'.buffers nd' j = overlay k nd (fun _ => 0) 0 0 j))
      (Unless (WriteRoom k N i.sector nd off (writeCount nd.length off size))) k := by
  have hr := hw.repr hi hN
  have hshort := hr.length_lt
  have hleft : wrap (i.data.length - ((off % 512 : ℕ) : ℤ)) = (nd.length : ℤ) - ((off % 512 : ℕ) : ℤ) := by
    rw [hr.length, wrap_eq ⟨by omega, by omega⟩]
  rw [wp_onlyIf, hleft]
  refine ⟨fun hle => ?_, fun hlt => ?_⟩
  · have hL : wrap (i.data.length + if (size : ℤ) < 512 then (size : ℤ) else 512) = ((nd.length + min size 512 : ℕ) : ℤ) := by
      rw [hr.length, wrap_eq ⟨by split_ifs <;> omega, by split_ifs <;> omega⟩]
      split_ifs <;> omega
    simp only [hL]
    refine wp_seq (inodeGrow_edits hw hi hN (fun _ => hp (by omega)) (by omega)) (Unless.mono fun hroom _ => ?_) ?_
    · by_cases hst : Stuck nd.length off size
      · rw [writeCount, if_pos hst] at hroom
        obtain ⟨-, hst⟩ := hst
        exact (hroom.grow (by omega)).2.mono (by omega)
      · rw [writeCount, if_neg hst] at hroom
        exact (hroom.grow (by omega)).2.mono (by omega)
    · rintro - k' ⟨new, nd', hlen, he, hbytes⟩
      exact ⟨new, nd', by rw [if_pos (by omega)]; omega, he, hbytes⟩
  · refine ⟨[], nd, by rw [if_neg (by omega)], .refl hw hN, fun _ j hj => ?_⟩
    rw [overlay_zero, if_pos hj]

/-- Growing on, with no byte written, adds zeros to zeros. -/
theorem overlay_grow {k₁ : Fs} {nd₁ : Node} (hlen : nd.length ≤ nd₁.length)
    (h : ∀ j < nd₁.length, byteAt k₁.buffers nd₁ j = overlay k nd (fun _ => 0) 0 0 j) (j : ℕ) :
    overlay k₁ nd₁ (fun _ => 0) 0 0 j = if j < nd.length then byteAt k.buffers nd j else 0 := by
  rw [overlay_zero]
  by_cases hj : j < nd₁.length
  · rw [if_pos hj, h j hj, overlay_zero]
  · rw [if_neg hj, if_neg (by omega)]

/-- The chunk and then the rest give the whole. -/
theorem overlay_chunk {k₂ : Fs} {nd₂ : Node} {B : Buffers} {buf : ℕ → UInt8} {off size c written : ℕ}
    (hlen : nd.length ≤ nd₂.length) (hc : off + c ≤ nd₂.length) (hcs : c ≤ size)
    (hold : ∀ j < nd₂.length, byteAt k₂.buffers nd₂ j = if j < nd.length then byteAt k.buffers nd j else 0)
    (hnew : ∀ j < nd₂.length, byteAt B nd₂ j =
      if off ≤ j ∧ j < off + c then buf (written + (j - off)) else byteAt k₂.buffers nd₂ j) (j : ℕ) :
    overlay { k₂ with buffers := B } nd₂ (fun j => buf (written + c + j)) (off + c) (size - c) j =
      overlay k nd (fun j => buf (written + j)) off size j := by
  unfold overlay
  by_cases hj₄ : off + c ≤ j ∧ j < off + c + (size - c)
  · have hidx : written + c + (j - (off + c)) = written + (j - off) := by omega
    rw [if_pos hj₄, if_pos (by omega)]
    exact congrArg buf hidx
  rw [if_neg hj₄]
  by_cases hj₂ : j < nd₂.length
  · rw [if_pos hj₂, hnew j hj₂]
    by_cases hj₃ : off ≤ j ∧ j < off + c
    · rw [if_pos hj₃, if_pos (by omega)]
    · rw [if_neg hj₃, if_neg (by omega), hold j hj₂]
  · rw [if_neg hj₂, if_neg (by omega), if_neg (by omega)]

theorem lengthAfter_chunk {len len₁ len₂ off size c : ℕ} (h₁ : len₁ = if len ≤ off % 512 then len + min size 512 else len)
    (h₂ : len₂ = max len₁ (off + c)) (hcs : c ≤ size) (hpos : 0 < c) (hns : ¬ Stuck len off size)
    (hns' : ¬ Stuck len₂ (off + c) (size - c)) : lengthAfter len₂ (off + c) (size - c) = lengthAfter len off size := by
  rw [lengthAfter, lengthAfter, writeCount, writeCount, if_neg hns, if_neg hns', if_neg (by omega : ¬ size = 0)]
  split_ifs at h₁ ⊢ <;> omega

/-- **The loop of `inode_write_at`**, which needs room for the bytes that it writes. -/
theorem writeLoop_spec {n size off written : ℕ} {buf : ℕ → UInt8} (hw : Wf k N 0) (hi : k.inodes.cell a = some i)
    (hN : N i.sector = some nd) (hp : nd.length < off + size → Persists persist ∧ (k.freeMapFile ≠ 0 → MapOpen k N))
    (hb : StopsFor Benign persist) (hn : size ≤ n) (hsize : size < 2 ^ 31) (hoff : off < 2 ^ 31) :
    wp (writeLoop persist a buf n size off written)
      (fun w k' => w = written + writeCount nd.length off size ∧
        ∃ new nd', WroteAt k N i.sector nd (fun j => buf (written + j)) off size new nd' k')
      (Unless (WriteRoom k N i.sector nd off (writeCount nd.length off size))) k := by
  induction n generalizing k N i nd size off written with
  | zero =>
    have h0 : size = 0 := by omega
    subst h0
    rw [writeLoop, wp_pure]
    refine ⟨by simp [writeCount], [], nd, .refl hw hN, by simp [lengthAfter], fun _ j hj => ?_⟩
    rw [show writeCount nd.length off 0 = 0 by simp [writeCount], overlay_zero, if_pos hj]
  | succ n ih =>
    rw [writeLoop, wp_ite]
    refine ⟨fun h0 => ?_, fun h0 => ?_⟩
    · have h0 : size = 0 := by omega
      subst h0
      rw [wp_pure]
      refine ⟨by simp [writeCount], [], nd, .refl hw hN, by simp [lengthAfter], fun _ j hj => ?_⟩
      rw [show writeCount nd.length off 0 = 0 by simp [writeCount], overlay_zero, if_pos hj]
    have hpos : 0 < size := by omega
    have hmod : ((off : ℤ)).tmod 512 = ((off % 512 : ℕ) : ℤ) := by
      rw [Int.tmod_eq_emod_of_nonneg (by omega)]
      omega
    rw [wp_bind]
    refine wp_inodeAt hi ?_
    simp only [hmod]
    -- first the file may grow
    refine wp_seq (growFirst_spec hw hi hN hp hpos hsize) (fun _ he => he) ?_
    rintro - k₁ ⟨new₁, nd₁, hlen₁, he₁, hbytes₁⟩
    obtain ⟨d₁, hd₁, hr₁⟩ := he₁.cell hi
    have hshort := hr₁.length_lt
    have hle₁ : nd₁.length ≤ max nd.length (off + size) := by
      rw [hlen₁]
      split_ifs <;> omega
    have hN₁ : Function.update N i.sector (some nd₁) i.sector = some nd₁ := Function.update_self _ _ _
    have hp₁ : nd₁.length < off + size →
        Persists persist ∧ (k₁.freeMapFile ≠ 0 → MapOpen k₁ (Function.update N i.sector (some nd₁))) := fun h =>
      have hp' := hp (by have := he₁.length_le; omega)
      ⟨hp'.1, fun hf => he₁.mapOpen hN (hp'.2 (he₁.steady.freeMapFile ▸ hf))⟩
    rw [wp_bind]
    refine wp_inodeAt hd₁ ?_
    simp only [hr₁.length, chunk_eq hshort hsize]
    obtain ⟨c, hc⟩ : ∃ c, c = if nd₁.length < off % 512 then min size (512 - off % 512)
        else min size (min (nd₁.length - off % 512) (512 - off % 512)) := ⟨_, rfl⟩
    rw [← hc]
    have hc0 : c = 0 ↔ Stuck nd.length off size := by
      unfold Stuck
      rw [hc, hlen₁]
      split_ifs <;> omega
    have hcsize : c ≤ size ∧ off % 512 + c ≤ 512 := by
      rw [hc]
      split_ifs <;> omega
    have hadd : (off : ℤ) + (c : ℤ) = ((off + c : ℕ) : ℤ) := by simp
    rw [hadd]
    -- the sector of the chunk, which may grow the file once more
    by_cases h31 : 2 ^ 31 ≤ off + c
    · rw [wp_bind]
      refine byteToSector_wrapped he₁.wf hd₁ hN₁ h31 (by omega) fun e he => ⟨fun hroom => ?_, he⟩
      rw [writeCount, if_neg fun hst => by have := hc0.2 hst; omega] at hroom
      have := (hroom.grow (by have := (hw.repr hi hN).length_lt; omega)).1
      omega
    rw [wrap_eq ⟨by omega, by omega⟩]
    have hoc : 0 < off + c := by
      by_contra hz
      obtain ⟨-, hst⟩ := hc0.1 (by omega)
      omega
    have hsector : wp (byteToSector persist a ((off + c : ℕ) : ℤ)) _ _ k₁ :=
      byteToSector_edits he₁.wf hd₁ hN₁ (fun h => hp₁ (by omega)) hb hoc (by omega)
    refine wp_seq hsector (Unless.mono fun hroom hlt => ?_) ?_
    · -- no more than that is grown
      have hle : nd₁.length ≤ max nd.length (off + writeCount nd.length off size) ∧ c ≤ writeCount nd.length off size := by
        by_cases hst : Stuck nd.length off size
        · rw [writeCount, if_pos hst, hc0.2 hst, hlen₁]
          obtain ⟨-, hst⟩ := hst
          split_ifs <;> omega
        · rw [writeCount, if_neg hst]
          exact ⟨hle₁, hcsize.1⟩
      obtain ⟨hmax, hg⟩ := (he₁.room hw hN (Nat.zero_le _) hle.1 hroom).grow (by omega)
      exact ⟨by omega, hg.mono (by omega)⟩
    rintro b k₂ ⟨new₂, nd₂, hlen₂, rfl, he₂, hbytes₂⟩
    have he := he₁.trans he₂
    by_cases hstuck : Stuck nd.length off size
    · -- nothing is left of the file in this sector
      have hcz : c = 0 := hc0.2 hstuck
      have hcount : writeCount nd.length off size = 0 := if_pos hstuck
      rw [if_pos hcz, wp_pure, hcount]
      refine ⟨rfl, _, nd₂, he, ?_, fun hs j hj => ?_⟩
      · obtain ⟨-, hst⟩ := hstuck
        rw [lengthAfter, if_neg (by omega), hcount, hlen₂, hlen₁]
        split_ifs <;> omega
      · rw [hcount, overlay_zero, hbytes₂ hs j hj, overlay_grow he₁.length_le (hbytes₁ hs)]
    have hcz : c ≠ 0 := fun h => hstuck (hc0.1 h)
    have hcount : writeCount nd.length off size = size := if_neg hstuck
    obtain ⟨d₂, hd₂, hr₂⟩ := he.cell hi
    have hN₂ : Function.update N i.sector (some nd₂) i.sector = some nd₂ := Function.update_self _ _ _
    have hle₂ := hr₂.length_le
    have hdiv : (off + c - 1) / 512 = off / 512 := by omega
    have hsofs : ofSigned ((off % 512 : ℕ) : ℤ) = off % 512 := by
      rw [ofSigned_of_nonneg (by omega) (by omega), Int.toNat_natCast]
    have hsub : wrap ((size : ℤ) - (c : ℤ)) = ((size - c : ℕ) : ℤ) := by
      rw [wrap_eq ⟨by omega, by omega⟩]
      omega
    have hle₂' : nd₂.length ≤ max nd.length (off + size) := by omega
    rw [if_neg hcz, hdiv, hsofs, hsub]
    refine wp_seq (cachedWrite_spec he.wf.cache hcsize.2) (Unless.mono fun hroom => ?_) ?_
    · rw [hcount] at hroom
      exact (he.room hw hN (Nat.zero_le size) hle₂' hroom).clear off (by omega) (by omega) (by omega)
    rintro - _ ⟨B, hB, rfl⟩
    have he₃ := Edited.chunk he.wf hN₂ (Nat.pos_of_ne_zero hcz) (by omega) hcsize.2 hB
    have hc₃ := he.trans he₃
    -- then the rest, from a state in which the file reaches up to the offset
    have hns : ¬ Stuck nd₂.length (off + c) (size - c) := by
      rintro ⟨_, _⟩
      omega
    have hcount₃ : writeCount nd₂.length (off + c) (size - c) = size - c := if_neg hns
    have hp₃ : nd₂.length < off + c + (size - c) → Persists persist ∧
        (k₂.freeMapFile ≠ 0 → MapOpen { k₂ with buffers := B } (Function.update N i.sector (some nd₂))) := fun h =>
      have hp' := hp (by have := he.length_le; omega)
      ⟨hp'.1, fun hf => hc₃.mapOpen hN (hp'.2 (he.steady.freeMapFile ▸ hf))⟩
    refine wp_mono (ih hc₃.wf hd₂ hN₂ hp₃ (by omega) (by omega) (by omega)) ?_ (Unless.mono fun hroom => ?_)
    swap
    · rw [hcount] at hroom
      rw [hcount₃]
      exact hc₃.room hw hN hcsize.1 hle₂' hroom
    rintro w k₄ ⟨rfl, new₄, nd₄, hw₄⟩
    have he₄ : Edited k N i.sector nd _ nd₄ k₄ := hc₃.trans hw₄.edited
    rw [hcount₃, hcount]
    refine ⟨by omega, _, nd₄, he₄, ?_, fun hs j hj => ?_⟩
    · rw [hw₄.length]
      exact lengthAfter_chunk hlen₁ hlen₂ hcsize.1 (Nat.pos_of_ne_zero hcz) hstuck hns
    · rw [hw₄.bytes hs j hj, hcount₃, hcount]
      refine overlay_chunk he.length_le (by omega) hcsize.1 (fun j hj => ?_) (fun j hj => ?_) j
      · rw [hbytes₂ hs j hj, overlay_grow he₁.length_le (hbytes₁ hs)]
      · have hl := (List.nodup_cons.1 (he.wf.laid.nodup i.sector nd₂ hN₂)).2
        exact byteAt_chunk hl (Nat.pos_of_ne_zero hcz) (by omega) hcsize.2 hB (by omega)

/-- Where there is room for all bytes, there is room for those that are written. -/
theorem WriteRoom.count {off size : ℕ} (h : WriteRoom k N s nd off size) : WriteRoom k N s nd off (writeCount nd.length off size) := by
  have hle : writeCount nd.length off size ≤ size := by
    unfold writeCount
    split_ifs <;> omega
  refine ⟨fun j hj hlt => h.clear j hj (by omega), fun hlt => ?_⟩
  obtain ⟨hmax, hg⟩ := h.grow (by omega)
  exact ⟨by omega, hg.mono (by omega)⟩

/-- **`inode_write_at`**, if writes are not denied. -/
theorem inodeWriteAt_count {size off : ℕ} {buf : ℕ → UInt8} (hw : Wf k N 0) (hi : k.inodes.cell a = some i)
    (hN : N i.sector = some nd) (hdeny : i.denyWriteCnt = 0)
    (hp : nd.length < off + size → Persists persist ∧ (k.freeMapFile ≠ 0 → MapOpen k N))
    (hb : StopsFor Benign persist) (hsize : size < 2 ^ 31) (hoff : off < 2 ^ 31) :
    wp (inodeWriteAt persist a buf size off)
      (fun w k' => w = writeCount nd.length off size ∧ ∃ new nd', WroteAt k N i.sector nd buf off size new nd' k')
      (Unless (WriteRoom k N i.sector nd off (writeCount nd.length off size))) k := by
  rw [inodeWriteAt, wp_bind]
  refine wp_inodeAt hi ?_
  rw [if_neg (by simp [hdeny])]
  have hloop : wp (writeLoop persist a buf (size : ℤ).toNat size off 0) _ _ k :=
    writeLoop_spec hw hi hN hp hb (by simp) hsize hoff
  simpa using hloop

/-- **`inode_write_at`** with room for all bytes. -/
theorem inodeWriteAt_spec {size off : ℕ} {buf : ℕ → UInt8} (hw : Wf k N 0) (hi : k.inodes.cell a = some i)
    (hN : N i.sector = some nd) (hdeny : i.denyWriteCnt = 0)
    (hp : nd.length < off + size → Persists persist ∧ (k.freeMapFile ≠ 0 → MapOpen k N))
    (hb : StopsFor Benign persist) (hsize : size < 2 ^ 31) (hoff : off < 2 ^ 31) :
    wp (inodeWriteAt persist a buf size off)
      (fun w k' => w = writeCount nd.length off size ∧ ∃ new nd', WroteAt k N i.sector nd buf off size new nd' k')
      (Unless (WriteRoom k N i.sector nd off size)) k :=
  wp_mono (inodeWriteAt_count hw hi hN hdeny hp hb hsize hoff) (fun _ _ h => h) (Unless.mono WriteRoom.count)

/-! ### The free map -/

/-- The free map is not longer than a file can be. -/
theorem MapOpen.capacity_le (hm : MapOpen k N) (hw : Wf k N u) : k.buffers.disk.capacity ≤ 2 ^ 21 := by
  obtain ⟨f, i, nd, -, -, -, -, hN, hle⟩ := hm
  have hshort := (hw.laid.disk 0 nd hN).length_lt
  rw [Bitmap.fileSize, Bitmap.byteCnt, hw.laid.size] at hle
  omega

/-- The bytes of the file `nd` from `off` on are `n` bytes of `buf`, and nothing else has changed. -/
structure Overwritten (k : Fs) (nd : Node) (buf : ℕ → UInt8) (off n : ℕ) (B : Buffers) : Prop where
  wf : B.Wf
  capacity : B.disk.capacity = k.buffers.disk.capacity
  content : ∀ b, b ∉ nd.blocks → B.content b = k.buffers.content b
  bytes : ∀ j < 512 * nd.blocks.length,
    byteAt B nd j = if off ≤ j ∧ j < off + n then buf (j - off) else byteAt k.buffers nd j

/-- The loop of `inode_write_at` inside a file, where it does not grow. Nothing has to be known of the other
files. -/
theorem writeLoop_inside {n size off written : ℕ} {buf : ℕ → UInt8} (hc : k.buffers.Wf) (hi : k.inodes.cell a = some i)
    (hr : Repr k.tables i.data nd) (hl : nd.blocks.Nodup) (hin : off + size ≤ nd.length) (hn : size ≤ n) :
    wp (writeLoop persist a buf n size off written)
      (fun w k' => w = written + size ∧
        ∃ B, Overwritten k nd (fun j => buf (written + j)) off size B ∧ k' = { k with buffers := B })
      (Unless (nd.Clear k)) k := by
  induction n generalizing k size off written with
  | zero =>
    have h0 : size = 0 := by omega
    subst h0
    rw [writeLoop, wp_pure]
    exact ⟨rfl, k.buffers, ⟨hc, rfl, fun _ _ => rfl, fun j _ => by rw [if_neg (by omega)]⟩, rfl⟩
  | succ n ih =>
    have hshort := hr.length_lt
    have hle := hr.length_le
    rw [writeLoop, wp_ite]
    refine ⟨fun h0 => ?_, fun h0 => ?_⟩
    · have h0 : size = 0 := by omega
      subst h0
      rw [wp_pure]
      exact ⟨rfl, k.buffers, ⟨hc, rfl, fun _ _ => rfl, fun j _ => by rw [if_neg (by omega)]⟩, rfl⟩
    have hmod : ((off : ℤ)).tmod 512 = ((off % 512 : ℕ) : ℤ) := by
      rw [Int.tmod_eq_emod_of_nonneg (by omega)]
      omega
    rw [wp_bind]
    refine wp_inodeAt hi ?_
    have hleft : ¬ wrap (i.data.length - (off : ℤ).tmod 512) ≤ 0 := by
      rw [hmod, hr.length, wrap_eq ⟨by omega, by omega⟩]
      omega
    rw [wp_bind, onlyIf, if_neg hleft, wp_pure, wp_bind]
    refine wp_inodeAt hi ?_
    simp only [hmod, hr.length]
    rw [chunk_eq hshort (by omega), if_neg (by omega)]
    obtain ⟨c, hceq⟩ : ∃ c, c = min size (min (nd.length - off % 512) (512 - off % 512)) := ⟨_, rfl⟩
    rw [← hceq]
    have hcsize : 0 < c ∧ c ≤ size ∧ off % 512 + c ≤ 512 := by omega
    have hadd : wrap ((off : ℤ) + (c : ℤ)) = ((off + c : ℕ) : ℤ) := by
      rw [wrap_eq ⟨by omega, by omega⟩]
      simp
    have hsub : wrap ((size : ℤ) - (c : ℤ)) = ((size - c : ℕ) : ℤ) := by
      rw [wrap_eq ⟨by omega, by omega⟩]
      omega
    have hsofs : ofSigned ((off % 512 : ℕ) : ℤ) = off % 512 := by
      rw [ofSigned_of_nonneg (by omega) (by omega), Int.toNat_natCast]
    rw [hadd, hsub, hsofs, wp_bind]
    refine byteToSector_spec hi hr (by omega) (by omega) ?_
    rw [show (off + c - 1) / 512 = off / 512 by omega, if_neg (by omega)]
    have hmem : nd.blocks.getD (off / 512) 0 ∈ nd.blocks := block_mem (by omega)
    refine wp_seq (cachedWrite_spec hc hcsize.2.2) (Unless.mono fun hclear => hclear _ hmem) ?_
    rintro - _ ⟨B, hB, rfl⟩
    have hother : ∀ b, b ∉ nd.blocks → B.content b = k.buffers.content b := by
      intro b hb
      rw [hB.content, if_neg]
      rintro rfl
      exact hb hmem
    have hover : Overwritten k nd (fun j => buf (written + j)) off c B :=
      ⟨hB.wf, hB.capacity, hother, fun j hj => byteAt_chunk hl hcsize.1 (by omega) hcsize.2.2 hB hj⟩
    refine wp_mono (ih hB.wf hi hr (by omega) (by omega)) ?_ (Unless.mono fun hclear b hb => ?_)
    · rintro w _ ⟨rfl, B', hB', rfl⟩
      refine ⟨by omega, B', ⟨hB'.wf, hB'.capacity.trans hB.capacity, fun b hb => ?_, fun j hj => ?_⟩, rfl⟩
      · exact (hB'.content b hb).trans (hover.content b hb)
      · rw [hB'.bytes j hj]
        have hrest := hover.bytes j hj
        by_cases h₁ : off + c ≤ j ∧ j < off + c + (size - c)
        · rw [if_pos h₁, if_pos (by omega)]
          exact congrArg buf (by omega)
        · rw [if_neg h₁]
          refine hrest.trans ?_
          by_cases h₂ : off ≤ j ∧ j < off + c
          · rw [if_pos h₂, if_pos (by omega)]
          · rw [if_neg h₂, if_neg (by omega)]
    · rw [hB.capacity]
      exact hclear b hb

/-- What `bitmap_write` needs of the free map's file: it is open for writing, and long enough. -/
structure MapFile (k : Fs) (nd : Node) : Prop where
  open_file : ∃ f i, k.files.cell k.freeMapFile = some f ∧ k.inodes.cell f.inode = some i ∧ i.denyWriteCnt = 0 ∧
    Repr k.tables i.data nd
  nodup : nd.blocks.Nodup
  long : k.freeMap.fileSize ≤ nd.length

theorem MapOpen.mapFile (hm : MapOpen k N) (hw : Wf k N u) : ∃ nd, N 0 = some nd ∧ MapFile k nd := by
  obtain ⟨f, i, nd, hf, hi, hsec, hdeny, hN, hle⟩ := hm
  refine ⟨nd, hN, ⟨f, i, hf, hi, hdeny, hw.repr hi (by rw [hsec]; exact hN)⟩, ?_, hle⟩
  exact (List.nodup_cons.1 (hw.laid.nodup 0 nd hN)).2

/-- **`bitmap_write` writes the free map to its file**: the call inside it that `persist` stands for is
not made, since the file is long enough. -/
theorem bitmapWrite_spec (n : ℕ) (hc : k.buffers.Wf) (hN : N 0 = some nd) (hm : MapFile k nd) :
    wp (bitmapWrite (n + 1)) (fun ok k' => ok = true ∧ ∃ B, Persisted N k B ∧ k' = { k with buffers := B })
      (Unless (MapClear k N)) k := by
  obtain ⟨⟨f, i, hf, hi, hdeny, hr⟩, hl, hle⟩ := hm
  rw [bitmapWrite, wp_bind, wp_gets, wp_bind, wp_gets, wp_bind]
  refine wp_fileAt hf ?_
  rw [wp_bind, inodeWriteAt, wp_bind]
  refine wp_inodeAt hi ?_
  rw [if_neg (by simp [hdeny])]
  have hloop : wp (writeLoop (bitmapWrite n) f.inode k.freeMap.bytes ((k.freeMap.fileSize : ℕ) : ℤ).toNat
      k.freeMap.fileSize ((0 : ℕ) : ℤ) 0) _ _ k := writeLoop_inside hc hi hr hl (by omega) (by simp)
  refine wp_mono hloop ?_ (Unless.mono fun hclear b hb => hclear b (by rw [mapBlocks_eq hN]; exact hb))
  rintro w _ ⟨rfl, B, hB, rfl⟩
  rw [wp_pure]
  refine ⟨by simp, B, ⟨hB.wf, hB.capacity, fun b hb => ?_, fun nd' hN₀ j hj => ?_, fun nd' hN₀ j hj hlt => ?_⟩, rfl⟩
  · exact hB.content b (by rwa [mapBlocks_eq hN] at hb)
  · rw [hN] at hN₀
    cases hN₀
    have hlen := hr.length_le
    rw [hB.bytes j (by omega), if_pos (by omega)]
    simp
  · rw [hN] at hN₀
    cases hN₀
    rw [hB.bytes j hlt, if_neg (by omega)]

theorem bitmapWrite_persists (n : ℕ) : Persists (bitmapWrite (n + 1)) := by
  intro k N u hw hm
  obtain ⟨nd, hN, hfile⟩ := hm.mapFile hw
  exact bitmapWrite_spec n hw.cache hN hfile

theorem persistFreeMap_persists : Persists persistFreeMap := bitmapWrite_persists 7

theorem persistFreeMap_stops : StopsFor Benign persistFreeMap := bitmapWrite_stops 8

end Pintos
