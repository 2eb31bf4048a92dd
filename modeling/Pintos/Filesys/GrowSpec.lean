import Mathlib.Data.Finset.Card
import Mathlib.Data.Finset.Range
import Pintos.Filesys.ReadSpec

/-!
# Growing

`inode_grow` appends sectors to a file: sectors that were free, filled with
zeros, and taken from the low end of the disk. The sectors the file had stay
where they are, also when the file outgrows `start` and its sectors are copied
to a table. No other file changes but the free map's, which is rewritten for
every sector allocated.

Everything here is for a write `persist` of the free map that does what
`Persists` says; that `bitmap_write` does is proved when writing is.
-/

namespace Pintos

open Library Library.Prog Library.Bytes

/-! ### Writing the free map -/

/-- The free map was written to its file, in the cache `B`, and nothing else was. -/
structure Persisted (N : Nodes) (k : Fs) (B : Buffers) : Prop where
  wf : B.Wf
  capacity : B.disk.capacity = k.buffers.disk.capacity
  content : ∀ b, b ∉ mapBlocks N → B.content b = k.buffers.content b
  sync : ∀ nd, N 0 = some nd → ∀ j < k.freeMap.fileSize, byteAt B nd j = k.freeMap.bytes j
  rest : ∀ nd, N 0 = some nd → ∀ j, k.freeMap.fileSize ≤ j → j < 512 * nd.blocks.length →
    byteAt B nd j = byteAt k.buffers nd j

/-- No block of the free map's file is the disk's last sector. -/
def MapClear (k : Fs) (N : Nodes) : Prop := ∀ b ∈ mapBlocks N, b + 1 < k.buffers.disk.capacity

/-- A write of the free map that works whenever its file is open. -/
def Persists (persist : FsM Bool) : Prop :=
  ∀ k N u, Wf k N u → MapOpen k N →
    wp persist (fun ok k' => ok = true ∧ ∃ B, Persisted N k B ∧ k' = { k with buffers := B }) (Unless (MapClear k N)) k

variable {k k₀ k' : Fs} {N : Nodes} {u s : ℕ} {nd : Node} {d : InodeDisk} {r : DataRef} {persist : FsM Bool}
  {E : Halt → Prop}

theorem mapBlocks_eq (h : N 0 = some nd) : mapBlocks N = nd.blocks := by
  simp [mapBlocks, h]

theorem mem_mapBlocks {b : ℕ} (h : b ∈ mapBlocks N) : ∃ nd, N 0 = some nd ∧ b ∈ nd.blocks := by
  cases h0 : N 0 with
  | none => simp [mapBlocks, h0] at h
  | some nd => exact ⟨nd, rfl, by simpa [mapBlocks, h0] using h⟩

/-- The inode sectors and the blocks of the other files are not in the free map's file. -/
theorem Laid.notMem_mapBlocks {B : Buffers} {T : Heap Table} {M : Bitmap} (h : Laid B T M N) (hN : N s = some nd) {b : ℕ}
    (hb : b ∈ s :: nd.blocks) (hs : s ≠ 0 ∨ b = s) : b ∉ mapBlocks N := by
  intro hmap
  obtain ⟨nd₀, hN₀, hb₀⟩ := mem_mapBlocks hmap
  have hzero := h.disjoint s nd 0 nd₀ hN hN₀ b hb (List.mem_cons_of_mem _ hb₀)
  rcases hs with hs | rfl
  · exact hs hzero
  · exact h.inode_notMem hN hN₀ hb₀

theorem MapOpen.fileSize_le (h : MapOpen k N) (hN : N 0 = some nd) : k.freeMap.fileSize ≤ nd.length := by
  obtain ⟨f, i, nd', -, -, -, -, hN', hle⟩ := h
  rw [hN] at hN'
  cases hN'
  exact hle

theorem Wf.persisted (hw : Wf k N u) (hsize : ∀ nd, N 0 = some nd → k.freeMap.fileSize ≤ nd.length) {B : Buffers}
    (hB : Persisted N k B) : Wf { k with buffers := B } N u := by
  refine hw.of_content hB.wf hB.capacity (fun s nd hN => ?_) fun s nd hN j hj hlt => ?_
  · exact hB.content s (hw.laid.notMem_mapBlocks hN List.mem_cons_self (.inr rfl))
  · by_cases hs : s = 0
    · subst hs
      exact hB.rest nd hN j ((hsize nd hN).trans hj) hlt
    · unfold byteAt
      rw [hB.content _ (hw.laid.notMem_mapBlocks hN (List.mem_cons_of_mem _ (block_mem hlt)) (.inl hs))]

/-- A file other than the free map's keeps its bytes when the map is written. -/
theorem Persisted.byteAt_eq {B : Buffers} (hB : Persisted N k B) (hw : Wf k N u) (hN : N s = some nd) (hs : s ≠ 0) {j : ℕ}
    (hj : j < 512 * nd.blocks.length) : byteAt B nd j = byteAt k.buffers nd j := by
  unfold byteAt
  rw [hB.content _ (hw.laid.notMem_mapBlocks hN (List.mem_cons_of_mem _ (block_mem hj)) (.inl hs))]

/-! ### Allocating a sector -/

/-- How many sectors below `c` are free. -/
def Bitmap.freeBelow (M : Bitmap) (c : ℕ) : ℕ := ((Finset.range c).filter fun i => M.bit i = false).card

theorem Bitmap.freeBelow_set {M : Bitmap} {b c : ℕ} (hb : M.bit b = false) (hc : b < c) :
    (M.setMultiple b 1 true).freeBelow c + 1 = M.freeBelow c := by
  have hmem : b ∈ (Finset.range c).filter fun i => M.bit i = false := by
    rw [Finset.mem_filter, Finset.mem_range]
    exact ⟨hc, hb⟩
  have heq : ((Finset.range c).filter fun i => (M.setMultiple b 1 true).bit i = false) =
      ((Finset.range c).filter fun i => M.bit i = false).erase b := by
    ext i
    rw [Finset.mem_filter, Finset.mem_erase, Finset.mem_filter, Bitmap.bit_setMultiple_one]
    by_cases hi : i = b <;> simp [hi]
  rw [Bitmap.freeBelow, Bitmap.freeBelow, heq, Finset.card_erase_of_mem hmem]
  exact Nat.succ_pred_eq_of_pos (Finset.card_pos.2 ⟨b, hmem⟩)

/-- A free sector below `c` is found before `c`. -/
theorem Bitmap.lt_of_freeBelow {M : Bitmap} {b c : ℕ} (hfirst : ∀ j < b, M.bit j = true) (hc : 0 < M.freeBelow c) :
    b < c := by
  obtain ⟨i, hi⟩ := Finset.card_pos.1 hc
  rw [Finset.mem_filter, Finset.mem_range] at hi
  by_contra hlt
  have := hfirst i (by omega)
  rw [hi.2] at this
  cases this

/-- Sector `b` was taken from the free map, and the map was written to its file if it is open. -/
structure Allocated (k : Fs) (N : Nodes) (u b : ℕ) (k' : Fs) : Prop where
  lt : b < k.buffers.disk.capacity
  clear : k.freeMap.bit b = false
  first : ∀ j < b, k.freeMap.bit j = true
  wf : Wf k' N u
  frame : ∃ B, k' = { k with freeMap := k.freeMap.setMultiple b 1 true, buffers := B }
  capacity : k'.buffers.disk.capacity = k.buffers.disk.capacity
  content : ∀ c, c ∉ mapBlocks N → k'.buffers.content c = k.buffers.content c
  rest : ∀ nd, N 0 = some nd → ∀ j, (k.freeMapFile ≠ 0 → k.freeMap.fileSize ≤ j) → j < 512 * nd.blocks.length →
    byteAt k'.buffers nd j = byteAt k.buffers nd j
  sync : k.freeMapFile ≠ 0 → MapSync k' N

/-- Marking a sector keeps a file system well formed. -/
theorem Wf.mark (hw : Wf k N u) (b : ℕ) : Wf { k with freeMap := k.freeMap.setMultiple b 1 true } N u := by
  have hmono : ∀ j, k.freeMap.bit j = true → (k.freeMap.setMultiple b 1 true).bit j = true := by
    intro j hj
    rw [Bitmap.bit_setMultiple_one]
    split_ifs
    · rfl
    · exact hj
  refine ⟨hw.cache, hw.laid.of_map rfl ?_ fun _ _ _ b _ => hmono b, hw.opened⟩
  exact ⟨hmono 0 hw.laid.low.1, hmono 1 hw.laid.low.2⟩

/-- **`free_map_allocate`** finds the first free sector, if there is one. -/
theorem freeMapAllocate_spec (hp : Persists persist) (hw : Wf k N u) (hm : k.freeMapFile ≠ 0 → MapOpen k N) :
    wp (freeMapAllocate persist 1)
      (fun o k' => (∃ b, o = some b ∧ Allocated k N u b k') ∨
        o = none ∧ k' = k ∧ ∀ j < k.buffers.disk.capacity, k.freeMap.bit j = true)
      (Unless (MapClear k N)) k := by
  rw [freeMapAllocate, wp_bind, wp_gets]
  cases hscan : k.freeMap.scan 0 1 false with
  | none =>
    rw [wp_pure]
    refine .inr ⟨rfl, rfl, fun j hj => Bitmap.scan_one_eq_none hscan ?_⟩
    rwa [hw.laid.size]
  | some b =>
    obtain ⟨hlt, hclear, hfirst⟩ := Bitmap.scan_one_eq_some hscan
    rw [hw.laid.size] at hlt
    rw [wp_bind, wp_modify, wp_bind, wp_gets, wp_ite]
    have hw' := hw.mark b
    refine ⟨fun h0 => ?_, fun h0 => ?_⟩
    · rw [wp_pure]
      exact .inl ⟨b, rfl, hlt, hclear, hfirst, hw', ⟨_, rfl⟩, rfl, fun _ _ => rfl, fun _ _ _ _ _ => rfl,
        fun h => absurd h0 h⟩
    · have hopen := hm h0
      rw [wp_bind]
      refine wp_post (hp _ N u hw' hopen) ?_
      rintro ok k' ⟨rfl, B, hB, rfl⟩
      rw [if_pos rfl, wp_pure]
      exact .inl ⟨b, rfl, hlt, hclear, hfirst, hw'.persisted (fun _ => hopen.fileSize_le) hB, ⟨B, rfl⟩, hB.capacity, hB.content,
        fun nd hN j hj => hB.rest nd hN j (hj h0), fun _ => hB.sync⟩

/-! ### The data of an inode -/

/-- `*disk_inode`, if it is there. -/
def Fs.dataOf (k : Fs) : DataRef → Option InodeDisk
  | .inode a => (k.inodes.cell a).map Inode.data
  | .temp => some k.temp

/-- Replace `*disk_inode`. -/
def Fs.setData (k : Fs) (d : InodeDisk) : DataRef → Fs
  | .inode a => { k with inodes := k.inodes.set a fun i => { i with data := d } }
  | .temp => { k with temp := d }

/-- The inode in memory that `inode_grow` changes, `0` if there is none. -/
def DataRef.addr : DataRef → ℕ
  | .inode a => a
  | .temp => 0

theorem wp_readData {Q : InodeDisk → Fs → Prop} (hd : k.dataOf r = some d) (hQ : Q d k) : wp (readData r) Q E k := by
  cases r with
  | inode a =>
    obtain ⟨i, hi, rfl⟩ := Option.map_eq_some_iff.1 hd
    rw [readData, wp_bind]
    exact wp_inodeAt hi hQ
  | temp =>
    cases hd
    exact hQ

theorem wp_updateData {f : InodeDisk → InodeDisk} {Q : Unit → Fs → Prop} (hd : k.dataOf r = some d)
    (hQ : Q () (k.setData (f d) r)) : wp (updateData f r) Q E k := by
  cases r with
  | inode a =>
    obtain ⟨i, hi, rfl⟩ := Option.map_eq_some_iff.1 hd
    have heq : (k.inodes.set a fun j => { j with data := f j.data }) = k.inodes.set a fun j => { j with data := f i.data } :=
      k.inodes.set_congr hi rfl
    rw [updateData, updateInode, wp_modify, heq]
    exact hQ
  | temp =>
    cases hd
    exact hQ

theorem Fs.dataOf_setData (hd : k.dataOf r = some d) (d' : InodeDisk) : (k.setData d' r).dataOf r = some d' := by
  cases r with
  | inode a =>
    obtain ⟨i, hi, -⟩ := Option.map_eq_some_iff.1 hd
    simp [Fs.setData, Fs.dataOf, hi]
  | temp => rfl

@[simp] theorem Fs.setData_buffers (k : Fs) (d : InodeDisk) (r : DataRef) : (k.setData d r).buffers = k.buffers := by
  cases r <;> rfl

@[simp] theorem Fs.setData_freeMap (k : Fs) (d : InodeDisk) (r : DataRef) : (k.setData d r).freeMap = k.freeMap := by
  cases r <;> rfl

@[simp] theorem Fs.setData_tables (k : Fs) (d : InodeDisk) (r : DataRef) : (k.setData d r).tables = k.tables := by
  cases r <;> rfl

theorem Fs.setData_cell (k : Fs) (d : InodeDisk) (r : DataRef) (a : ℕ) :
    (k.setData d r).inodes.cell a =
      if r = .inode a then (k.inodes.cell a).map (fun i => { i with data := d }) else k.inodes.cell a := by
  cases r with
  | inode a' =>
    by_cases h : a' = a
    · subst h
      simp [Fs.setData]
    · rw [if_neg (by simpa using h)]
      exact Heap.cell_set_of_ne _ _ (Ne.symm h)
  | temp => simp [Fs.setData]

theorem Fs.cell_setData_cases {a : ℕ} {i' : Inode} (h : (k.setData d r).inodes.cell a = some i') :
    ∃ i, k.inodes.cell a = some i ∧ i'.sector = i.sector ∧ (r = .inode a ∧ i'.data = d ∨ r ≠ .inode a ∧ i' = i) := by
  rw [Fs.setData_cell] at h
  split_ifs at h with ha
  · obtain ⟨i, hi, rfl⟩ := Option.map_eq_some_iff.1 h
    exact ⟨i, hi, rfl, .inl ⟨ha, rfl⟩⟩
  · exact ⟨i', h, rfl, .inr ⟨ha, rfl⟩⟩

theorem Steady.setData (k : Fs) (d : InodeDisk) (r : DataRef) : Steady k (k.setData d r) := by
  have hcell : ∀ a, ((k.setData d r).inodes.cell a).map Inode.handle = (k.inodes.cell a).map Inode.handle := by
    intro a
    rw [Fs.setData_cell]
    split_ifs
    · rw [Option.map_map]
      rfl
    · rfl
  cases r <;> exact ⟨rfl, rfl, rfl, rfl, rfl, hcell, rfl⟩

/-- Changing the data of the inode that is being grown, but neither its length nor the sectors it has. -/
theorem Wf.setData (hw : Wf k N r.addr)
    (hd : ∀ a i nd, r = .inode a → k.inodes.cell a = some i → N i.sector = some nd → Repr k.tables d nd) :
    Wf (k.setData d r) N r.addr := by
  have ho := hw.opened
  cases r with
  | temp => exact ⟨hw.cache, hw.laid, ho⟩
  | inode a =>
    refine ⟨hw.cache, hw.laid, ?_, ?_, ho.nodup, ?_, ?_, ?_⟩
    · intro a' i' hi'
      obtain ⟨i, hi, -⟩ := Fs.cell_setData_cases hi'
      exact ho.listed a' i hi
    · intro a' ha'
      obtain ⟨i, hi⟩ := ho.live a' ha'
      rw [Fs.setData_cell, hi]
      split_ifs
      · exact ⟨_, rfl⟩
      · exact ⟨i, rfl⟩
    · intro a₁ i₁ a₂ i₂ h₁ h₂ heq
      obtain ⟨j₁, hj₁, hs₁, -⟩ := Fs.cell_setData_cases h₁
      obtain ⟨j₂, hj₂, hs₂, -⟩ := Fs.cell_setData_cases h₂
      exact ho.unique a₁ j₁ a₂ j₂ hj₁ hj₂ (hs₁.symm.trans (heq.trans hs₂))
    · intro a' i' hi'
      obtain ⟨i, hi, hs, ⟨hr, hdata⟩ | ⟨-, rfl⟩⟩ := Fs.cell_setData_cases hi'
      · obtain ⟨nd, hN, -⟩ := ho.node a' i hi
        rw [hs, hdata]
        exact ⟨nd, hN, hd a' i nd hr hi hN⟩
      · exact ho.node a' i' hi
    · intro a' i' hi' hu
      obtain ⟨i, hi, hs, ⟨hr, -⟩ | ⟨-, rfl⟩⟩ := Fs.cell_setData_cases hi'
      · cases hr
        exact absurd rfl hu
      · exact ho.sync a' i' hi hu

/-! ### Slots -/

/-- The place of block `i`: in `start`, or in the table at address `t` if `t` is not null. -/
def slotOf (t i : ℕ) : Slot := if t = 0 then .direct i else .entry t i

/-- What is in a slot, if it exists. -/
def Fs.slotVal (k : Fs) (r : DataRef) : Slot → Option ℕ
  | .direct i => (k.dataOf r).bind fun d => if h : i < directPointers then some (d.start ⟨i, h⟩) else none
  | .entry t j => (k.tables.cell t).bind fun T => if h : j < 512 then some (T ⟨j, h⟩) else none

/-- The state with a sector stored in a slot. -/
def Fs.storeIn (k : Fs) (r : DataRef) (d : InodeDisk) (b : ℕ) : Slot → Fs
  | .direct i => k.setData { d with start := fun j => if j.1 = i then b else d.start j } r
  | .entry t j => { k with tables := k.tables.set t fun T l => if l.1 = j then b else T l }

theorem Fs.dataOf_congr (hI : k'.inodes = k.inodes) (htemp : k'.temp = k.temp) : k'.dataOf r = k.dataOf r := by
  cases r <;> simp only [Fs.dataOf, hI, htemp]

theorem Fs.slotVal_congr (hI : k'.inodes = k.inodes) (htemp : k'.temp = k.temp) (hT : k'.tables = k.tables) (slot : Slot) :
    k'.slotVal r slot = k.slotVal r slot := by
  cases slot <;> cases r <;> simp only [Fs.slotVal, Fs.dataOf, hI, htemp, hT]

/-- Block `i` has a slot. -/
def Fs.HasSlot (k : Fs) (t i : ℕ) : Prop := (t = 0 → i < directPointers) ∧ (t ≠ 0 → i < 512 ∧ ∃ T, k.tables.cell t = some T)

theorem storeSlot_spec {b t i : ℕ} {Q : Unit → Fs → Prop} (hd : k.dataOf r = some d) (hs : k.HasSlot t i)
    (hQ : Q () (k.storeIn r d b (slotOf t i))) : wp (storeSlot r b (slotOf t i)) Q E k := by
  by_cases ht : t = 0
  · have hi := hs.1 ht
    rw [slotOf, if_pos ht] at hQ ⊢
    rw [storeSlot, dif_pos hi]
    refine wp_updateData hd ?_
    have heq : Function.update d.start ⟨i, hi⟩ b = fun j => if j.1 = i then b else d.start j := by
      funext j
      simp only [Function.update_apply, Fin.ext_iff]
    rw [heq]
    exact hQ
  · obtain ⟨hi, T, hT⟩ := hs.2 ht
    rw [slotOf, if_neg ht] at hQ ⊢
    rw [storeSlot, wp_bind]
    refine wp_tableAt hT ⟨i, hi⟩ ?_
    rw [wp_modify]
    have heq : (fun T : Table => Function.update T (Fin.ofNat 512 i) b) = fun T l => if l.1 = i then b else T l := by
      funext T l
      simp only [Function.update_apply, Fin.ext_iff, Fin.ofNat, Nat.mod_eq_of_lt hi]
    rw [heq]
    exact hQ

theorem slotVal_storeIn {b t i : ℕ} (hd : k.dataOf r = some d) (hs : k.HasSlot t i) (j : ℕ) :
    (k.storeIn r d b (slotOf t i)).slotVal r (slotOf t j) = if j = i then some b else k.slotVal r (slotOf t j) := by
  by_cases ht : t = 0
  · have hi := hs.1 ht
    simp only [slotOf, if_pos ht, Fs.storeIn, Fs.slotVal, Fs.dataOf_setData hd, hd, Option.bind_some]
    by_cases hj : j = i
    · simp [hj, hi]
    · simp [hj]
  · obtain ⟨hi, T, hT⟩ := hs.2 ht
    simp only [slotOf, if_neg ht, Fs.storeIn, Fs.slotVal, Heap.cell_set_self, hT, Option.map_some, Option.bind_some]
    by_cases hj : j = i
    · simp [hj, hi]
    · simp [hj]

/-! ### The loop -/

/-- How many tables a node has. -/
def Node.tableCount (nd : Node) : ℕ := if nd.table = 0 then 0 else 1

/-- **Halfway through `inode_grow`**, which was called in `k₀` for the inode of `nd` in sector `s`, the
sectors `new` have been appended. -/
structure Growing (k₀ : Fs) (N : Nodes) (r : DataRef) (s : ℕ) (nd : Node) (t : ℕ) (new : List ℕ) (k : Fs) : Prop where
  wf : Wf k N r.addr
  steady : Steady k₀ k
  capacity : k.buffers.disk.capacity = k₀.buffers.disk.capacity
  bitCnt : k.freeMap.bitCnt = k₀.freeMap.bitCnt
  data : ∃ d, k.dataOf r = some d ∧ d.Fits ∧ d.length = nd.length ∧ d.isdir = nd.isdir ∧ d.indirect = t
  slots : ∀ i b, (nd.blocks ++ new)[i]? = some b → k.slotVal r (slotOf t i) = some b
  table : t ≠ 0 → ∃ T, k.tables.cell t = some T
  next : t = 0 → k.tables.next = k₀.tables.next
  tables : k.tables.next + nd.tableCount = k₀.tables.next + if t = 0 then 0 else 1
  own : t ≠ 0 → ∀ s' nd', N s' = some nd' → s' ≠ s → nd'.table ≠ t
  self : ∀ nd', N s = some nd' → nd' = nd
  inode : ∀ a i, r = .inode a → k.inodes.cell a = some i → i.sector = s
  nodup : new.Nodup
  fresh : ∀ b ∈ new, b < k₀.buffers.disk.capacity ∧ k₀.freeMap.bit b = false
  free : ∀ b ∈ new, ∀ s nd, N s = some nd → b ∉ s :: nd.blocks
  bits : ∀ j, k.freeMap.bit j = (k₀.freeMap.bit j || decide (j ∈ new))
  first : ∀ b ∈ new, ∀ j < b, k.freeMap.bit j = true
  zero : ∀ b ∈ new, k.buffers.content b = Block.zero
  content : ∀ b, b ∉ new → b ∉ mapBlocks N → k.buffers.content b = k₀.buffers.content b
  rest : ∀ nd₀, N 0 = some nd₀ → ∀ j, (k₀.freeMapFile ≠ 0 → k₀.freeMap.fileSize ≤ j) →
    j < 512 * nd₀.blocks.length → byteAt k.buffers nd₀ j = byteAt k₀.buffers nd₀ j
  sync : k₀.freeMapFile ≠ 0 → (new = [] → MapSync k₀ N) → MapSync k N
  sorted : new.Pairwise (· < ·)

/-- The free map's file stays open. -/
theorem MapOpen.steady (h : MapOpen k N) (hs : Steady k k') (hcnt : k'.freeMap.bitCnt = k.freeMap.bitCnt) : MapOpen k' N := by
  obtain ⟨f, i, nd, hf, hi, hsec, hdeny, hN, hle⟩ := h
  obtain ⟨d, hd⟩ := hs.cell hi
  refine ⟨f, _, nd, ?_, hd, hsec, hdeny, hN, ?_⟩
  · rw [hs.files, hs.freeMapFile]
    exact hf
  · rw [Bitmap.fileSize, hcnt]
    exact hle

/-- Storing a sector behind those that the file has keeps the file system well formed. -/
theorem Wf.storeIn {t i b : ℕ} (hw : Wf k N r.addr) (hd : k.dataOf r = some d) (hb : b < 2 ^ 32)
    (hself : ∀ nd', N s = some nd' → nd' = nd) (hinode : ∀ a i, r = .inode a → k.inodes.cell a = some i → i.sector = s)
    (hown : t ≠ 0 → ∀ s' nd', N s' = some nd' → s' ≠ s → nd'.table ≠ t) (hi : nd.blocks.length ≤ i) :
    Wf (k.storeIn r d b (slotOf t i)) N r.addr := by
  by_cases ht : t = 0
  · rw [slotOf, if_pos ht, Fs.storeIn]
    refine hw.setData fun a j nd' hr hj hN => ?_
    subst hr
    have hdata : j.data = d := by
      rw [Fs.dataOf, hj] at hd
      exact Option.some.inj hd
    rw [hinode a j rfl hj] at hN
    have hrepr := hw.repr hj ((hinode a j rfl hj).symm ▸ hN)
    cases hself nd' hN
    rw [hdata] at hrepr
    refine ⟨⟨hrepr.fits.length, hrepr.fits.magic, fun l => ?_, hrepr.fits.indirect, hrepr.fits.doubly⟩, hrepr.length,
      hrepr.isdir, hrepr.card, hrepr.short, fun hs l c hc => ?_, hrepr.indirect⟩
    · simp only
      split_ifs
      · exact hb
      · exact hrepr.fits.start l
    · have hlt : l.1 < nd.blocks.length := (List.getElem?_eq_some_iff.1 hc).1
      simp only
      rw [if_neg (by omega)]
      exact hrepr.direct hs l c hc
  · rw [slotOf, if_neg ht, Fs.storeIn]
    refine hw.of_tables fun s' nd' T hN _ hT => ?_
    by_cases hs' : nd'.table = t
    · have : s' = s := by
        by_contra hne
        exact hown ht s' nd' hN hne hs'
      subst this
      cases hself nd' hN
      rw [hs'] at hT ⊢
      refine ⟨_, by rw [Heap.cell_set_self, hT]; rfl, fun l hl => ?_⟩
      simp only
      rw [if_neg (by omega)]
    · exact ⟨T, by rw [Heap.cell_set_of_ne _ _ hs']; exact hT, fun _ _ => rfl⟩

@[simp] theorem Fs.storeIn_buffers (k : Fs) (d : InodeDisk) (b : ℕ) (slot : Slot) :
    (k.storeIn r d b slot).buffers = k.buffers := by
  cases slot <;> simp [Fs.storeIn]

@[simp] theorem Fs.storeIn_freeMap (k : Fs) (d : InodeDisk) (b : ℕ) (slot : Slot) :
    (k.storeIn r d b slot).freeMap = k.freeMap := by
  cases slot <;> simp [Fs.storeIn]

theorem Fs.storeIn_tables_next (k : Fs) (d : InodeDisk) (b : ℕ) (slot : Slot) :
    (k.storeIn r d b slot).tables.next = k.tables.next := by
  cases slot <;> simp [Fs.storeIn]

theorem Steady.storeIn (k : Fs) (r : DataRef) (d : InodeDisk) (b : ℕ) (slot : Slot) : Steady k (k.storeIn r d b slot) := by
  cases slot with
  | direct i => exact .setData _ _ _
  | entry t j => exact ⟨rfl, rfl, rfl, rfl, rfl, fun _ => rfl, rfl⟩

/-- What storing a sector does to the inode it is for. -/
theorem dataOf_storeIn {b : ℕ} (hd : k.dataOf r = some d) (hfits : d.Fits) (hb : b < 2 ^ 32) (slot : Slot) :
    ∃ d', (k.storeIn r d b slot).dataOf r = some d' ∧ d'.Fits ∧ d'.length = d.length ∧ d'.isdir = d.isdir ∧
      d'.indirect = d.indirect := by
  cases slot with
  | direct i =>
    refine ⟨_, Fs.dataOf_setData hd _, ⟨hfits.length, hfits.magic, fun l => ?_, hfits.indirect, hfits.doubly⟩, rfl, rfl, rfl⟩
    simp only
    split_ifs
    · exact hb
    · exact hfits.start l
  | entry t j =>
    refine ⟨d, ?_, hfits, rfl, rfl, rfl⟩
    rw [Fs.storeIn, Fs.dataOf_congr rfl rfl]
    exact hd

/-- Writing to a sector that belongs to no file. -/
theorem Wf.written_free {b ofs n : ℕ} {src : ℕ → UInt8} {B : Buffers} (hw : Wf k N u)
    (hB : Written k.buffers b src ofs n B) (hb : ∀ s nd, N s = some nd → b ∉ s :: nd.blocks) :
    Wf { k with buffers := B } N u := by
  refine hw.of_content hB.wf hB.capacity (fun s nd hN => ?_) fun s nd hN j _ hj => ?_
  · rw [hB.content, if_neg]
    rintro rfl
    exact hb s nd hN List.mem_cons_self
  · unfold byteAt
    rw [hB.content, if_neg]
    intro heq
    exact hb s nd hN (heq ▸ List.mem_cons_of_mem _ (block_mem hj))

variable {t : ℕ} {new : List ℕ}

/-- One round of the loop of `inode_grow`. -/
theorem allocateSlot_spec (hp : Persists persist) (hm : k₀.freeMapFile ≠ 0 → MapOpen k₀ N)
    (hg : Growing k₀ N r s nd t new k) (hslot : k.HasSlot t (nd.blocks.length + new.length)) :
    wp (allocateSlot persist r (slotOf t (nd.blocks.length + new.length)))
      (fun _ k' => ∃ b, Growing k₀ N r s nd t (new ++ [b]) k' ∧
        ∀ c, 0 < k.freeMap.freeBelow c → k'.freeMap.freeBelow c + 1 = k.freeMap.freeBelow c)
      (Unless (MapClear k N ∧ 0 < k.freeMap.freeBelow (k.buffers.disk.capacity - 1))) k := by
  have hm' : k.freeMapFile ≠ 0 → MapOpen k N := fun h =>
    (hm (hg.steady.freeMapFile ▸ h)).steady hg.steady hg.bitCnt
  rw [allocateSlot]
  refine wp_seq (freeMapAllocate_spec hp hg.wf hm') (Unless.mono And.left) ?_
  rintro o k₁ (⟨b, rfl, ha⟩ | ⟨rfl, rfl, hfull⟩)
  swap
  · -- no sector is free
    rw [wp_bind, wp_orStop]
    refine ⟨fun _ h => (by cases h), fun _ => ⟨fun hroom => ?_, by decide⟩⟩
    obtain ⟨j, hj⟩ := Finset.card_pos.1 hroom.2
    rw [Finset.mem_filter, Finset.mem_range] at hj
    have := hfull j (by omega)
    rw [hj.2] at this
    cases this
  obtain ⟨d, hd, hfits, hdlen, hddir, hdind⟩ := hg.data
  obtain ⟨B, hk₁⟩ := ha.frame
  have hbfree : ∀ s nd, N s = some nd → b ∉ s :: nd.blocks := fun s nd hN => hg.wf.laid.notMem_of_clear ha.clear hN
  have hbit := hg.bits b
  rw [ha.clear, eq_comm, Bool.or_eq_false_iff, decide_eq_false_iff_not] at hbit
  have hb32 : b < 2 ^ 32 := by
    have := ha.lt
    have := k.buffers.disk.capacity_le
    omega
  have hd₁ : k₁.dataOf r = some d := by
    rw [hk₁, Fs.dataOf_congr rfl rfl]
    exact hd
  have hslot₁ : k₁.HasSlot t (nd.blocks.length + new.length) := by
    rw [hk₁]
    exact hslot
  rw [wp_bind, wp_orStop]
  refine ⟨fun b' hb' => ?_, fun h => (by cases h)⟩
  cases hb'
  rw [wp_bind]
  refine storeSlot_spec hd₁ hslot₁ ?_
  set k₂ := k₁.storeIn r d b (slotOf t (nd.blocks.length + new.length)) with hk₂
  have hk₂B : k₂.buffers = k₁.buffers := by simp [hk₂]
  have hw₂ : Wf k₂ N r.addr := by
    refine ha.wf.storeIn hd₁ hb32 hg.self (fun a i hr hi => hg.inode a i hr ?_) hg.own (Nat.le_add_right _ _)
    rw [hk₁] at hi
    exact hi
  refine wp_mono (cachedWrite_spec hw₂.cache (by decide)) ?_ (Unless.mono fun hroom => ?_)
  swap
  · have := Bitmap.lt_of_freeBelow ha.first hroom.2
    rw [hk₂B, ha.capacity]
    omega
  rintro - k₃ ⟨B₃, hB₃, rfl⟩
  rw [hk₂B] at hB₃
  have hmap₃ : k₂.freeMap = k.freeMap.setMultiple b 1 true := by rw [hk₂, Fs.storeIn_freeMap, hk₁]
  have hother : ∀ c, c ≠ b → B₃.content c = k₁.buffers.content c := fun c hc => by rw [hB₃.content, if_neg hc]
  have hbyte : ∀ s nd, N s = some nd → ∀ j, j < 512 * nd.blocks.length → byteAt B₃ nd j = byteAt k₁.buffers nd j := by
    intro s nd hN j hj
    unfold byteAt
    rw [hother]
    intro heq
    exact hbfree s nd hN (heq ▸ List.mem_cons_of_mem _ (block_mem hj))
  have hbits : ∀ j, k₂.freeMap.bit j = (k₀.freeMap.bit j || decide (j ∈ new ++ [b])) := by
    intro j
    rw [hmap₃, Bitmap.bit_setMultiple_one, hg.bits]
    by_cases hj : j = b <;> simp [hj]
  refine ⟨b, ⟨?_, ?_, ?_, ?_, ?_, ?_, ?_, ?_, ?_, hg.own, hg.self, ?_, ?_, ?_, ?_, hbits, ?_, ?_, ?_, ?_, ?_, ?_⟩, ?_⟩
  · exact hw₂.written_free (hk₂B ▸ hB₃) hbfree
  · have h₁ : Steady k k₁ := by
      rw [hk₁]
      exact ⟨rfl, rfl, rfl, rfl, rfl, fun _ => rfl, rfl⟩
    have h₃ : Steady k₂ { k₂ with buffers := B₃ } := ⟨rfl, rfl, rfl, rfl, rfl, fun _ => rfl, rfl⟩
    exact hg.steady.trans (h₁.trans ((Steady.storeIn _ _ _ _ _).trans h₃))
  · exact hB₃.capacity.trans (ha.capacity.trans hg.capacity)
  · rw [hmap₃]
    exact hg.bitCnt
  · obtain ⟨d', hd', hfits', hlen', hdir', hind'⟩ := dataOf_storeIn hd₁ hfits hb32 (slotOf t (nd.blocks.length + new.length))
    exact ⟨d', hd', hfits', hlen'.trans hdlen, hdir'.trans hddir, hind'.trans hdind⟩
  · -- the slots: the new one and those filled before
    intro j c hc
    have hval : Fs.slotVal { k₂ with buffers := B₃ } r (slotOf t j) = k₂.slotVal r (slotOf t j) :=
      Fs.slotVal_congr rfl rfl rfl _
    rw [hval, hk₂, slotVal_storeIn hd₁ hslot₁]
    rw [← List.append_assoc] at hc
    split_ifs with hj
    · subst hj
      rw [← List.length_append, List.getElem?_concat_length] at hc
      exact hc
    · have hlt := (List.getElem?_eq_some_iff.1 hc).1
      rw [List.length_append, List.length_append, List.length_singleton] at hlt
      rw [List.getElem?_append_left (by rw [List.length_append]; omega)] at hc
      have hval₁ : k₁.slotVal r (slotOf t j) = k.slotVal r (slotOf t j) := by
        rw [hk₁]
        exact Fs.slotVal_congr rfl rfl rfl _
      rw [hval₁]
      exact hg.slots j c hc
  · -- the table stays
    intro ht
    obtain ⟨T, hT⟩ := hg.table ht
    change ∃ T, k₂.tables.cell t = some T
    rw [hk₂, slotOf, if_neg ht, Fs.storeIn, hk₁]
    exact ⟨_, by rw [Heap.cell_set_self, hT]; rfl⟩
  · intro h0
    change k₂.tables.next = _
    rw [hk₂, Fs.storeIn_tables_next, hk₁]
    exact hg.next h0
  · change k₂.tables.next + _ = _
    rw [hk₂, Fs.storeIn_tables_next, hk₁]
    exact hg.tables
  · intro a i hr hi
    obtain ⟨j, hj, heq⟩ : ∃ j, k₁.inodes.cell a = some j ∧ j.sector = i.sector := by
      have := (Steady.storeIn k₁ r d b (slotOf t (nd.blocks.length + new.length))).inodes a
      rw [← hk₂, show k₂.inodes.cell a = some i from hi] at this
      obtain ⟨j, hj, heq⟩ := Option.map_eq_some_iff.1 this.symm
      exact ⟨j, hj, congrArg Prod.fst heq⟩
    rw [← heq]
    rw [hk₁] at hj
    exact hg.inode a j hr hj
  · exact List.Nodup.append hg.nodup (List.nodup_singleton _) (by simpa using hbit.2)
  · intro c hc
    rcases List.mem_append.1 hc with hc | hc
    · exact hg.fresh c hc
    · rw [List.mem_singleton.1 hc]
      exact ⟨hg.capacity ▸ ha.lt, hbit.1⟩
  · intro c hc
    rcases List.mem_append.1 hc with hc | hc
    · exact hg.free c hc
    · rw [List.mem_singleton.1 hc]
      exact hbfree
  · intro c hc j hj
    change k₂.freeMap.bit j = true
    rw [hmap₃, Bitmap.bit_setMultiple_one]
    split_ifs
    · rfl
    · rcases List.mem_append.1 hc with hc | hc
      · exact hg.first c hc j hj
      · exact ha.first j (List.mem_singleton.1 hc ▸ hj)
  · intro c hc
    change B₃.content c = _
    by_cases hcb : c = b
    · rw [hB₃.content, if_pos hcb, Block.write_all]
      rfl
    · have hcnew : c ∈ new := by simpa [hcb] using hc
      have hfree : c ∉ mapBlocks N := by
        intro hmap
        obtain ⟨nd₀, hN₀, hc₀⟩ := mem_mapBlocks hmap
        exact hg.free c hcnew 0 nd₀ hN₀ (List.mem_cons_of_mem _ hc₀)
      rw [hother c hcb, ha.content c hfree]
      exact hg.zero c hcnew
  · intro c hc hmap
    rw [List.mem_append, List.mem_singleton, not_or] at hc
    change B₃.content c = _
    rw [hother c hc.2, ha.content c hmap]
    exact hg.content c hc.1 hmap
  · intro nd₀ hN₀ j hj hlt
    have hcnt : k.freeMap.fileSize = k₀.freeMap.fileSize := by rw [Bitmap.fileSize, hg.bitCnt, ← Bitmap.fileSize]
    change byteAt B₃ nd₀ j = _
    rw [hbyte 0 nd₀ hN₀ j hlt, ha.rest nd₀ hN₀ j (by rwa [hg.steady.freeMapFile, hcnt]) hlt]
    exact hg.rest nd₀ hN₀ j hj hlt
  · intro h0 _ nd₀ hN₀ j hj
    change j < k₂.freeMap.fileSize at hj
    change byteAt B₃ nd₀ j = k₂.freeMap.bytes j
    have hmap₁ : k₂.freeMap = k₁.freeMap := by rw [hmap₃, hk₁]
    rw [hmap₁] at hj ⊢
    have hlt : j < 512 * nd₀.blocks.length := by
      have hle := (hg.wf.laid.disk 0 nd₀ hN₀).length_le
      have hsize := (hm' (hg.steady.freeMapFile ▸ h0)).fileSize_le hN₀
      rw [hk₁] at hj
      exact (hj.trans_le hsize).trans_le hle
    rw [hbyte 0 nd₀ hN₀ j hlt]
    exact ha.sync (hg.steady.freeMapFile ▸ h0) nd₀ hN₀ j hj
  · -- all sectors up to those taken before are marked
    refine List.pairwise_append.2 ⟨hg.sorted, List.pairwise_singleton _ _, fun c hc c' hc' => ?_⟩
    rw [List.mem_singleton.1 hc']
    by_contra hle
    have hne : b ≠ c := fun heq => hbit.2 (heq ▸ hc)
    have := hg.first c hc b (by omega)
    rw [ha.clear] at this
    cases this
  · intro c hc
    change k₂.freeMap.freeBelow c + 1 = _
    rw [hmap₃]
    exact Bitmap.freeBelow_set ha.clear (Bitmap.lt_of_freeBelow ha.first hc)

/-- The loop of `inode_grow`. -/
theorem growLoop_spec {n : ℕ} (hp : Persists persist) (hm : k₀.freeMapFile ≠ 0 → MapOpen k₀ N)
    (hg : Growing k₀ N r s nd t new k) (hdirect : t = 0 → nd.blocks.length + new.length + n ≤ directPointers)
    (htable : t ≠ 0 → nd.blocks.length + new.length + n ≤ 512) :
    wp (growLoop persist r (fun i => pure (slotOf t i)) (nd.blocks.length + new.length) n)
      (fun _ k' => ∃ new', new'.length = new.length + n ∧ Growing k₀ N r s nd t new' k')
      (Unless (0 < n → MapClear k N ∧ n ≤ k.freeMap.freeBelow (k.buffers.disk.capacity - 1))) k := by
  induction n generalizing k new with
  | zero => exact ⟨new, rfl, hg⟩
  | succ n ih =>
    have hslot : k.HasSlot t (nd.blocks.length + new.length) :=
      ⟨fun h => (by have := hdirect h; omega), fun h => ⟨(by have := htable h; omega), hg.table h⟩⟩
    rw [growLoop, wp_bind, wp_pure]
    refine wp_seq (allocateSlot_spec hp hm hg hslot) (Unless.mono fun h => ?_) ?_
    · obtain ⟨hclear, hn⟩ := h (Nat.succ_pos n)
      exact ⟨hclear, by omega⟩
    rintro - k' ⟨b, hg', hfree⟩
    have hlen : (new ++ [b]).length = new.length + 1 := by simp
    have := ih hg' (fun h => by have := hdirect h; omega) (fun h => by have := htable h; omega)
    rw [hlen, ← Nat.add_assoc] at this
    refine wp_mono this ?_ (Unless.mono ?_)
    · rintro - k'' ⟨new', hnew', hg''⟩
      exact ⟨new', by omega, hg''⟩
    · intro h _
      obtain ⟨hclear, hn⟩ := h (Nat.succ_pos n)
      have hcap : k'.buffers.disk.capacity = k.buffers.disk.capacity := hg'.capacity.trans hg.capacity.symm
      refine ⟨fun c hc => hcap ▸ hclear c hc, ?_⟩
      rw [hcap]
      have := hfree (k.buffers.disk.capacity - 1) (by omega)
      omega

/-! ### Before the loop -/

/-- **What `inode_grow` is given**: the inode in sector `s`, in memory or to be created, and its node. -/
structure Target (k : Fs) (N : Nodes) (r : DataRef) (s : ℕ) (nd : Node) (d : InodeDisk) : Prop where
  data : k.dataOf r = some d
  kept : Kept k.tables d nd
  room : Laid.Room k.buffers k.freeMap N s nd
  tail : ∀ j, nd.length ≤ j → j < 512 * nd.blocks.length → byteAt k.buffers nd j = 0
  self : ∀ nd', N s = some nd' → nd' = nd
  inode : ∀ a, r = .inode a → ∃ i, k.inodes.cell a = some i ∧ i.sector = s ∧ N s = some nd
  temp : r = .temp → N s = none

theorem Wf.exempt (hw : Wf k N 0) (u : ℕ) : Wf k N u := by
  have ho := hw.opened
  exact ⟨hw.cache, hw.laid, ho.listed, ho.live, ho.nodup, ho.unique, ho.node,
    fun a i hi _ => ho.sync a i hi (k.inodes.ne_null hi)⟩

/-- An inode in memory is a target. -/
theorem Wf.target {a : ℕ} {i : Inode} (hw : Wf k N 0) (hi : k.inodes.cell a = some i) (hN : N i.sector = some nd) :
    Target k N (.inode a) i.sector nd i.data := by
  refine ⟨by simp [Fs.dataOf, hi], ?_, hw.laid.room hN, hw.laid.tail i.sector nd hN, fun nd' hN' => ?_, fun a' ha => ?_,
    fun h => (by cases h)⟩
  · rw [hw.opened.sync a i hi (k.inodes.ne_null hi)]
    exact hw.laid.disk i.sector nd hN
  · rw [hN] at hN'
    exact (Option.some.inj hN').symm
  · cases ha
    exact ⟨i, hi, rfl, hN⟩

theorem Growing.start {k₁ : Fs} {d₁ : InodeDisk} (ht : Target k N r s nd d) (hw : Wf k₁ N r.addr) (hs : Steady k k₁)
    (hB : k₁.buffers = k.buffers) (hM : k₁.freeMap = k.freeMap) (hd₁ : k₁.dataOf r = some d₁) (hfits : d₁.Fits)
    (hlen : d₁.length = d.length) (hdir : d₁.isdir = d.isdir) (hind : d₁.indirect = t)
    (hslots : ∀ i b, nd.blocks[i]? = some b → k₁.slotVal r (slotOf t i) = some b)
    (htable : t ≠ 0 → ∃ T, k₁.tables.cell t = some T) (hnext : t = 0 → k₁.tables.next = k.tables.next)
    (htables : k₁.tables.next + nd.tableCount = k.tables.next + if t = 0 then 0 else 1)
    (hown : t ≠ 0 → ∀ s' nd', N s' = some nd' → s' ≠ s → nd'.table ≠ t) : Growing k N r s nd t [] k₁ := by
  refine ⟨hw, hs, by rw [hB], by rw [hM], ⟨d₁, hd₁, hfits, hlen.trans ht.kept.length, hdir.trans ht.kept.isdir, hind⟩,
    by simpa using hslots, htable, hnext, htables, hown, ht.self, fun a i hr hi => ?_, List.nodup_nil, by simp, by simp,
    fun j => by simp [hM], by simp, by simp, fun b _ _ => by rw [hB], fun _ _ j _ _ => by rw [hB], fun _ h => ?_,
    .nil⟩
  · obtain ⟨j, hj, hsec, -⟩ := ht.inode a hr
    obtain ⟨d', hd'⟩ := hs.cell hj
    rw [hi] at hd'
    cases hd'
    exact hsec
  · have := h rfl
    unfold MapSync at this ⊢
    rw [hB, hM]
    exact this

/-- The loop of the branch for at most 122 sectors starts. -/
theorem Target.growing_direct (ht : Target k N r s nd d) (hw : Wf k N 0) (hs : nd.blocks.length ≤ directPointers) :
    Growing k N r s nd 0 [] k := by
  refine .start ht (hw.exempt _) (.refl k) rfl rfl ht.data ht.kept.fits rfl rfl ?_ (fun i b hb => ?_)
    (fun h => absurd rfl h) (fun _ => rfl) ?_ fun h => absurd rfl h
  · rw [ht.kept.table, ht.kept.small hs]
  · have hlt : i < directPointers := (List.getElem?_eq_some_iff.1 hb).1.trans_le hs
    simp only [slotOf, if_pos, Fs.slotVal, ht.data, Option.bind_some, dif_pos hlt]
    rw [ht.kept.direct hs ⟨i, hlt⟩ b hb]
  · rw [Node.tableCount, ht.kept.small hs]

/-- The table of a file is one of those allocated. -/
theorem Laid.table_lt {B : Buffers} {T : Heap Table} {M : Bitmap} (h : Laid B T M N) (hN : N s = some nd) :
    nd.table < T.next := by
  by_cases hs : nd.blocks.length ≤ 122
  · rw [(h.disk s nd hN).small hs]
    exact T.pos
  · obtain ⟨-, t, ht, -⟩ := (h.disk s nd hN).indirect (Nat.lt_of_not_le hs)
    exact T.lt_next ht

/-- The table is there, or it is allocated, and the loop of the branch for at most 512 sectors starts. -/
theorem indirectTable_spec (ht : Target k N r s nd d) (hw : Wf k N 0) :
    wp (indirectTable r nd.blocks.length)
      (fun t k' => t ≠ 0 ∧ Growing k N r s nd t [] k') (Unless (nd.table = 0 → k.tables.next < 2 ^ 32)) k := by
  rw [indirectTable, wp_bind]
  refine wp_readData ht.data ?_
  rw [wp_ite]
  refine ⟨fun h0 => ?_, fun h0 => ?_⟩
  · -- the file has no table yet, so its sectors are in `start`
    have hs : nd.blocks.length ≤ directPointers := by
      by_contra hlong
      obtain ⟨htab, T, hT, -⟩ := ht.kept.indirect (Nat.lt_of_not_le hlong)
      rw [← htab, h0, k.tables.null] at hT
      cases hT
    rw [if_pos hs, wp_bind, newTable, wp_bind, wp_gets, wp_ite]
    refine ⟨fun hmem => ?_, fun hmem => ⟨fun h => hmem (h (ht.kept.small hs)), by decide⟩⟩
    rw [wp_bind, wp_modify, wp_pure, wp_bind]
    set T : Table := fun j =>
      if h : j.1 < directPointers then (if j.1 < nd.blocks.length then d.start ⟨j.1, h⟩ else 0) else 0 with hT
    set k₁ : Fs := { k with tables := k.tables.alloc T } with hk₁
    have hd₁ : k₁.dataOf r = some d := by
      rw [hk₁, Fs.dataOf_congr rfl rfl]
      exact ht.data
    refine wp_updateData hd₁ ?_
    rw [wp_pure]
    have hne : k.tables.next ≠ 0 := k.tables.pos.ne'
    have hkeep : KeepsTables N k.tables (k.tables.alloc T) := fun s' nd' T' _ _ hT' =>
      ⟨T', Heap.cell_alloc _ _ hT', fun _ _ => rfl⟩
    have hw₁ : Wf k₁ N r.addr := (hw.exempt _).of_tables hkeep
    have hfits : InodeDisk.Fits { d with indirect := k.tables.next } :=
      ⟨ht.kept.fits.length, ht.kept.fits.magic, ht.kept.fits.start, hmem, ht.kept.fits.doubly⟩
    have hcell : (k₁.setData { d with indirect := k.tables.next } r).tables.cell k.tables.next = some T := by
      rw [Fs.setData_tables]
      exact Heap.cell_alloc_self _ _
    refine ⟨hne, .start ht ?_ ?_ (by simp [hk₁]) (by simp [hk₁]) (Fs.dataOf_setData hd₁ _) hfits rfl rfl rfl
      ?_ ?_ ?_ ?_ ?_⟩
    · refine hw₁.setData fun a i nd' hr hi hN => ?_
      obtain ⟨j, hj, hsec, hN'⟩ := ht.inode a hr
      rw [show k.inodes.cell a = some i from hi] at hj
      cases hj
      rw [hsec] at hN
      cases ht.self nd' hN
      exact ⟨hfits, ht.kept.length, ht.kept.isdir, ht.kept.card, ht.kept.short, ht.kept.direct,
        fun hlong => absurd hs (Nat.not_le_of_lt hlong)⟩
    · have h₁ : Steady k k₁ := ⟨rfl, rfl, rfl, rfl, rfl, fun _ => rfl, rfl⟩
      exact h₁.trans (.setData _ _ _)
    · intro i b hb
      have hlt := (List.getElem?_eq_some_iff.1 hb).1
      have hi : i < directPointers := hlt.trans_le hs
      rw [slotOf, if_neg hne, Fs.slotVal, hcell, Option.bind_some, dif_pos (by unfold directPointers at hi; omega)]
      simp only [hT, dif_pos hi, if_pos hlt]
      rw [ht.kept.direct hs ⟨i, hi⟩ b hb]
    · exact fun _ => ⟨T, hcell⟩
    · exact fun h => absurd h hne
    · rw [Fs.setData_tables, Node.tableCount, ht.kept.small hs, if_neg hne]
      rfl
    · exact fun _ s' nd' hN _ => (hw.laid.table_lt hN).ne
  · have hlong : 122 < nd.blocks.length := by
      by_contra hs
      exact h0 (ht.kept.table.trans (ht.kept.small (Nat.le_of_not_lt hs)))
    obtain ⟨htab, T, hT, hblocks⟩ := ht.kept.indirect hlong
    rw [wp_pure, htab]
    have hne : nd.table ≠ 0 := htab ▸ h0
    refine ⟨hne, .start ht (hw.exempt _) (.refl k) rfl rfl ht.data ht.kept.fits rfl rfl htab ?_ (fun _ => ⟨T, hT⟩)
      (fun _ => rfl) rfl ?_⟩
    · intro i b hb
      have hlt : i < 512 := (List.getElem?_eq_some_iff.1 hb).1.trans_le ht.kept.short
      rw [slotOf, if_neg hne, Fs.slotVal, hT, Option.bind_some, dif_pos hlt, hblocks ⟨i, hlt⟩ b hb]
    · exact fun h s' nd' hN hs heq => ht.room.tables s' nd' hN hs h heq.symm

/-! ### After the loop -/

/-- **What growing does**: the node `nd` in sector `s` has become `nd'`, with the sectors `new` after
those it had. -/
structure Grown (k : Fs) (N : Nodes) (r : DataRef) (s : ℕ) (nd : Node) (new : List ℕ) (nd' : Node) (k' : Fs) : Prop where
  wf : Wf k' (Function.update N s (some nd')) 0
  steady : Steady k k'
  capacity : k'.buffers.disk.capacity = k.buffers.disk.capacity
  bitCnt : k'.freeMap.bitCnt = k.freeMap.bitCnt
  isdir : nd'.isdir = nd.isdir
  blocks : nd'.blocks = nd.blocks ++ new
  next : nd'.table = 0 → k'.tables.next = k.tables.next
  tables : k'.tables.next + nd.tableCount = k.tables.next + nd'.tableCount
  data : k'.dataOf r = some (InodeDisk.decode (k'.buffers.content s))
  nodup : new.Nodup
  fresh : ∀ b ∈ new, b < k.buffers.disk.capacity ∧ k.freeMap.bit b = false
  free : ∀ b ∈ new, ∀ s nd, N s = some nd → b ∉ s :: nd.blocks
  bits : ∀ j, k'.freeMap.bit j = (k.freeMap.bit j || decide (j ∈ new))
  first : ∀ b ∈ new, ∀ j < b, k'.freeMap.bit j = true
  zero : ∀ b ∈ new, b ≠ s ∧ k'.buffers.content b = Block.zero
  content : ∀ b, b ∉ new → b ≠ s → b ∉ mapBlocks N → k'.buffers.content b = k.buffers.content b
  rest : ∀ nd₀, N 0 = some nd₀ → ∀ j, (k.freeMapFile ≠ 0 → k.freeMap.fileSize ≤ j) →
    j < 512 * nd₀.blocks.length → byteAt k'.buffers nd₀ j = byteAt k.buffers nd₀ j
  sync : k.freeMapFile ≠ 0 → MapSync k N → MapSync k' (Function.update N s (some nd'))
  sorted : new.Pairwise (· < ·)

variable {nd' : Node} {d' : InodeDisk} {B : Buffers}

/-- The blocks of a node that may be added to the family. -/
theorem Growing.room (hg : Growing k₀ N r s nd t new k) (hw : Wf k₀ N 0) (ht : Target k₀ N r s nd d) (hblocks : nd'.blocks = nd.blocks ++ new)
    (htable : nd'.table = t) : Laid.Room k.buffers k.freeMap N s nd' := by
  have hmono : ∀ j, k₀.freeMap.bit j = true → k.freeMap.bit j = true := fun j hj => by rw [hg.bits, hj]; rfl
  have hclear : ∀ b ∈ new, b ∉ s :: nd.blocks := by
    intro b hb hmem
    have := (ht.room.marked b hmem).2
    rw [(hg.fresh b hb).2] at this
    cases this
  refine ⟨fun b hb => ?_, fun b hb => ?_, ?_, fun s' nd₁ hN hs b hb => ?_, fun s' nd₁ hN hs h0 => ?_⟩
  · rw [hg.capacity]
    rw [hblocks, ← List.cons_append, List.mem_append] at hb
    rcases hb with hb | hb
    · exact ⟨(ht.room.marked b hb).1, hmono b (ht.room.marked b hb).2⟩
    · refine ⟨(hg.fresh b hb).1, ?_⟩
      rw [hg.bits]
      simp [hb]
  · rw [hblocks, List.mem_append] at hb
    rcases hb with hb | hb
    · exact ht.room.two_le b hb
    · -- a sector that was free is neither of the two that are reserved
      by_contra hlt
      have hfree := (hg.fresh b hb).2
      obtain rfl | rfl : b = 0 ∨ b = 1 := by omega
      · rw [hw.laid.low.1] at hfree
        cases hfree
      · rw [hw.laid.low.2] at hfree
        cases hfree
  · rw [hblocks, ← List.cons_append]
    exact List.Nodup.append ht.room.nodup hg.nodup fun b hb hb' => hclear b hb' hb
  · rw [hblocks, ← List.cons_append, List.mem_append] at hb
    rcases hb with hb | hb
    · exact ht.room.disjoint s' nd₁ hN hs b hb
    · exact hg.free b hb s' nd₁ hN
  · rw [htable] at h0 ⊢
    exact (hg.own h0 s' nd₁ hN hs).symm

theorem getD_append_cases (l l' : List ℕ) (i : ℕ) (hi : i < (l ++ l').length) :
    i < l.length ∧ (l ++ l').getD i 0 = l.getD i 0 ∨ l.length ≤ i ∧ (l ++ l').getD i 0 ∈ l' := by
  by_cases h : i < l.length
  · exact .inl ⟨h, List.getD_append _ _ _ _ h⟩
  · refine .inr ⟨Nat.le_of_not_lt h, ?_⟩
    rw [List.getD_append_right _ _ _ _ (Nat.le_of_not_lt h), List.getD_eq_getElem _ _ (by rw [List.length_append] at hi; omega)]
    exact List.getElem_mem _

/-- The blocks that the file had keep their bytes, as far as the free map's file has nothing to do with
it. -/
theorem Growing.byteAt_old (hg : Growing k₀ N r s nd t new k) (ht : Target k₀ N r s nd d)
    (hB : ∀ b, b ≠ s → B.content b = k.buffers.content b) {j : ℕ} (hj : j < 512 * nd.blocks.length)
    (h0 : s = 0 → k₀.freeMapFile ≠ 0 → k₀.freeMap.fileSize ≤ j) : byteAt B nd j = byteAt k₀.buffers nd j := by
  have hmem := block_mem hj
  have hne : nd.blocks.getD (j / 512) 0 ≠ s := fun heq => (List.nodup_cons.1 ht.room.nodup).1 (heq ▸ hmem)
  have hstep : byteAt B nd j = byteAt k.buffers nd j := by
    unfold byteAt
    rw [hB _ hne]
  rw [hstep]
  by_cases hmap : nd.blocks.getD (j / 512) 0 ∈ mapBlocks N
  · obtain ⟨nd₀, hN₀, hb₀⟩ := mem_mapBlocks hmap
    have hs : s = 0 := by
      by_contra hs
      exact ht.room.disjoint 0 nd₀ hN₀ (Ne.symm hs) _ (List.mem_cons_of_mem _ hmem) (List.mem_cons_of_mem _ hb₀)
    subst hs
    cases ht.self nd₀ hN₀
    exact hg.rest nd hN₀ j (h0 rfl) hj
  · unfold byteAt
    refine congrFun (hg.content _ (fun hnew => ?_) hmap) _
    have := (ht.room.marked _ (List.mem_cons_of_mem _ hmem)).2
    rw [(hg.fresh _ hnew).2] at this
    cases this

/-- **The inode is written back**, and the file system is well formed with the longer file in it. -/
theorem Growing.commit {k₁ : Fs} (hg : Growing k₀ N r s nd t new k) (hw : Wf k₀ N 0) (ht : Target k₀ N r s nd d)
    (hm : k₀.freeMapFile ≠ 0 → MapOpen k₀ N) (hk₁ : k₁ = k.setData d' r) (hkept : Kept k.tables d' nd')
    (hblocks : nd'.blocks = nd.blocks ++ new) (htable : nd'.table = t) (hdir : nd'.isdir = nd.isdir)
    (hlen : nd.length ≤ nd'.length) (hB : Written k.buffers s d'.bytes 0 sectorSize B) :
    Grown k₀ N r s nd new nd' { k₁ with buffers := B } := by
  have hself : InodeDisk.decode (B.content s) = d' := by
    rw [hB.content, if_pos rfl, Block.write_all]
    exact InodeDisk.decode_encode hkept.fits
  have hother : ∀ b, b ≠ s → B.content b = k.buffers.content b := fun b hb => by rw [hB.content, if_neg hb]
  have hroom := hg.room hw ht hblocks htable
  have hnews : ∀ b ∈ new, b ≠ s := by
    rintro b hb rfl
    refine (List.nodup_cons.1 hroom.nodup).1 ?_
    rw [hblocks]
    exact List.mem_append_right _ hb
  -- the bytes past the old end are zero: those of the old blocks were, and the new blocks are
  have htail : ∀ j, nd'.length ≤ j → j < 512 * nd'.blocks.length → byteAt B nd' j = 0 := by
    intro j hj hlt
    rw [hblocks] at hlt
    rcases getD_append_cases nd.blocks new (j / 512) (by omega) with ⟨hlt', heq⟩ | ⟨-, hmem⟩
    · have hold : byteAt B nd' j = byteAt B nd j := by
        unfold byteAt
        rw [hblocks, heq]
      have h0 : s = 0 → k₀.freeMapFile ≠ 0 → k₀.freeMap.fileSize ≤ j := by
        rintro rfl hfile
        obtain ⟨nd₀, hN₀⟩ : ∃ nd₀, N 0 = some nd₀ := by
          obtain ⟨-, -, nd₀, -, -, -, -, hN₀, -⟩ := hm hfile
          exact ⟨nd₀, hN₀⟩
        cases ht.self nd₀ hN₀
        have := (hm hfile).fileSize_le hN₀
        omega
      rw [hold, hg.byteAt_old ht hother (by omega) h0]
      exact ht.tail j (by omega) (by omega)
    · unfold byteAt
      rw [hblocks, hother _ (hnews _ hmem), hg.zero _ hmem]
      rfl
  have hlaid : Laid B k.tables k.freeMap (Function.update N s (some nd')) :=
    hg.wf.laid.put hB.capacity hother (by rw [hself]; exact hkept) hroom htail
  obtain ⟨d₁, hd₁, -⟩ := hg.data
  have hT₁ : k₁.tables = k.tables := by rw [hk₁, Fs.setData_tables]
  have hM₁ : k₁.freeMap = k.freeMap := by rw [hk₁, Fs.setData_freeMap]
  have hst : Steady k k₁ := hk₁ ▸ .setData k d' r
  have hne : ∀ nd₀ b, N 0 = some nd₀ → b ∈ nd₀.blocks → b ≠ s := by
    rintro nd₀ b hN₀ hb rfl
    by_cases hs : b = 0
    · cases ht.self nd₀ (hs.symm ▸ hN₀)
      exact (List.nodup_cons.1 ht.room.nodup).1 hb
    · exact ht.room.disjoint 0 nd₀ hN₀ (Ne.symm hs) b List.mem_cons_self (List.mem_cons_of_mem _ hb)
  have hmapByte : ∀ nd₀ j, N 0 = some nd₀ → j < 512 * nd₀.blocks.length → byteAt B nd₀ j = byteAt k.buffers nd₀ j := by
    intro nd₀ j hN₀ hlt
    unfold byteAt
    rw [hother _ (hne nd₀ _ hN₀ (block_mem hlt))]
  refine ⟨⟨hB.wf, by rw [hT₁, hM₁]; exact hlaid, ?_⟩, hg.steady.trans (hst.trans ⟨rfl, rfl, rfl, rfl, rfl, fun _ => rfl, rfl⟩),
    hB.capacity.trans hg.capacity, by rw [hM₁]; exact hg.bitCnt, hdir, hblocks,
    fun h => (congrArg Heap.next hT₁).trans (hg.next (htable ▸ h)), ?_, ?_, hg.nodup, hg.fresh, hg.free,
    by rw [hM₁]; exact hg.bits, by rw [hM₁]; exact hg.first,
    fun b hb => ⟨hnews b hb, (hother b (hnews b hb)).trans (hg.zero b hb)⟩,
    fun b hb hs hmap => (hother b hs).trans (hg.content b hb hmap), fun nd₀ hN₀ j hj hlt => ?_, fun h0 hsync => ?_, hg.sorted⟩
  · -- the inodes in memory: the one that was grown, and those of other sectors
    have ho := hg.wf.opened
    have hcases : ∀ a i', k₁.inodes.cell a = some i' → ∃ i, k.inodes.cell a = some i ∧ i'.sector = i.sector ∧
        (i.sector = s ∧ i'.data = d' ∨ i.sector ≠ s ∧ i' = i ∧ i.data = InodeDisk.decode (k.buffers.content i.sector)) := by
      intro a i' hi'
      obtain ⟨i, hi, hsec, ⟨hr, hdata⟩ | ⟨hr, rfl⟩⟩ := Fs.cell_setData_cases (hk₁ ▸ hi')
      · exact ⟨i, hi, hsec, .inl ⟨hg.inode a i hr hi, hdata⟩⟩
      · refine ⟨i', hi, rfl, .inr ⟨fun hs => ?_, rfl, ho.sync a i' hi fun hu => ?_⟩⟩
        · cases hcase : r with
          | temp =>
            obtain ⟨nd₁, hN₁, -⟩ := ho.node a i' hi
            rw [hs, ht.temp hcase] at hN₁
            cases hN₁
          | inode a' =>
            obtain ⟨j, hj, hjs, -⟩ := ht.inode a' hcase
            obtain ⟨dj, hdj⟩ := hg.steady.cell hj
            exact hr (hcase.trans (by rw [ho.unique a' _ a i' hdj hi (hjs.trans hs.symm)]))
        · cases r with
          | temp => exact k.inodes.ne_null hi hu
          | inode a' => exact hr (by rw [hu]; rfl)
    refine ⟨fun a i' hi' => ?_, fun a ha => ?_, ?_, fun a₁ i₁ a₂ i₂ h₁ h₂ heq => ?_, fun a i' hi' => ?_, fun a i' hi' _ => ?_⟩
    · obtain ⟨i, hi, -⟩ := hcases a i' hi'
      change a ∈ k₁.openInodes
      rw [hst.openInodes]
      exact ho.listed a i hi
    · change a ∈ k₁.openInodes at ha
      rw [hst.openInodes] at ha
      obtain ⟨i, hi⟩ := ho.live a ha
      obtain ⟨di, hdi⟩ := hst.cell hi
      exact ⟨_, hdi⟩
    · change k₁.openInodes.Nodup
      rw [hst.openInodes]
      exact ho.nodup
    · obtain ⟨j₁, hj₁, hs₁, -⟩ := hcases a₁ i₁ h₁
      obtain ⟨j₂, hj₂, hs₂, -⟩ := hcases a₂ i₂ h₂
      exact ho.unique a₁ j₁ a₂ j₂ hj₁ hj₂ (hs₁.symm.trans (heq.trans hs₂))
    · obtain ⟨i, hi, hsec, ⟨hs, hdata⟩ | ⟨hs, rfl, -⟩⟩ := hcases a i' hi'
      · refine ⟨nd', by rw [hsec, hs, Function.update_self], ?_⟩
        rw [hdata, hT₁]
        exact hkept.toRepr
      · obtain ⟨nd₁, hN₁, hr₁⟩ := ho.node a i' hi
        refine ⟨nd₁, by rw [Function.update_of_ne hs]; exact hN₁, ?_⟩
        rw [hT₁]
        exact hr₁
    · change i'.data = InodeDisk.decode (B.content i'.sector)
      obtain ⟨i, hi, hsec, ⟨hs, hdata⟩ | ⟨hs, rfl, hsync⟩⟩ := hcases a i' hi'
      · rw [hsec, hs, hself, hdata]
      · rw [hother _ hs]
        exact hsync
  · change k₁.tables.next + _ = _
    rw [hT₁, hg.tables, Node.tableCount, htable]
  · have hd₂ : Fs.dataOf { k₁ with buffers := B } r = (k.setData d' r).dataOf r := by
      rw [hk₁]
      exact Fs.dataOf_congr rfl rfl
    rw [hd₂, hself]
    exact Fs.dataOf_setData hd₁ d'
  · exact (hmapByte nd₀ j hN₀ hlt).trans (hg.rest nd₀ hN₀ j hj hlt)
  · intro nd₁ hN₁ j hj
    change j < k₁.freeMap.fileSize at hj
    change byteAt B nd₁ j = k₁.freeMap.bytes j
    rw [hM₁] at hj ⊢
    obtain ⟨nd₀, hN₀⟩ : ∃ nd₀, N 0 = some nd₀ := by
      obtain ⟨-, -, nd₀, -, -, -, -, hN₀, -⟩ := hm h0
      exact ⟨nd₀, hN₀⟩
    have hlt : j < 512 * nd₀.blocks.length := by
      have hsize := (hm h0).fileSize_le hN₀
      have hle := (hw.laid.disk 0 nd₀ hN₀).length_le
      rw [Bitmap.fileSize, hg.bitCnt, ← Bitmap.fileSize] at hj
      omega
    have hbyte : byteAt B nd₁ j = byteAt B nd₀ j := by
      by_cases hs : s = 0
      · subst hs
        rw [Function.update_self] at hN₁
        cases hN₁
        cases ht.self nd₀ hN₀
        unfold byteAt
        rw [hblocks, List.getD_append _ _ _ _ (by omega)]
      · rw [Function.update_of_ne (Ne.symm hs), hN₀] at hN₁
        cases hN₁
        rfl
    rw [hbyte, hmapByte nd₀ j hN₀ hlt]
    exact hg.sync h0 (fun _ => hsync) nd₀ hN₀ j hj

/-! ### The whole of `inode_grow` -/

/-- **When growing succeeds**: enough sectors are free below the last one, which the cache would read ahead
past, neither the inode nor the free map's file, if it is written, lies in the last one, and there is memory
for a table. -/
structure GrowRoom (k : Fs) (N : Nodes) (s : ℕ) (nd : Node) (L : ℕ) : Prop where
  capacity : k.buffers.disk.capacity ≤ 2 ^ 21
  sector : s + 1 < k.buffers.disk.capacity
  map : nd.blocks.length < sectorsFor L → MapClear k N
  free : sectorsFor L - nd.blocks.length ≤ k.freeMap.freeBelow (k.buffers.disk.capacity - 1)
  table : 122 < sectorsFor L → nd.table = 0 → k.tables.next < 2 ^ 32

/-- The blocks of a file and the free sectors fit on the disk together. -/
theorem Laid.Room.add_freeBelow_le {M : Bitmap} (h : Laid.Room B M N s nd) {c : ℕ} (hc : c ≤ B.disk.capacity) :
    nd.blocks.length + M.freeBelow c ≤ B.disk.capacity := by
  have hcard : nd.blocks.toFinset.card = nd.blocks.length := List.toFinset_card_of_nodup (List.nodup_cons.1 h.nodup).2
  have hdisj : Disjoint nd.blocks.toFinset ((Finset.range c).filter fun i => M.bit i = false) := by
    rw [Finset.disjoint_left]
    intro b hb hfree
    have hbit := (h.marked b (List.mem_cons_of_mem _ (List.mem_toFinset.1 hb))).2
    rw [(Finset.mem_filter.1 hfree).2] at hbit
    cases hbit
  have hsub : nd.blocks.toFinset ∪ ((Finset.range c).filter fun i => M.bit i = false) ⊆ Finset.range B.disk.capacity := by
    intro b hb
    rw [Finset.mem_range]
    rcases Finset.mem_union.1 hb with hb | hb
    · exact (h.marked b (List.mem_cons_of_mem _ (List.mem_toFinset.1 hb))).1
    · have := Finset.mem_range.1 (Finset.mem_filter.1 hb).1
      omega
  have := Finset.card_le_card hsub
  rw [Finset.card_union_of_disjoint hdisj, hcard, Finset.card_range] at this
  exact this

theorem sectorsFor_mono {m n : ℕ} (h : m ≤ n) : sectorsFor m ≤ sectorsFor n := by
  unfold sectorsFor
  omega

/-- The end of `inode_grow`. -/
theorem growEnd_spec {L : ℕ} (hg : Growing k₀ N r s nd t new k) (hw : Wf k₀ N 0) (ht : Target k₀ N r s nd d)
    (hm : k₀.freeMapFile ≠ 0 → MapOpen k₀ N) (hL : nd.length < L) (hmax : L ≤ 512 * 512)
    (hcard : nd.blocks.length + new.length = sectorsFor L) (htable : t = 0 ↔ sectorsFor L ≤ directPointers) :
    wp (do
        updateData (fun d => { d with length := (L : ℤ) }) r
        let d ← readData r
        cached (bufferCacheWrite s d.bytes 0 sectorSize)
        pure true)
      (fun ok k' => ok = true ∧ ∃ nd', nd'.length = L ∧ Grown k₀ N r s nd new nd' k')
      (Unless (s + 1 < k₀.buffers.disk.capacity)) k := by
  obtain ⟨d₁, hd₁, hfits, -, hddir, hdind⟩ := hg.data
  rw [wp_bind]
  refine wp_updateData hd₁ ?_
  rw [wp_bind]
  refine wp_readData (Fs.dataOf_setData hd₁ _) ?_
  set d' : InodeDisk := { d₁ with length := L } with hd'
  have hkept : Kept k.tables d' ⟨L, nd.isdir, nd.blocks ++ new, t⟩ := by
    have hlen : (nd.blocks ++ new).length = sectorsFor L := by rw [List.length_append, hcard]
    refine ⟨⟨⟨⟨by simp only [hd']; omega, by simp only [hd']; omega⟩, hfits.magic, hfits.start, hfits.indirect, hfits.doubly⟩,
      rfl, hddir, hlen, ?_, fun hs i b hb => ?_, fun hl => ?_⟩, hdind, fun hs => htable.2 (hlen ▸ hs)⟩
    · rw [hlen]
      unfold sectorsFor
      omega
    · have hval := hg.slots i.1 b hb
      rw [slotOf, if_pos (htable.2 (hlen ▸ hs)), Fs.slotVal, hd₁, Option.bind_some, dif_pos i.2] at hval
      exact Option.some.inj hval
    · have h0 : t ≠ 0 := fun h => absurd (htable.1 h) (Nat.not_le_of_lt (hlen ▸ hl))
      obtain ⟨T, hT⟩ := hg.table h0
      refine ⟨hdind, T, hT, fun i b hb => ?_⟩
      have hval := hg.slots i.1 b hb
      rw [slotOf, if_neg h0, Fs.slotVal, hT, Option.bind_some, dif_pos i.2] at hval
      exact Option.some.inj hval
  rw [wp_bind]
  refine wp_mono (cachedWrite_spec (by rw [Fs.setData_buffers]; exact hg.wf.cache) (by decide)) ?_ (Unless.mono fun h => ?_)
  · rintro - _ ⟨B, hB, rfl⟩
    rw [Fs.setData_buffers] at hB
    exact ⟨rfl, _, rfl, hg.commit hw ht hm rfl hkept rfl rfl rfl hL.le hB⟩
  · rw [Fs.setData_buffers, hg.capacity]
    exact h

/-- The loop and the end of `inode_grow`, with the sectors in `start` or in a table. -/
theorem growFrom_spec {L : ℕ} (hp : Persists persist) (hg : Growing k₀ N r s nd t [] k) (hw : Wf k₀ N 0)
    (ht : Target k₀ N r s nd d) (hm : k₀.freeMapFile ≠ 0 → MapOpen k₀ N) (hL : nd.length < L) (hmax : L ≤ 512 * 512)
    (htable : t = 0 ↔ sectorsFor L ≤ directPointers) :
    wp (do
        growLoop persist r (fun i => pure (slotOf t i)) nd.blocks.length (sectorsFor L - nd.blocks.length)
        updateData (fun d => { d with length := (L : ℤ) }) r
        let d ← readData r
        cached (bufferCacheWrite s d.bytes 0 sectorSize)
        pure true)
      (fun ok k' => ok = true ∧ ∃ new nd', nd'.length = L ∧ Grown k₀ N r s nd new nd' k')
      (Unless (GrowRoom k₀ N s nd L)) k := by
  have hle : nd.blocks.length ≤ sectorsFor L := ht.kept.card ▸ sectorsFor_mono hL.le
  have hL512 : sectorsFor L ≤ 512 := by
    unfold sectorsFor
    omega
  have hloop := growLoop_spec (n := sectorsFor L - nd.blocks.length) hp hm hg
    (fun h => by have := htable.1 h; simp only [List.length_nil]; omega) (fun _ => by simp only [List.length_nil]; omega)
  refine wp_seq hloop (Unless.mono fun hroom => ?_) ?_
  · have hM : k.freeMap.freeBelow = k₀.freeMap.freeBelow := by
      funext c
      simp [Bitmap.freeBelow, hg.bits]
    rw [hg.capacity, hM]
    exact fun hn => ⟨fun b hb => hg.capacity ▸ hroom.map (by omega) b hb, hroom.free⟩
  · rintro - k' ⟨new, hnew, hg'⟩
    refine wp_mono (growEnd_spec hg' hw ht hm hL hmax ?_ htable) ?_ (Unless.mono fun hroom => hroom.sector)
    · rw [hnew, List.length_nil]
      omega
    · rintro ok k'' ⟨hok, nd', hlen, hgrown⟩
      exact ⟨hok, new, nd', hlen, hgrown⟩

/-- **`inode_grow`** to a length of at most 512 sectors. -/
theorem inodeGrow_spec {L : ℕ} (hp : Persists persist) (hw : Wf k N 0) (hm : k.freeMapFile ≠ 0 → MapOpen k N)
    (ht : Target k N r s nd d) (hL : nd.length < L) (hmax : L ≤ 512 * 512) :
    wp (inodeGrow persist s r L)
      (fun ok k' => ok = true ∧ ∃ new nd', nd'.length = L ∧ Grown k N r s nd new nd' k')
      (Unless (GrowRoom k N s nd L)) k := by
  have hcur : bytesToSectors d.length = nd.blocks.length := ht.kept.bytesToSectors
  have hneed : bytesToSectors (L : ℤ) = sectorsFor L := bytesToSectors_natCast (by omega)
  have hle : nd.blocks.length ≤ sectorsFor L := ht.kept.card ▸ sectorsFor_mono hL.le
  have hL512 : sectorsFor L ≤ 512 := by
    unfold sectorsFor
    omega
  rw [inodeGrow, wp_bind]
  refine wp_readData ht.data ?_
  rw [if_neg (by rw [ht.kept.length]; omega), wp_bind, wp_gets, wp_ite]
  refine ⟨fun hbig => ?_, fun _ => ?_⟩
  · -- what fits on the disk is not longer than the disk
    rw [wp_stop]
    refine ⟨fun hroom => ?_, by decide⟩
    have := ht.room.add_freeBelow_le (c := k.buffers.disk.capacity - 1) (by omega)
    have hfree := hroom.free
    have hcap := hroom.capacity
    rw [ofSigned_of_nonneg (by omega) (by omega), Nat.mod_eq_of_lt (by omega), Int.toNat_natCast] at hbig
    unfold sectorsFor at hfree
    omega
  simp only [hcur, hneed]
  rw [wp_ite]
  refine ⟨fun hs => ?_, fun hl => ?_⟩
  · exact growFrom_spec hp (ht.growing_direct hw (hle.trans hs)) hw ht hm hL hmax ⟨fun _ => hs, fun _ => rfl⟩
  · rw [if_pos (show sectorsFor L ≤ sectorSize from hL512)]
    refine wp_seq (indirectTable_spec ht hw) (Unless.mono fun hroom => hroom.table (Nat.lt_of_not_le hl)) ?_
    rintro t k₁ ⟨h0, hg⟩
    have hslot : (fun i => (pure (Slot.entry t i) : FsM Slot)) = fun i => pure (slotOf t i) := by
      funext i
      rw [slotOf, if_neg h0]
    rw [hslot]
    exact growFrom_spec hp hg hw ht hm hL hmax ⟨fun h => absurd h h0, fun h => absurd h hl⟩

end Pintos
