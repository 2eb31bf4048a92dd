import Pintos.Vm.Ownership

/-!
# Slots of the swap device

A bit of `swap_table` is set by `swap_out` for the entry of a page, and cleared by
`swap_in`. In between the entry has `inswap` and the slot, and the page is not mapped.
Three things break this: a process that ends, or a mapping that is removed, with pages
in swap, which keep their slots; a page in swap that is loaded from its file again, in
kernel mode, or in user mode when `allocate_frame` evicts the very page that faulted; and
a page that is mapped without a page table entry, for lack of memory.
-/

namespace Pintos.Paging

open Library

namespace Vm

variable {s s' t u : Vm} {p q : Pid} {pg pg' : Page} {mem : Memory} {fte : Fte} {e : Spte} {f : ℕ}

/-- Every entry of the frame table is for a page that is mapped, and no two are for the same. -/
structure Resident (s : Vm) : Prop where
  listed : Listed s
  keys : (s.globalFrameList.map fun x => (x.owner, x.uaddr)).Nodup
  present : ∀ fte ∈ s.globalFrameList, (s.pagedir fte.owner fte.uaddr).present = true

/-- A page that is in swap has a slot of its own, and is not mapped. -/
structure Slotted (s : Vm) : Prop where
  resident : Resident s
  /-- A page that is not mapped and was written to is in swap. -/
  clean : ∀ p pg, (s.pagedir p pg).present = false → (s.pagedir p pg).dirty = true →
    ∃ e, s.hash p pg = some e ∧ e.inswap = true
  away : ∀ p pg e, s.hash p pg = some e → e.inswap = true → (s.pagedir p pg).present = false
  slot : ∀ p pg e, s.hash p pg = some e → e.inswap = true →
    ∃ i : ℕ, e.swapindex = i ∧ i < s.swapTable.bitCnt ∧ s.swapTable.bit i = true
  out : ∀ p pg e, s.hash p pg = some e → e.inswap = false → e.swapindex = -1
  distinct : ∀ p pg e q pg' e', s.hash p pg = some e → s.hash q pg' = some e' → e.inswap = true → e'.inswap = true →
    e.swapindex = e'.swapindex → p = q ∧ pg = pg'

/-- A slot that is used belongs to a page. -/
def Accounted (s : Vm) : Prop :=
  ∀ i < s.swapTable.bitCnt, s.swapTable.bit i = true → ∃ p pg e, s.hash p pg = some e ∧ e.inswap = true ∧ e.swapindex = i

theorem resident_init (frames slots : ℕ) (files : ℕ → List UInt8) : Resident (init frames slots files) :=
  ⟨listed_init frames slots files, List.nodup_nil, by simp [init]⟩

theorem slotted_init (frames slots : ℕ) (files : ℕ → List UInt8) : Slotted (init frames slots files) where
  resident := resident_init frames slots files
  clean := by simp [init, Pte.zero]
  away := by simp [init]
  slot := by simp [init]
  out := by simp [init]
  distinct := by simp [init]

/-- An entry of the frame table for the same page is the same. -/
theorem Resident.eq_of_key (h : Resident s) {x y : Fte} (hx : x ∈ s.globalFrameList) (hy : y ∈ s.globalFrameList)
    (ho : x.owner = y.owner) (hu : x.uaddr = y.uaddr) : x = y :=
  List.inj_on_of_nodup_map h.keys hx hy (Prod.ext ho hu)

/-- The page of an entry of the frame table is not in swap. -/
theorem Slotted.notInSwap (h : Slotted s) (hf : fte ∈ s.globalFrameList) (he : s.hash fte.owner fte.uaddr = some e) :
    e.inswap = false := by
  refine Bool.eq_false_iff.2 fun hin => ?_
  exact Bool.false_ne_true ((h.away _ _ e he hin).symm.trans (h.resident.present fte hf))

/-! ### Eviction -/

/-- `swap_out`, field by field. -/
structure Evicted (s : Vm) (fte : Fte) (e : Spte) (slot : ℕ) (s' : Vm) : Prop where
  mem : fte ∈ s.globalFrameList
  entry : s.hash fte.owner fte.uaddr = some e
  lt : slot < s.swapTable.bitCnt
  free : s.swapTable.bit slot = false
  global : ∃ l : List Fte, l.Perm s.globalFrameList ∧ s'.globalFrameList = l.erase fte
  pte : ∀ q pg, (s'.pagedir q pg).frame = (s.pagedir q pg).frame ∧ (s'.pagedir q pg).dirty = (s.pagedir q pg).dirty
  present : ∀ q pg, (s'.pagedir q pg).present = true ↔
    (s.pagedir q pg).present = true ∧ ¬ (q = fte.owner ∧ pg = fte.uaddr)
  same : s'.hash fte.owner fte.uaddr = some { e with swapindex := slot, inswap := true }
  other : ∀ q pg, ¬ (q = fte.owner ∧ pg = fte.uaddr) → s'.hash q pg = s.hash q pg
  table : s'.swapTable = s.swapTable.mark slot
  device : s'.swapDevice = writeToDisk (s.memory fte.frame) slot s.swapDevice
  memory : ∀ g ≠ fte.frame, s'.memory g = s.memory g

theorem evicted_of_swapOut (h : s.swapOut = some s') : ∃ fte e slot, Evicted s fte e slot s' := by
  obtain ⟨fte, u, slot, e, hsel, hslot, he, hfree⟩ := swapOut_cases h
  obtain ⟨hent, _⟩ := spteOf_eq_some.1 he
  obtain ⟨hlt, hbit, _⟩ := Bitmap.scan_one_eq_some hslot
  obtain ⟨_, rfl⟩ := pallocFreePage_cases hfree
  have hhash : u.hash = s.hash := by rw [hsel.rest]
  have htab : u.swapTable = s.swapTable := by rw [hsel.rest]
  have hdev : u.swapDevice = s.swapDevice := by rw [hsel.rest]
  have hmem : u.memory = s.memory := by rw [hsel.rest]
  refine ⟨fte, e, slot, hsel.mem, hhash ▸ hent, htab ▸ hlt, htab ▸ hbit, ⟨u.globalFrameList, hsel.perm, rfl⟩,
    fun q pg => ⟨(hsel.pte q pg).1, (hsel.pte q pg).2.2⟩, hsel.present, setSpte_same _, fun q pg hq => ?_, ?_, ?_, fun g hg => ?_⟩
  · exact (setSpte_of_ne _ hq).trans (by rw [hhash])
  · change u.swapTable.mark slot = _
    rw [htab]
  · change writeToDisk (u.memory fte.frame) slot u.swapDevice = _
    rw [hmem, hdev]
  · change Function.update u.memory fte.frame _ g = _
    rw [Function.update_of_ne hg, hmem]

theorem Resident.swapOut (h : Resident s) (hl : Listed s') (hev : Evicted s fte e f s') : Resident s' := by
  obtain ⟨l, hperm, hg⟩ := hev.global
  have hnd : l.Nodup := hperm.nodup_iff.2 h.listed.nodup
  refine ⟨hl, ?_, fun x hx => ?_⟩
  · rw [hg]
    exact ((hperm.map _).nodup_iff.2 h.keys).sublist (List.erase_sublist.map _)
  · rw [hg, hnd.mem_erase_iff, hperm.mem_iff] at hx
    exact (hev.present _ _).2 ⟨h.present x hx.2, fun hk => hx.1 (h.eq_of_key hx.2 hev.mem hk.1 hk.2)⟩

theorem Listed.swapOut (h : Listed s) (hs : s.swapOut = some s') : Listed s' := by
  obtain ⟨fte, u, slot, e, hsel, _, he, hfree⟩ := swapOut_cases hs
  exact (h.selected hsel).evict (spteOf_eq_some.1 he).1 hfree

theorem bit_mark (b : Bitmap) (i j : ℕ) : (b.mark i).bit j = if j = i then true else b.bit j := Bitmap.bit_setMultiple_one ..

theorem Slotted.evicted (h : Slotted s) (hl : Listed s') (hev : Evicted s fte e f s') : Slotted s' := by
  -- an entry of the new state is the evicted one, or an old one elsewhere
  have look : ∀ q pg x, s'.hash q pg = some x → (q = fte.owner ∧ pg = fte.uaddr) ∧ x = { e with swapindex := f, inswap := true } ∨
      ¬ (q = fte.owner ∧ pg = fte.uaddr) ∧ s.hash q pg = some x := by
    intro q pg x hx
    by_cases hk : q = fte.owner ∧ pg = fte.uaddr
    · obtain ⟨rfl, rfl⟩ := hk
      exact .inl ⟨⟨rfl, rfl⟩, (Option.some.inj (hev.same.symm.trans hx)).symm⟩
    · exact .inr ⟨hk, (hev.other q pg hk).symm.trans hx⟩
  -- the slot was free, so no old entry has it
  have hfresh : ∀ q pg x, s.hash q pg = some x → x.inswap = true → x.swapindex ≠ f := by
    intro q pg x hx hin hxf
    obtain ⟨i, hi, _, hbit⟩ := h.slot q pg x hx hin
    obtain rfl : i = f := by exact_mod_cast hi.symm.trans hxf
    exact Bool.false_ne_true (hev.free.symm.trans hbit)
  have hpres : ∀ q pg, ¬ (q = fte.owner ∧ pg = fte.uaddr) → (s'.pagedir q pg).present = (s.pagedir q pg).present := by
    intro q pg hk
    rw [Bool.eq_iff_iff, hev.present]
    exact and_iff_left hk
  refine ⟨h.resident.swapOut hl hev, fun q pg hp hd => ?_, fun q pg x hx hin => ?_, fun q pg x hx hin => ?_,
    fun q pg x hx hin => ?_, fun q pg x q' pg' x' hx hx' hin hin' hidx => ?_⟩
  · by_cases hk : q = fte.owner ∧ pg = fte.uaddr
    · obtain ⟨rfl, rfl⟩ := hk
      exact ⟨_, hev.same, rfl⟩
    · rw [hpres q pg hk] at hp
      rw [(hev.pte q pg).2] at hd
      rw [hev.other q pg hk]
      exact h.clean q pg hp hd
  · rcases look q pg x hx with ⟨hk, -⟩ | ⟨hk, hx⟩
    · exact Bool.eq_false_iff.2 fun hp => ((hev.present q pg).1 hp).2 hk
    · rw [hpres q pg hk]
      exact h.away q pg x hx hin
  · rw [hev.table]
    rcases look q pg x hx with ⟨-, rfl⟩ | ⟨-, hx⟩
    · exact ⟨f, rfl, hev.lt, by rw [bit_mark, if_pos rfl]⟩
    · obtain ⟨i, hi, hlt, hbit⟩ := h.slot q pg x hx hin
      refine ⟨i, hi, hlt, ?_⟩
      rw [bit_mark, hbit, ite_self]
  · rcases look q pg x hx with ⟨-, rfl⟩ | ⟨-, hx⟩
    · cases hin
    · exact h.out q pg x hx hin
  · rcases look q pg x hx with ⟨hk, rfl⟩ | ⟨-, hx⟩ <;> rcases look q' pg' x' hx' with ⟨hk', rfl⟩ | ⟨-, hx'⟩
    · exact ⟨hk.1.trans hk'.1.symm, hk.2.trans hk'.2.symm⟩
    · exact absurd hidx.symm (hfresh q' pg' x' hx' hin')
    · exact absurd hidx (hfresh q pg x hx hin)
    · exact h.distinct q pg x q' pg' x' hx hx' hin hin' hidx

theorem Slotted.swapOut (h : Slotted s) (hs : s.swapOut = some s') : Slotted s' := by
  obtain ⟨fte, e, slot, hev⟩ := evicted_of_swapOut hs
  exact h.evicted (h.resident.listed.swapOut hs) hev

theorem Accounted.swapOut (h : Accounted s) (hsl : Slotted s) (hs : s.swapOut = some s') : Accounted s' := by
  obtain ⟨fte, e, slot, hev⟩ := evicted_of_swapOut hs
  intro i hi hbit
  rw [hev.table] at hi hbit
  rw [bit_mark] at hbit
  split_ifs at hbit with hslot
  · exact ⟨fte.owner, fte.uaddr, _, hev.same, rfl, by rw [hslot]⟩
  · obtain ⟨q, pg, x, hx, hin, hidx⟩ := h i hi hbit
    have hk : ¬ (q = fte.owner ∧ pg = fte.uaddr) := by
      rintro ⟨rfl, rfl⟩
      exact Bool.false_ne_true ((hsl.notInSwap hev.mem hx).symm.trans hin)
    exact ⟨q, pg, x, (hev.other q pg hk).trans hx, hin, hidx⟩

/-- Contents and the pool do not matter. -/
theorem Slotted.of_eq (h : Slotted s) (hl : Listed t) (hg : t.globalFrameList = s.globalFrameList) (hh : t.hash = s.hash)
    (hp : t.pagedir = s.pagedir) (ht : t.swapTable = s.swapTable) : Slotted t := by
  refine ⟨⟨hl, hg ▸ h.resident.keys, fun x hx => ?_⟩, ?_, ?_, ?_, ?_, ?_⟩
  · rw [hp]
    exact h.resident.present x (hg ▸ hx)
  · rw [hp, hh]
    exact h.clean
  · rw [hp, hh]
    exact h.away
  · rw [ht, hh]
    exact h.slot
  · rw [hh]
    exact h.out
  · rw [hh]
    exact h.distinct

theorem Accounted.of_eq (h : Accounted s) (hh : t.hash = s.hash) (ht : t.swapTable = s.swapTable) : Accounted t := by
  unfold Accounted
  rw [hh, ht]
  exact h

/-- An entry of the page table changes, but for what is mapped; only a page that is mapped becomes dirty. -/
theorem Slotted.setPte {g : Pte → Pte} (h : Slotted s)
    (hg : (g (s.pagedir p pg)).present = (s.pagedir p pg).present)
    (hd : (g (s.pagedir p pg)).dirty = true → (s.pagedir p pg).dirty = true ∨ (s.pagedir p pg).present = true) :
    Slotted (s.setPte p pg g) := by
  have hpres : ∀ q pg', ((s.setPte p pg g).pagedir q pg').present = (s.pagedir q pg').present := by
    intro q pg'
    by_cases hk : q = p ∧ pg' = pg
    · obtain ⟨rfl, rfl⟩ := hk
      rw [setPte_same, hg]
    · rw [setPte_of_ne _ hk]
  refine ⟨⟨h.resident.listed.of_eq rfl rfl rfl rfl rfl, h.resident.keys, fun x hx => ?_⟩, fun q pg' hp hdirty => ?_,
    fun q pg' x hx hin => ?_, h.slot, h.out, h.distinct⟩
  · rw [hpres]
    exact h.resident.present x hx
  · rw [hpres] at hp
    refine h.clean q pg' hp ?_
    by_cases hk : q = p ∧ pg' = pg
    · obtain ⟨rfl, rfl⟩ := hk
      rw [setPte_same] at hdirty
      exact (hd hdirty).resolve_right (by simp [hp])
    · rwa [setPte_of_ne _ hk] at hdirty
  · rw [hpres]
    exact h.away q pg' x hx hin

/-! ### Frames -/

theorem Slotted.getFrame (h : Slotted s) (hs : s.getFrame = some (f, t)) : Slotted t := by
  obtain ⟨u, hu, hget⟩ := getFrame_rule (fun _ _ => Slotted.swapOut) h hs
  obtain ⟨_, _, rfl⟩ := pallocGetPage_cases hget
  exact hu.of_eq (hu.resident.listed.of_eq rfl rfl rfl rfl rfl) rfl rfl rfl rfl

theorem Accounted.getFrame (h : Accounted s) (hsl : Slotted s) (hs : s.getFrame = some (f, t)) : Accounted t := by
  have hI : ∀ s s' : Vm, Slotted s ∧ Accounted s → s.swapOut = some s' → Slotted s' ∧ Accounted s' :=
    fun _ _ hI ho => ⟨hI.1.swapOut ho, hI.2.swapOut hI.1 ho⟩
  obtain ⟨u, hu, hget⟩ := getFrame_rule hI ⟨hsl, h⟩ hs
  obtain ⟨_, _, rfl⟩ := pallocGetPage_cases hget
  exact hu.2.of_eq rfl rfl

/-- A page that is not mapped is not evicted. -/
theorem Slotted.getFrame_away (h : Slotted s) (hp : (s.pagedir p pg).present = false) (hs : s.getFrame = some (f, t)) :
    t.hash p pg = s.hash p pg ∧ (t.pagedir p pg).present = false := by
  have hI : ∀ u u' : Vm, (Slotted u ∧ u.hash p pg = s.hash p pg ∧ (u.pagedir p pg).present = false) → u.swapOut = some u' →
      Slotted u' ∧ u'.hash p pg = s.hash p pg ∧ (u'.pagedir p pg).present = false := by
    rintro u u' ⟨hsl, hh, hpu⟩ ho
    obtain ⟨fte, e, slot, hev⟩ := evicted_of_swapOut ho
    have hk : ¬ (p = fte.owner ∧ pg = fte.uaddr) := by
      rintro ⟨rfl, rfl⟩
      exact Bool.false_ne_true (hpu.symm.trans (hsl.resident.present fte hev.mem))
    refine ⟨hsl.swapOut ho, (hev.other p pg hk).trans hh, Bool.eq_false_iff.2 fun hp' => ?_⟩
    exact Bool.false_ne_true (hpu.symm.trans ((hev.present p pg).1 hp').1)
  obtain ⟨u, ⟨_, hh, hpu⟩, hget⟩ := getFrame_rule hI ⟨h, rfl, hp⟩ hs
  obtain ⟨_, _, rfl⟩ := pallocGetPage_cases hget
  exact ⟨hh, hpu⟩

/-- With a free frame, nothing is evicted. -/
theorem getFrame_of_free (h : s.pallocGetPage ≠ none) (hs : s.getFrame = some (f, t)) : s.pallocGetPage = some (f, t) := by
  unfold Vm.getFrame at hs
  cases hn : s.globalFrameList.length with
  | zero => rwa [hn] at hs
  | succ n =>
    rw [hn, getFrameLoop] at hs
    split at hs
    · next r hr => rw [hr, hs]
    · next hnone => exact absurd hnone h

theorem Resident.install (h : Resident s) (hm : mem.pageTable = true) (he : s.hash p pg = some e)
    (hp : (s.pagedir p pg).present = false) : Resident (s.install mem p pg e f) := by
  have hg : (s.install mem p pg e f).globalFrameList = s.globalFrameList ++ [⟨f, p, e.addr, pg⟩] := rfl
  have hnone : ∀ x ∈ s.globalFrameList, ¬ (x.owner = p ∧ x.uaddr = pg) := by
    rintro x hx ⟨rfl, rfl⟩
    exact Bool.false_ne_true (hp.symm.trans (h.present x hx))
  refine ⟨h.listed.install (fun hm => hnone _ hm ⟨rfl, rfl⟩) he, ?_, fun x hx => ?_⟩
  · rw [hg, List.map_append, List.nodup_append]
    refine ⟨h.keys, List.nodup_singleton _, ?_⟩
    rintro a ha b hb rfl
    obtain ⟨x, hx, rfl⟩ := List.mem_map.1 ha
    exact hnone x hx (Prod.mk.inj (List.mem_singleton.1 hb))
  · rw [hg, List.mem_append, List.mem_singleton] at hx
    rcases hx with hx | rfl
    · rw [install_pagedir_of_ne (hnone x hx)]
      exact h.present x hx
    · rw [install_pagedir_same hm]

theorem Slotted.install (h : Slotted s) (hm : mem.pageTable = true) (he : s.hash p pg = some e) (hin : e.inswap = false)
    (hp : (s.pagedir p pg).present = false) : Slotted (s.install mem p pg e f) := by
  refine ⟨h.resident.install hm he hp, fun q pg' hq hd => ?_, fun q pg' x hx hxin => ?_, ?_, ?_, ?_⟩
  · by_cases hk : q = p ∧ pg' = pg
    · obtain ⟨rfl, rfl⟩ := hk
      rw [install_pagedir_same hm] at hq
      cases hq
    · rw [install_pagedir_of_ne hk] at hq hd
      rw [install_hash]
      exact h.clean q pg' hq hd
  · rw [install_hash] at hx
    have hk : ¬ (q = p ∧ pg' = pg) := by
      rintro ⟨rfl, rfl⟩
      obtain rfl : e = x := Option.some.inj (he.symm.trans hx)
      exact Bool.false_ne_true (hin.symm.trans hxin)
    rw [install_pagedir_of_ne hk]
    exact h.away q pg' x hx hxin
  · rw [install_hash, install_swapTable]
    exact h.slot
  · rw [install_hash]
    exact h.out
  · rw [install_hash]
    exact h.distinct

theorem Slotted.free (h : Slotted s) (hs : s.pallocFreePage f = some s') : Slotted s' := by
  obtain ⟨_, rfl⟩ := pallocFreePage_cases hs
  exact h.of_eq (h.resident.listed.of_eq rfl rfl rfl rfl rfl) rfl rfl rfl rfl

theorem Accounted.free (h : Accounted s) (hs : s.pallocFreePage f = some s') : Accounted s' := by
  obtain ⟨_, rfl⟩ := pallocFreePage_cases hs
  exact h.of_eq rfl rfl

/-- `allocate_frame` is called for a page that is not in swap; for one that is mapped, only while there is a free frame. -/
def Steady (s : Vm) (p : Pid) (pg : Page) : Prop :=
  ((s.pagedir p pg).present = true → s.pallocGetPage ≠ none) ∧
    ((s.pagedir p pg).present = false → ∀ e, s.hash p pg = some e → e.inswap = false)

/-- **`allocate_frame` in a steady state** frees its frame again where the page is mapped or has no entry, and maps it
otherwise. -/
theorem Slotted.allocateFrame_cases (h : Slotted s) (hst : Steady s p pg) {o : Option ℕ}
    (hs : s.allocateFrame mem p pg = some (o, s')) : ∃ f t, s.getFrame = some (f, t) ∧ t.hash p pg = s.hash p pg ∧
      (t.pagedir p pg).present = (s.pagedir p pg).present ∧
      (o = none ∧ t.pallocFreePage f = some s' ∧ (s.hash p pg = none ∨ (s.pagedir p pg).present = true) ∨
        ∃ e, o = some f ∧ s.hash p pg = some e ∧ e.inswap = false ∧ (s.pagedir p pg).present = false ∧
          s' = t.install mem p pg e f) := by
  obtain ⟨f, t, hget, hcases⟩ := Vm.allocateFrame_cases hs
  have hsame : t.hash p pg = s.hash p pg ∧ (t.pagedir p pg).present = (s.pagedir p pg).present := by
    cases hp : (s.pagedir p pg).present with
    | false => exact h.getFrame_away hp hget
    | true =>
      obtain ⟨_, _, rfl⟩ := pallocGetPage_cases (getFrame_of_free (hst.1 hp) hget)
      exact ⟨rfl, hp⟩
  refine ⟨f, t, hget, hsame.1, hsame.2, ?_⟩
  rcases hcases with ⟨ho, hfree, hno⟩ | ⟨e, ho, he, hp, hs'⟩
  · rw [hsame.1, hsame.2] at hno
    exact .inl ⟨ho, hfree, hno⟩
  · rw [hsame.1] at he
    rw [hsame.2] at hp
    exact .inr ⟨e, ho, he, hst.2 hp e he, hp, hs'⟩

theorem Slotted.allocateFrame (h : Slotted s) (hst : Steady s p pg) (hm : mem.pageTable = true) {o : Option ℕ}
    (hs : s.allocateFrame mem p pg = some (o, s')) : Slotted s' := by
  obtain ⟨f, t, hget, hh, hpt, ⟨_, hfree, _⟩ | ⟨e, _, he, hin, hp, rfl⟩⟩ := h.allocateFrame_cases hst hs
  · exact (h.getFrame hget).free hfree
  · exact (h.getFrame hget).install hm (hh.trans he) hin (hpt.trans hp)

theorem Accounted.allocateFrame (h : Accounted s) (hsl : Slotted s) {o : Option ℕ}
    (hs : s.allocateFrame mem p pg = some (o, s')) : Accounted s' := by
  obtain ⟨f, t, hget, ⟨_, hfree, _⟩ | ⟨e, _, _, _, rfl⟩⟩ := Vm.allocateFrame_cases hs
  · exact (h.getFrame hsl hget).free hfree
  · exact (h.getFrame hsl hget).of_eq install_hash install_swapTable

/-- **`swap_in`, step by step**: the page was in swap when a frame was found. -/
theorem Slotted.swapIn_cases (h : Slotted s) (hs : s.swapIn mem p pg = some s') : ∃ f t e i, s.getFrame = some (f, t) ∧
    t.hash p pg = some e ∧ e.inswap = true ∧ (t.pagedir p pg).present = false ∧ e.swapindex = (i : ℕ) ∧
    s' = { (t.install mem p pg e f).setSpte p pg (some { e with swapindex := -1, inswap := false }) with
      memory := Function.update t.memory f (readFromDisk t.swapDevice i)
      swapTable := t.swapTable.flip i } := by
  obtain ⟨f, t, e, hget, he, hp, hlo, _, rfl⟩ := Vm.swapIn_cases hs
  have hin : e.inswap = true := by
    refine Bool.eq_true_of_not_eq_false fun hin => ?_
    rw [(h.getFrame hget).out p pg e he hin] at hlo
    exact absurd hlo (by decide)
  refine ⟨f, t, e, e.swapindex.toNat, hget, he, hin, hp, (Int.toNat_of_nonneg hlo).symm, rfl⟩

theorem Slotted.swapIn (h : Slotted s) (hm : mem.pageTable = true) (hs : s.swapIn mem p pg = some s') : Slotted s' := by
  obtain ⟨f, t, e, i, hget, he, hin, hp, hidx, rfl⟩ := h.swapIn_cases hs
  have ht := h.getFrame hget
  have hres : Resident (t.install mem p pg e f) := ht.resident.install hm he hp
  have hset : Listed ((t.install mem p pg e f).setSpte p pg (some { e with swapindex := -1, inswap := false })) :=
    hres.listed.setSpte (hres.listed.tabled (install_hash ▸ he))
  obtain ⟨i', hi', _, hbit⟩ := ht.slot p pg e he hin
  obtain rfl : i = i' := by exact_mod_cast hidx.symm.trans hi'
  -- an entry of the new state is the page's own, which is out of swap, or an old one elsewhere
  have look : ∀ q pg' x, ((t.install mem p pg e f).setSpte p pg (some { e with swapindex := -1, inswap := false })).hash q pg' = some x →
      (q = p ∧ pg' = pg) ∧ x = { e with swapindex := -1, inswap := false } ∨ ¬ (q = p ∧ pg' = pg) ∧ t.hash q pg' = some x := by
    intro q pg' x hx
    by_cases hk : q = p ∧ pg' = pg
    · obtain ⟨rfl, rfl⟩ := hk
      rw [setSpte_same] at hx
      exact .inl ⟨⟨rfl, rfl⟩, (Option.some.inj hx).symm⟩
    · rw [setSpte_of_ne _ hk, install_hash] at hx
      exact .inr ⟨hk, hx⟩
  refine ⟨⟨hset.of_eq rfl rfl rfl rfl rfl, hres.keys, hres.present⟩, fun q pg' hq hd => ?_, fun q pg' x hx hxin => ?_,
    fun q pg' x hx hxin => ?_, fun q pg' x hx hxin => ?_, fun q pg' x q' pg'' x' hx hx' hxin hxin' hsame => ?_⟩
  · change ((t.install mem p pg e f).pagedir q pg').present = false at hq
    change ((t.install mem p pg e f).pagedir q pg').dirty = true at hd
    have hk : ¬ (q = p ∧ pg' = pg) := by
      rintro ⟨rfl, rfl⟩
      rw [install_pagedir_same hm] at hq
      cases hq
    rw [install_pagedir_of_ne hk] at hq hd
    obtain ⟨x, hx, hxin⟩ := ht.clean q pg' hq hd
    exact ⟨x, (setSpte_of_ne _ hk).trans ((congrFun (congrFun install_hash q) pg').trans hx), hxin⟩
  · change ((t.install mem p pg e f).pagedir q pg').present = false
    rcases look q pg' x hx with ⟨-, rfl⟩ | ⟨hk, hx⟩
    · cases hxin
    · rw [install_pagedir_of_ne hk]
      exact ht.away q pg' x hx hxin
  · rcases look q pg' x hx with ⟨-, rfl⟩ | ⟨hk, hx⟩
    · cases hxin
    · obtain ⟨j, hj, hlt, hbj⟩ := ht.slot q pg' x hx hxin
      refine ⟨j, hj, hlt, ?_⟩
      have hji : j ≠ i := fun hji => hk (ht.distinct q pg' x p pg e hx he hxin hin (hj.trans (hji ▸ hidx.symm)))
      exact (Bitmap.bit_setMultiple_one ..).trans ((if_neg hji).trans hbj)
  · rcases look q pg' x hx with ⟨-, rfl⟩ | ⟨-, hx⟩
    · rfl
    · exact ht.out q pg' x hx hxin
  · rcases look q pg' x hx with ⟨-, rfl⟩ | ⟨-, hx⟩
    · cases hxin
    · rcases look q' pg'' x' hx' with ⟨-, rfl⟩ | ⟨-, hx'⟩
      · cases hxin'
      · exact ht.distinct q pg' x q' pg'' x' hx hx' hxin hxin' hsame

theorem Accounted.swapIn (h : Accounted s) (hsl : Slotted s) (hs : s.swapIn mem p pg = some s') : Accounted s' := by
  obtain ⟨f, t, e, i, hget, he, hin, hp, hidx, rfl⟩ := hsl.swapIn_cases hs
  obtain ⟨i', hi', _, hset⟩ := (hsl.getFrame hget).slot p pg e he hin
  obtain rfl : i = i' := by exact_mod_cast hidx.symm.trans hi'
  intro j hj hbit
  change (t.swapTable.setMultiple i 1 (!t.swapTable.bit i)).bit j = true at hbit
  rw [Bitmap.bit_setMultiple_one, hset] at hbit
  split_ifs at hbit with hji
  · cases hbit
  · obtain ⟨q, pg', x, hx, hxin, hxj⟩ := h.getFrame hsl hget j hj hbit
    have hk : ¬ (q = p ∧ pg' = pg) := by
      rintro ⟨rfl, rfl⟩
      obtain rfl : e = x := Option.some.inj (he.symm.trans hx)
      exact hji (by exact_mod_cast hxj.symm.trans hidx)
    exact ⟨q, pg', x, (setSpte_of_ne _ hk).trans ((congrFun (congrFun install_hash q) pg').trans hx), hxin, hxj⟩

theorem Slotted.load {file : ℕ} {r : Loaded} (h : Slotted s) (hst : Steady s p pg) (hm : mem.pageTable = true)
    (hl : s.load mem p pg e file = some r) : Slotted r.state := by
  obtain ⟨o, t, hal, ⟨_, rfl⟩ | ⟨f, u, _, rfl, hr⟩⟩ := load_cases hl
  · exact h.allocateFrame hst hm hal
  · have ht := h.allocateFrame hst hm hal
    have hu : Slotted { t with memory := Function.update t.memory f (t.filled (t.memory f) file e.readBytes e.ofs) } :=
      ht.of_eq (ht.resident.listed.of_eq rfl rfl rfl rfl rfl) rfl rfl rfl rfl
    rcases hr with ⟨_, rfl⟩ | ⟨_, s', hfree, rfl⟩
    · simp only [Loaded.state]
      exact hu.setPte rfl .inl
    · exact hu.free hfree

theorem Accounted.load {file : ℕ} {r : Loaded} (h : Accounted s) (hsl : Slotted s)
    (hl : s.load mem p pg e file = some r) : Accounted r.state := by
  obtain ⟨o, t, hal, ⟨_, rfl⟩ | ⟨f, u, _, rfl, hr⟩⟩ := load_cases hl
  · exact h.allocateFrame hsl hal
  · have ht := h.allocateFrame hsl hal
    have hu : Accounted { t with memory := Function.update t.memory f (t.filled (t.memory f) file e.readBytes e.ofs) } :=
      ht.of_eq rfl rfl
    rcases hr with ⟨_, rfl⟩ | ⟨_, s', hfree, rfl⟩
    · exact hu.of_eq rfl rfl
    · exact hu.free hfree

/-- A page with an entry is loaded without a frame only where it is mapped, and then the frame is freed again. -/
theorem Slotted.load_noFrame {file : ℕ} (h : Slotted s) (hst : Steady s p pg) (he : s.hash p pg = some e)
    (hl : s.load mem p pg e file = some (.noFrame t)) :
    (s.pagedir p pg).present = true ∧ t = { s with usedMap := t.usedMap, memory := t.memory } := by
  obtain ⟨o, u, hal, ⟨rfl, hr⟩ | ⟨f, u', _, _, ⟨_, hr⟩ | ⟨_, _, _, hr⟩⟩⟩ := load_cases hl
  · cases hr
    obtain ⟨f, v, hget, _, _, ⟨_, hfree, hno⟩ | ⟨_, ho, _⟩⟩ := h.allocateFrame_cases hst hal
    · have hp := hno.resolve_left (he ▸ Option.some_ne_none e)
      obtain ⟨_, _, rfl⟩ := pallocGetPage_cases (getFrame_of_free (hst.1 hp) hget)
      obtain ⟨_, rfl⟩ := pallocFreePage_cases hfree
      exact ⟨hp, rfl⟩
    · cases ho
  · cases hr
  · cases hr

/-! ### Exit and unmapping -/

/-- No page of the process is in swap. -/
def NoSwap (s : Vm) (p : Pid) : Prop := ∀ pg e, s.hash p pg = some e → e.inswap = false

/-- No mapped page of the process is in swap. -/
def MapsIn (s : Vm) (p : Pid) : Prop := ∀ pg e, s.hash p pg = some e → e.mapid ≠ 0 → e.inswap = false

/-- A page that was written to and is not in swap is present, so reading it does not fault. -/
theorem Slotted.touch_eq (h : Slotted s) (he : s.hash p pg = some e) (hin : e.inswap = false)
    (hd : (s.pagedir p pg).dirty = true) (ht : s.touch mem p pg e = some t) : t = s := by
  rcases touch_cases ht with rfl | ⟨hp, _⟩
  · rfl
  · obtain ⟨x, hx, hxin⟩ := h.clean p pg hp hd
    obtain rfl : e = x := Option.some.inj (he.symm.trans hx)
    exact absurd (hin.symm.trans hxin) Bool.false_ne_true

/-- Only files and dirty bits change. -/
structure Written (s t : Vm) : Prop where
  rest : t = { s with files := t.files, pagedir := t.pagedir }
  pte : ∀ q pg, (t.pagedir q pg).present = (s.pagedir q pg).present ∧ (t.pagedir q pg).frame = (s.pagedir q pg).frame

/-- `destroy_spt` of a process whose mapped pages are not in swap. -/
theorem Slotted.destroySpt {visited : List Page} (h : Slotted s) (hm : MapsIn s p)
    (hs : s.destroySpt mem p visited = some t) : Slotted t ∧ Written s t := by
  refine foldlM_invariant (I := fun t => Slotted t ∧ Written s t) (fun pg _ t t' ht hb => ?_)
    ⟨h, rfl, fun _ _ => ⟨rfl, rfl⟩⟩ hs
  obtain ⟨hsl, hw⟩ := ht
  have hh : t.hash = s.hash := by rw [hw.rest]
  rcases beforeMunmap_cases hb with rfl | ⟨e, file, u, he, hmap, hd, _, hu, c, rfl⟩
  · exact ⟨hsl, hw⟩
  · obtain rfl : u = t := hsl.touch_eq he (hm pg e (hh ▸ he) hmap) hd hu
    refine ⟨Slotted.setPte ?_ rfl fun hf => absurd hf Bool.false_ne_true, ?_, fun q pg' => ?_⟩
    · exact hsl.of_eq (hsl.resident.listed.of_eq rfl rfl rfl rfl rfl) rfl rfl rfl rfl
    · rw [hw.rest]
      rfl
    · rw [← (hw.pte q pg').1, ← (hw.pte q pg').2]
      by_cases hk : q = p ∧ pg' = pg
      · obtain ⟨rfl, rfl⟩ := hk
        rw [setPte_same]
        exact ⟨rfl, rfl⟩
      · rw [setPte_of_ne _ hk]
        exact ⟨rfl, rfl⟩

theorem Slotted.bury (h : Slotted s) (ht : t = { s.dropFrames p with usedMap := t.usedMap, memory := t.memory }) :
    Slotted (t.bury p) := by
  have hl := h.resident.listed.bury ht
  have hmem {x : Fte} := h.resident.listed.mem_dropFrames (p := p) (x := x)
  rw [ht] at hl ⊢
  -- entries and page tables of the others are as before, and there is nothing left of the process
  have hash_of_ne : ∀ q pg, q ≠ p → ({ s.dropFrames p with usedMap := t.usedMap, memory := t.memory }.bury p).hash q pg = s.hash q pg :=
    fun q pg hq => congrFun (Function.update_of_ne hq ..) pg
  have pagedir_of_ne : ∀ q pg, q ≠ p →
      ({ s.dropFrames p with usedMap := t.usedMap, memory := t.memory }.bury p).pagedir q pg = s.pagedir q pg :=
    fun q pg hq => congrFun (Function.update_of_ne hq ..) pg
  have look : ∀ q pg x, ({ s.dropFrames p with usedMap := t.usedMap, memory := t.memory }.bury p).hash q pg = some x →
      q ≠ p ∧ s.hash q pg = some x := by
    intro q pg x hx
    by_cases hq : q = p
    · subst hq
      simp [Vm.bury] at hx
    · exact ⟨hq, (hash_of_ne q pg hq).symm.trans hx⟩
  refine ⟨⟨hl, h.resident.keys.sublist (dropFrames_sublist.map _), fun x hx => ?_⟩, fun q pg hp hd => ?_, fun q pg x hx hin => ?_,
    fun q pg x hx hin => h.slot q pg x (look q pg x hx).2 hin, fun q pg x hx hin => h.out q pg x (look q pg x hx).2 hin,
    fun q pg x q' pg' x' hx hx' => h.distinct q pg x q' pg' x' (look q pg x hx).2 (look q' pg' x' hx').2⟩
  · obtain ⟨hx, hne⟩ := hmem.1 hx
    rw [pagedir_of_ne _ _ hne]
    exact h.resident.present x hx
  · by_cases hq : q = p
    · subst hq
      simp [Vm.bury, Pte.zero] at hd
    · rw [pagedir_of_ne q pg hq] at hp hd
      rw [hash_of_ne q pg hq]
      exact h.clean q pg hp hd
  · obtain ⟨hq, hx⟩ := look q pg x hx
    rw [pagedir_of_ne q pg hq]
    exact h.away q pg x hx hin

theorem Slotted.processExit {visited : List Page} (h : Slotted s) (hm : MapsIn s p)
    (hs : s.processExit mem p visited = some s') : Slotted s' := by
  obtain ⟨s₁, u, t, ⟨_, hd, rfl⟩ | ⟨hsup, rfl, rfl⟩, ht, rfl⟩ := processExit_cases hs
  · exact (h.destroySpt hm hd).1.bury (pagedirDestroy_cases ht).1
  · rw [← h.resident.listed.dropFrames_eq hsup] at ht
    exact h.bury (pagedirDestroy_cases ht).1

/-- A process without pages in swap leaves no slot behind. -/
theorem Accounted.processExit {visited : List Page} (h : Accounted s) (hsl : Slotted s) (hn : NoSwap s p)
    (hs : s.processExit mem p visited = some s') : Accounted s' := by
  have key : s'.swapTable = s.swapTable ∧ s'.hash = Function.update s.hash p fun _ => none := by
    obtain ⟨s₁, u, t, hu, ht, rfl⟩ := processExit_cases hs
    have hsame : u.swapTable = s.swapTable ∧ u.hash = s.hash := by
      rcases hu with ⟨_, hd, rfl⟩ | ⟨_, _, rfl⟩
      · have hw := (hsl.destroySpt (fun pg e he _ => hn pg e he) hd).2
        exact ⟨by rw [hw.rest]; rfl, by rw [hw.rest]; rfl⟩
      · exact ⟨rfl, rfl⟩
    rw [← hsame.1, ← hsame.2, (pagedirDestroy_cases ht).1]
    exact ⟨rfl, rfl⟩
  intro i hi hbit
  rw [key.1] at hi hbit
  obtain ⟨q, pg, x, hx, hin, hidx⟩ := h i hi hbit
  have hq : q ≠ p := by
    rintro rfl
    exact Bool.false_ne_true ((hn pg x hx).symm.trans hin)
  exact ⟨q, pg, x, by rw [key.2, Function.update_of_ne hq, hx], hin, hidx⟩

/-- An entry that is not in swap is removed. -/
theorem Slotted.unmap (h : Slotted s) (he : s.hash p pg = some e) (hin : e.inswap = false) : Slotted (s.setSpte p pg none) := by
  have look : ∀ q pg' x, (s.setSpte p pg none).hash q pg' = some x → s.hash q pg' = some x := by
    intro q pg' x hx
    by_cases hk : q = p ∧ pg' = pg
    · obtain ⟨rfl, rfl⟩ := hk
      rw [setSpte_same] at hx
      cases hx
    · rwa [setSpte_of_ne _ hk] at hx
  refine ⟨⟨h.resident.listed.setSpte (h.resident.listed.tabled he), h.resident.keys, h.resident.present⟩, fun q pg' hp hd => ?_,
    fun q pg' x hx => h.away q pg' x (look q pg' x hx), fun q pg' x hx => h.slot q pg' x (look q pg' x hx),
    fun q pg' x hx => h.out q pg' x (look q pg' x hx),
    fun q pg' x q' pg'' x' hx hx' => h.distinct q pg' x q' pg'' x' (look q pg' x hx) (look q' pg'' x' hx')⟩
  obtain ⟨x, hx, hxin⟩ := h.clean q pg' hp hd
  refine ⟨x, ?_, hxin⟩
  rw [setSpte_of_ne _ ?_]
  · exact hx
  · rintro ⟨rfl, rfl⟩
    obtain rfl : e = x := Option.some.inj (he.symm.trans hx)
    exact Bool.false_ne_true (hin.symm.trans hxin)

theorem Accounted.unmap (h : Accounted s) (he : s.hash p pg = some e) (hin : e.inswap = false) :
    Accounted (s.setSpte p pg none) := by
  intro i hi hbit
  obtain ⟨q, pg', x, hx, hxin, hidx⟩ := h i hi hbit
  refine ⟨q, pg', x, ?_, hxin, hidx⟩
  rw [setSpte_of_ne _ ?_]
  · exact hx
  · rintro ⟨rfl, rfl⟩
    obtain rfl : e = x := Option.some.inj (he.symm.trans hx)
    exact Bool.false_ne_true (hin.symm.trans hxin)

/-- `SYS_MUNMAP` of a mapping whose pages are not in swap. -/
theorem Slotted.munmap {mapid : ℕ} {visited : List Page} (h : Slotted s)
    (hno : ∀ pg e, s.hash p pg = some e → e.mapid = mapid → e.inswap = false)
    (hs : s.munmap mem p mapid visited = some t) : Slotted t ∧ (Accounted s → Accounted t) := by
  suffices hI : Slotted t ∧ (Accounted s → Accounted t) ∧ ∀ pg e, t.hash p pg = some e → e.mapid = mapid → e.inswap = false from
    ⟨hI.1, hI.2.1⟩
  refine foldlM_invariant (I := fun t => Slotted t ∧ (Accounted s → Accounted t) ∧
    ∀ pg e, t.hash p pg = some e → e.mapid = mapid → e.inswap = false) (fun pg _ t t' ht hb => ?_) ⟨h, id, hno⟩ hs
  obtain ⟨hsl, hac, hout⟩ := ht
  rcases munmapPage_cases hb with rfl | ⟨e, u, he, hm, hu, rfl⟩
  · exact ⟨hsl, hac, hout⟩
  · have hin := hout pg e he hm
    obtain rfl : u = t := by
      rcases hu with rfl | ⟨hd, hu⟩
      · rfl
      · exact hsl.touch_eq he hin hd hu
    refine ⟨hsl.unmap he hin, fun ha => (hac ha).unmap he hin, fun pg' x hx hxm => ?_⟩
    by_cases hk : pg' = pg
    · subst hk
      rw [setSpte_same] at hx
      cases hx
    · rw [setSpte_of_ne _ fun hqp => hk hqp.2] at hx
      exact hout pg' x hx hxm

/-! ### New entries and new processes -/

theorem Slotted.entered {src : Option Source} (h : Slotted s) (hent : Entered s p pg src t) : Slotted t := by
  have hg : t.globalFrameList = s.globalFrameList := by rw [hent.rest]
  have hp : t.pagedir = s.pagedir := by rw [hent.rest]
  have ht : t.swapTable = s.swapTable := by rw [hent.rest]
  rcases hent.hash with hh | ⟨hnone, x, hxin, hxidx, -, hh⟩
  · exact h.of_eq hent.listed hg hh hp ht
  · have look : ∀ q pg' y, t.hash q pg' = some y → y = x ∨ s.hash q pg' = some y := by
      intro q pg' y hy
      rw [hh] at hy
      by_cases hk : q = p ∧ pg' = pg
      · obtain ⟨rfl, rfl⟩ := hk
        rw [setSpte_same] at hy
        exact .inl (Option.some.inj hy).symm
      · rw [setSpte_of_ne _ hk] at hy
        exact .inr hy
    have swapped : ∀ q pg' y, t.hash q pg' = some y → y.inswap = true → s.hash q pg' = some y := by
      intro q pg' y hy hin
      refine (look q pg' y hy).resolve_left ?_
      rintro rfl
      exact Bool.false_ne_true (hxin.symm.trans hin)
    refine ⟨⟨hent.listed, hg ▸ h.resident.keys, fun y hy => ?_⟩, fun q pg' hq hd => ?_, fun q pg' y hy hin => ?_,
      fun q pg' y hy hin => ?_, fun q pg' y hy hin => ?_, fun q pg' y q' pg'' y' hy hy' hin hin' => ?_⟩
    · rw [hp]
      exact h.resident.present y (hg ▸ hy)
    · rw [hp] at hq hd
      obtain ⟨y, hy, hin⟩ := h.clean q pg' hq hd
      refine ⟨y, ?_, hin⟩
      rw [hh, setSpte_of_ne _ ?_]
      · exact hy
      · rintro ⟨rfl, rfl⟩
        rw [hnone] at hy
        cases hy
    · rw [hp]
      exact h.away q pg' y (swapped q pg' y hy hin) hin
    · rw [ht]
      exact h.slot q pg' y (swapped q pg' y hy hin) hin
    · rcases look q pg' y hy with rfl | hy
      · exact hxidx
      · exact h.out q pg' y hy hin
    · exact h.distinct q pg' y q' pg'' y' (swapped q pg' y hy hin) (swapped q' pg'' y' hy' hin') hin hin'

theorem Accounted.entered {src : Option Source} (h : Accounted s) (hent : Entered s p pg src t) : Accounted t := by
  have ht : t.swapTable = s.swapTable := by rw [hent.rest]
  rcases hent.hash with hh | ⟨hnone, x, _, _, _, hh⟩
  · exact h.of_eq hh ht
  · intro i hi hbit
    rw [ht] at hi hbit
    obtain ⟨q, pg', y, hy, hin, hidx⟩ := h i hi hbit
    refine ⟨q, pg', y, ?_, hin, hidx⟩
    rw [hh, setSpte_of_ne _ ?_]
    · exact hy
    · rintro ⟨rfl, rfl⟩
      rw [hnone] at hy
      cases hy

/-- A stack page is new: it has no entry yet. -/
theorem Entered.steady {src : Option Source} (hent : Entered s p pg src t)
    (hn : s.hash p pg = none) (hf : (s.pagedir p pg).present = true → s.pallocGetPage ≠ none) : Steady t p pg := by
  have hpd : t.pagedir = s.pagedir := by rw [hent.rest]
  have hu : t.usedMap = s.usedMap := by rw [hent.rest]
  constructor
  · intro hp
    rw [hpd] at hp
    have hfree := hf hp
    unfold pallocGetPage at hfree ⊢
    rw [hu]
    simpa using hfree
  · intro _ e he
    rcases hent.hash with hh | ⟨_, x, hxin, _, _, hh⟩
    · rw [hh, hn] at he
      cases he
    · rw [hh, setSpte_same] at he
      cases he
      exact hxin

theorem Slotted.spawn (h : Slotted s) (hl : s.live p = false) : Slotted (s.spawn p) := by
  obtain ⟨hlist, hh⟩ := h.resident.listed.spawn hl
  have hnil := (h.resident.listed.bare p (h.resident.listed.dead p hl))
  have hpd : ∀ q pg, (s.spawn p).pagedir q pg = if q = p then Pte.zero else s.pagedir q pg := by
    intro q pg
    by_cases hq : q = p
    · subst hq
      simp [Vm.spawn, Vm.bury]
    · rw [if_neg hq]
      exact congrFun (Function.update_of_ne hq ..) pg
  refine ⟨⟨hlist, h.resident.keys, fun x hx => ?_⟩, fun q pg hp hd => ?_, fun q pg x hx hin => ?_, ?_, ?_, ?_⟩
  · have hq : x.owner ≠ p := by
      intro hq
      have hmem := (h.resident.listed.lists p x).2 ⟨hx, hq⟩
      rw [hnil.1] at hmem
      exact absurd hmem List.not_mem_nil
    rw [hpd, if_neg hq]
    exact h.resident.present x hx
  · rw [hpd] at hp hd
    rw [hh]
    split_ifs at hp hd with hq
    · cases hd
    · exact h.clean q pg hp hd
  · rw [hh] at hx
    rw [hpd]
    split_ifs with hq
    · rfl
    · exact h.away q pg x hx hin
  · rw [hh]
    exact h.slot
  · rw [hh]
    exact h.out
  · rw [hh]
    exact h.distinct

end Vm

open Vm

/-! ### Runs -/

/-- The process that an event ends. -/
def Event.ends (s : Vm) : Event → Option Pid
  | .fault _ p user _ addr stack _ => if s.kills p user addr stack then some p else none
  | .exit _ p _ => some p
  | _ => none

/-- **No page in swap is loaded a second time**: a page that faults in kernel mode is not in swap, a page that faults in
user mode though it is present does so while there is a free frame, and what `process_exit` and `SYS_MUNMAP` read is
not in swap. And the kernel pool has memory for tables. -/
def Calm (e : Event) (s : Vm) : Prop :=
  e.memory.table = true ∧ e.memory.pageTable = true ∧ (∀ p, e.ends s = some p → MapsIn s p) ∧
    match e with
    | .allocateFrame _ p pg => Vm.Steady s p pg
    | .fault _ p user _ addr _ _ => ∀ pg, Paging.pageOf addr = some pg →
      (user = true → (s.pagedir p pg).present = true → s.pallocGetPage ≠ none) ∧
        (user = false → ∀ e, s.hash p pg = some e → e.inswap = false)
    | .munmap _ p mapid _ => ∀ pg e, s.hash p pg = some e → e.mapid = mapid → e.inswap = false
    | _ => True

/-- Where a fault loads a page, it does so in a steady state. -/
theorem steady_of_fault {s : Vm} {p : Pid} {pg : Page} {user : Bool} {e : Spte}
    (hf : (user = true → (s.pagedir p pg).present = true → s.pallocGetPage ≠ none) ∧
      (user = false → ∀ e, s.hash p pg = some e → e.inswap = false))
    (he : s.hash p pg = some e) (hu : user = true → e.inswap = false) (hk : user = false → (s.pagedir p pg).present = false) :
    Vm.Steady s p pg := by
  cases user with
  | true =>
    refine ⟨hf.1 rfl, fun _ x hx => ?_⟩
    obtain rfl : e = x := Option.some.inj (he.symm.trans hx)
    exact hu rfl
  | false =>
    refine ⟨fun hp => ?_, fun _ => hf.2 rfl⟩
    rw [hk rfl] at hp
    cases hp

/-- Where a stack grows, the page is not mapped, or there is a free frame. -/
theorem free_of_fault {s : Vm} {p : Pid} {pg : Page} {user : Bool}
    (hf : user = true → (s.pagedir p pg).present = true → s.pallocGetPage ≠ none)
    (hk : user = false → (s.pagedir p pg).present = false) : (s.pagedir p pg).present = true → s.pallocGetPage ≠ none := by
  intro hp
  cases user with
  | true => exact hf rfl hp
  | false =>
    rw [hk rfl] at hp
    cases hp

section

variable {mem : Memory} {p : Pid} {user : Bool} {addr stack : ℕ} {visited : List Page} {s s' : Vm}

theorem Vm.Slotted.handled (h : Slotted s) (ht : mem.table = true) (hm : mem.pageTable = true) (hl : s.live p = true)
    (hends : s.kills p user addr stack = true → MapsIn s p)
    (hf : ∀ pg, Paging.pageOf addr = some pg →
      (user = true → (s.pagedir p pg).present = true → s.pallocGetPage ≠ none) ∧
        (user = false → ∀ e, s.hash p pg = some e → e.inswap = false))
    (hs : Handled mem p user addr stack visited s s') : Slotted s' := by
  cases hs with
  | exit hk hx => exact h.processExit (hends hk) hx
  | ignored => exact h
  | @grow pg _ _ _ hpg hk hn hg =>
    obtain ⟨⟨o, t⟩, hal, rfl⟩ := Option.map_eq_some_iff.1 hg
    have hent : Entered s p pg none (s.allocatePage mem p pg none true 0) := h.resident.listed.allocatePage ht hl
    exact (h.entered hent).allocateFrame (hent.steady hn (free_of_fault (hf pg hpg).1 hk)) hm hal
  | swapIn _ _ _ _ _ hi => exact h.swapIn hm hi
  | @load pg e file r _ _ hkill hpg he hu hk hfile hload hr =>
    have hst := steady_of_fault (hf pg hpg) he hu hk
    have hsl := h.load hst hm hload
    cases r with
    | noFrame t =>
      obtain ⟨hp, hrest⟩ := h.load_noFrame hst he hload
      have hmaps := hends (hkill.trans hp)
      have hhash : t.hash = s.hash := by rw [hrest]
      exact hsl.processExit (fun pg' x hx => hmaps pg' x (hhash ▸ hx)) hr
    | done t => exact hr ▸ hsl
    | short t => exact hr ▸ hsl

theorem Vm.Accounted.handled (h : Accounted s) (hsl : Slotted s) (ht : mem.table = true) (hm : mem.pageTable = true)
    (hl : s.live p = true) (hends : s.kills p user addr stack = true → NoSwap s p)
    (hf : ∀ pg, Paging.pageOf addr = some pg →
      (user = true → (s.pagedir p pg).present = true → s.pallocGetPage ≠ none) ∧
        (user = false → ∀ e, s.hash p pg = some e → e.inswap = false))
    (hs : Handled mem p user addr stack visited s s') : Accounted s' := by
  cases hs with
  | exit hk hx => exact h.processExit hsl (hends hk) hx
  | ignored => exact h
  | @grow pg _ _ _ hpg hk hn hg =>
    obtain ⟨⟨o, t⟩, hal, rfl⟩ := Option.map_eq_some_iff.1 hg
    have hent : Entered s p pg none (s.allocatePage mem p pg none true 0) := hsl.resident.listed.allocatePage ht hl
    exact (h.entered hent).allocateFrame (hsl.entered hent) hal
  | swapIn _ _ _ _ _ hi => exact h.swapIn hsl hi
  | @load pg e file r _ _ hkill hpg he hu hk hfile hload hr =>
    have hst := steady_of_fault (hf pg hpg) he hu hk
    have hac := h.load hsl hload
    cases r with
    | noFrame t =>
      obtain ⟨hp, hrest⟩ := hsl.load_noFrame hst he hload
      have hno := hends (hkill.trans hp)
      have hhash : t.hash = s.hash := by rw [hrest]
      exact hac.processExit (hsl.load hst hm hload) (fun pg' x hx => hno pg' x (hhash ▸ hx)) hr
    | done t => exact hr ▸ hac
    | short t => exact hr ▸ hac

end

theorem Vm.Slotted.step {e : Event} {s s' : Vm} (h : Slotted s) (he : Calm e s) (hs : next e s = some s') : Slotted s' := by
  obtain ⟨ht, hm, hends, he⟩ := he
  cases e with
  | spawn p =>
    simp only [next, Option.ite_none_left_eq_some, Option.some.injEq] at hs
    obtain ⟨hl, rfl⟩ := hs
    exact h.spawn (by simpa using hl)
  | allocatePage mem p pg src w m =>
    simp only [next, Option.ite_none_right_eq_some, Option.some.injEq] at hs
    obtain ⟨hl, rfl⟩ := hs
    exact h.entered (h.resident.listed.allocatePage ht hl)
  | allocateFrame mem p pg =>
    simp only [next, Option.ite_none_right_eq_some] at hs
    obtain ⟨⟨o, t⟩, hal, rfl⟩ := Option.map_eq_some_iff.1 hs.2
    exact h.allocateFrame he hm hal
  | swapOut => exact h.swapOut hs
  | swapIn mem p pg =>
    simp only [next, Option.ite_none_right_eq_some] at hs
    exact h.swapIn hm hs.2
  | fault mem p user write addr stack visited =>
    simp only [next, Option.ite_none_right_eq_some] at hs
    obtain ⟨⟨hl, _⟩, hs⟩ := hs
    have hkill : s.kills p user addr stack = true → MapsIn s p := fun hk => hends p (by simp [Event.ends, hk])
    cases user with
    | true => exact h.handled ht hm hl hkill he (pageFaultUser_cases hs)
    | false => exact h.handled ht hm hl hkill he (pageFaultKernel_cases hs)
  | exit mem p visited =>
    simp only [next, Option.ite_none_right_eq_some] at hs
    exact h.processExit (hends p rfl) hs.2
  | munmap mem p mapid visited =>
    simp only [next, Option.ite_none_right_eq_some] at hs
    exact (h.munmap he hs.2).1
  | access p pg =>
    simp only [next, Option.ite_none_right_eq_some, Option.some.injEq] at hs
    obtain ⟨_, rfl⟩ := hs
    exact h.setPte rfl .inl
  | store p pg o v =>
    simp only [next, Option.ite_none_right_eq_some, Option.some.injEq] at hs
    obtain ⟨⟨hp, _⟩, rfl⟩ := hs
    have hpoke : Slotted (s.poke (s.pagedir p pg).frame o v) :=
      h.of_eq (h.resident.listed.of_eq rfl rfl rfl rfl rfl) rfl rfl rfl rfl
    exact hpoke.setPte rfl fun _ => .inr hp
  | writeFile file data =>
    cases hs
    exact h.of_eq (h.resident.listed.of_eq rfl rfl rfl rfl rfl) rfl rfl rfl rfl

/-- **Slots are given back**, besides: a process that ends has no page in swap, and a frame is only evicted while no frame's
page has been unmapped. -/
def Tidy (e : Event) (s : Vm) : Prop :=
  Calm e s ∧ (∀ p, e.ends s = some p → NoSwap s p) ∧
    (s.pallocGetPage = none ∨ e = .swapOut → ∀ fte ∈ s.globalFrameList, (s.spteOf fte).isSome = true)

theorem Vm.Accounted.step {e : Event} {s s' : Vm} (h : Accounted s) (hsl : Slotted s) (he : Tidy e s) (hs : next e s = some s') :
    Accounted s' := by
  obtain ⟨⟨ht, hm, _, hcalm⟩, hends, _⟩ := he
  cases e with
  | spawn p =>
    simp only [next, Option.ite_none_left_eq_some, Option.some.injEq] at hs
    obtain ⟨hl, rfl⟩ := hs
    exact h.of_eq (hsl.resident.listed.spawn (by simpa using hl)).2 rfl
  | allocatePage mem p pg src w m =>
    simp only [next, Option.ite_none_right_eq_some, Option.some.injEq] at hs
    obtain ⟨hl, rfl⟩ := hs
    exact h.entered (hsl.resident.listed.allocatePage ht hl)
  | allocateFrame mem p pg =>
    simp only [next, Option.ite_none_right_eq_some] at hs
    obtain ⟨⟨o, t⟩, hal, rfl⟩ := Option.map_eq_some_iff.1 hs.2
    exact h.allocateFrame hsl hal
  | swapOut => exact h.swapOut hsl hs
  | swapIn mem p pg =>
    simp only [next, Option.ite_none_right_eq_some] at hs
    exact h.swapIn hsl hs.2
  | fault mem p user write addr stack visited =>
    simp only [next, Option.ite_none_right_eq_some] at hs
    obtain ⟨⟨hl, _⟩, hs⟩ := hs
    have hkill : s.kills p user addr stack = true → NoSwap s p := fun hk => hends p (by simp [Event.ends, hk])
    cases user with
    | true => exact h.handled hsl ht hm hl hkill hcalm (pageFaultUser_cases hs)
    | false => exact h.handled hsl ht hm hl hkill hcalm (pageFaultKernel_cases hs)
  | exit mem p visited =>
    simp only [next, Option.ite_none_right_eq_some] at hs
    exact h.processExit hsl (hends p rfl) hs.2
  | munmap mem p mapid visited =>
    simp only [next, Option.ite_none_right_eq_some] at hs
    exact (hsl.munmap hcalm hs.2).2 h
  | access p pg =>
    simp only [next, Option.ite_none_right_eq_some, Option.some.injEq] at hs
    obtain ⟨_, rfl⟩ := hs
    exact h.of_eq rfl rfl
  | store p pg o v =>
    simp only [next, Option.ite_none_right_eq_some, Option.some.injEq] at hs
    obtain ⟨_, rfl⟩ := hs
    exact h.of_eq rfl rfl
  | writeFile file data =>
    cases hs
    exact h.of_eq rfl rfl

/-- What `Tidy` admits, as a test, of the events that load nothing from a file and end no process. -/
def tidy (e : Event) (s : Vm) : Bool :=
  loadsNothing e && e.memory.pageTable && s.globalFrameList.all (fun fte => (s.spteOf fte).isSome) &&
    match e with
    | .allocateFrame _ p pg => !(s.pagedir p pg).present && (s.hash p pg).all (fun e => !e.inswap)
    | _ => true

theorem Tidy.of_tidy {e : Event} {s : Vm} (h : tidy e s = true) : Tidy e s := by
  simp only [tidy, Bool.and_eq_true, List.all_eq_true] at h
  obtain ⟨⟨⟨hload, hpt⟩, hintact⟩, hst⟩ := h
  have htab : e.memory.table = true := (Whole.of_loadsNothing (s := s) hload).1
  have hends : e.ends s = none := by
    cases e with
    | fault mem p user write addr stack visited => cases hload
    | exit mem p visited => cases hload
    | _ => rfl
  refine ⟨⟨htab, hpt, ?_, ?_⟩, ?_, fun _ => hintact⟩
  · simp [hends]
  · cases e with
    | fault mem p user write addr stack visited => cases hload
    | munmap mem p mapid visited => cases hload
    | allocateFrame mem p pg =>
      obtain ⟨hp, hin⟩ := Bool.and_eq_true_iff.1 hst
      refine ⟨fun hp' => ?_, fun _ x hx => ?_⟩
      · rw [hp'] at hp
        cases hp
      · rw [hx] at hin
        simpa using hin
    | _ => trivial
  · simp [hends]

end Pintos.Paging
