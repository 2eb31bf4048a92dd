import Pintos.Vm.PagingSpec

/-!
# The frame lists

Every entry of the frame table is on `global_frame_list` once and on the
`perprocess_frame_list` of its owner once, whatever becomes of the frame it is for; and
only a process with a supplementary page table has entries.
-/

namespace Pintos.Paging.Vm

open Library

variable {s s' t u : Vm} {p q : Pid} {pg pg' : Page} {mem : Memory} {fte : Fte} {e : Spte} {f : ℕ}

/-- The lists have the same entries, each once. -/
structure Listed (s : Vm) : Prop where
  nodup : s.globalFrameList.Nodup
  /-- A process's list has its entries. -/
  lists : ∀ p fte, fte ∈ s.frameList p ↔ fte ∈ s.globalFrameList ∧ fte.owner = p
  own : ∀ p, (s.frameList p).Nodup
  /-- Without a table there are no entries. -/
  bare : ∀ p, s.suppagetable p = false → s.frameList p = [] ∧ ∀ pg, s.hash p pg = none
  dead : ∀ p, s.live p = false → s.suppagetable p = false

theorem listed_init (frames slots : ℕ) (files : ℕ → List UInt8) : Listed (init frames slots files) where
  nodup := List.nodup_nil
  lists := by simp [init]
  own := fun _ => List.nodup_nil
  bare := fun _ _ => ⟨rfl, fun _ => rfl⟩
  dead := fun _ _ => rfl

/-- A process that has an entry has a table. -/
theorem Listed.tabled (h : Listed s) (he : s.hash p pg = some e) : s.suppagetable p = true := by
  refine Bool.eq_true_of_not_eq_false fun hb => ?_
  exact Option.some_ne_none e (he.symm.trans ((h.bare p hb).2 pg))

/-- The global list may be permuted, and entries change. -/
theorem Listed.of_perm (h : Listed s) (hg : t.globalFrameList.Perm s.globalFrameList) (hf : t.frameList = s.frameList)
    (hs : t.suppagetable = s.suppagetable) (hl : t.live = s.live)
    (hh : ∀ p, (∀ pg, s.hash p pg = none) → ∀ pg, t.hash p pg = none) : Listed t where
  nodup := hg.nodup_iff.2 h.nodup
  lists := fun p fte => by rw [hf, hg.mem_iff, h.lists]
  own := fun p => hf ▸ h.own p
  bare := fun p hb => by
    rw [hs] at hb
    exact ⟨hf ▸ (h.bare p hb).1, hh p (h.bare p hb).2⟩
  dead := fun p hd => hs ▸ h.dead p (hl ▸ hd)

/-- Contents and page tables do not matter. -/
theorem Listed.of_eq (h : Listed s) (hg : t.globalFrameList = s.globalFrameList) (hf : t.frameList = s.frameList)
    (hs : t.suppagetable = s.suppagetable) (hl : t.live = s.live) (hh : t.hash = s.hash) : Listed t :=
  h.of_perm (hg ▸ List.Perm.refl _) hf hs hl fun _ hn => hh ▸ hn

theorem Kept.none (h : Kept s t) (hn : s.hash p pg = none) : t.hash p pg = none := by
  have hmap := h.hash p pg
  rw [hn, Option.map_none] at hmap
  exact Option.map_eq_none_iff.1 hmap

theorem Listed.selected (h : Listed s) (hsel : Selected s fte u) : Listed u := by
  refine h.of_perm hsel.perm ?_ ?_ ?_ fun p hn pg => hsel.kept.none (hn pg)
  · rw [hsel.rest]
  · rw [hsel.rest]
  · rw [hsel.rest]

theorem Listed.mem_erase (h : Listed s) {x : Fte} :
    x ∈ s.globalFrameList.erase fte ↔ x ≠ fte ∧ x ∈ s.globalFrameList := h.nodup.mem_erase_iff

theorem Listed.evict {slot : ℕ} (h : Listed s) (he : s.hash fte.owner fte.uaddr = some e)
    (hs : (s.evict fte e slot).pallocFreePage fte.frame = some s') : Listed s' := by
  obtain ⟨_, rfl⟩ := pallocFreePage_cases hs
  constructor
  · exact h.nodup.erase _
  · intro p x
    change x ∈ Function.update s.frameList fte.owner ((s.frameList fte.owner).erase fte) p ↔ x ∈ s.globalFrameList.erase fte ∧ _
    rw [h.mem_erase]
    by_cases hq : p = fte.owner
    · subst hq
      rw [Function.update_self, (h.own _).mem_erase_iff, h.lists]
      tauto
    · rw [Function.update_of_ne hq, h.lists]
      constructor
      · rintro ⟨hx, hxp⟩
        exact ⟨⟨fun hxe => hq (hxp.symm.trans (hxe ▸ rfl)), hx⟩, hxp⟩
      · rintro ⟨⟨_, hx⟩, hxp⟩
        exact ⟨hx, hxp⟩
  · intro p
    change (Function.update s.frameList fte.owner ((s.frameList fte.owner).erase fte) p).Nodup
    by_cases hq : p = fte.owner
    · subst hq
      rw [Function.update_self]
      exact (h.own _).erase _
    · rw [Function.update_of_ne hq]
      exact h.own p
  · intro p hb
    have hne : p ≠ fte.owner := by
      rintro rfl
      exact Option.some_ne_none e (he.symm.trans ((h.bare _ hb).2 _))
    refine ⟨?_, fun pg => ?_⟩
    · change Function.update s.frameList fte.owner _ p = []
      rw [Function.update_of_ne hne]
      exact (h.bare p hb).1
    · change (s.setSpte fte.owner fte.uaddr _).hash p pg = none
      rw [setSpte_of_ne _ fun hq => hne hq.1]
      exact (h.bare p hb).2 pg
  · exact h.dead

theorem Listed.install (h : Listed s) (hnew : (⟨f, p, e.addr, pg⟩ : Fte) ∉ s.globalFrameList) (he : s.hash p pg = some e) :
    Listed (s.install mem p pg e f) := by
  have hg : (s.install mem p pg e f).globalFrameList = s.globalFrameList ++ [⟨f, p, e.addr, pg⟩] := rfl
  have hfl : (s.install mem p pg e f).frameList = Function.update s.frameList p (s.frameList p ++ [⟨f, p, e.addr, pg⟩]) := rfl
  constructor
  · rw [hg]
    exact h.nodup.append (List.nodup_singleton _) (List.disjoint_singleton.2 hnew)
  · intro q x
    rw [hfl, hg, List.mem_append, List.mem_singleton]
    by_cases hq : q = p
    · subst hq
      rw [Function.update_self, List.mem_append, List.mem_singleton, h.lists]
      constructor
      · rintro (⟨hx, hxp⟩ | rfl)
        · exact ⟨.inl hx, hxp⟩
        · exact ⟨.inr rfl, rfl⟩
      · rintro ⟨hx | rfl, hxp⟩
        · exact .inl ⟨hx, hxp⟩
        · exact .inr rfl
    · rw [Function.update_of_ne hq, h.lists]
      constructor
      · exact fun ⟨hx, hxp⟩ => ⟨.inl hx, hxp⟩
      · rintro ⟨hx | rfl, hxp⟩
        · exact ⟨hx, hxp⟩
        · exact absurd hxp.symm hq
  · intro q
    rw [hfl]
    by_cases hq : q = p
    · subst hq
      rw [Function.update_self]
      refine (h.own q).append (List.nodup_singleton _) (List.disjoint_singleton.2 fun hm => hnew ?_)
      exact ((h.lists _ _).1 hm).1
    · rw [Function.update_of_ne hq]
      exact h.own q
  · intro q hb
    rw [install_suppagetable] at hb
    have hne : q ≠ p := by
      rintro rfl
      exact Option.some_ne_none e (he.symm.trans ((h.bare _ hb).2 _))
    rw [hfl, install_hash, Function.update_of_ne hne]
    exact h.bare q hb
  · intro q hd
    rw [install_live] at hd
    rw [install_suppagetable]
    exact h.dead q hd

/-- Entries of a process with a table may change. -/
theorem Listed.setSpte {o : Option Spte} (h : Listed s) (hs : s.suppagetable p = true) : Listed (s.setSpte p pg o) := by
  refine ⟨h.nodup, h.lists, h.own, fun q hb => ⟨(h.bare q hb).1, fun pg' => ?_⟩, h.dead⟩
  have hne : q ≠ p := by
    rintro rfl
    exact Bool.false_ne_true (hb.symm.trans hs)
  rw [setSpte_of_ne _ fun hq => hne hq.1]
  exact (h.bare q hb).2 pg'

/-! ### Processes come and go -/

theorem Listed.mem_dropFrames (h : Listed s) {x : Fte} :
    x ∈ (s.dropFrames p).globalFrameList ↔ x ∈ s.globalFrameList ∧ x.owner ≠ p := by
  change x ∈ (s.frameList p).foldl List.erase s.globalFrameList ↔ _
  rw [← List.diff_eq_foldl, h.nodup.mem_sdiff_iff, h.lists]
  tauto

theorem dropFrames_sublist : (s.dropFrames p).globalFrameList.Sublist s.globalFrameList := by
  change ((s.frameList p).foldl List.erase s.globalFrameList).Sublist _
  rw [← List.diff_eq_foldl]
  exact List.diff_sublist ..

/-- Without a table there is nothing to drop. -/
theorem Listed.dropFrames_eq (h : Listed s) (hs : s.suppagetable p = false) : s.dropFrames p = s := by
  have hnil := (h.bare p hs).1
  unfold dropFrames
  rw [hnil, List.foldl_nil, ← hnil, Function.update_eq_self]

theorem Listed.bury (h : Listed s) (ht : t = { s.dropFrames p with usedMap := t.usedMap, memory := t.memory }) :
    Listed (t.bury p) := by
  rw [ht]
  constructor
  · exact h.nodup.sublist dropFrames_sublist
  · intro q x
    change x ∈ Function.update s.frameList p [] q ↔ x ∈ (s.dropFrames p).globalFrameList ∧ x.owner = q
    rw [h.mem_dropFrames]
    by_cases hq : q = p
    · subst hq
      rw [Function.update_self]
      constructor
      · exact fun hm => absurd hm List.not_mem_nil
      · rintro ⟨⟨_, hne⟩, ho⟩
        exact absurd ho hne
    · rw [Function.update_of_ne hq, h.lists]
      constructor
      · exact fun ⟨hx, ho⟩ => ⟨⟨hx, fun hop => hq (ho.symm.trans hop)⟩, ho⟩
      · exact fun ⟨⟨hx, _⟩, ho⟩ => ⟨hx, ho⟩
  · intro q
    change (Function.update s.frameList p [] q).Nodup
    by_cases hq : q = p
    · subst hq
      rw [Function.update_self]
      exact List.nodup_nil
    · rw [Function.update_of_ne hq]
      exact h.own q
  · intro q hb
    change Function.update s.frameList p [] q = [] ∧ ∀ pg, Function.update s.hash p (fun _ => none) q pg = none
    by_cases hq : q = p
    · subst hq
      rw [Function.update_self, Function.update_self]
      exact ⟨rfl, fun _ => rfl⟩
    · rw [Function.update_of_ne hq, Function.update_of_ne hq]
      exact h.bare q ((Function.update_of_ne hq ..).symm.trans hb)
  · intro q hd
    change Function.update s.suppagetable p false q = false
    by_cases hq : q = p
    · subst hq
      exact Function.update_self ..
    · rw [Function.update_of_ne hq]
      exact h.dead q ((Function.update_of_ne hq ..).symm.trans hd)

theorem Listed.pageInit (h : Listed s) (ht : mem.table = true) (hl : s.live p = true) :
    Listed (s.pageInit mem p) ∧ (s.pageInit mem p).suppagetable p = true ∧ (s.pageInit mem p).hash = s.hash := by
  unfold Vm.pageInit
  by_cases hs : s.suppagetable p = true
  · rw [if_pos hs]
    exact ⟨h, hs, rfl⟩
  · rw [if_neg hs, ht]
    have hbare := h.bare p (by simpa using hs)
    have hhash : Function.update s.hash p (fun _ => none) = s.hash := by
      rw [← funext hbare.2, Function.update_eq_self]
    refine ⟨⟨h.nodup, h.lists, h.own, fun q hb => ?_, fun q hd => ?_⟩, Function.update_self .., hhash⟩
    · have hne : q ≠ p := by
        rintro rfl
        exact Bool.false_ne_true (hb.symm.trans (Function.update_self ..))
      obtain ⟨hnil, hnone⟩ := h.bare q ((Function.update_of_ne hne ..).symm.trans hb)
      exact ⟨hnil, fun pg => (congrFun (Function.update_of_ne hne ..) pg).trans (hnone pg)⟩
    · have hne : q ≠ p := by
        rintro rfl
        exact Bool.false_ne_true (hd.symm.trans hl)
      exact (Function.update_of_ne hne ..).trans (h.dead q hd)

/-- **What `allocate_page` does**: it may add an entry, for a page that has none. -/
structure Entered (s : Vm) (p : Pid) (pg : Page) (src : Option Source) (t : Vm) : Prop where
  listed : Listed t
  rest : t = { s with suppagetable := t.suppagetable, hash := t.hash, entries := t.entries }
  hash : t.hash = s.hash ∨ s.hash p pg = none ∧ ∃ x, x.inswap = false ∧ x.swapindex = -1 ∧ x.file = src.map Source.file ∧
    t.hash = (s.setSpte p pg (some x)).hash

theorem Listed.allocatePage {src : Option Source} {w : Bool} {m : ℕ} (h : Listed s) (ht : mem.table = true)
    (hl : s.live p = true) : Entered s p pg src (s.allocatePage mem p pg src w m) := by
  obtain ⟨hlist, hs, hh⟩ := h.pageInit ht hl
  have hrest : s.pageInit mem p = { s with
      suppagetable := (s.pageInit mem p).suppagetable, hash := (s.pageInit mem p).hash, entries := (s.pageInit mem p).entries } := by
    unfold Vm.pageInit
    split <;> rfl
  unfold Vm.allocatePage
  dsimp only
  split_ifs
  · split
    · exact ⟨hlist.of_eq rfl rfl rfl rfl rfl, by rw [hrest], .inl hh⟩
    · next hn =>
      have hset : Listed ((s.pageInit mem p).setSpte p pg (some ((s.pageInit mem p).newSpte src w m))) := hlist.setSpte hs
      refine ⟨hset.of_eq rfl rfl rfl rfl rfl, ?_, .inr ⟨hh ▸ hn, (s.pageInit mem p).newSpte src w m, rfl, rfl, rfl, ?_⟩⟩
      · rw [hrest]
        rfl
      · simp only [Vm.setSpte, hh]
  · exact ⟨hlist, hrest, .inl hh⟩

/-- Before a process starts, it has nothing. -/
theorem Listed.spawn (h : Listed s) (hl : s.live p = false) : Listed (s.spawn p) ∧ (s.spawn p).hash = s.hash := by
  have hsup := h.dead p hl
  obtain ⟨hnil, hnone⟩ := h.bare p hsup
  have hfl : (s.spawn p).frameList = s.frameList := by
    change Function.update s.frameList p [] = s.frameList
    rw [← hnil, Function.update_eq_self]
  have hsp : (s.spawn p).suppagetable = s.suppagetable := by
    change Function.update s.suppagetable p false = s.suppagetable
    rw [← hsup, Function.update_eq_self]
  have hhash : (s.spawn p).hash = s.hash := by
    change Function.update s.hash p (fun _ => none) = s.hash
    rw [← funext hnone, Function.update_eq_self]
  refine ⟨⟨h.nodup, fun q x => hfl ▸ h.lists q x, fun q => hfl ▸ h.own q, fun q hb => ?_, fun q hd => ?_⟩, hhash⟩
  · rw [hsp] at hb
    rw [hfl, hhash]
    exact h.bare q hb
  · rw [hsp]
    by_cases hq : q = p
    · exact hq ▸ hsup
    · exact h.dead q ((Function.update_of_ne hq ..).symm.trans hd)

end Pintos.Paging.Vm
