import Pintos.Vm.FrameLists

/-!
# Where supplementary entries come from

An entry gets its number when `allocate_page` allocates it. No other operation makes an
entry, or one of the frame table with a new number; so an entry that is allocated now is
not the one of any frame.
-/

namespace Pintos.Paging.Vm

open Library

variable {s s' t u : Vm} {p q : Pid} {pg pg' : Page} {mem : Memory} {e : Spte} {f : ℕ}
variable {user : Bool} {addr stack : ℕ}

/-- The entries of `t`, and those of its frames, were allocated in `s` already. -/
structure Inherits (s t : Vm) : Prop where
  entries : t.entries = s.entries
  hash : ∀ q pg e, t.hash q pg = some e → ∃ e', s.hash q pg = some e' ∧ e'.addr = e.addr
  frames : ∀ x ∈ t.globalFrameList, x ∈ s.globalFrameList ∨ ∃ q pg e, s.hash q pg = some e ∧ x.spte = e.addr

theorem Inherits.refl (s : Vm) : Inherits s s := ⟨rfl, fun _ _ e he => ⟨e, he, rfl⟩, fun _ hx => .inl hx⟩

theorem Inherits.trans (h : Inherits s t) (h' : Inherits t u) : Inherits s u := by
  refine ⟨h'.entries.trans h.entries, fun q pg e he => ?_, fun x hx => ?_⟩
  · obtain ⟨e', he', ha⟩ := h'.hash q pg e he
    obtain ⟨e'', he'', ha'⟩ := h.hash q pg e' he'
    exact ⟨e'', he'', ha'.trans ha⟩
  · rcases h'.frames x hx with hx | ⟨q, pg, e, he, hspte⟩
    · exact h.frames x hx
    · obtain ⟨e', he', ha⟩ := h.hash q pg e he
      exact .inr ⟨q, pg, e', he', hspte.trans ha.symm⟩

theorem Inherits.of_kept (hk : Kept s t) (he : t.entries = s.entries) (hg : t.globalFrameList ⊆ s.globalFrameList) :
    Inherits s t := by
  refine ⟨he, fun q pg e hq => ?_, fun x hx => .inl (hg hx)⟩
  obtain ⟨e', he', hb⟩ := hk.entry hq
  exact ⟨e', he', (base_eq hb).1⟩

/-- An entry may be removed, or changed where its number stays. -/
theorem Inherits.setSpte {o : Option Spte} (ho : ∀ e, o = some e → ∃ e', s.hash p pg = some e' ∧ e'.addr = e.addr) :
    Inherits s (s.setSpte p pg o) := by
  refine ⟨rfl, fun q pg' e hq => ?_, fun x hx => .inl hx⟩
  by_cases hk : q = p ∧ pg' = pg
  · obtain ⟨rfl, rfl⟩ := hk
    rw [setSpte_same] at hq
    exact ho e hq
  · rw [setSpte_of_ne _ hk] at hq
    exact ⟨e, hq, rfl⟩

theorem Inherits.swapOut (h : s.swapOut = some s') : Inherits s s' := by
  have hk := Kept.swapOut h
  obtain ⟨fte, u, slot, e, hsel, -, -, hfree⟩ := swapOut_cases h
  obtain ⟨_, rfl⟩ := pallocFreePage_cases hfree
  refine .of_kept hk (by rw [hsel.rest]; rfl) fun x hx => ?_
  exact hsel.perm.mem_iff.1 (List.mem_of_mem_erase hx)

theorem Inherits.getFrame (h : s.getFrame = some (f, t)) : Inherits s t := by
  obtain ⟨u, hu, hget⟩ := getFrame_rule (fun _ _ hi ho => Inherits.trans hi (.swapOut ho)) (Inherits.refl s) h
  obtain ⟨_, _, rfl⟩ := pallocGetPage_cases hget
  exact ⟨hu.entries, hu.hash, hu.frames⟩

theorem Inherits.install (he : s.hash p pg = some e) : Inherits s (s.install mem p pg e f) := by
  refine ⟨install_entries, fun q pg' x hx => ?_, fun x hx => ?_⟩
  · rw [install_hash] at hx
    exact ⟨x, hx, rfl⟩
  · rcases List.mem_append.1 (show x ∈ s.globalFrameList ++ [⟨f, p, e.addr, pg⟩] from hx) with hx | hx
    · exact .inl hx
    · rw [List.mem_singleton.1 hx]
      exact .inr ⟨p, pg, e, he, rfl⟩

theorem Inherits.pallocFreePage (h : s.pallocFreePage f = some t) : Inherits s t := by
  obtain ⟨_, rfl⟩ := pallocFreePage_cases h
  exact ⟨rfl, fun _ _ e he => ⟨e, he, rfl⟩, fun _ hx => .inl hx⟩

theorem Inherits.allocateFrame {o : Option ℕ} (h : s.allocateFrame mem p pg = some (o, t)) : Inherits s t := by
  obtain ⟨f, u, hget, ⟨_, hfree, _⟩ | ⟨e, _, he, _, rfl⟩⟩ := allocateFrame_cases h
  · exact (Inherits.getFrame hget).trans (.pallocFreePage hfree)
  · exact (Inherits.getFrame hget).trans (.install he)

theorem Inherits.swapIn (h : s.swapIn mem p pg = some s') : Inherits s s' := by
  obtain ⟨f, t, e, hget, he, -, -, -, rfl⟩ := swapIn_cases h
  have hset : Inherits (t.install mem p pg e f)
      ((t.install mem p pg e f).setSpte p pg (some { e with swapindex := -1, inswap := false })) := by
    refine .setSpte fun x hx => ⟨e, by rw [install_hash, he], ?_⟩
    rw [← Option.some.inj hx]
  have hall := ((Inherits.getFrame hget).trans (.install he)).trans hset
  exact ⟨hall.entries, hall.hash, hall.frames⟩

theorem Inherits.load {file : ℕ} {r : Loaded} (h : s.load mem p pg e file = some r) : Inherits s r.state := by
  obtain ⟨o, t, hal, ⟨_, rfl⟩ | ⟨f, u, _, rfl, ⟨_, rfl⟩ | ⟨_, s', hfree, rfl⟩⟩⟩ := load_cases h
  · exact .allocateFrame hal
  · have hi := Inherits.allocateFrame hal
    exact ⟨hi.entries, hi.hash, hi.frames⟩
  · have hi := Inherits.allocateFrame hal
    obtain ⟨_, rfl⟩ := pallocFreePage_cases hfree
    exact ⟨hi.entries, hi.hash, hi.frames⟩

theorem Inherits.touch (h : s.touch mem p pg e = some t) : Inherits s t := by
  rcases touch_cases h with rfl | ⟨_, file, _, hl⟩
  · exact .refl _
  · exact Inherits.load hl

theorem Inherits.destroySpt {visited : List Page} (h : s.destroySpt mem p visited = some t) : Inherits s t := by
  refine foldlM_invariant (I := Inherits s) (fun pg _ t u hi hb => ?_) (.refl s) h
  obtain rfl | ⟨e, file, v, he, _, _, _, hv, c, rfl⟩ := beforeMunmap_cases hb
  · exact hi
  · have hi' := hi.trans (Inherits.touch hv)
    exact ⟨hi'.entries, hi'.hash, hi'.frames⟩

/-- The table of a process is emptied. -/
theorem Inherits.emptied (he : t.entries = s.entries) (hg : t.globalFrameList = s.globalFrameList)
    (hh : t.hash = Function.update s.hash p fun _ => none) : Inherits s t := by
  refine ⟨he, fun q pg e hq => ?_, fun x hx => .inl (hg ▸ hx)⟩
  rw [hh] at hq
  by_cases hqp : q = p
  · subst hqp
    rw [Function.update_self] at hq
    cases hq
  · rw [Function.update_of_ne hqp] at hq
    exact ⟨e, hq, rfl⟩

theorem Inherits.bury : Inherits s (s.bury p) := .emptied rfl rfl rfl

theorem Inherits.processExit {visited : List Page} (h : s.processExit mem p visited = some s') : Inherits s s' := by
  have hend : ∀ u t : Vm, u.pagedirDestroy p = some t → Inherits u (t.bury p) := by
    intro u t ht
    have hrest := (pagedirDestroy_cases ht).1
    have hut : Inherits u t := by
      rw [hrest]
      exact ⟨rfl, fun _ _ e he => ⟨e, he, rfl⟩, fun _ hx => .inl hx⟩
    exact hut.trans .bury
  obtain ⟨s₁, u, t, ⟨_, hd, rfl⟩ | ⟨_, rfl, rfl⟩, ht, rfl⟩ := processExit_cases h
  · have hdrop : Inherits s₁ (s₁.dropFrames p) :=
      ⟨rfl, fun _ _ e he => ⟨e, he, rfl⟩, fun _ hx => .inl (dropFrames_sublist.subset hx)⟩
    exact ((Inherits.destroySpt hd).trans hdrop).trans (hend _ t ht)
  · exact hend _ t ht

/-- Entries have the numbers of allocations that were made. -/
structure Numbered (s : Vm) : Prop where
  hash : ∀ q pg e, s.hash q pg = some e → e.addr < s.entries
  frames : ∀ fte ∈ s.globalFrameList, fte.spte < s.entries

theorem Numbered.inherits (h : Numbered s) (hi : Inherits s t) : Numbered t := by
  refine ⟨fun q pg e he => ?_, fun x hx => ?_⟩
  · obtain ⟨e', he', ha⟩ := hi.hash q pg e he
    rw [hi.entries, ← ha]
    exact h.hash q pg e' he'
  · rw [hi.entries]
    rcases hi.frames x hx with hx | ⟨q, pg, e, he, ha⟩
    · exact h.frames x hx
    · exact ha ▸ h.hash q pg e he

theorem Numbered.allocatePage {src : Option Source} {w : Bool} {m : ℕ} (h : Numbered s) :
    Numbered (s.allocatePage mem p pg src w m) := by
  have hinit : Inherits s (s.pageInit mem p) := by
    unfold pageInit
    split_ifs
    · exact .refl s
    · exact .emptied rfl rfl rfl
  have hn := h.inherits hinit
  unfold Vm.allocatePage
  dsimp only
  split_ifs
  · split
    · exact ⟨fun q pg' e he => (hn.hash q pg' e he).trans (Nat.lt_succ_self _), fun x hx => (hn.frames x hx).trans (Nat.lt_succ_self _)⟩
    · refine ⟨fun q pg' e he => ?_, fun x hx => (hn.frames x hx).trans (Nat.lt_succ_self _)⟩
      have he' : ((s.pageInit mem p).setSpte p pg (some ((s.pageInit mem p).newSpte src w m))).hash q pg' = some e := he
      by_cases hk : q = p ∧ pg' = pg
      · obtain ⟨rfl, rfl⟩ := hk
        rw [setSpte_same] at he'
        rw [← Option.some.inj he']
        exact Nat.lt_succ_self _
      · rw [setSpte_of_ne _ hk] at he'
        exact (hn.hash q pg' e he').trans (Nat.lt_succ_self _)
  · exact hn

theorem Numbered.handled {visited : List Page} (h : Numbered s) (hs : Handled mem p user addr stack visited s s') : Numbered s' := by
  cases hs with
  | exit _ hx => exact h.inherits (.processExit hx)
  | ignored => exact h
  | grow _ _ _ _ _ hg =>
    obtain ⟨⟨o, t⟩, hal, rfl⟩ := Option.map_eq_some_iff.1 hg
    exact h.allocatePage.inherits (.allocateFrame hal)
  | swapIn _ _ _ _ _ hi => exact h.inherits (.swapIn hi)
  | @load pg e file r _ _ _ _ _ _ _ _ hload hr =>
    have hn := h.inherits (.load hload)
    cases r with
    | noFrame t => exact hn.inherits (.processExit hr)
    | done t => exact hr ▸ hn
    | short t => exact hr ▸ hn

theorem Numbered.step {i : Event} (h : Numbered s) (hs : next i s = some s') : Numbered s' := by
  cases i with
  | spawn p =>
    simp only [next, Option.ite_none_left_eq_some, Option.some.injEq] at hs
    obtain ⟨_, rfl⟩ := hs
    have hi : Inherits s (s.bury p) := .bury
    exact h.inherits ⟨hi.entries, hi.hash, hi.frames⟩
  | allocatePage mem p pg src w m =>
    simp only [next, Option.ite_none_right_eq_some, Option.some.injEq] at hs
    exact hs.2 ▸ h.allocatePage
  | allocateFrame mem p pg =>
    simp only [next, Option.ite_none_right_eq_some] at hs
    obtain ⟨⟨o, t⟩, hal, rfl⟩ := Option.map_eq_some_iff.1 hs.2
    exact h.inherits (.allocateFrame hal)
  | swapOut => exact h.inherits (.swapOut hs)
  | swapIn mem p pg =>
    simp only [next, Option.ite_none_right_eq_some] at hs
    exact h.inherits (.swapIn hs.2)
  | fault mem p user write addr stack visited =>
    simp only [next, Option.ite_none_right_eq_some] at hs
    obtain ⟨_, hs⟩ := hs
    cases user with
    | true => exact h.handled (pageFaultUser_cases hs)
    | false => exact h.handled (pageFaultKernel_cases hs)
  | exit mem p visited =>
    simp only [next, Option.ite_none_right_eq_some] at hs
    exact h.inherits (.processExit hs.2)
  | munmap mem p mapid visited =>
    simp only [next, Option.ite_none_right_eq_some] at hs
    refine foldlM_invariant (I := Numbered) (fun pg _ t u hn hb => ?_) h hs.2
    obtain rfl | ⟨e, v, he, _, hv, rfl⟩ := munmapPage_cases hb
    · exact hn
    · have hi : Inherits t v := by
        rcases hv with rfl | ⟨_, hv⟩
        · exact .refl _
        · exact .touch hv
      exact hn.inherits (hi.trans (.setSpte fun _ hx => nomatch hx))
  | access p pg =>
    simp only [next, Option.ite_none_right_eq_some, Option.some.injEq] at hs
    obtain ⟨_, rfl⟩ := hs
    exact ⟨h.hash, h.frames⟩
  | store p pg o v =>
    simp only [next, Option.ite_none_right_eq_some, Option.some.injEq] at hs
    obtain ⟨_, rfl⟩ := hs
    exact ⟨h.hash, h.frames⟩
  | writeFile file data =>
    cases hs
    exact ⟨h.hash, h.frames⟩

end Pintos.Paging.Vm
