import Pintos.Library.Walks

/-!
# Trees of names

A tree whose edges have names: `edge s n t` says that `t` lies below the place `s` under the
name `n`. A place lies below one other at most, and under one name, so that there is
one path to it from the root (`NameTree.existsUnique_path`). Leaves come and go.
-/

namespace Pintos.Library

variable {σ ν : Type} {edge edge' : σ → ν → σ → Prop} {root s t u : σ} {n m c : ν} {ns ms cs : List ν}

/-- The path `ns` leads from the root to a place. -/
inductive NamePath (edge : σ → ν → σ → Prop) (root : σ) : List ν → σ → Prop
  /-- The path without names. -/
  | root : NamePath edge root [] root
  /-- One name more. -/
  | step {ns : List ν} {s t : σ} {n : ν} : NamePath edge root ns s → edge s n t → NamePath edge root (ns ++ [n]) t

/-- The place is the root, or lies below another. -/
def Placed (edge : σ → ν → σ → Prop) (root t : σ) : Prop := t = root ∨ ∃ s n, edge s n t

/-- **A tree of names.** -/
structure NameTree (edge : σ → ν → σ → Prop) (root : σ) : Prop where
  source : ∀ s n t, edge s n t → Placed edge root s
  target : ∀ s n t u, edge s n t → edge s n u → t = u
  parent : ∀ s n s' n' t, edge s n t → edge s' n' t → s = s' ∧ n = n'
  top : ∀ s n, ¬ edge s n root
  rank : ∃ r : σ → ℕ, ∀ s n t, edge s n t → r s < r t

namespace NameTree

/-- The root alone. -/
theorem alone (h : ∀ s n t, ¬ edge s n t) : NameTree edge root :=
  ⟨fun s n t he => (h s n t he).elim, fun s n t _ he => (h s n t he).elim, fun s n _ _ t he => (h s n t he).elim, fun s n => h s n root,
    fun _ => 0, fun s n t he => (h s n t he).elim⟩

theorem congr (h : NameTree edge root) (hiff : ∀ s n t, edge' s n t ↔ edge s n t) : NameTree edge' root := by
  have heq : edge' = edge := by
    funext s n t
    exact propext (hiff s n t)
  rwa [heq]

/-- No place lies below itself. -/
theorem ne (h : NameTree edge root) (he : edge s n t) : t ≠ s := by
  rintro rfl
  obtain ⟨r, hr⟩ := h.rank
  exact absurd (hr _ _ _ he) (lt_irrefl _)

/-! ### Paths -/

theorem exists_path (h : NameTree edge root) (ht : Placed edge root t) : ∃ ns, NamePath edge root ns t := by
  obtain ⟨r, hr⟩ := h.rank
  induction hrank : r t using Nat.strong_induction_on generalizing t with
  | _ n ih =>
    rcases ht with rfl | ⟨s, nm, he⟩
    · exact ⟨[], .root⟩
    · obtain ⟨ns, hns⟩ := ih (r s) (hrank ▸ hr s nm t he) (h.source s nm t he) rfl
      exact ⟨ns ++ [nm], hns.step he⟩

theorem path_unique (h : NameTree edge root) (hns : NamePath edge root ns t) (hms : NamePath edge root ms t) : ns = ms := by
  induction hns generalizing ms with
  | root =>
    cases hms with
    | root => rfl
    | step _ he => exact absurd he (h.top _ _)
  | step _ he ih =>
    cases hms with
    | root => exact absurd he (h.top _ _)
    | step hms he' =>
      obtain ⟨rfl, rfl⟩ := h.parent _ _ _ _ _ he he'
      rw [ih hms]

/-- **There is exactly one path to a place.** -/
theorem existsUnique_path (h : NameTree edge root) (ht : Placed edge root t) : ∃! ns, NamePath edge root ns t := by
  obtain ⟨ns, hns⟩ := h.exists_path ht
  exact ⟨ns, hns, fun ms hms => h.path_unique hms hns⟩

/-! ### Leaves -/

/-- **A leaf more.** -/
theorem add (h : NameTree edge root) (hs : Placed edge root s) (ht : ¬ Placed edge root t) (hleaf : ∀ m u, ¬ edge t m u)
    (hfree : ∀ u, ¬ edge s n u) : NameTree (fun a b c => edge a b c ∨ a = s ∧ b = n ∧ c = t) root := by
  have hst : s ≠ t := fun heq => ht (heq ▸ hs)
  have hnew : ∀ a b, ¬ edge a b t := fun a b he => ht (.inr ⟨a, b, he⟩)
  have hplaced : ∀ a, Placed edge root a → Placed (fun a b c => edge a b c ∨ a = s ∧ b = n ∧ c = t) root a := by
    rintro a (rfl | ⟨b, m, he⟩)
    · exact .inl rfl
    · exact .inr ⟨b, m, .inl he⟩
  obtain ⟨r, hr⟩ := h.rank
  refine ⟨?_, ?_, ?_, ?_, ?_⟩
  · rintro a b c (he | ⟨rfl, rfl, rfl⟩)
    · exact hplaced a (h.source a b c he)
    · exact hplaced a hs
  · rintro a b c d (he | ⟨rfl, rfl, hc⟩) (he' | ⟨ha, hb, hd⟩)
    · exact h.target a b c d he he'
    · exact absurd (ha ▸ hb ▸ he) (hfree c)
    · exact absurd he' (hfree d)
    · exact hc.trans hd.symm
  · rintro a b a' b' c (he | ⟨rfl, rfl, rfl⟩) (he' | ⟨rfl, rfl, hc⟩)
    · exact h.parent a b a' b' c he he'
    · exact absurd (hc ▸ he) (hnew a b)
    · exact absurd he' (hnew a' b')
    · exact ⟨rfl, rfl⟩
  · rintro a b (he | ⟨rfl, rfl, hroot⟩)
    · exact h.top a b he
    · exact ht (.inl hroot.symm)
  · -- the leaf is one further from the root than the place that it lies below
    classical
    refine ⟨Function.update r t (r s + 1), ?_⟩
    rintro a b c (he | ⟨rfl, rfl, rfl⟩)
    · have ha : a ≠ t := by
        rintro rfl
        exact hleaf b c he
      have hc : c ≠ t := by
        rintro rfl
        exact hnew a b he
      rw [Function.update_of_ne ha, Function.update_of_ne hc]
      exact hr a b c he
    · rw [Function.update_of_ne hst, Function.update_self]
      exact Nat.lt_succ_self _

/-- **A leaf less.** -/
theorem remove (h : NameTree edge root) (he : edge s n t) (hleaf : ∀ m u, ¬ edge t m u) :
    NameTree (fun a b c => edge a b c ∧ ¬ (a = s ∧ b = n)) root := by
  obtain ⟨r, hr⟩ := h.rank
  refine ⟨?_, fun a b c d hc hd => h.target a b c d hc.1 hd.1, fun a b a' b' c hc hc' => h.parent a b a' b' c hc.1 hc'.1,
    fun a b hc => h.top a b hc.1, r, fun a b c hc => hr a b c hc.1⟩
  rintro a b c ⟨hab, -⟩
  rcases h.source a b c hab with rfl | ⟨d, m, hd⟩
  · exact .inl rfl
  · refine .inr ⟨d, m, hd, ?_⟩
    rintro ⟨rfl, rfl⟩
    -- the leaf has no edge
    rw [h.target d m a t hd he] at hab
    exact hleaf b c hab

end NameTree

/-! ### Following a path -/

/-- Edges are names that are followed, from places where a walk may go on. -/
theorem NamePath.resolve {next : σ → ν → Option σ} {inner : σ → Bool} (hedge : ∀ s n t, edge s n t → next s n = some t)
    (hinner : ∀ s n t, edge s n t → inner s = true) (h : NamePath edge root (c :: cs) t) :
    Walk.resolve next inner root c cs = some t := by
  generalize hns : c :: cs = ns at h
  induction h generalizing cs with
  | root => cases hns
  | @step ns s t n hpath he ih =>
    cases hpath with
    | root =>
      cases hns
      exact hedge _ _ _ he
    | @step ns' s' _ m hpath' he' =>
      obtain ⟨ds, hds⟩ : ∃ ds, c :: ds = ns' ++ [m] := by
        cases ns' with
        | nil =>
          simp only [List.nil_append, List.cons_append, List.cons.injEq] at hns
          exact ⟨[], by simp [hns.1]⟩
        | cons d ds =>
          simp only [List.cons_append, List.cons.injEq] at hns
          exact ⟨ds ++ [m], by simp [hns.1]⟩
      rw [← hds, List.cons_append, List.cons.injEq] at hns
      rw [hns.2, Walk.resolve_append (ih hds) (hinner _ _ _ he)]
      exact hedge _ _ _ he

end Pintos.Library
