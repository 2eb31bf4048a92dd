import Mathlib.Algebra.Order.Ring.Int
import Mathlib.Tactic.Common

/-!
# Systems that take steps

A system over a state `σ` takes the steps that events `ι` name: `next i s` is the state
after `i`, or nothing when `i` is not enabled in `s`. Which event comes next is left
open, so that a system of several threads takes its steps in any order. A guard may
restrict the events further; `Reach.invariant` carries a property along every such
interleaving, and `Reach.of_follow` names a reachable state by its events.
-/

namespace Pintos.Library

variable {σ ι : Type} {next : ι → σ → Option σ} {guard : ι → σ → Prop} {s t u : σ}

/-- `Reach next guard s t`: events lead from `s` to `t`, each enabled and admitted by the guard
where it happens. -/
inductive Reach (next : ι → σ → Option σ) (guard : ι → σ → Prop) (s : σ) : σ → Prop
  /-- No event. -/
  | refl : Reach next guard s s
  /-- One more event. -/
  | tail {t u : σ} {i : ι} : Reach next guard s t → guard i t → next i t = some u → Reach next guard s u

/-- **The invariant rule**: what every admitted event preserves holds in every state reached. -/
theorem Reach.invariant {I : σ → Prop} (h : Reach next guard s t) (hs : I s)
    (hstep : ∀ i t u, I t → guard i t → next i t = some u → I u) : I t := by
  induction h with
  | refl => exact hs
  | tail _ hg hn ih => exact hstep _ _ _ ih hg hn

/-- A weaker guard admits the same events. -/
theorem Reach.mono {guard' : ι → σ → Prop} (h : Reach next guard s t) (hg : ∀ i t, guard i t → guard' i t) :
    Reach next guard' s t := by
  induction h with
  | refl => exact .refl
  | tail _ hi hn ih => exact ih.tail (hg _ _ hi) hn

/-- The events one after the other, as long as each passes the check where it happens. -/
def follow (next : ι → σ → Option σ) (check : ι → σ → Bool) : List ι → σ → Option σ
  | [], s => some s
  | i :: l, s => if check i s then (next i s).bind (follow next check l) else none

/-- Where a list of events leads is reached, when the guard admits what passes the check. -/
theorem Reach.of_follow {check : ι → σ → Bool} {l : List ι} (hl : follow next check l t = some u)
    (hg : ∀ i t, Reach next guard s t → check i t = true → guard i t) (h : Reach next guard s t) :
    Reach next guard s u := by
  induction l generalizing t with
  | nil => cases hl; exact h
  | cons i l ih =>
    simp only [follow] at hl
    split_ifs at hl with hc
    obtain ⟨t', ht, hl'⟩ := Option.bind_eq_some_iff.1 hl
    exact ih hl' (h.tail (hg i t h hc) ht)

/-- What each turn of a loop over a list keeps, the loop keeps. -/
theorem foldlM_invariant {α : Type} {I : σ → Prop} {g : σ → α → Option σ} {l : List α}
    (hg : ∀ a ∈ l, ∀ s t, I s → g s a = some t → I t) (hs : I s) (h : l.foldlM g s = some t) : I t := by
  induction l generalizing s with
  | nil =>
    cases h
    exact hs
  | cons a l ih =>
    rw [List.foldlM_cons] at h
    obtain ⟨u, hu, h⟩ := Option.bind_eq_some_iff.1 h
    have hI : I u := hg a List.mem_cons_self s u hs hu
    exact ih (fun b hb => hg b (List.mem_cons_of_mem a hb)) hI h

end Pintos.Library
