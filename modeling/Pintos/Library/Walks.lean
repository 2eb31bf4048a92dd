import Mathlib.Algebra.Order.Ring.Int
import Mathlib.Tactic.Common

/-!
# Walks along names

A graph whose edges have names: `next s c` is where the name `c` leads from the place
`s`, and only at some places, those of `inner`, may a walk go on. A walk over the names
of a path stops before the last of them, which it leaves over. It is strict if it gives
up at a name that leads nowhere, and lenient if it then stays where it is.
-/

namespace Pintos.Library

variable {σ ν : Type}

/-- Where a walk ends. -/
structure Walk (σ ν : Type) where
  /-- It has given up. -/
  fail : Bool
  /-- The place where it is. -/
  place : σ
  /-- The name that is left over. -/
  name : ν
  /-- Where the last name that was followed led to. -/
  last : Option σ

namespace Walk

variable (next : σ → ν → Option σ) (inner : σ → Bool)

/-- The walk from `s` over the names `c :: cs`. -/
def along (strict : Bool) : Option σ → σ → ν → List ν → Walk σ ν
  | last, s, c, [] => ⟨false, s, c, last⟩
  | _, s, c, c' :: cs =>
    match next s c with
    | none => if strict then ⟨true, s, c, none⟩ else along strict none s c' cs
    | some t => if inner t then along strict (some t) t c' cs else ⟨true, s, c, some t⟩

/-- **Where a path leads**, name by name. -/
def resolve : σ → ν → List ν → Option σ
  | s, c, [] => next s c
  | s, c, c' :: cs =>
    match next s c with
    | none => none
    | some t => if inner t then resolve t c' cs else none

variable {next inner} {last : Option σ} {s t : σ} {c n : ν} {cs : List ν}

/-- **A strict walk that does not give up** ends where the last name is looked up. -/
theorem resolve_of_along (h : (along next inner true last s c cs).fail = false) :
    resolve next inner s c cs = next (along next inner true last s c cs).place (along next inner true last s c cs).name := by
  induction cs generalizing s c last with
  | nil => rfl
  | cons c' cs ih =>
    simp only [along, resolve] at h ⊢
    cases hs : next s c with
    | none => simp [hs] at h
    | some t =>
      simp only [hs] at h ⊢
      by_cases ht : inner t = true
      · rw [if_pos ht] at h ⊢
        rw [if_pos ht]
        exact ih h
      · simp [ht] at h

/-- A walk that does not give up leaves the last name over. -/
theorem name_of_along {strict : Bool} (h : (along next inner strict last s c cs).fail = false) :
    (along next inner strict last s c cs).name = (c :: cs).getLast (List.cons_ne_nil c cs) := by
  induction cs generalizing s c last with
  | nil => rfl
  | cons c' cs ih =>
    rw [List.getLast_cons (List.cons_ne_nil c' cs)]
    simp only [along] at h ⊢
    cases hs : next s c with
    | none =>
      simp only [hs] at h ⊢
      cases strict with
      | true => simp at h
      | false =>
        rw [if_neg (by decide)] at h ⊢
        exact ih h
    | some t =>
      simp only [hs] at h ⊢
      by_cases ht : inner t = true
      · rw [if_pos ht] at h ⊢
        exact ih h
      · simp [ht] at h

/-- A strict walk that gives up is on a path that leads nowhere. -/
theorem resolve_of_fail (h : (along next inner true last s c cs).fail = true) : resolve next inner s c cs = none := by
  induction cs generalizing s c last with
  | nil => cases h
  | cons c' cs ih =>
    simp only [along, resolve] at h ⊢
    cases hs : next s c with
    | none => rfl
    | some t =>
      simp only [hs] at h ⊢
      by_cases ht : inner t = true
      · rw [if_pos ht] at h ⊢
        exact ih h
      · rw [if_neg ht]

/-- **A lenient walk goes where a strict one does**, if that does not give up. -/
theorem along_lenient (h : (along next inner true last s c cs).fail = false) :
    along next inner false last s c cs = along next inner true last s c cs := by
  induction cs generalizing s c last with
  | nil => rfl
  | cons c' cs ih =>
    simp only [along] at h ⊢
    cases hs : next s c with
    | none => simp [hs] at h
    | some t =>
      simp only [hs] at h ⊢
      by_cases ht : inner t = true
      · rw [if_pos ht] at h ⊢
        rw [if_pos ht]
        exact ih h
      · rw [if_neg ht, if_neg ht]

/-- **Where the last name led to** is where the walk is, if it has not given up. -/
theorem last_of_along {strict : Bool} (hlast : ∀ u, last = some u → u = s) (h : (along next inner strict last s c cs).fail = false)
    {u : σ} (hu : (along next inner strict last s c cs).last = some u) : u = (along next inner strict last s c cs).place := by
  induction cs generalizing s c last with
  | nil => exact hlast u hu
  | cons c' cs ih =>
    simp only [along] at h hu ⊢
    cases hs : next s c with
    | none =>
      simp only [hs] at h hu ⊢
      cases strict with
      | true => simp at h
      | false =>
        rw [if_neg (by decide)] at h hu ⊢
        exact ih (fun _ hnone => by cases hnone) h hu
    | some t =>
      simp only [hs] at h hu ⊢
      by_cases ht : inner t = true
      · rw [if_pos ht] at h hu ⊢
        exact ih (fun _ ht => (Option.some.inj ht).symm) h hu
      · simp [ht] at h

/-- A lenient walk gives up only at a name that leads somewhere. -/
theorem next_of_fail (h : (along next inner false last s c cs).fail = true) :
    next (along next inner false last s c cs).place (along next inner false last s c cs).name ≠ none := by
  induction cs generalizing s c last with
  | nil => cases h
  | cons c' cs ih =>
    simp only [along] at h ⊢
    cases hs : next s c with
    | none =>
      simp only [hs, Bool.false_eq_true, if_false] at h ⊢
      exact ih h
    | some t =>
      simp only [hs] at h ⊢
      by_cases ht : inner t = true
      · rw [if_pos ht] at h ⊢
        exact ih h
      · rw [if_neg ht]
        simp [hs]

/-- A path with one name more than one that leads to an inner place. -/
theorem resolve_append (h : resolve next inner s c cs = some t) (ht : inner t = true) :
    resolve next inner s c (cs ++ [n]) = next t n := by
  induction cs generalizing s c with
  | nil =>
    change next s c = some t at h
    simp [resolve, h, ht]
  | cons c' cs ih =>
    simp only [resolve] at h
    simp only [List.cons_append, resolve]
    cases hs : next s c with
    | none => simp [hs] at h
    | some u =>
      simp only [hs] at h ⊢
      by_cases hu : inner u = true
      · rw [if_pos hu] at h ⊢
        exact ih h
      · simp [hu] at h

/-- One name more, after a path that leads to an inner place. -/
theorem along_append (h : resolve next inner s c cs = some t) (ht : inner t = true) :
    along next inner true last s c (cs ++ [n]) = ⟨false, t, n, some t⟩ := by
  induction cs generalizing s c last with
  | nil =>
    change next s c = some t at h
    simp [along, h, ht]
  | cons c' cs ih =>
    simp only [resolve] at h
    simp only [List.cons_append, along]
    cases hs : next s c with
    | none => simp [hs] at h
    | some u =>
      simp only [hs] at h ⊢
      by_cases hu : inner u = true
      · rw [if_pos hu] at h ⊢
        exact ih h
      · simp [hu] at h

end Walk

end Pintos.Library
