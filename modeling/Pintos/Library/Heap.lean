import Mathlib.Algebra.Order.Ring.Int
import Mathlib.Data.List.Range
import Mathlib.Logic.Function.Basic
import Mathlib.Tactic.Common

/-!
# Heaps of one type of object

Objects at addresses from `1` on (`0` is the null pointer). An address is given
out once only, so a pointer to a freed object stays invalid for good. `count P`
is the number of objects that satisfy `P`, with one equation for each operation.
-/

namespace Pintos.Library

/-- Objects of type `α` in memory. -/
structure Heap (α : Type) where
  /-- The object at an address, if there is one. -/
  cell : ℕ → Option α
  /-- The next address to give out. -/
  next : ℕ
  /-- Nothing lies at the null pointer. -/
  null : cell 0 = none
  /-- Nothing lies at an address not yet given out. -/
  fresh : ∀ p, next ≤ p → cell p = none
  /-- The null pointer is not given out. -/
  pos : 0 < next

namespace Heap

variable {α : Type} (h : Heap α)

/-- The heap with no objects. -/
def empty : Heap α := ⟨fun _ => none, 1, rfl, fun _ _ => rfl, Nat.one_pos⟩

/-- A new object, at address `h.next`. -/
def alloc (x : α) : Heap α where
  cell := Function.update h.cell h.next (some x)
  next := h.next + 1
  null := by rw [Function.update_of_ne h.pos.ne]; exact h.null
  fresh p hp := by rw [Function.update_of_ne (by omega)]; exact h.fresh p (by omega)
  pos := Nat.succ_pos _

/-- Change the object at `p`, if there is one. -/
def set (p : ℕ) (f : α → α) : Heap α where
  cell := Function.update h.cell p ((h.cell p).map f)
  next := h.next
  null := by
    by_cases hp : p = 0
    · subst hp; simp [h.null]
    · rw [Function.update_of_ne (Ne.symm hp)]; exact h.null
  fresh q hq := by
    by_cases hpq : q = p
    · subst hpq; simp [h.fresh q hq]
    · rw [Function.update_of_ne hpq]; exact h.fresh q hq
  pos := h.pos

/-- Free the object at `p`. -/
def free (p : ℕ) : Heap α where
  cell := Function.update h.cell p none
  next := h.next
  null := by
    by_cases hp : p = 0
    · subst hp; simp
    · rw [Function.update_of_ne (Ne.symm hp)]; exact h.null
  fresh q hq := by
    by_cases hpq : q = p
    · subst hpq; simp
    · rw [Function.update_of_ne hpq]; exact h.fresh q hq
  pos := h.pos

/-! ### Reading -/

@[simp] theorem cell_empty (p : ℕ) : (empty : Heap α).cell p = none := rfl

@[simp] theorem cell_alloc_self (x : α) : (h.alloc x).cell h.next = some x := by simp [alloc]

theorem cell_alloc_of_ne (x : α) {p : ℕ} (hp : p ≠ h.next) : (h.alloc x).cell p = h.cell p := by
  simp [alloc, Function.update_of_ne hp]

@[simp] theorem cell_set_self (p : ℕ) (f : α → α) : (h.set p f).cell p = (h.cell p).map f := by simp [set]

theorem cell_set_of_ne (f : α → α) {p q : ℕ} (hq : q ≠ p) : (h.set p f).cell q = h.cell q := by
  simp [set, Function.update_of_ne hq]

@[simp] theorem cell_free_self (p : ℕ) : (h.free p).cell p = none := by simp [free]

theorem cell_free_of_ne {p q : ℕ} (hq : q ≠ p) : (h.free p).cell q = h.cell q := by
  simp [free, Function.update_of_ne hq]

theorem cell_of_free {p q : ℕ} {x : α} (hq : (h.free p).cell q = some x) : h.cell q = some x := by
  by_cases hqp : q = p
  · subst hqp
    rw [cell_free_self] at hq
    cases hq
  · rwa [cell_free_of_ne h hqp] at hq

@[simp] theorem next_alloc (x : α) : (h.alloc x).next = h.next + 1 := rfl

@[simp] theorem next_set (p : ℕ) (f : α → α) : (h.set p f).next = h.next := rfl

@[simp] theorem next_free (p : ℕ) : (h.free p).next = h.next := rfl

@[simp] theorem cell_next : h.cell h.next = none := h.fresh _ le_rfl

theorem ne_next {p : ℕ} {x : α} (hp : h.cell p = some x) : p ≠ h.next := by
  rintro rfl
  simp at hp

theorem lt_next {p : ℕ} {x : α} (hp : h.cell p = some x) : p < h.next := by
  by_contra hlt
  rw [h.fresh p (Nat.le_of_not_lt hlt)] at hp
  cases hp

theorem ne_null {p : ℕ} {x : α} (hp : h.cell p = some x) : p ≠ 0 := by
  rintro rfl
  rw [h.null] at hp
  cases hp

/-- An object that was there is still there after another is allocated. -/
theorem cell_alloc {p : ℕ} {y : α} (x : α) (hp : h.cell p = some y) : (h.alloc x).cell p = some y := by
  rw [cell_alloc_of_ne h x (h.ne_next hp), hp]

/-- An object after one of them was changed. -/
theorem cell_set {p q : ℕ} {x : α} (f : α → α) (hq : h.cell q = some x) :
    (h.set p f).cell q = some (if q = p then f x else x) := by
  by_cases hqp : q = p
  · subst hqp
    rw [cell_set_self, hq, if_pos rfl]
    rfl
  · rw [cell_set_of_ne h f hqp, hq, if_neg hqp]

theorem cell_of_set {p q : ℕ} {y : α} {f : α → α} (hq : (h.set p f).cell q = some y) :
    ∃ x, h.cell q = some x ∧ y = if q = p then f x else x := by
  cases hx : h.cell q with
  | some x =>
    rw [cell_set h f hx] at hq
    exact ⟨x, rfl, (Option.some.inj hq).symm⟩
  | none =>
    by_cases hqp : q = p
    · subst hqp
      rw [cell_set_self, hx] at hq
      cases hq
    · rw [cell_set_of_ne h f hqp, hx] at hq
      cases hq

/-- Changing an object depends only on what the change does to that object. -/
theorem set_congr {p : ℕ} {x : α} {f g : α → α} (hp : h.cell p = some x) (hfg : f x = g x) : h.set p f = h.set p g := by
  simp only [set, hp, Option.map_some, hfg]

/-- What was changed just before it is freed does not matter. -/
theorem free_set (p : ℕ) (f : α → α) : (h.set p f).free p = h.free p := by
  simp only [set, free, Function.update_idem]

/-- Changing the object that was just allocated. -/
theorem set_alloc (x : α) (f : α → α) : (h.alloc x).set h.next f = h.alloc (f x) := by
  simp only [set, alloc, Function.update_self, Function.update_idem, Option.map_some]

/-! ### Counting -/

/-- How many objects satisfy `P`. -/
def count (P : α → Bool) : ℕ := (List.range h.next).countP fun p => (h.cell p).any P

private theorem countP_range_update (g g' : ℕ → Bool) {p : ℕ} (hg : ∀ q, q ≠ p → g' q = g q) (n : ℕ) (hp : p < n) :
    (List.range n).countP g' + (g p).toNat = (List.range n).countP g + (g' p).toNat := by
  induction n with
  | zero => omega
  | succ n ih =>
    simp only [List.range_succ, List.countP_append, List.countP_singleton]
    by_cases hpn : p = n
    · subst hpn
      have hlow : (List.range p).countP g' = (List.range p).countP g := by
        refine List.countP_congr fun q hq => ?_
        rw [hg q (by have := List.mem_range.1 hq; omega)]
      rw [hlow]
      cases g p <;> cases g' p <;> simp
    · have := ih (by omega)
      rw [hg n (Ne.symm hpn)]
      omega

theorem count_alloc (P : α → Bool) (x : α) : (h.alloc x).count P = h.count P + (P x).toNat := by
  unfold count
  simp only [next_alloc, List.range_succ, List.countP_append, List.countP_singleton, cell_alloc_self, Option.any_some]
  have hlow : (List.range h.next).countP (fun p => ((h.alloc x).cell p).any P) =
      (List.range h.next).countP fun p => (h.cell p).any P := by
    refine List.countP_congr fun q hq => ?_
    rw [cell_alloc_of_ne h x (by have := List.mem_range.1 hq; omega)]
  rw [hlow]
  cases P x <;> simp

theorem count_set (P : α → Bool) {p : ℕ} {x : α} (f : α → α) (hp : h.cell p = some x) :
    (h.set p f).count P + (P x).toNat = h.count P + (P (f x)).toNat := by
  have := countP_range_update (fun q => (h.cell q).any P) (fun q => ((h.set p f).cell q).any P)
    (fun q hq => by simp only [cell_set_of_ne h f hq]) h.next (h.lt_next hp)
  simpa [count, hp] using this

theorem count_free (P : α → Bool) {p : ℕ} {x : α} (hp : h.cell p = some x) :
    (h.free p).count P + (P x).toNat = h.count P := by
  have := countP_range_update (fun q => (h.cell q).any P) (fun q => ((h.free p).cell q).any P)
    (fun q hq => by simp only [cell_free_of_ne h hq]) h.next (h.lt_next hp)
  simpa [count, hp] using this

/-- An object that satisfies `P` is counted. -/
theorem count_pos {P : α → Bool} {p : ℕ} {x : α} (hp : h.cell p = some x) (hP : P x = true) : 0 < h.count P := by
  refine List.countP_pos_iff.2 ⟨p, List.mem_range.2 (h.lt_next hp), ?_⟩
  rw [hp]
  exact hP

/-- What satisfies `P` satisfies `Q`. -/
theorem count_le {P Q : α → Bool} (hPQ : ∀ x, P x = true → Q x = true) : h.count P ≤ h.count Q := by
  refine List.countP_mono_left fun p _ hp => ?_
  obtain ⟨x, hx, hPx⟩ := (Option.any_eq_true _ _).1 hp
  exact (Option.any_eq_true _ _).2 ⟨x, hx, hPQ x hPx⟩

/-- Nothing is counted if no object satisfies `P`. -/
theorem count_eq_zero {P : α → Bool} (hP : ∀ p x, h.cell p = some x → P x = false) : h.count P = 0 := by
  refine List.countP_eq_zero.2 fun p _ hp => ?_
  obtain ⟨x, hx, hPx⟩ := (Option.any_eq_true _ _).1 hp
  rw [hP p x hx] at hPx
  cases hPx

end Heap

end Pintos.Library
