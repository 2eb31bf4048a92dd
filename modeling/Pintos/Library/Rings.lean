import Mathlib.Algebra.Order.Ring.Int
import Mathlib.Data.List.Range
import Mathlib.Logic.Function.Basic
import Mathlib.Tactic.Common

/-!
# Ring buffers

A buffer of `n` places that is filled at `head` and emptied at `tail`, both going round.
One place stays free, so that a full buffer is not taken for an empty one. `ring` is
what the buffer holds; to put an element appends to it, and to take one takes its head.
-/

namespace Pintos.Library

variable {α : Type} {n head tail : ℕ} {buf : ℕ → α}

/-- How many elements there are from `tail` up to `head`. -/
def ringLength (n head tail : ℕ) : ℕ := if tail ≤ head then head - tail else head + n - tail

/-- The elements from `tail` up to `head`. -/
def ring (n : ℕ) (buf : ℕ → α) (head tail : ℕ) : List α :=
  (List.range (ringLength n head tail)).map fun i => buf ((tail + i) % n)

@[simp] theorem length_ring : (ring n buf head tail).length = ringLength n head tail := by simp [ring]

theorem ringLength_lt (hh : head < n) (ht : tail < n) : ringLength n head tail < n := by
  unfold ringLength
  split_ifs <;> omega

/-- The place behind `i`. -/
theorem succ_mod {i : ℕ} (h : i < n) : (i + 1) % n = if i + 1 = n then 0 else i + 1 := by
  split_ifs with hn
  · rw [hn, Nat.mod_self]
  · exact Nat.mod_eq_of_lt (by omega)

theorem ringLength_eq_zero (ht : tail < n) : ringLength n head tail = 0 ↔ head = tail := by
  unfold ringLength
  split_ifs <;> omega

theorem ringLength_full (hh : head < n) (ht : tail < n) : ringLength n head tail = n - 1 ↔ (head + 1) % n = tail := by
  rw [succ_mod hh]
  unfold ringLength
  split_ifs <;> omega

theorem ringLength_put (hh : head < n) (ht : tail < n) (hfull : (head + 1) % n ≠ tail) :
    ringLength n ((head + 1) % n) tail = ringLength n head tail + 1 := by
  rw [succ_mod hh] at hfull ⊢
  unfold ringLength
  split_ifs at hfull ⊢ <;> omega

theorem ringLength_take (hh : head < n) (ht : tail < n) (hne : head ≠ tail) :
    ringLength n head tail = ringLength n head ((tail + 1) % n) + 1 := by
  rw [succ_mod ht]
  unfold ringLength
  split_ifs <;> omega

/-- The place of element `i`; the one behind the last element is `head`. -/
theorem ring_place (hh : head < n) (ht : tail < n) {i : ℕ} (hi : i ≤ ringLength n head tail) :
    (tail + i) % n = head ↔ i = ringLength n head tail := by
  have hlt := ringLength_lt hh ht
  have hmod : (tail + i) % n = if tail + i < n then tail + i else tail + i - n := by
    split_ifs with h
    · exact Nat.mod_eq_of_lt h
    · rw [Nat.mod_eq_sub_mod (by omega), Nat.mod_eq_of_lt (by omega)]
  rw [hmod]
  unfold ringLength at *
  split_ifs at * <;> omega

/-- **An element that is put comes last.** -/
theorem ring_put (hh : head < n) (ht : tail < n) (hfull : (head + 1) % n ≠ tail) (x : α) :
    ring n (Function.update buf head x) ((head + 1) % n) tail = ring n buf head tail ++ [x] := by
  unfold ring
  rw [ringLength_put hh ht hfull, List.range_succ, List.map_append, List.map_singleton]
  congr 1
  · refine List.map_congr_left fun i hi => ?_
    have hlt := List.mem_range.1 hi
    refine Function.update_of_ne (fun heq => ?_) ..
    have := (ring_place hh ht hlt.le).1 heq
    omega
  · rw [(ring_place hh ht le_rfl).2 rfl, Function.update_self]

/-- **The element that is taken is the first.** -/
theorem ring_take (hh : head < n) (ht : tail < n) (hne : head ≠ tail) :
    ring n buf head tail = buf tail :: ring n buf head ((tail + 1) % n) := by
  unfold ring
  rw [ringLength_take hh ht hne, List.range_succ_eq_map, List.map_cons, List.map_map, Nat.add_zero, Nat.mod_eq_of_lt ht]
  congr 1
  refine List.map_congr_left fun i _ => ?_
  simp only [Function.comp]
  congr 1
  rw [Nat.mod_add_mod]
  congr 1
  omega

end Pintos.Library
