import Mathlib.Algebra.Order.Ring.Int
import Mathlib.Tactic.Common

/-!
# Semaphores

`struct semaphore` of `threads/synch.c`. Interrupts are off inside `sema_down` and
`sema_up`, so a turn of the loop in `sema_down` and the whole of `sema_up` are single
steps. A thread that finds the value 0 joins the waiters and blocks; being woken does
not hand it the semaphore, since it only tests the value again.
-/

namespace Pintos

/-- `struct semaphore`, over the threads `θ`. -/
structure Semaphore (θ : Type) where
  value : ℕ
  /-- The blocked threads, first come first. -/
  waiters : List θ

namespace Semaphore

variable {θ : Type}

/-- `sema_init`. -/
def init (value : ℕ) : Semaphore θ := { value := value, waiters := [] }

/-- One turn of the loop in `sema_down`: whether thread `t` is through, and the semaphore. -/
def down (t : θ) (s : Semaphore θ) : Bool × Semaphore θ :=
  if s.value = 0 then (false, { s with waiters := s.waiters ++ [t] }) else (true, { s with value := s.value - 1 })

/-- `sema_up`: the thread to unblock, if any, and the semaphore. -/
def up (s : Semaphore θ) : Option θ × Semaphore θ :=
  (s.waiters.head?, { value := s.value + 1, waiters := s.waiters.tail })

theorem down_of_zero {s : Semaphore θ} (t : θ) (h : s.value = 0) : s.down t = (false, { s with waiters := s.waiters ++ [t] }) :=
  if_pos h

theorem down_of_pos {s : Semaphore θ} (t : θ) (h : 0 < s.value) : s.down t = (true, { s with value := s.value - 1 }) :=
  if_neg (Nat.ne_of_gt h)

/-- Either the thread blocks on a value of 0, or it is through. -/
theorem down_cases (t : θ) (s : Semaphore θ) :
    (s.value = 0 ∧ ∃ s', s.down t = (false, s') ∧ s'.value = 0) ∨
      (s.value ≠ 0 ∧ ∃ s', s.down t = (true, s') ∧ s'.value + 1 = s.value) := by
  by_cases h : s.value = 0
  · exact .inl ⟨h, { s with waiters := s.waiters ++ [t] }, if_pos h, h⟩
  · exact .inr ⟨h, { s with value := s.value - 1 }, if_neg h, Nat.succ_pred h⟩

@[simp] theorem init_value (n : ℕ) : (init n : Semaphore θ).value = n := rfl

@[simp] theorem up_value (s : Semaphore θ) : s.up.2.value = s.value + 1 := rfl

end Semaphore

end Pintos
