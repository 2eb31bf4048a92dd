import Mathlib.Algebra.Order.Ring.Int
import Mathlib.Data.List.GetD
import Mathlib.Tactic.Common

/-!
# Strings

A C string is its bytes up to the terminating null byte, which is not one of
them (`lib/string.c`).
-/

namespace Pintos

/-- A null-terminated string. -/
@[ext]
structure CString where
  /-- The bytes before the terminator. -/
  bytes : List UInt8
  /-- The terminator ends the string. -/
  noNul : 0 ∉ bytes

namespace CString

instance : DecidableEq CString := fun s t =>
  decidable_of_iff (s.bytes = t.bytes) ⟨CString.ext, fun h => h ▸ rfl⟩

/-- The letter `a` is a string. -/
theorem noNul_a : (0 : UInt8) ∉ [97] := by decide

/-- `strlen`. -/
def strlen (s : CString) : ℕ := s.bytes.length

/-- Byte `i` of the string in memory, for `i ≤ strlen`. -/
def byte (s : CString) (i : ℕ) : UInt8 := s.bytes.getD i 0

@[simp] theorem byte_strlen (s : CString) : s.byte s.strlen = 0 := by
  simp [CString.byte, strlen]

theorem byte_ne_zero (s : CString) {i : ℕ} (h : i < s.strlen) : s.byte i ≠ 0 := by
  intro h0
  refine s.noNul ?_
  rw [← h0, CString.byte, List.getD_eq_getElem _ _ h]
  exact List.getElem_mem h

/-- Two strings that agree up to and including the terminator of the first are equal. -/
theorem eq_of_byte {s t : CString} (h : ∀ i ≤ s.strlen, s.byte i = t.byte i) : s = t := by
  have hlen : s.strlen = t.strlen := by
    rcases Nat.lt_trichotomy s.strlen t.strlen with hlt | heq | hgt
    · have := h _ (Nat.le_refl _)
      rw [byte_strlen] at this
      exact absurd this.symm (t.byte_ne_zero hlt)
    · exact heq
    · have := h _ (Nat.le_of_lt hgt)
      rw [byte_strlen] at this
      exact absurd this (s.byte_ne_zero hgt)
  refine CString.ext (List.ext_getElem hlen fun i hs ht => ?_)
  have := h i (Nat.le_of_lt hs)
  rwa [CString.byte, CString.byte, List.getD_eq_getElem _ _ hs, List.getD_eq_getElem _ _ ht] at this

end CString

end Pintos
