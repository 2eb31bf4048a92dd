import Mathlib.Algebra.Order.Ring.Int
import Mathlib.Logic.Function.Basic
import Mathlib.Tactic.Common

/-!
# Bits packed in words

A sequence of words of `w` bits is a sequence of bits: bit `k` is bit `k % w` of word
`k / w`. With the mask of a bit it is set, cleared, toggled and tested, and the others stay
as they are.
-/

namespace Pintos.Library.PackedBits

variable {w : ℕ} {words : ℕ → BitVec w} {i k : ℕ}

/-- Bit `k`. -/
def bit (words : ℕ → BitVec w) (k : ℕ) : Bool := (words (k / w)).getLsbD (k % w)

/-- The word in which only bit `k` of those in it is set. -/
def mask (w k : ℕ) : BitVec w := 1#w <<< (k % w)

theorem getLsbD_mask (hw : 0 < w) (i k : ℕ) : (mask w i).getLsbD (k % w) = decide (k % w = i % w) := by
  have hk := Nat.mod_lt k hw
  have hi := Nat.mod_lt i hw
  rw [mask, BitVec.getLsbD_shiftLeft, BitVec.getLsbD_one, decide_eq_true hk, Bool.true_and]
  by_cases h : k % w = i % w
  · simp [h, hw]
  · rcases Nat.lt_or_gt_of_ne h with hlt | hgt
    · simp [hlt, h]
    · have hne : k % w - i % w ≠ 0 := by omega
      simp [hne, h]

/-- Only the bits of the word that is replaced change. -/
theorem bit_update (v : BitVec w) : bit (Function.update words (i / w) v) k =
    if k / w = i / w then v.getLsbD (k % w) else bit words k := by
  unfold bit
  split_ifs with h
  · rw [h, Function.update_self]
  · rw [Function.update_of_ne h]

/-- A bit is known by its word and its place there. -/
theorem eq_iff_word : k = i ↔ k / w = i / w ∧ k % w = i % w := by
  constructor
  · rintro rfl
    exact ⟨rfl, rfl⟩
  · rintro ⟨hdiv, hmod⟩
    rw [← Nat.div_add_mod k w, ← Nat.div_add_mod i w, hdiv, hmod]

/-- A word that differs from the old one in bit `i` only. -/
theorem bit_update_one (v : BitVec w) {b : Bool} (hself : v.getLsbD (i % w) = b)
    (hothers : ∀ k, k % w ≠ i % w → v.getLsbD (k % w) = (words (i / w)).getLsbD (k % w)) :
    bit (Function.update words (i / w) v) k = if k = i then b else bit words k := by
  rw [bit_update]
  by_cases hki : k = i
  · rw [if_pos hki, hki, if_pos rfl, hself]
  · rw [if_neg hki]
    split_ifs with hword
    · rw [hothers k fun hmod => hki (eq_iff_word.2 ⟨hword, hmod⟩), bit, hword]
    · rfl

/-- The bit is set. -/
theorem bit_or_mask (hw : 0 < w) : bit (Function.update words (i / w) (words (i / w) ||| mask w i)) k =
    if k = i then true else bit words k := by
  apply bit_update_one
  · rw [BitVec.getLsbD_or, getLsbD_mask hw]
    simp
  · intro k hk
    rw [BitVec.getLsbD_or, getLsbD_mask hw, decide_eq_false hk, Bool.or_false]

/-- The bit is cleared. -/
theorem bit_and_not_mask (hw : 0 < w) : bit (Function.update words (i / w) (words (i / w) &&& ~~~mask w i)) k =
    if k = i then false else bit words k := by
  apply bit_update_one
  · rw [BitVec.getLsbD_and, BitVec.getLsbD_not, getLsbD_mask hw]
    simp
  · intro k hk
    rw [BitVec.getLsbD_and, BitVec.getLsbD_not, getLsbD_mask hw, decide_eq_false hk, decide_eq_true (Nat.mod_lt k hw)]
    simp

/-- The bit is toggled. -/
theorem bit_xor_mask (hw : 0 < w) : bit (Function.update words (i / w) (words (i / w) ^^^ mask w i)) k =
    if k = i then !bit words i else bit words k := by
  apply bit_update_one
  · rw [BitVec.getLsbD_xor, getLsbD_mask hw, bit]
    simp
  · intro k hk
    rw [BitVec.getLsbD_xor, getLsbD_mask hw, decide_eq_false hk, Bool.xor_false]

/-- The bit is tested. -/
theorem and_mask_ne_zero (hw : 0 < w) : words (i / w) &&& mask w i ≠ 0#w ↔ bit words i = true := by
  constructor
  · intro hne
    by_contra hbit
    refine hne (BitVec.eq_of_getLsbD_eq fun j hj => ?_)
    have hmask := getLsbD_mask hw i j
    rw [Nat.mod_eq_of_lt hj] at hmask
    rw [BitVec.getLsbD_and, hmask, BitVec.getLsbD_zero]
    by_cases hji : j = i % w
    · rw [hji]
      rw [bit, Bool.not_eq_true] at hbit
      rw [hbit, Bool.false_and]
    · rw [decide_eq_false hji, Bool.and_false]
  · intro hbit hzero
    have hand : (words (i / w) &&& mask w i).getLsbD (i % w) = false := by rw [hzero, BitVec.getLsbD_zero]
    rw [BitVec.getLsbD_and, getLsbD_mask hw, decide_eq_true rfl, Bool.and_true] at hand
    exact Bool.false_ne_true (hand.symm.trans hbit)

end Pintos.Library.PackedBits
