import Mathlib.Algebra.Order.Ring.Int
import Mathlib.Tactic.Common
import Mathlib.Data.Nat.Bitwise

/-!
# Fields of a word

A word that packs several fields is read and written through masks: `w &&& m` reads
the field of the mask `m`, `w ||| f` sets the bits of `f` and `w &&& ~~~f` clears
them. Masks without a common bit do not disturb each other.
-/

namespace Pintos.Library

variable {n : ℕ} {w f g m : BitVec n}

/-- Setting bits outside of a field leaves the field as it is. -/
theorem or_and_of_disjoint (h : g &&& m = 0#n) : (w ||| g) &&& m = w &&& m := by
  apply BitVec.eq_of_getLsbD_eq
  intro i hi
  have hi' : (g &&& m).getLsbD i = false := by rw [h, BitVec.getLsbD_zero]
  simp only [BitVec.getLsbD_and, BitVec.getLsbD_or] at hi' ⊢
  grind

/-- Clearing bits outside of a field leaves the field as it is. -/
theorem and_not_and_of_disjoint (h : g &&& m = 0#n) : (w &&& ~~~g) &&& m = w &&& m := by
  apply BitVec.eq_of_getLsbD_eq
  intro i hi
  have hi' : (g &&& m).getLsbD i = false := by rw [h, BitVec.getLsbD_zero]
  simp only [BitVec.getLsbD_and, BitVec.getLsbD_not] at hi' ⊢
  grind

/-- Bits that are set read back. -/
theorem or_and_self : (w ||| f) &&& f = f := by
  apply BitVec.eq_of_getLsbD_eq
  intro i hi
  simp only [BitVec.getLsbD_and, BitVec.getLsbD_or]
  grind

/-- Bits that are cleared read back. -/
theorem and_not_and_self : (w &&& ~~~f) &&& f = 0#n := by
  apply BitVec.eq_of_getLsbD_eq
  intro i hi
  simp only [BitVec.getLsbD_and, BitVec.getLsbD_not, BitVec.getLsbD_zero]
  grind

/-- A word without bits in `g` is all outside of `g`. -/
theorem and_not_of_and_eq_zero (h : w &&& g = 0#n) : w &&& ~~~g = w := by
  apply BitVec.eq_of_getLsbD_eq
  intro i hi
  have hi' : (w &&& g).getLsbD i = false := by rw [h, BitVec.getLsbD_zero]
  simp only [BitVec.getLsbD_and, BitVec.getLsbD_not] at hi' ⊢
  grind

/-- A word without bits in `g` has none in a part of `g`. -/
theorem and_eq_zero_of_le (h : w &&& g = 0#n) (hf : f &&& g = f) : w &&& f = 0#n := by
  rw [← hf, BitVec.and_comm f, ← BitVec.and_assoc, h, BitVec.zero_and]

/-- The low `k` bits of a word. -/
theorem toNat_and_low {k : ℕ} (hk : k ≤ n) (w : BitVec n) : (w &&& BitVec.ofNat n (2 ^ k - 1)).toNat = w.toNat % 2 ^ k := by
  have hlt : 2 ^ k - 1 < 2 ^ n := (Nat.sub_lt (Nat.two_pow_pos k) Nat.one_pos).trans_le (Nat.pow_le_pow_right (by decide) hk)
  rw [BitVec.toNat_and, BitVec.toNat_ofNat, Nat.mod_eq_of_lt hlt, Nat.and_two_pow_sub_one_eq_mod]

/-- A word without its low `k` bits. -/
theorem toNat_and_not_low {k : ℕ} (hk : k ≤ n) (w : BitVec n) :
    (w &&& ~~~BitVec.ofNat n (2 ^ k - 1)).toNat = w.toNat - w.toNat % 2 ^ k := by
  have hdisj : (w &&& ~~~BitVec.ofNat n (2 ^ k - 1)) &&& (w &&& BitVec.ofNat n (2 ^ k - 1)) = 0#n := by
    apply BitVec.eq_of_getLsbD_eq
    intro i hi
    simp only [BitVec.getLsbD_and, BitVec.getLsbD_not, BitVec.getLsbD_zero]
    grind
  have hor : (w &&& ~~~BitVec.ofNat n (2 ^ k - 1)) ||| (w &&& BitVec.ofNat n (2 ^ k - 1)) = w := by
    apply BitVec.eq_of_getLsbD_eq
    intro i hi
    simp only [BitVec.getLsbD_and, BitVec.getLsbD_not, BitVec.getLsbD_or]
    grind
  have hsum := congrArg BitVec.toNat ((BitVec.add_eq_or_of_and_eq_zero _ _ hdisj).trans hor)
  have hle : w.toNat % 2 ^ k ≤ w.toNat := Nat.mod_le ..
  have hlt := (w &&& ~~~BitVec.ofNat n (2 ^ k - 1)).isLt
  have hcarry := BitVec.toNat_add_of_and_eq_zero hdisj
  rw [hcarry, toNat_and_low hk] at hsum
  omega

/-- The `k` bits of a word from the bit `i` on. -/
theorem toNat_and_shiftRight {i k : ℕ} (hk : i + k ≤ n) (w : BitVec n) :
    ((w &&& BitVec.ofNat n ((2 ^ k - 1) <<< i)) >>> i).toNat = w.toNat / 2 ^ i % 2 ^ k := by
  have hlt : (2 ^ k - 1) <<< i < 2 ^ n := by
    rw [Nat.shiftLeft_eq]
    calc (2 ^ k - 1) * 2 ^ i < 2 ^ k * 2 ^ i :=
          Nat.mul_lt_mul_of_pos_right (Nat.sub_lt (Nat.two_pow_pos k) Nat.one_pos) (Nat.two_pow_pos i)
      _ = 2 ^ (i + k) := by rw [← Nat.pow_add, Nat.add_comm]
      _ ≤ 2 ^ n := Nat.pow_le_pow_right (by decide) hk
  rw [BitVec.toNat_ushiftRight, BitVec.toNat_and, BitVec.toNat_ofNat, Nat.mod_eq_of_lt hlt, Nat.shiftRight_and_distrib,
    Nat.shiftLeft_shiftRight, Nat.and_two_pow_sub_one_eq_mod, Nat.shiftRight_eq_div_pow]

end Pintos.Library
