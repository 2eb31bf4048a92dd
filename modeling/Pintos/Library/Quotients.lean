import Mathlib.Algebra.Order.Ring.Int
import Mathlib.Tactic.Ring
import Mathlib.Tactic.Linarith
import Mathlib.Data.Nat.Bits

/-!
# Quotients of two words by one

Two ways to the quotient of a number of two words with a division whose quotient has
one word: by a divisor of one word, the words are divided one after the other; by a
longer divisor, an estimate from the divisor's first bits is at most one too large.
-/

namespace Pintos.Library

variable {w s n d q : ℕ}

/-! ### Divisors of one word -/

/-- The second step of a short division has a quotient of one digit. -/
theorem short_lt {b a c : ℕ} (hd : 0 < d) (hc : c < b) : (b * (a % d) + c) / d < b := by
  rw [Nat.div_lt_iff_lt_mul hd]
  have hle : a % d + 1 ≤ d := Nat.mod_lt a hd
  calc b * (a % d) + c < b * (a % d) + b := Nat.add_lt_add_left hc _
    _ = b * (a % d + 1) := by ring
    _ ≤ b * d := Nat.mul_le_mul_left b hle

/-- **Short division**: the first digit is divided, and then its remainder with the second digit. -/
theorem short_div (b a c : ℕ) (hd : 0 < d) : (b * a + c) / d = (b * (a % d) + c) / d + b * (a / d) := by
  have hsplit : b * a + c = b * (a % d) + c + d * (b * (a / d)) := by
    calc b * a + c = b * (d * (a / d) + a % d) + c := by rw [Nat.div_add_mod]
      _ = b * (a % d) + c + d * (b * (a / d)) := by ring
  rw [hsplit, Nat.add_mul_div_left _ _ hd]

/-! ### Longer divisors -/

/-- The first word of a divisor that is shifted to the left as far as possible. -/
theorem leading_bounds (hlow : 2 ^ (2 * w - 1) ≤ d * 2 ^ s) (hhigh : d * 2 ^ s < 2 ^ (2 * w)) (hw : 0 < w) :
    2 ^ (w - 1) ≤ d * 2 ^ s / 2 ^ w ∧ d * 2 ^ s / 2 ^ w < 2 ^ w := by
  constructor
  · rw [Nat.le_div_iff_mul_le (Nat.two_pow_pos w), ← Nat.pow_add]
    rwa [show w - 1 + w = 2 * w - 1 by omega]
  · rwa [Nat.div_lt_iff_lt_mul (Nat.two_pow_pos w), ← Nat.pow_add, ← Nat.two_mul]

/-- The divisor whose quotient is the estimate: `d` without its last `w - s` bits. -/
theorem estimate_eq (hs : s < w) (v : ℕ) : n / 2 / v / 2 ^ (w - 1 - s) = n / (v * 2 ^ (w - s)) := by
  rw [Nat.div_div_eq_div_mul, Nat.div_div_eq_div_mul]
  congr 1
  have hpow : 2 ^ (w - s) = 2 * 2 ^ (w - 1 - s) := by
    rw [← Nat.pow_succ', show (w - 1 - s).succ = w - s by omega]
  rw [hpow]
  ring

/-- The estimate's divisor is at most the divisor, and misses less than its last `w - s` bits. -/
theorem leading_near (hs : s < w) :
    d * 2 ^ s / 2 ^ w * 2 ^ (w - s) ≤ d ∧ d < d * 2 ^ s / 2 ^ w * 2 ^ (w - s) + 2 ^ (w - s) := by
  have hpow : 2 ^ w = 2 ^ (w - s) * 2 ^ s := by rw [← Nat.pow_add, Nat.sub_add_cancel hs.le]
  rw [hpow, Nat.mul_div_mul_right _ _ (Nat.two_pow_pos s)]
  refine ⟨Nat.div_mul_le_self d _, ?_⟩
  have := Nat.lt_div_mul_add (a := d) (Nat.two_pow_pos (w - s))
  omega

/-- A divisor that is smaller by a little has a quotient that is larger by at most one. -/
theorem div_le_div_add_one {e : ℕ} (he : 0 < e) (hle : e ≤ d) (hnear : n * (d - e) ≤ d * e) : n / e ≤ n / d + 1 := by
  have hd : 0 < d := he.trans_le hle
  have hn : n < d * (n / d + 1) := Nat.lt_mul_div_succ n hd
  rw [← Nat.lt_succ_iff, Nat.div_lt_iff_lt_mul he]
  -- multiplied by `d`, what is to be shown follows from the bound on `d - e`
  refine Nat.lt_of_mul_lt_mul_left (a := d) ?_
  calc d * n = n * e + n * (d - e) := by rw [← Nat.mul_add, Nat.add_sub_cancel' hle, Nat.mul_comm]
    _ ≤ n * e + d * e := Nat.add_le_add_left hnear _
    _ < d * (n / d + 1) * e + d * e := Nat.add_lt_add_right (Nat.mul_lt_mul_of_pos_right hn he) _
    _ = d * ((n / d + 1).succ * e) := by rw [Nat.succ_eq_add_one]; ring

/-- **The estimate from the first word of the divisor** is the quotient, or one more. -/
theorem estimate_near (hs : s < w) (hn : n < 2 ^ (2 * w)) (hlow : 2 ^ (2 * w - 1) ≤ d * 2 ^ s) (hhigh : d * 2 ^ s < 2 ^ (2 * w)) :
    n / d ≤ n / 2 / (d * 2 ^ s / 2 ^ w) / 2 ^ (w - 1 - s) ∧ n / 2 / (d * 2 ^ s / 2 ^ w) / 2 ^ (w - 1 - s) ≤ n / d + 1 := by
  obtain ⟨hv, -⟩ := leading_bounds hlow hhigh (Nat.zero_lt_of_lt hs)
  obtain ⟨hle, hlt⟩ := leading_near (d := d) hs
  rw [estimate_eq hs]
  obtain ⟨v, hvd⟩ : ∃ v, v = d * 2 ^ s / 2 ^ w := ⟨_, rfl⟩
  rw [← hvd] at hv hle hlt ⊢
  have hpos : 0 < v * 2 ^ (w - s) := Nat.mul_pos ((Nat.two_pow_pos _).trans_le hv) (Nat.two_pow_pos _)
  refine ⟨Nat.div_le_div_left hle hpos, div_le_div_add_one hpos hle ?_⟩
  -- with `x = 2 ^ (w - 1 - s)`, what is missing is below `2 * x`, and `(x - 1) * (x - 1)` is not negative
  have hx : 2 ^ (w - s) = 2 * 2 ^ (w - 1 - s) := by rw [← Nat.pow_succ', show (w - 1 - s).succ = w - s by omega]
  have hw : 2 ^ w = 2 * 2 ^ (w - 1) := by rw [← Nat.pow_succ', show (w - 1).succ = w by omega]
  have hww : 2 ^ (2 * w) = 2 ^ w * 2 ^ w := by rw [← Nat.pow_add, Nat.two_mul]
  rw [hx] at hle hlt ⊢
  rw [hww, hw] at hn
  obtain ⟨x, hxd⟩ : ∃ x, x = 2 ^ (w - 1 - s) := ⟨_, rfl⟩
  obtain ⟨h, hhd⟩ : ∃ h, h = 2 ^ (w - 1) := ⟨_, rfl⟩
  rw [← hxd] at hle hlt ⊢
  rw [← hhd] at hn hv
  have hmiss : d - v * (2 * x) + 1 ≤ 2 * x := by omega
  have hsq : 2 * x ≤ x * x + 1 := by nlinarith [sq_nonneg ((x : ℤ) - 1)]
  have hmiss' : d - v * (2 * x) ≤ x * x := by omega
  calc n * (d - v * (2 * x)) ≤ 2 * h * (2 * h) * (x * x) := Nat.mul_le_mul hn.le hmiss'
    _ = h * (2 * x) * (h * (2 * x)) := by ring
    _ ≤ d * (v * (2 * x)) := Nat.mul_le_mul ((Nat.mul_le_mul_right _ hv).trans hle) (Nat.mul_le_mul_right _ hv)

/-- **The correction**: one less is the quotient if the rest is then smaller than the divisor. -/
theorem correct_eq (hlow : n / d ≤ q) (hhigh : q ≤ n / d + 1) (hd : 0 < d) (hn : d ≤ n) :
    (if n - (q - 1) * d < d then q - 1 else q) = n / d := by
  have hpos : 1 ≤ n / d := (Nat.le_div_iff_mul_le hd).2 (by rwa [Nat.one_mul])
  obtain ⟨c, hc⟩ : ∃ c, n / d = c + 1 := ⟨n / d - 1, by omega⟩
  have hrest : n = d * (c + 1) + n % d := by rw [← hc, Nat.div_add_mod]
  have hmod := Nat.mod_lt n hd
  rw [hc] at hlow hhigh ⊢
  rcases Nat.lt_or_eq_of_le hhigh with hlt | rfl
  · obtain rfl : q = c + 1 := by omega
    rw [if_neg]
    rw [Nat.add_sub_cancel, not_lt]
    calc d ≤ d + n % d := Nat.le_add_right _ _
      _ = n - c * d := by
        rw [Nat.mul_comm c, Nat.mul_succ] at *
        omega
  · rw [if_pos]
    · rfl
    · rw [Nat.add_sub_cancel, Nat.mul_comm (c + 1)]
      omega

end Pintos.Library
