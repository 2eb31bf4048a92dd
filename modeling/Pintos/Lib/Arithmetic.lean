import Mathlib.Data.Int.DivMod
import Pintos.Library.Quotients

/-!
# 64-bit division

The routines that GCC calls for the division of 64-bit integers
(`lib/arithmetic.c`), which have the instruction `divl` for a dividend of 64 bits and
a divisor and a quotient of 32 bits. The instruction traps if the quotient does not
fit: then there is no result here. Signed numbers are negated as the processor does it,
so that the smallest one stays as it is.

The division routines are right for every dividend and every divisor
(`division_exact`). The remainder routines are as far as the remainder fits in
32 bits, because `umod64` and `smod64` return values of 32 bits
(`remainder_exact_iff`, `remainder_cut`).
-/

namespace Pintos.Arithmetic

open Library

/-- `divl`: a dividend of two words by a word. -/
def divl (n : BitVec 64) (d : BitVec 32) : Option (BitVec 32) :=
  let n1 : BitVec 32 := (n >>> 32).setWidth 32
  let n0 : BitVec 32 := n.setWidth 32
  let q := (2 ^ 32 * n1.toNat + n0.toNat) / d.toNat
  if d = 0 ∨ 2 ^ 32 ≤ q then none else some (BitVec.ofNat 32 q)

/-- One `if` of `nlz`. -/
def nlzStep (bound : BitVec 32) (k : ℕ) (p : ℕ × BitVec 32) : ℕ × BitVec 32 :=
  if p.2 ≤ bound then (p.1 + k, p.2 <<< k) else p

/-- `nlz`: the number of leading zero bits. -/
def nlz (x : BitVec 32) : ℕ :=
  let p := nlzStep 0x0000FFFF 16 (0, x)
  let p := nlzStep 0x00FFFFFF 8 p
  let p := nlzStep 0x0FFFFFFF 4 p
  let p := nlzStep 0x3FFFFFFF 2 p
  if p.2 ≤ 0x7FFFFFFF then p.1 + 1 else p.1

/-- `udiv64`. -/
def udiv64 (n d : BitVec 64) : Option (BitVec 64) :=
  if d >>> 32 = 0 then do
    let b := (1 : BitVec 64) <<< 32
    let n1 : BitVec 32 := (n >>> 32).setWidth 32
    let n0 : BitVec 32 := n.setWidth 32
    let d0 : BitVec 32 := d.setWidth 32
    let q ← divl (b * (n1 % d0).setWidth 64 + n0.setWidth 64) d0
    pure (q.setWidth 64 + b * (n1 / d0).setWidth 64)
  else if n < d then pure 0
  else do
    let d1 : BitVec 32 := (d >>> 32).setWidth 32
    let s := nlz d1
    let q ← divl (n >>> 1) ((d <<< s >>> 32).setWidth 32)
    let q : BitVec 64 := (q >>> (31 - s)).setWidth 64
    pure (if n - (q - 1) * d < d then q - 1 else q)

/-- `umod64`, whose result is a `uint32_t`. -/
def umod64 (n d : BitVec 64) : Option (BitVec 32) := do
  let q ← udiv64 n d
  pure ((n - d * q).setWidth 32)

/-- The absolute value of a signed number, as an unsigned one. -/
def absOf (n : BitVec 64) : BitVec 64 := if (0 : BitVec 64).sle n then n else -n

/-- `sdiv64`. -/
def sdiv64 (n d : BitVec 64) : Option (BitVec 64) := do
  let q ← udiv64 (absOf n) (absOf d)
  pure (if n.slt 0 = d.slt 0 then q else -q)

/-- `smod64`, whose result is an `int32_t`. -/
def smod64 (n d : BitVec 64) : Option (BitVec 32) := do
  let q ← sdiv64 n d
  pure ((n - d * q).setWidth 32)

/-- `__divdi3`. -/
def divdi3 (n d : BitVec 64) : Option (BitVec 64) := sdiv64 n d

/-- `__moddi3`. -/
def moddi3 (n d : BitVec 64) : Option (BitVec 64) := (smod64 n d).map (BitVec.signExtend 64)

/-- `__udivdi3`. -/
def udivdi3 (n d : BitVec 64) : Option (BitVec 64) := udiv64 n d

/-- `__umoddi3`. -/
def umoddi3 (n d : BitVec 64) : Option (BitVec 64) := (umod64 n d).map (BitVec.setWidth 64)

/-! ### The steps -/

variable {n d : BitVec 64}

/-- The instruction divides the whole dividend. -/
theorem divl_eq (n : BitVec 64) {d : BitVec 32} (hd : d ≠ 0) (hq : n.toNat / d.toNat < 2 ^ 32) :
    divl n d = some (BitVec.ofNat 32 (n.toNat / d.toNat)) := by
  have hn := n.isLt
  have hsplit : 2 ^ 32 * ((n >>> 32).setWidth 32).toNat + (n.setWidth 32).toNat = n.toNat := by
    rw [BitVec.toNat_setWidth, BitVec.toNat_setWidth, BitVec.toNat_ushiftRight, Nat.shiftRight_eq_div_pow]
    omega
  simp only [divl, hsplit]
  rw [if_neg]
  rintro (h | h)
  · exact hd h
  · exact absurd hq (Nat.not_lt.2 h)

/-- One `if` of `nlz`: the first bits are looked at, and nothing is shifted out. -/
theorem nlzStep_spec {x k : ℕ} {p : ℕ × BitVec 32} (hk : k ≤ 16) (hp : p.2.toNat = x * 2 ^ p.1) (hlow : 2 ^ (32 - 2 * k) ≤ p.2.toNat) :
    (nlzStep (BitVec.ofNat 32 (2 ^ (32 - k) - 1)) k p).2.toNat = x * 2 ^ (nlzStep (BitVec.ofNat 32 (2 ^ (32 - k) - 1)) k p).1 ∧
      2 ^ (32 - k) ≤ (nlzStep (BitVec.ofNat 32 (2 ^ (32 - k) - 1)) k p).2.toNat := by
  have hpow : 2 ^ (32 - k) * 2 ^ k = 2 ^ 32 := by rw [← Nat.pow_add, Nat.sub_add_cancel (by omega)]
  have hbound : (BitVec.ofNat 32 (2 ^ (32 - k) - 1)).toNat = 2 ^ (32 - k) - 1 := by
    rw [BitVec.toNat_ofNat, Nat.mod_eq_of_lt]
    have := Nat.pow_le_pow_right (show 0 < 2 by decide) (Nat.sub_le 32 k)
    have := Nat.two_pow_pos (32 - k)
    omega
  unfold nlzStep
  split_ifs with hle
  · rw [BitVec.le_def, hbound] at hle
    have hlt : p.2.toNat < 2 ^ (32 - k) := by have := Nat.two_pow_pos (32 - k); omega
    have hshift : (p.2 <<< k).toNat = p.2.toNat * 2 ^ k := by
      rw [BitVec.toNat_shiftLeft, Nat.shiftLeft_eq, Nat.mod_eq_of_lt]
      rw [← hpow]
      exact Nat.mul_lt_mul_of_pos_right hlt (Nat.two_pow_pos k)
    refine ⟨?_, ?_⟩
    · rw [hshift, hp, Nat.pow_add, Nat.mul_assoc]
    · rw [hshift, show 32 - k = 32 - 2 * k + k by omega, Nat.pow_add]
      exact Nat.mul_le_mul_right _ hlow
  · rw [BitVec.le_def, hbound] at hle
    exact ⟨hp, by omega⟩

/-- **`nlz`**: shifted by as many bits, the first bit is set. -/
theorem nlz_spec {x : BitVec 32} (hx : x ≠ 0) : 2 ^ 31 ≤ x.toNat * 2 ^ nlz x ∧ x.toNat * 2 ^ nlz x < 2 ^ 32 := by
  have hpos : 2 ^ (32 - 2 * 16) ≤ x.toNat := by
    have : x.toNat ≠ 0 := fun h => hx (BitVec.eq_of_toNat_eq h)
    omega
  obtain ⟨h16, hl16⟩ := nlzStep_spec (p := (0, x)) le_rfl (Nat.mul_one x.toNat).symm hpos
  obtain ⟨h8, hl8⟩ := nlzStep_spec (k := 8) (by decide) h16 hl16
  obtain ⟨h4, hl4⟩ := nlzStep_spec (k := 4) (by decide) h8 hl8
  obtain ⟨h2, hl2⟩ := nlzStep_spec (k := 2) (by decide) h4 hl4
  obtain ⟨p, hp⟩ : ∃ p, p = nlzStep 0x3FFFFFFF 2 (nlzStep 0x0FFFFFFF 4 (nlzStep 0x00FFFFFF 8 (nlzStep 0x0000FFFF 16 (0, x)))) :=
    ⟨_, rfl⟩
  have heq : nlz x = if p.2 ≤ 0x7FFFFFFF then p.1 + 1 else p.1 := by rw [hp]; rfl
  have hval : p.2.toNat = x.toNat * 2 ^ p.1 := by rw [hp]; exact h2
  have hlow : 2 ^ 30 ≤ p.2.toNat := by rw [hp]; exact hl2
  have hlt := p.2.isLt
  rw [heq]
  split_ifs with hle
  · have hle' : p.2.toNat ≤ 0x7FFFFFFF := hle
    have htwice : x.toNat * 2 ^ (p.1 + 1) = p.2.toNat * 2 := by rw [hval, Nat.mul_assoc, ← Nat.pow_succ]
    omega
  · have hgt : ¬ p.2.toNat ≤ 0x7FFFFFFF := hle
    rw [← hval]
    omega

theorem nlz_lt {x : BitVec 32} (hx : x ≠ 0) : nlz x < 32 := by
  obtain ⟨-, hlt⟩ := nlz_spec hx
  have hpos : 1 ≤ x.toNat := Nat.one_le_iff_ne_zero.2 fun h => hx (BitVec.eq_of_toNat_eq h)
  refine (Nat.pow_lt_pow_iff_right (show 1 < 2 by decide)).1 ?_
  exact (Nat.le_mul_of_pos_left _ hpos).trans_lt hlt

/-! ### Unsigned division -/

/-- A number whose first word is shifted until its first bit is set. -/
theorem shifted_bounds {e s : ℕ} (hs : s < 32) (hlow : 2 ^ 31 ≤ e / 2 ^ 32 * 2 ^ s) (hhigh : e / 2 ^ 32 * 2 ^ s < 2 ^ 32) :
    2 ^ 63 ≤ e * 2 ^ s ∧ e * 2 ^ s < 2 ^ 64 := by
  constructor
  · calc 2 ^ 63 = 2 ^ 31 * 2 ^ 32 := by norm_num
      _ ≤ e / 2 ^ 32 * 2 ^ s * 2 ^ 32 := Nat.mul_le_mul_right _ hlow
      _ = e / 2 ^ 32 * 2 ^ 32 * 2 ^ s := by ring
      _ ≤ e * 2 ^ s := Nat.mul_le_mul_right _ (Nat.div_mul_le_self e _)
  · have hpow : 2 ^ 32 = 2 ^ (32 - s) * 2 ^ s := by rw [← Nat.pow_add, Nat.sub_add_cancel hs.le]
    have hfirst : e / 2 ^ 32 + 1 ≤ 2 ^ (32 - s) := Nat.lt_of_mul_lt_mul_right (hhigh.trans_eq hpow)
    have hlt : e < (e / 2 ^ 32 + 1) * 2 ^ 32 := by omega
    calc e * 2 ^ s < (e / 2 ^ 32 + 1) * 2 ^ 32 * 2 ^ s := Nat.mul_lt_mul_of_pos_right hlt (Nat.two_pow_pos s)
      _ ≤ 2 ^ (32 - s) * 2 ^ 32 * 2 ^ s := Nat.mul_le_mul_right _ (Nat.mul_le_mul_right _ hfirst)
      _ = 2 ^ (32 - s) * 2 ^ s * 2 ^ 32 := by ring
      _ = 2 ^ 64 := by rw [← hpow]; norm_num

/-- The branch for divisors of one word. -/
theorem udiv64_short (hd : d ≠ 0) (hsmall : d >>> 32 = 0) : udiv64 n d = some (n / d) := by
  have hn := n.isLt
  have hpos : 0 < d.toNat := Nat.pos_of_ne_zero fun h => hd (BitVec.eq_of_toNat_eq h)
  have hlt : d.toNat < 2 ^ 32 := by
    have h := congrArg BitVec.toNat hsmall
    rw [BitVec.toNat_ushiftRight, Nat.shiftRight_eq_div_pow] at h
    change d.toNat / 2 ^ 32 = 0 at h
    omega
  have hd0 : (d.setWidth 32).toNat = d.toNat := by rw [BitVec.toNat_setWidth, Nat.mod_eq_of_lt hlt]
  have hne : d.setWidth 32 ≠ 0 := by
    intro h
    have := congrArg BitVec.toNat h
    rw [hd0] at this
    exact hpos.ne' this
  have hn1 : ((n >>> 32).setWidth 32).toNat = n.toNat / 2 ^ 32 := by
    rw [BitVec.toNat_setWidth, BitVec.toNat_ushiftRight, Nat.shiftRight_eq_div_pow, Nat.mod_eq_of_lt (by omega)]
  have hn0 : (n.setWidth 32).toNat = n.toNat % 2 ^ 32 := BitVec.toNat_setWidth ..
  have hb : ((1 : BitVec 64) <<< 32).toNat = 2 ^ 32 := by decide
  have hmod : n.toNat / 2 ^ 32 % d.toNat < d.toNat := Nat.mod_lt _ hpos
  -- the dividend of the second step
  have hsecond : ((1 : BitVec 64) <<< 32 * ((n >>> 32).setWidth 32 % d.setWidth 32).setWidth 64 + (n.setWidth 32).setWidth 64).toNat =
      2 ^ 32 * (n.toNat / 2 ^ 32 % d.toNat) + n.toNat % 2 ^ 32 := by
    rw [BitVec.toNat_add, BitVec.toNat_mul, hb, BitVec.toNat_setWidth, BitVec.toNat_setWidth, BitVec.toNat_umod, hn1, hn0,
      hd0]
    omega
  have hq := short_lt (b := 2 ^ 32) (a := n.toNat / 2 ^ 32) hpos (Nat.mod_lt n.toNat (Nat.two_pow_pos 32))
  have hdiv := short_div (2 ^ 32) (n.toNat / 2 ^ 32) (n.toNat % 2 ^ 32) hpos
  rw [Nat.div_add_mod] at hdiv
  have hle := Nat.div_le_self n.toNat d.toNat
  have hrun := divl_eq ((1 : BitVec 64) <<< 32 * ((n >>> 32).setWidth 32 % d.setWidth 32).setWidth 64 + (n.setWidth 32).setWidth 64) hne
    (by rw [hsecond, hd0]; exact hq)
  rw [udiv64, if_pos hsmall]
  dsimp only
  rw [hrun]
  refine congrArg some (BitVec.eq_of_toNat_eq ?_)
  have hfirst : ((((n >>> 32).setWidth 32 / d.setWidth 32 : BitVec 32)).setWidth 64).toNat = n.toNat / 2 ^ 32 / d.toNat := by
    rw [BitVec.toNat_setWidth, BitVec.toNat_udiv, hn1, hd0]
    refine Nat.mod_eq_of_lt (lt_of_le_of_lt ?_ hn)
    exact (Nat.div_le_self _ _).trans (Nat.div_le_self _ _)
  rw [hsecond, hd0, BitVec.toNat_add, BitVec.toNat_mul, hb, hfirst, BitVec.toNat_setWidth, BitVec.toNat_ofNat, BitVec.toNat_udiv,
    Nat.mod_eq_of_lt hq, Nat.mod_eq_of_lt (hq.trans (by decide))]
  have hsum := hle.trans_lt hn
  rw [hdiv] at hsum ⊢
  rw [Nat.mod_eq_of_lt ((Nat.le_add_left _ _).trans_lt hsum), Nat.mod_eq_of_lt hsum]

/-- The branch for longer divisors. -/
theorem udiv64_long (hlong : d >>> 32 ≠ 0) : udiv64 n d = some (n / d) := by
  have hn := n.isLt
  have hd := d.isLt
  have hge : 2 ^ 32 ≤ d.toNat := by
    by_contra hlt
    refine hlong (BitVec.eq_of_toNat_eq ?_)
    rw [BitVec.toNat_ushiftRight, Nat.shiftRight_eq_div_pow]
    exact Nat.div_eq_of_lt (Nat.lt_of_not_le hlt)
  have hpos : 0 < d.toNat := (Nat.two_pow_pos 32).trans_le hge
  rw [udiv64, if_neg hlong]
  split_ifs with hless
  · refine congrArg some (BitVec.eq_of_toNat_eq ?_)
    rw [BitVec.toNat_udiv, Nat.div_eq_of_lt (BitVec.lt_def.1 hless)]
    rfl
  have hdn : d.toNat ≤ n.toNat := Nat.le_of_not_lt fun h => hless (BitVec.lt_def.2 h)
  have hd1 : ((d >>> 32).setWidth 32).toNat = d.toNat / 2 ^ 32 := by
    rw [BitVec.toNat_setWidth, BitVec.toNat_ushiftRight, Nat.shiftRight_eq_div_pow, Nat.mod_eq_of_lt (by omega)]
  have hne : (d >>> 32).setWidth 32 ≠ 0 := by
    intro h
    have := congrArg BitVec.toNat h
    rw [hd1] at this
    change d.toNat / 2 ^ 32 = 0 at this
    omega
  have hs := nlz_lt hne
  obtain ⟨hlow, hhigh⟩ := nlz_spec hne
  obtain ⟨s, hsd⟩ : ∃ s, s = nlz ((d >>> 32).setWidth 32) := ⟨_, rfl⟩
  dsimp only
  rw [← hsd] at hs hlow hhigh ⊢
  rw [hd1] at hlow hhigh
  -- the divisor is shifted until its first bit is set
  obtain ⟨hlow', hhigh'⟩ : 2 ^ (2 * 32 - 1) ≤ d.toNat * 2 ^ s ∧ d.toNat * 2 ^ s < 2 ^ (2 * 32) := shifted_bounds hs hlow hhigh
  have hv : ((d <<< s >>> 32).setWidth 32).toNat = d.toNat * 2 ^ s / 2 ^ 32 := by
    rw [BitVec.toNat_setWidth, BitVec.toNat_ushiftRight, BitVec.toNat_shiftLeft, Nat.shiftLeft_eq, Nat.shiftRight_eq_div_pow,
      Nat.mod_eq_of_lt hhigh']
    exact Nat.mod_eq_of_lt (by omega)
  obtain ⟨hvlow, hvhigh⟩ := leading_bounds hlow' hhigh' (by decide)
  have hvne : (d <<< s >>> 32).setWidth 32 ≠ 0 := by
    intro h
    have := congrArg BitVec.toNat h
    rw [hv] at this
    change d.toNat * 2 ^ s / 2 ^ 32 = 0 at this
    omega
  have hhalf : (n >>> 1).toNat = n.toNat / 2 := by rw [BitVec.toNat_ushiftRight, Nat.shiftRight_eq_div_pow, Nat.pow_one]
  have hfits : n.toNat / 2 / (d.toNat * 2 ^ s / 2 ^ 32) < 2 ^ 32 := by
    rw [Nat.div_lt_iff_lt_mul (by omega)]
    omega
  rw [divl_eq _ hvne (by rw [hhalf, hv]; exact hfits)]
  refine congrArg some (BitVec.eq_of_toNat_eq ?_)
  obtain ⟨q, hqd⟩ : ∃ q : BitVec 64, q = (BitVec.ofNat 32 ((n >>> 1).toNat / ((d <<< s >>> 32).setWidth 32).toNat) >>> (31 - s)).setWidth 64 :=
    ⟨_, rfl⟩
  have hq : q.toNat = n.toNat / 2 / (d.toNat * 2 ^ s / 2 ^ 32) / 2 ^ (32 - 1 - s) := by
    rw [hqd, BitVec.toNat_setWidth, BitVec.toNat_ushiftRight, BitVec.toNat_ofNat, hhalf, hv, Nat.mod_eq_of_lt hfits,
      Nat.shiftRight_eq_div_pow]
    exact Nat.mod_eq_of_lt ((Nat.div_le_self _ _).trans_lt (hfits.trans (by decide)))
  obtain ⟨hqlow, hqhigh⟩ := estimate_near hs (show n.toNat < 2 ^ (2 * 32) from hn) hlow' hhigh'
  rw [← hq] at hqlow hqhigh
  have hcorrect := correct_eq hqlow hqhigh hpos hdn
  rw [← hqd, BitVec.toNat_udiv, ← hcorrect]
  -- nothing wraps in the correction
  have hq1 : 1 ≤ q.toNat := ((Nat.le_div_iff_mul_le hpos).2 (by rwa [Nat.one_mul])).trans hqlow
  have hpred : (q - 1).toNat = q.toNat - 1 := by
    rw [BitVec.toNat_sub_of_le]
    · rfl
    · exact BitVec.le_def.2 hq1
  have hmul : (q.toNat - 1) * d.toNat ≤ n.toNat :=
    (Nat.mul_le_mul_right _ (by omega)).trans (Nat.div_mul_le_self n.toNat d.toNat)
  have hprod : ((q - 1) * d).toNat = (q.toNat - 1) * d.toNat := by
    rw [BitVec.toNat_mul, hpred, Nat.mod_eq_of_lt (hmul.trans_lt hn)]
  have hsub : (n - (q - 1) * d).toNat = n.toNat - (q.toNat - 1) * d.toNat := by
    rw [BitVec.toNat_sub_of_le (BitVec.le_def.2 (by rw [hprod]; exact hmul)), hprod]
  have hiff : n - (q - 1) * d < d ↔ n.toNat - (q.toNat - 1) * d.toNat < d.toNat := by rw [BitVec.lt_def, hsub]
  by_cases hc : n - (q - 1) * d < d
  · rw [if_pos hc, if_pos (hiff.1 hc), hpred]
  · rw [if_neg hc, if_neg fun h => hc (hiff.2 h)]

/-- **`udiv64`** is the quotient, and no `divl` traps. -/
theorem udiv64_eq (n : BitVec 64) (hd : d ≠ 0) : udiv64 n d = some (n / d) := by
  by_cases hsmall : d >>> 32 = 0
  · exact udiv64_short hd hsmall
  · exact udiv64_long hsmall

/-! ### Signed division -/

theorem absOf_eq (n : BitVec 64) : absOf n = if n.msb then -n else n := by
  unfold absOf
  have hneg : n.slt 0 = n.msb := BitVec.slt_zero_eq_msb
  rw [BitVec.sle_eq_not_slt, hneg]
  cases n.msb <;> rfl

theorem absOf_ne_zero (hd : d ≠ 0) : absOf d ≠ 0 := by
  rw [absOf_eq]
  split_ifs
  · exact fun h => hd (BitVec.neg_eq_zero_iff.1 h)
  · exact hd

/-- **`sdiv64`** is the quotient that is rounded towards zero. -/
theorem sdiv64_eq (n : BitVec 64) (hd : d ≠ 0) : sdiv64 n d = some (n.sdiv d) := by
  have hnneg : n.slt 0 = n.msb := BitVec.slt_zero_eq_msb
  have hdneg : d.slt 0 = d.msb := BitVec.slt_zero_eq_msb
  rw [sdiv64, udiv64_eq _ (absOf_ne_zero hd), absOf_eq, absOf_eq, hnneg, hdneg, BitVec.sdiv_eq]
  cases n.msb <;> cases d.msb <;> rfl

/-- **The division routines divide**: the quotient is rounded down for unsigned numbers, and towards zero for signed
ones, and no `divl` traps. -/
theorem division_exact (n d : BitVec 64) (hd : d ≠ 0) :
    (∃ q, udivdi3 n d = some q ∧ q.toNat = n.toNat / d.toNat) ∧
      (¬ (n = BitVec.intMin 64 ∧ d = -1) → ∃ q, divdi3 n d = some q ∧ q.toInt = n.toInt.tdiv d.toInt) := by
  refine ⟨⟨_, udiv64_eq n hd, BitVec.toNat_udiv⟩, fun hno => ⟨_, sdiv64_eq n hd, ?_⟩⟩
  exact BitVec.toInt_sdiv_of_ne_or_ne n d (not_and_or.1 hno)

/-- The estimate is one too large, and corrected; and the smallest number is divided. -/
theorem division_exact_corrected :
    (∃ q, udivdi3 0xffffffff00000000 0x1ffffffff = some q ∧ q.toNat = 0xffffffff00000000 / 0x1ffffffff) ∧
      ∃ q, divdi3 (BitVec.intMin 64) 3 = some q ∧ q.toInt = (BitVec.intMin 64).toInt.tdiv 3 :=
  ⟨(division_exact 0xffffffff00000000 0x1ffffffff (by decide)).1,
    (division_exact (BitVec.intMin 64) 3 (by decide)).2 (by decide)⟩

/-! ### Remainders -/

/-- The unsigned remainder is right, and fits the quotient. -/
def UnsignedRight (n d : BitVec 64) : Prop :=
  ∃ q r, udivdi3 n d = some q ∧ umoddi3 n d = some r ∧ r.toNat = n.toNat % d.toNat ∧ q * d + r = n

/-- The signed remainder is right, and fits the quotient. -/
def SignedRight (n d : BitVec 64) : Prop :=
  ∃ q r, divdi3 n d = some q ∧ moddi3 n d = some r ∧ r.toInt = n.toInt - d.toInt * n.toInt.tdiv d.toInt ∧ q * d + r = n

/-- What is left is what the quotient times the divisor misses. -/
theorem mul_add_rest (q n d : BitVec 64) : q * d + (n - d * q) = n := by
  rw [BitVec.mul_comm q, BitVec.add_comm, BitVec.sub_add_cancel]

theorem umoddi3_eq (n : BitVec 64) (hd : d ≠ 0) : umoddi3 n d = some (((n - d * (n / d)).setWidth 32).setWidth 64) := by
  rw [umoddi3, umod64, udiv64_eq n hd]
  rfl

theorem moddi3_eq (n : BitVec 64) (hd : d ≠ 0) : moddi3 n d = some (((n - d * n.sdiv d).setWidth 32).signExtend 64) := by
  rw [moddi3, smod64, sdiv64_eq n hd]
  rfl

theorem toNat_rest (n d : BitVec 64) : (n - d * (n / d)).toNat = n.toNat % d.toNat := by
  have hle : d.toNat * (n.toNat / d.toNat) ≤ n.toNat := Nat.mul_div_le n.toNat d.toNat
  have hprod : (d * (n / d)).toNat = d.toNat * (n.toNat / d.toNat) := by
    rw [BitVec.toNat_mul, BitVec.toNat_udiv, Nat.mod_eq_of_lt (hle.trans_lt n.isLt)]
  rw [BitVec.toNat_sub_of_le (BitVec.le_def.2 (hprod.trans_le hle)), hprod]
  have := Nat.div_add_mod n.toNat d.toNat
  omega

theorem toInt_rest (n d : BitVec 64) : (n - d * n.sdiv d).toInt = n.toInt.tmod d.toInt := by
  have hmod : n.toInt.tmod d.toInt = (n.toInt - d.toInt * n.toInt.tdiv d.toInt).bmod (2 ^ 64) := by
    rw [← Int.tmod_def, ← BitVec.toInt_srem, BitVec.toInt_bmod_cancel]
  rw [BitVec.toInt_sub, BitVec.toInt_mul, BitVec.toInt_sdiv, Int.sub_bmod_bmod, Int.sub_bmod, Int.mul_bmod_bmod, ← Int.sub_bmod, ← hmod]

theorem unsignedRight_iff (n : BitVec 64) (hd : d ≠ 0) : UnsignedRight n d ↔ n.toNat % d.toNat < 2 ^ 32 := by
  have hr : (((n - d * (n / d)).setWidth 32).setWidth 64).toNat = n.toNat % d.toNat % 2 ^ 32 := by
    rw [BitVec.toNat_setWidth, BitVec.toNat_setWidth, toNat_rest]
    omega
  constructor
  · rintro ⟨q, r, -, hrun, hmod, -⟩
    obtain rfl := Option.some.inj ((umoddi3_eq n hd).symm.trans hrun)
    rw [hr] at hmod
    omega
  · intro hlt
    rw [Nat.mod_eq_of_lt hlt] at hr
    refine ⟨_, _, udiv64_eq n hd, umoddi3_eq n hd, hr, ?_⟩
    rw [BitVec.eq_of_toNat_eq (hr.trans (toNat_rest n d).symm), mul_add_rest]

theorem signedRight_iff (n : BitVec 64) (hd : d ≠ 0) :
    SignedRight n d ↔ -2 ^ 31 ≤ n.toInt.tmod d.toInt ∧ n.toInt.tmod d.toInt < 2 ^ 31 := by
  have hr : (((n - d * n.sdiv d).setWidth 32).signExtend 64).toInt = (n.toInt.tmod d.toInt).bmod (2 ^ 32) := by
    rw [BitVec.toInt_signExtend_of_le (by decide), BitVec.toInt_setWidth, ← toInt_rest, BitVec.toInt_eq_toNat_bmod,
      Int.bmod_bmod_of_dvd (by decide)]
  have hmod : n.toInt - d.toInt * n.toInt.tdiv d.toInt = n.toInt.tmod d.toInt := (Int.tmod_def _ _).symm
  constructor
  · rintro ⟨q, r, -, hrun, hrem, -⟩
    obtain rfl := Option.some.inj ((moddi3_eq n hd).symm.trans hrun)
    rw [hr, hmod] at hrem
    rw [← hrem]
    exact ⟨Int.le_bmod (by decide), Int.bmod_lt (by decide)⟩
  · rintro ⟨hlow, hhigh⟩
    rw [Int.bmod_eq_of_le hlow hhigh] at hr
    refine ⟨_, _, sdiv64_eq n hd, moddi3_eq n hd, hr.trans hmod.symm, ?_⟩
    rw [BitVec.eq_of_toInt_eq (hr.trans (toInt_rest n d).symm), mul_add_rest]

/-- **When the remainder routines are right**: if the remainder fits in 32 bits, unsigned or signed. -/
theorem remainder_exact_iff (n d : BitVec 64) (hd : d ≠ 0) :
    (UnsignedRight n d ↔ n.toNat % d.toNat < 2 ^ 32) ∧
      (SignedRight n d ↔ -2 ^ 31 ≤ n.toInt.tmod d.toInt ∧ n.toInt.tmod d.toInt < 2 ^ 31) :=
  ⟨unsignedRight_iff n hd, signedRight_iff n hd⟩

/-- A timer's ticks in a day. -/
theorem remainder_exact_day : UnsignedRight 123456789012 8640000 ∧ SignedRight (-123456789012) 8640000 :=
  ⟨(remainder_exact_iff 123456789012 8640000 (by decide)).1.2 (by decide),
    (remainder_exact_iff (-123456789012) 8640000 (by decide)).2.2 (by decide)⟩

/-- **A remainder of 33 bits is cut**: 2³² divided by 2³² + 1. -/
theorem remainder_cut : umoddi3 0x100000000 0x100000001 = some 0 ∧ ¬ UnsignedRight 0x100000000 0x100000001 ∧
    moddi3 0x100000000 0x100000001 = some 0 ∧ ¬ SignedRight 0x100000000 0x100000001 := by
  have hd : (0x100000001 : BitVec 64) ≠ 0 := by decide
  refine ⟨by decide +kernel, fun h => ?_, by decide +kernel, fun h => ?_⟩
  · exact absurd ((unsignedRight_iff _ hd).1 h) (by decide)
  · exact absurd ((signedRight_iff _ hd).1 h) (by decide)

end Pintos.Arithmetic
