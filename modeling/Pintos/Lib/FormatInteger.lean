import Mathlib.Tactic.FinCases
import Mathlib.Data.Nat.Digits.Lemmas
import Pintos.Lib.Stdio
import Pintos.Library.Numerals

/-!
# `format_integer`

The numeral that `format_integer` puts into `buf`, and the characters around it. The
buffer is never full (`formatInteger_eq`).
-/

namespace Pintos.Stdio

open Library Library.Bytes Library.Numerals

/-! ### Bases -/

/-- The bases of integer conversions. -/
def bases : List IntegerBase := [baseD, baseO, baseX, baseXUpper]

namespace IntegerBase

variable (b : IntegerBase)

/-- The digit `i`. -/
def digit (i : ℕ) : UInt8 := b.digits.getD i 0

/-- The value of a digit. -/
def val (ch : UInt8) : Option ℕ := if ch ∈ b.digits then some (b.digits.idxOf ch) else none

/-- What the four bases have in common. -/
structure Valid : Prop where
  low : 8 ≤ b.base
  high : b.base ≤ 16
  length : b.digits.length = b.base
  nodup : b.digits.Nodup
  zero : b.digit 0 = '0'.toUInt8
  comma : ','.toUInt8 ∉ b.digits
  group : 3 ≤ b.group

theorem valid_of_mem {b : IntegerBase} (h : b ∈ bases) : b.Valid := by
  fin_cases h <;> exact ⟨by decide, by decide, by decide, by decide, by decide, by decide, by decide⟩

variable {b}

namespace Valid

variable (h : b.Valid)

include h

theorem digit_mem {i : ℕ} (hi : i < b.base) : b.digit i ∈ b.digits := by
  rw [← h.length] at hi
  rw [digit, List.getD_eq_getElem _ _ hi]
  exact List.getElem_mem hi

theorem val_digit : ∀ i < b.base, b.val (b.digit i) = some i := by
  intro i hi
  rw [val, if_pos (h.digit_mem hi)]
  rw [← h.length] at hi
  rw [digit, List.getD_eq_getElem _ _ hi, h.nodup.idxOf_getElem]

theorem val_comma : b.val ','.toUInt8 = none := by rw [val, if_neg h.comma]

theorem digit_ne_zero {i : ℕ} (hpos : 0 < i) (hi : i < b.base) : b.digit i ≠ '0'.toUInt8 := by
  intro heq
  have hval := h.val_digit i hi
  rw [heq, ← h.zero, h.val_digit 0 (by have := h.low; omega), Option.some.injEq] at hval
  omega

end Valid

end IntegerBase

/-! ### The loops -/

/-- Whether there is a comma before the digit `k`. -/
def commaAt (group : Bool) (b : IntegerBase) (k : ℕ) : Bool := group && (decide (0 < k) && decide (k % b.group = 0))

/-- The digits of `value` with their commas, the last one first. -/
def digitsRev (group : Bool) (b : IntegerBase) (value : ℕ) : List UInt8 :=
  emit b.base b.digit ','.toUInt8 (commaAt group b) 64 0 value

theorem push_ok {buf : List UInt8} {ch : UInt8} (h : buf.length < 64) : push buf ch = .ok (buf ++ [ch]) := if_pos h

/-- **The loop over the digits** writes the numeral, if there is room for it. -/
theorem accumulate_eq {group : Bool} {b : IntegerBase} {n k value : ℕ} {buf : List UInt8} (hv : value < b.base ^ n)
    (hroom : buf.length + (emit b.base b.digit ','.toUInt8 (commaAt group b) n k value).length ≤ 64) :
    accumulate group b n k value buf = .ok (buf ++ emit b.base b.digit ','.toUInt8 (commaAt group b) n k value) := by
  induction n generalizing k value buf with
  | zero =>
    rw [Nat.pow_zero, Nat.lt_one_iff] at hv
    simp [accumulate, emit, hv]
  | succ n ih =>
    by_cases h0 : value = 0
    · simp [accumulate, h0, emit_zero_value]
    · rw [emit_succ h0] at hroom ⊢
      rw [accumulate, if_neg h0, Bool.and_assoc]
      change (do
        let buf ← if commaAt group b k then push buf ','.toUInt8 else pure buf
        let buf ← push buf (b.digit (value % b.base))
        accumulate group b n (k + 1) (value / b.base) buf) = _
      cases hc : commaAt group b k with
      | false =>
        rw [hc] at hroom
        simp only [Bool.false_eq_true, if_false, List.nil_append, List.length_cons] at hroom ⊢
        rw [pure_bind, push_ok (by omega)]
        change accumulate group b n (k + 1) (value / b.base) (buf ++ [b.digit (value % b.base)]) = _
        rw [ih (div_lt_pow hv) (by simp only [List.length_append, List.length_singleton]; omega)]
        simp
      | true =>
        rw [hc] at hroom
        simp only [if_true, List.length_append, List.length_cons, List.length_nil] at hroom ⊢
        rw [push_ok (by omega)]
        change (push (buf ++ [','.toUInt8]) (b.digit (value % b.base)) >>= accumulate group b n (k + 1) (value / b.base)) = _
        rw [push_ok (by simp only [List.length_append, List.length_singleton]; omega)]
        change accumulate group b n (k + 1) (value / b.base) (buf ++ [','.toUInt8] ++ [b.digit (value % b.base)]) = _
        rw [ih (div_lt_pow hv) (by simp only [List.length_append, List.length_singleton]; omega)]
        simp

/-- The zeros that are missing up to a precision, of which at most 63 count. -/
def missing (precision : ℤ) (len : ℕ) : ℕ := (min precision 63 - len).toNat

/-- **The loop that appends zeros.** -/
theorem appendZeros_eq {precision : ℤ} {n : ℕ} {buf : List UInt8} (h0 : 0 < n) (hn : 63 < n + buf.length) :
    appendZeros precision n buf = .ok (buf ++ List.replicate (missing precision buf.length) '0'.toUInt8) := by
  induction n generalizing buf with
  | zero => exact absurd h0 (Nat.lt_irrefl 0)
  | succ n ih =>
    rw [appendZeros]
    split_ifs with hlt
    · have hlen : (buf ++ ['0'.toUInt8]).length = buf.length + 1 := by simp
      have hm : missing precision buf.length = missing precision (buf ++ ['0'.toUInt8]).length + 1 := by
        unfold missing
        omega
      rw [push_ok (by omega)]
      change appendZeros precision n (buf ++ ['0'.toUInt8]) = _
      rw [ih (by omega) (by omega), hm, List.replicate_succ]
      simp
    · have hm : missing precision buf.length = 0 := by
        unfold missing
        omega
      rw [hm]
      simp

/-! ### The numeral -/

/-- The precision that is rendered. -/
def renderedPrecision (c : Conversion) : ℤ := if c.precision < 0 then 1 else c.precision

/-- What the loops put into `buf`. -/
def paddedRev (c : Conversion) (b : IntegerBase) (value : ℕ) : List UInt8 :=
  digitsRev c.flags.group b value ++
    List.replicate (missing (renderedPrecision c) (digitsRev c.flags.group b value).length) '0'.toUInt8

/-- What is in `buf` at the end. -/
def numeralRev (c : Conversion) (b : IntegerBase) (value : ℕ) : List UInt8 :=
  if c.flags.pound && decide (b.base = 8) && decide ((paddedRev c b value).getLast? ≠ some '0'.toUInt8) then
    paddedRev c b value ++ ['0'.toUInt8]
  else paddedRev c b value

/-- The number of digits and commas. -/
def digitsLength (group : Bool) (b : IntegerBase) (value : ℕ) : ℕ :=
  (Nat.digits b.base value).length + if group then ((Nat.digits b.base value).length - 1) / b.group else 0

/-- The number of characters of a numeral: its digits and commas, or as many as the precision asks for, up to 63, and the
zero that the flag `#` puts before an octal numeral without one. -/
def numeralLength (group pound : Bool) (precision : ℤ) (b : IntegerBase) (value : ℕ) : ℕ :=
  max (digitsLength group b value) (min precision 63).toNat +
    if pound && decide (b.base = 8) && decide (precision ≤ digitsLength group b value) then 1 else 0

variable {b : IntegerBase} {value : ℕ} {group : Bool} {c : Conversion}

theorem value_lt_pow (hb : b.Valid) (hv : value < 2 ^ 64) : value < b.base ^ 22 :=
  hv.trans_le ((show 2 ^ 64 ≤ 8 ^ 22 by norm_num).trans (Nat.pow_le_pow_left hb.low 22))

theorem value_lt_pow_fuel (hb : b.Valid) (hv : value < 2 ^ 64) : value < b.base ^ 64 :=
  (value_lt_pow hb hv).trans_le (Nat.pow_le_pow_right (by have := hb.low; omega) (by decide))

theorem length_digitsRev (hb : b.Valid) (hv : value < 2 ^ 64) : (digitsRev group b value).length = digitsLength group b value := by
  rw [digitsRev, length_emit (by have := hb.low; omega) (value_lt_pow_fuel hb hv), digitsLength]
  congr 1
  cases group with
  | false => simp [commaAt]
  | true => exact countP_multiples _

theorem digitsLength_le (hb : b.Valid) (hv : value < 2 ^ 64) : digitsLength group b value ≤ 29 := by
  have hlen : (Nat.digits b.base value).length ≤ 22 :=
    (Nat.digits_length_le_iff (by have := hb.low; omega) value).2 (value_lt_pow hb hv)
  have hcommas : ((Nat.digits b.base value).length - 1) / b.group ≤ 7 :=
    (Nat.div_le_div_left hb.group (by decide)).trans ((Nat.div_le_div_right (by omega)).trans (show 21 / 3 ≤ 7 by decide))
  unfold digitsLength
  split_ifs <;> omega

theorem length_paddedRev (hb : b.Valid) (hv : value < 2 ^ 64) : (paddedRev c b value).length =
    max (digitsLength c.flags.group b value) (min (renderedPrecision c) 63).toNat := by
  rw [paddedRev, List.length_append, List.length_replicate, length_digitsRev hb hv, missing]
  omega

/-- The first character is a zero exactly if one was appended. -/
theorem getLast_paddedRev (hb : b.Valid) (hv : value < 2 ^ 64) :
    (paddedRev c b value).getLast? = some '0'.toUInt8 ↔ (digitsLength c.flags.group b value : ℤ) < renderedPrecision c := by
  have hlen := @length_digitsRev b value c.flags.group hb hv
  have hle := @digitsLength_le b value c.flags.group hb hv
  have hbase : 1 < b.base := by have := hb.low; omega
  rw [paddedRev, hlen, List.getLast?_append]
  by_cases hlt : (digitsLength c.flags.group b value : ℤ) < renderedPrecision c
  · obtain ⟨m, hm⟩ : ∃ m, missing (renderedPrecision c) (digitsLength c.flags.group b value) = m + 1 := by
      unfold missing
      exact ⟨(min (renderedPrecision c) 63 - digitsLength c.flags.group b value).toNat - 1, by omega⟩
    simp [hm, hlt, List.getLast?_replicate]
  · have hm : missing (renderedPrecision c) (digitsLength c.flags.group b value) = 0 := by
      unfold missing
      omega
    rw [hm]
    refine iff_of_false ?_ hlt
    by_cases h0 : value = 0
    · subst h0
      simp [digitsRev, emit_zero_value]
    · obtain ⟨i, hpos, hi, hlast⟩ := @getLast_emit _ b.base b.digit ','.toUInt8 (commaAt c.flags.group b) _ 0 value
        hbase (value_lt_pow_fuel hb hv) h0
      rw [digitsRev, hlast]
      simp only [List.replicate_zero, List.getLast?_nil, Option.none_or, Option.some.injEq]
      exact hb.digit_ne_zero hpos hi

theorem length_numeralRev (hb : b.Valid) (hv : value < 2 ^ 64) :
    (numeralRev c b value).length = numeralLength c.flags.group c.flags.pound (renderedPrecision c) b value := by
  have hlast := getLast_paddedRev (c := c) hb hv
  have hdec : decide ((paddedRev c b value).getLast? ≠ some '0'.toUInt8) =
      decide (renderedPrecision c ≤ digitsLength c.flags.group b value) := by
    rw [decide_eq_decide, ne_eq, hlast, not_lt]
  rw [numeralRev, numeralLength, hdec]
  split_ifs
  · rw [List.length_append, length_paddedRev hb hv, List.length_singleton]
  · rw [length_paddedRev hb hv, Nat.add_zero]

theorem length_numeralRev_le (hb : b.Valid) (hv : value < 2 ^ 64) : (numeralRev c b value).length ≤ 64 := by
  have hle := @digitsLength_le b value c.flags.group hb hv
  rw [length_numeralRev hb hv, numeralLength]
  split_ifs <;> omega

/-- **The numeral is read back.** -/
theorem read_numeralRev (hb : b.Valid) (hv : value < 2 ^ 64) : Numerals.read b.base b.val (numeralRev c b value).reverse = value := by
  have hbase : 0 < b.base := by have := hb.low; omega
  have hzero : b.val (b.digit 0) = some 0 := hb.val_digit 0 hbase
  have hread : readRev b.base b.val (digitsRev c.flags.group b value) = value :=
    readRev_emit hbase hb.val_digit hb.val_comma (value_lt_pow_fuel hb hv)
  have hpadded : readRev b.base b.val (paddedRev c b value) = value := by
    rw [paddedRev, ← hb.zero, readRev_append_zeros hzero, hread]
  rw [Numerals.read, List.reverse_reverse, numeralRev]
  split_ifs
  · rw [← hb.zero]
    exact (readRev_append_zeros hzero (paddedRev c b value) 1).trans hpadded
  · exact hpadded

/-- The numeral has only digits, and commas if there is the flag for them. -/
theorem mem_numeralRev (hb : b.Valid) {ch : UInt8} (hch : ch ∈ numeralRev c b value) : ch = ','.toUInt8 ∨ ch ∈ b.digits := by
  have hbase : 0 < b.base := by have := hb.low; omega
  have hzero : '0'.toUInt8 ∈ b.digits := hb.zero ▸ hb.digit_mem hbase
  have hpadded : ch ∈ paddedRev c b value → ch = ','.toUInt8 ∨ ch ∈ b.digits := by
    intro h
    rcases List.mem_append.1 h with h | h
    · rcases mem_emit hbase h with h | ⟨i, hi, rfl⟩
      · exact .inl h
      · exact .inr (hb.digit_mem hi)
    · rw [List.eq_of_mem_replicate h]
      exact .inr hzero
  unfold numeralRev at hch
  split_ifs at hch
  · rcases List.mem_append.1 hch with h | h
    · exact hpadded h
    · rw [List.mem_singleton.1 h]
      exact .inr hzero
  · exact hpadded hch

/-! ### The whole conversion -/

/-- The `x` character, or 0. -/
def xOf (c : Conversion) (b : IntegerBase) (value : ℕ) : UInt8 := if c.flags.pound && decide (value ≠ 0) then b.x else 0

/-- The number of pad characters, for a body of `len` characters. -/
def padOf (c : Conversion) (len : ℕ) : ℕ := (wrap (c.width - len)).toNat

/-- What is output before the padding of a number that is not left-justified: its sign and its prefix. -/
def front (sign x : UInt8) : List UInt8 := (if sign ≠ 0 then [sign] else []) ++ (if x ≠ 0 then ['0'.toUInt8, x] else [])

/-- The characters of a conversion, with `pad` pad characters. -/
def layout (f : Flags) (pad : ℕ) (front numeral : List UInt8) : List UInt8 :=
  (if !f.minus && !f.zero then List.replicate pad ' '.toUInt8 else []) ++ front ++
    (if f.zero then List.replicate pad '0'.toUInt8 else []) ++ numeral ++
    (if f.minus then List.replicate pad ' '.toUInt8 else [])

/-- **`format_integer`** does not fill `buf`, and outputs the numeral with what belongs around it. -/
theorem formatInteger_eq (hb : b.Valid) (hv : value < 2 ^ 64) (isSigned negative : Bool) (c : Conversion) :
    formatInteger value isSigned negative b c = .ok (layout c.flags
      (padOf c ((front (signOf isSigned negative c.flags) (xOf c b value)).length + (numeralRev c b value).length))
      (front (signOf isSigned negative c.flags) (xOf c b value)) (numeralRev c b value).reverse) := by
  have hdigits := @digitsLength_le b value c.flags.group hb hv
  rw [← length_digitsRev hb hv] at hdigits
  have hloop : accumulate c.flags.group b 64 0 value [] = pure (digitsRev c.flags.group b value) :=
    accumulate_eq (value_lt_pow_fuel hb hv) (by change 0 + (digitsRev c.flags.group b value).length ≤ 64; omega)
  have hzeros : appendZeros (renderedPrecision c) 64 (digitsRev c.flags.group b value) = pure (paddedRev c b value) :=
    appendZeros_eq (by decide) (by omega)
  have hroom : (paddedRev c b value).length < 64 := by
    rw [length_paddedRev hb hv, ← length_digitsRev hb hv]
    omega
  have hend : octalZero c.flags.pound b (paddedRev c b value) = pure (numeralRev c b value) := by
    rw [octalZero, push_ok hroom, numeralRev]
    split_ifs <;> rfl
  have hlen : ((front (signOf isSigned negative c.flags) (xOf c b value)).length : ℤ) =
      (if xOf c b value ≠ 0 then 2 else 0) + (if signOf isSigned negative c.flags ≠ 0 then 1 else 0) := by
    unfold front
    split_ifs <;> simp
  have hpad : ∀ p : ℤ, (if p < 0 then 0 else p).toNat = p.toNat := by
    intro p
    split_ifs <;> omega
  have hwidth : c.width - (numeralRev c b value).length - (if xOf c b value ≠ 0 then 2 else 0) -
      (if signOf isSigned negative c.flags ≠ 0 then 1 else 0) =
      c.width - ((front (signOf isSigned negative c.flags) (xOf c b value)).length + (numeralRev c b value).length : ℕ) := by
    rw [Nat.cast_add, hlen]
    omega
  unfold formatInteger
  dsimp only
  rw [hloop, pure_bind, ← renderedPrecision, hzeros, pure_bind, hend, pure_bind]
  unfold outputDup
  rw [← xOf, hwidth, hpad, ← padOf]
  simp only [layout, front, List.append_assoc]
  rfl

end Pintos.Stdio
