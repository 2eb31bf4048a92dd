import Pintos.Lib.Formats

/-!
# Integer conversions

What `format_integer` outputs for a specification that `parse_conversion` has read. It
is as wide as the specification asks for, with the padding on one side, and the
number can be read back, except that a negative width from the arguments comes too
late for the flag `0`, which `-` would have cleared: then the number is padded twice
(`integer_renders_iff`).
-/

namespace Pintos.Stdio

open Library Library.Bytes

/-! ### What a specification says -/

/-- The number that digits stand for. -/
def decimal (ds : List UInt8) : ℕ := ds.foldl (fun n ch => n * 10 + (ch.toNat - 48)) 0

namespace Count

/-- The number that a specification says. -/
def value (args : Args) : Count → ℤ
  | digits ds => decimal ds
  | star => (args 0).toInt

/-- Digits stand for a number that is an `int`. -/
def Fits : Count → Prop
  | digits ds => decimal ds < 2 ^ 31
  | star => True

variable {k : Count} {s : List UInt8}

theorem le_foldl_decimal (ds : List UInt8) (n : ℕ) : n ≤ ds.foldl (fun n ch => n * 10 + (ch.toNat - 48)) n := by
  induction ds generalizing n with
  | nil => exact le_rfl
  | cons ch ds ih =>
    rw [List.foldl_cons]
    exact le_trans (by omega) (ih _)

theorem wrapped_eq {ds : List UInt8} {n : ℕ} (hds : ∀ ch ∈ ds, isDigit ch = true)
    (hlt : ds.foldl (fun n ch => n * 10 + (ch.toNat - 48)) n < 2 ^ 31) :
    wrapped ds n = (ds.foldl (fun n ch => n * 10 + (ch.toNat - 48)) n : ℕ) := by
  induction ds generalizing n with
  | nil => rfl
  | cons ch ds ih =>
    rw [List.foldl_cons] at hlt ⊢
    have h48 : 48 ≤ ch.toNat := by
      have hch := hds ch List.mem_cons_self
      exact UInt8.le_iff_toNat_le.1 (of_decide_eq_true (Bool.and_eq_true_iff.1 hch).1)
    have hle := le_foldl_decimal ds (n * 10 + (ch.toNat - 48))
    have hstep : wrap ((n : ℤ) * 10 + ch.toNat - 48) = (n * 10 + (ch.toNat - 48) : ℕ) := by
      have heq : (n : ℤ) * 10 + ch.toNat - 48 = (n * 10 + (ch.toNat - 48) : ℕ) := by omega
      rw [heq]
      exact toSigned_ofSigned ⟨by omega, by omega⟩
    change wrapped ds (wrap ((n : ℤ) * 10 + ch.toNat - 48)) = _
    rw [hstep]
    exact ih (fun c hc => hds c (List.mem_cons_of_mem ch hc)) hlt

/-- The number that is read is the one that the specification says. -/
theorem code_eq (h : k.Ends s) (hf : k.Fits) (args : Args) : k.code args = k.value args := by
  cases k with
  | star => rfl
  | digits ds => exact wrapped_eq (n := 0) h.1 hf

theorem inRange_value (hf : k.Fits) (args : Args) : InRange (k.value args) := by
  cases k with
  | star => exact ⟨(args 0).le_toInt, (args 0).toInt_lt⟩
  | digits ds => 
    have hlt : decimal ds < 2 ^ 31 := hf
    exact ⟨by change -2 ^ 31 ≤ (decimal ds : ℤ); omega, by change (decimal ds : ℤ) < 2 ^ 31; omega⟩

end Count

namespace Spec

variable (sp : Spec)

/-- Whether there is the flag `ch`. -/
def has (ch : UInt8) : Bool := decide (ch ∈ sp.flags)

/-- The width, of either sign. -/
def widthValue (args : Args) : ℤ := sp.width.value args

/-- The precision, which is negative if there is none. -/
def precisionValue (args : Args) : ℤ :=
  match sp.precision with
  | none => -1
  | some k => k.value (sp.width.rest args)

/-- The precision that is rendered. -/
def rendered (args : Args) : ℤ := if sp.precisionValue args < 0 then 1 else sp.precisionValue args

/-- The precision is one of at most 63, or there is none. -/
def PrecisionFits (args : Args) : Prop := (∀ k ∈ sp.precision, k.Fits) ∧ sp.precisionValue args ≤ 63

/-- The sign: it is shown for a negative number, or if a flag asks for it. An unsigned conversion has none. -/
def sign (isSigned negative : Bool) : List UInt8 :=
  if isSigned then
    if negative then ['-'.toUInt8] else if sp.has '+'.toUInt8 then ['+'.toUInt8] else if sp.has ' '.toUInt8 then [' '.toUInt8] else []
  else []

/-- `0x`, or nothing. -/
def radix (b : IntegerBase) (value : ℕ) : List UInt8 :=
  if sp.has '#'.toUInt8 = true ∧ value ≠ 0 ∧ b.x ≠ 0 then ['0'.toUInt8, b.x] else []

/-- The number of characters without padding. -/
def bodyLength (args : Args) (isSigned negative : Bool) (b : IntegerBase) (value : ℕ) : ℕ :=
  (sp.sign isSigned negative).length + (sp.radix b value).length +
    numeralLength (sp.has 39) (sp.has '#'.toUInt8) (sp.rendered args) b value

/-- Whether the number stands on the left. -/
def LeftJustified (args : Args) : Prop := sp.has '-'.toUInt8 = true ∨ sp.widthValue args < 0

/-- **What is asked of the characters**: the body is the sign, the prefix and a numeral, which is read back; together with the
padding it has the width that is asked for; and the padding is on the right exactly for a number that stands on the left. -/
def Renders (args : Args) (isSigned negative : Bool) (b : IntegerBase) (value : ℕ) (out : List UInt8) : Prop :=
  ∃ (left zeros right : ℕ) (numeral : List UInt8),
    out = List.replicate left ' '.toUInt8 ++ (sp.sign isSigned negative ++ sp.radix b value) ++ List.replicate zeros '0'.toUInt8 ++
      numeral ++ List.replicate right ' '.toUInt8 ∧
    (∀ ch ∈ numeral, ch = ','.toUInt8 ∨ ch ∈ b.digits) ∧ Numerals.read b.base b.val numeral = value ∧
    (sp.sign isSigned negative).length + (sp.radix b value).length + numeral.length = sp.bodyLength args isSigned negative b value ∧
    out.length = max (sp.widthValue args).natAbs (sp.bodyLength args isSigned negative b value) ∧
    (sp.LeftJustified args → left = 0 ∧ zeros = 0) ∧ (¬ sp.LeftJustified args → right = 0)

/-- Both kinds of padding are asked for: the flag `0` is there and not cleared, and the width is negative. -/
def PaddedTwice (args : Args) : Prop :=
  sp.has '0'.toUInt8 = true ∧ sp.has '-'.toUInt8 = false ∧ sp.precisionValue args < 0 ∧ sp.widthValue args < 0

end Spec

/-! ### The conversion that is read -/

theorem foldl_addFlag (fl : List UInt8) (f : Flags) : fl.foldl addFlag f =
    ⟨f.minus || decide ('-'.toUInt8 ∈ fl), f.plus || decide ('+'.toUInt8 ∈ fl), f.space || decide (' '.toUInt8 ∈ fl),
      f.pound || decide ('#'.toUInt8 ∈ fl), f.zero || decide ('0'.toUInt8 ∈ fl), f.group || decide ((39 : UInt8) ∈ fl)⟩ := by
  induction fl generalizing f with
  | nil => simp
  | cons ch fl ih =>
    rw [List.foldl_cons, ih]
    unfold addFlag setFlag
    split_ifs with h1 h2 h3 h4 h5 h6
    · subst h1; simp +decide
    · subst h2; simp +decide
    · subst h3; simp +decide
    · subst h4; simp +decide
    · subst h5; simp +decide
    · subst h6; simp +decide
    · simp [Ne.symm h1, Ne.symm h2, Ne.symm h3, Ne.symm h4, Ne.symm h5, Ne.symm h6]

namespace Spec

variable {sp : Spec} {args : Args} {s : List UInt8} {b : IntegerBase} {value : ℕ} {isSigned negative : Bool}

theorem flagsOf_eq (sp : Spec) : flagsOf sp.flags =
    ⟨sp.has '-'.toUInt8, sp.has '+'.toUInt8, sp.has ' '.toUInt8, sp.has '#'.toUInt8, sp.has '0'.toUInt8, sp.has 39⟩ := by
  rw [flagsOf, foldl_addFlag]
  simp [has]

theorem precisionCode_eq (h : sp.Ends s) (hp : sp.PrecisionFits args) :
    sp.precisionCode (sp.width.rest args) = if sp.precisionValue args < 0 then -1 else sp.precisionValue args := by
  have hends := h.precision
  have hfits := hp.1
  unfold precisionCode precisionValue
  cases hsp : sp.precision with
  | none => rfl
  | some k =>
    rw [hsp] at hends hfits
    dsimp only
    rw [Count.code_eq hends (hfits k rfl)]

/-- **The conversion that is read**: of the two flags for a sign, `+` counts, and `-` and a precision clear `0`. -/
theorem conversion_eq (h : sp.Ends s) (hw : sp.width.Fits) (hp : sp.PrecisionFits args) : sp.conversion args =
    { flags :=
        { minus := sp.has '-'.toUInt8 || decide (sp.widthValue args < 0)
          plus := sp.has '+'.toUInt8
          space := sp.has ' '.toUInt8 && !sp.has '+'.toUInt8
          pound := sp.has '#'.toUInt8
          zero := sp.has '0'.toUInt8 && !sp.has '-'.toUInt8 && decide (sp.precisionValue args < 0)
          group := sp.has 39 }
      width := if sp.widthValue args < 0 then wrap (-sp.widthValue args) else sp.widthValue args
      precision := if sp.precisionValue args < 0 then -1 else sp.precisionValue args
      type := sp.type } := by
  unfold conversion
  rw [precisionCode_eq h hp, Count.code_eq h.width hw, flagsOf_eq, ← widthValue]
  by_cases hP : sp.precisionValue args < 0
  · cases hm : sp.has '-'.toUInt8 <;> cases ha : sp.has '+'.toUInt8 <;> by_cases hW : sp.widthValue args < 0 <;> simp [hP, hW]
  · cases hm : sp.has '-'.toUInt8 <;> cases ha : sp.has '+'.toUInt8 <;> by_cases hW : sp.widthValue args < 0 <;>
      simp [hP, hW, not_lt.1 hP]

/-! ### What is output -/

theorem front_eq (h : sp.Ends s) (hw : sp.width.Fits) (hp : sp.PrecisionFits args) :
    front (signOf isSigned negative (sp.conversion args).flags) (xOf (sp.conversion args) b value) =
      sp.sign isSigned negative ++ sp.radix b value := by
  rw [conversion_eq h hw hp]
  unfold front
  congr 1
  · unfold signOf sign
    cases isSigned <;> cases negative <;> cases sp.has '+'.toUInt8 <;> cases sp.has ' '.toUInt8 <;> simp +decide
  · unfold xOf radix
    by_cases hv : value = 0
    · simp [hv]
    · cases sp.has '#'.toUInt8 <;> simp [hv]

theorem numeralLength_eq (h : sp.Ends s) (hw : sp.width.Fits) (hp : sp.PrecisionFits args) (hx : b.Valid) (hv : value < 2 ^ 64) :
    (numeralRev (sp.conversion args) b value).length = numeralLength (sp.has 39) (sp.has '#'.toUInt8) (sp.rendered args) b value := by
  have hr : renderedPrecision (sp.conversion args) = sp.rendered args := by
    rw [conversion_eq h hw hp]
    unfold renderedPrecision rendered
    dsimp only
    split_ifs <;> omega
  rw [length_numeralRev hx hv, hr, conversion_eq h hw hp]

/-- The body has at most 67 characters: the buffer, a prefix and a sign. -/
theorem bodyLength_le (hx : b.Valid) (hv : value < 2 ^ 64) : sp.bodyLength args isSigned negative b value ≤ 67 := by
  have hd := @digitsLength_le b value (sp.has 39) hx hv
  have hs : (sp.sign isSigned negative).length ≤ 1 := by
    unfold sign
    split_ifs <;> simp
  have hr : (sp.radix b value).length ≤ 2 := by
    unfold radix
    split_ifs <;> simp
  unfold bodyLength numeralLength
  split_ifs <;> omega

/-- Without a precision there is at least one digit. -/
theorem bodyLength_pos (h : sp.precisionValue args < 0) : 0 < sp.bodyLength args isSigned negative b value := by
  have hr : sp.rendered args = 1 := if_pos h
  unfold bodyLength numeralLength
  rw [hr]
  omega

/-- The number of pad characters on each side that has some. -/
def pad (sp : Spec) (args : Args) (isSigned negative : Bool) (b : IntegerBase) (value : ℕ) : ℕ :=
  padOf (sp.conversion args) (sp.bodyLength args isSigned negative b value)

theorem pad_eq (h : sp.Ends s) (hw : sp.width.Fits) (hp : sp.PrecisionFits args) (hx : b.Valid) (hv : value < 2 ^ 64)
    (hmin : ¬ (sp.widthValue args = -2 ^ 31 ∧ sp.bodyLength args isSigned negative b value = 0)) :
    sp.pad args isSigned negative b value = (sp.widthValue args).natAbs - sp.bodyLength args isSigned negative b value := by
  have hL := @bodyLength_le sp args b value isSigned negative hx hv
  have hW : InRange (sp.widthValue args) := Count.inRange_value hw args
  unfold InRange at hW
  rw [pad, padOf, conversion_eq h hw hp]
  dsimp only
  generalize sp.widthValue args = W at hW hmin
  generalize sp.bodyLength args isSigned negative b value = L at hL hmin
  by_cases h0 : W < 0
  · rw [if_pos h0]
    by_cases hW' : W = -2 ^ 31
    · -- the width is not negated, but with the body subtracted it wraps around
      have hwrap : wrap (wrap (-W) - L) = 2 ^ 31 - L := by
        rw [hW']
        unfold wrap toSigned ofSigned
        omega
      rw [hwrap]
      omega
    · rw [wrap_eq (x := -W) ⟨by omega, by omega⟩, wrap_eq ⟨by omega, by omega⟩]
      omega
  · rw [if_neg h0, wrap_eq ⟨by omega, by omega⟩]
    omega

theorem length_layout (f : Flags) (n : ℕ) (fr num : List UInt8) :
    (layout f n fr num).length = fr.length + num.length + if f.zero && f.minus then 2 * n else n := by
  unfold layout
  cases f.minus <;> cases f.zero <;> simp <;> omega

/-- The characters of a conversion. -/
def output (sp : Spec) (args : Args) (isSigned negative : Bool) (b : IntegerBase) (value : ℕ) : List UInt8 :=
  layout (sp.conversion args).flags (sp.pad args isSigned negative b value) (sp.sign isSigned negative ++ sp.radix b value)
    (numeralRev (sp.conversion args) b value).reverse

/-- **What `format_integer` outputs**, and that `buf` has room for it. -/
theorem formatInteger_conversion (h : sp.Ends s) (hw : sp.width.Fits) (hp : sp.PrecisionFits args) (hx : b.Valid)
    (hv : value < 2 ^ 64) : formatInteger value isSigned negative b (sp.conversion args) =
      .ok (sp.output args isSigned negative b value) := by
  rw [formatInteger_eq hx hv, front_eq h hw hp, numeralLength_eq h hw hp hx hv, List.length_append]
  rfl

theorem minus_iff (h : sp.Ends s) (hw : sp.width.Fits) (hp : sp.PrecisionFits args) :
    (sp.conversion args).flags.minus = true ↔ sp.LeftJustified args := by
  rw [conversion_eq h hw hp]
  simp [LeftJustified]

theorem zero_iff (h : sp.Ends s) (hw : sp.width.Fits) (hp : sp.PrecisionFits args) : (sp.conversion args).flags.zero = true ↔
    sp.has '0'.toUInt8 = true ∧ sp.has '-'.toUInt8 = false ∧ sp.precisionValue args < 0 := by
  rw [conversion_eq h hw hp]
  simp [and_assoc]

/-- Both flags are there if the number is padded twice. -/
theorem paddedTwice_iff (h : sp.Ends s) (hw : sp.width.Fits) (hp : sp.PrecisionFits args) : sp.PaddedTwice args ↔
    (sp.conversion args).flags.zero = true ∧ (sp.conversion args).flags.minus = true := by
  rw [zero_iff h hw hp, minus_iff h hw hp]
  constructor
  · rintro ⟨h0, hminus, hprec, hW⟩
    exact ⟨⟨h0, hminus, hprec⟩, .inr hW⟩
  · rintro ⟨⟨h0, hminus, hprec⟩, hl | hW⟩
    · rw [hminus] at hl
      cases hl
    · exact ⟨h0, hminus, hprec, hW⟩

/-- The number of characters. -/
theorem length_output (h : sp.Ends s) (hw : sp.width.Fits) (hp : sp.PrecisionFits args) (hx : b.Valid) (hv : value < 2 ^ 64) :
    (sp.output args isSigned negative b value).length = sp.bodyLength args isSigned negative b value +
      if (sp.conversion args).flags.zero && (sp.conversion args).flags.minus then 2 * sp.pad args isSigned negative b value
      else sp.pad args isSigned negative b value := by
  rw [output, length_layout, List.length_append, List.length_reverse, numeralLength_eq h hw hp hx hv]
  rfl

/-- It is the one that is asked for, if the padding is output once. -/
theorem length_output_eq (h : sp.Ends s) (hw : sp.width.Fits) (hp : sp.PrecisionFits args) (hx : b.Valid) (hv : value < 2 ^ 64)
    (hmin : ¬ (sp.widthValue args = -2 ^ 31 ∧ sp.bodyLength args isSigned negative b value = 0))
    (honce : sp.PaddedTwice args → sp.pad args isSigned negative b value = 0) :
    (sp.output args isSigned negative b value).length =
      max (sp.widthValue args).natAbs (sp.bodyLength args isSigned negative b value) := by
  have hn := pad_eq h hw hp hx hv hmin
  rw [paddedTwice_iff h hw hp] at honce
  rw [length_output h hw hp hx hv]
  split_ifs with hboth
  · rw [Bool.and_eq_true] at hboth
    have := honce hboth
    omega
  · omega

/-- **The characters of a conversion are those that are asked for**, as long as not both sides are padded. -/
theorem renders_output (h : sp.Ends s) (hw : sp.width.Fits) (hp : sp.PrecisionFits args) (hx : b.Valid) (hv : value < 2 ^ 64)
    (hmin : ¬ (sp.widthValue args = -2 ^ 31 ∧ sp.bodyLength args isSigned negative b value = 0))
    (hpad : ¬ (sp.PaddedTwice args ∧ sp.bodyLength args isSigned negative b value < (sp.widthValue args).natAbs)) :
    sp.Renders args isSigned negative b value (sp.output args isSigned negative b value) := by
  have honce : sp.PaddedTwice args → sp.pad args isSigned negative b value = 0 := by
    intro htwice
    rw [pad_eq h hw hp hx hv hmin]
    have hle : ¬ sp.bodyLength args isSigned negative b value < (sp.widthValue args).natAbs := fun hlt => hpad ⟨htwice, hlt⟩
    omega
  have hlength := length_output_eq h hw hp hx hv hmin honce
  have hbody : (sp.sign isSigned negative).length + (sp.radix b value).length +
      (numeralRev (sp.conversion args) b value).reverse.length = sp.bodyLength args isSigned negative b value := by
    rw [List.length_reverse, numeralLength_eq h hw hp hx hv]
    rfl
  have hmem : ∀ ch ∈ (numeralRev (sp.conversion args) b value).reverse, ch = ','.toUInt8 ∨ ch ∈ b.digits :=
    fun ch hch => mem_numeralRev hx (List.mem_reverse.1 hch)
  have hread := read_numeralRev (c := sp.conversion args) hx hv
  have hleft := minus_iff h hw hp
  rw [paddedTwice_iff h hw hp] at honce
  cases hm : (sp.conversion args).flags.minus with
  | false =>
    have hnot : ¬ sp.LeftJustified args := by
      rw [← hleft, hm]
      exact Bool.false_ne_true
    cases hz : (sp.conversion args).flags.zero with
    | false =>
      refine ⟨sp.pad args isSigned negative b value, 0, 0, _, ?_, hmem, hread, hbody, hlength, fun hl => absurd hl hnot, fun _ => rfl⟩
      simp [output, layout, hm, hz]
    | true =>
      refine ⟨0, sp.pad args isSigned negative b value, 0, _, ?_, hmem, hread, hbody, hlength, fun hl => absurd hl hnot, fun _ => rfl⟩
      simp [output, layout, hm, hz]
  | true =>
    refine ⟨0, 0, sp.pad args isSigned negative b value, _, ?_, hmem, hread, hbody, hlength, fun _ => ⟨rfl, rfl⟩,
      fun hl => absurd (hleft.1 hm) hl⟩
    cases hz : (sp.conversion args).flags.zero with
    | false => simp [output, layout, hm, hz]
    | true => simp [output, layout, hm, hz, honce ⟨hz, hm⟩]

/-- **Otherwise there are too many, or none.** -/
theorem not_renders_output (h : sp.Ends s) (hw : sp.width.Fits) (hp : sp.PrecisionFits args) (hx : b.Valid) (hv : value < 2 ^ 64)
    (hbad : (sp.widthValue args = -2 ^ 31 ∧ sp.bodyLength args isSigned negative b value = 0) ∨
      (sp.PaddedTwice args ∧ sp.bodyLength args isSigned negative b value < (sp.widthValue args).natAbs)) :
    ¬ sp.Renders args isSigned negative b value (sp.output args isSigned negative b value) := by
  rintro ⟨left, zeros, right, numeral, -, -, -, -, hlen, -, -⟩
  rw [length_output h hw hp hx hv] at hlen
  rcases hbad with ⟨hW, hL⟩ | ⟨htwice, hlt⟩
  · have hn : sp.pad args isSigned negative b value = 0 := by
      rw [pad, padOf, conversion_eq h hw hp, hL, hW]
      change (wrap (wrap (- -2 ^ 31) - (0 : ℕ))).toNat = 0
      decide
    rw [hn, hL, hW] at hlen
    simp at hlen
  · have hpos := @bodyLength_pos sp args b value isSigned negative htwice.2.2.1
    have hn := @pad_eq sp args s b value isSigned negative h hw hp hx hv (by omega)
    rw [if_pos (Bool.and_eq_true_iff.2 ((paddedTwice_iff h hw hp).1 htwice)), hn] at hlen
    omega

/-- **Integer conversions.** For every specification `parse_conversion` has its flags, width and precision, and
`format_integer` does not fill `buf`. It outputs what the specification asks for, unless a negative width comes with the
flag `0`, which neither `-` nor a precision has cleared, and is wider than the body: then zeros are put before the
digits and spaces behind them. (The width `-2 ^ 31` cannot be negated, and is none for an empty body.) -/
theorem integer_renders_iff {sp : Spec} {args : Args} {s : List UInt8} (h : sp.Ends s) (hw : sp.width.Fits)
    (hp : sp.PrecisionFits args) {b : IntegerBase} (hb : b ∈ bases) {value : ℕ} (hv : value < 2 ^ 64) (isSigned negative : Bool) :
    parseConversion (sp.text ++ s) args = (s, sp.conversion args, sp.rest args) ∧
      ∃ out, formatInteger value isSigned negative b (sp.conversion args) = .ok out ∧
        (sp.Renders args isSigned negative b value out ↔
          ¬ (sp.PaddedTwice args ∧ sp.bodyLength args isSigned negative b value < (sp.widthValue args).natAbs) ∧
            ¬ (sp.widthValue args = -2 ^ 31 ∧ sp.bodyLength args isSigned negative b value = 0)) := by
  have hx := IntegerBase.valid_of_mem hb
  refine ⟨parseConversion_eq h args, _, formatInteger_conversion h hw hp hx hv, ?_⟩
  constructor
  · intro hr
    constructor
    · exact fun hbad => not_renders_output h hw hp hx hv (.inr hbad) hr
    · exact fun hbad => not_renders_output h hw hp hx hv (.inl hbad) hr
  · rintro ⟨hpad, hmin⟩
    exact renders_output h hw hp hx hv hmin hpad

/-- `%05d`. -/
def zeros5 : Spec := ⟨chars "0", .digits (chars "5"), none, .int⟩

theorem zeros5_ends : zeros5.Ends (chars "d") := by
  refine ⟨by decide +kernel, by decide +kernel, ⟨by decide +kernel, by decide, by decide⟩, ?_, ?_⟩
  · change (chars "d").headD 0 ≠ '.'.toUInt8
    decide
  · change (chars "d").headD 0 ≠ 'h'.toUInt8 ∧ (chars "d").headD 0 ≠ 'j'.toUInt8 ∧ (chars "d").headD 0 ≠ 'l'.toUInt8 ∧
      (chars "d").headD 0 ≠ 't'.toUInt8 ∧ (chars "d").headD 0 ≠ 'z'.toUInt8
    decide

theorem integer_renders_zeros5 : ∃ out, formatInteger 42 true true baseD (zeros5.conversion fun _ => 0) = .ok out ∧
    zeros5.Renders (fun _ => 0) true true baseD 42 out := by
  obtain ⟨-, out, hout, hiff⟩ := @integer_renders_iff _ (fun _ => 0) _ zeros5_ends (by unfold Count.Fits zeros5; decide)
    ⟨by simp [zeros5], by decide⟩ baseD (by simp [bases]) 42 (by decide) true true
  refine ⟨out, hout, hiff.2 ⟨?_, ?_⟩⟩
  · rintro ⟨⟨-, -, -, hneg⟩, -⟩
    exact absurd hneg (by decide)
  · rintro ⟨hmin, -⟩
    exact absurd hmin (by decide)

/-- `%0*d`. -/
def zerosStar : Spec := ⟨chars "0", .star, none, .int⟩

/-- **The arguments -6 and 42 for `%0*d`**: ten characters are output, for a width of six. -/
theorem renders_padded_twice :
    vprintf (fun _ => ⟨[], by decide⟩) ⟨chars "%0*d", by decide⟩ (fun i => if i = 0 then -6 else 42) = .ok (chars "000042    ") ∧
      zerosStar.widthValue (fun i => if i = 0 then -6 else 42) = -6 ∧
      ¬ zerosStar.Renders (fun i => if i = 0 then -6 else 42) true false baseD 42 (chars "000042    ") := by
  refine ⟨by decide +kernel, by decide, ?_⟩
  rintro ⟨left, zeros, right, numeral, -, -, -, -, hlen, -, -⟩
  revert hlen
  decide +kernel

end Spec

end Pintos.Stdio
