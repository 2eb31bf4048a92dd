import Pintos.Lib.Conversions

/-!
# `atoi`

`atoi` of `lib/stdlib.c`. The arithmetic of an `int` is checked: where C has no meaning for
a result, the run ends. So `atoi_vprintf` says that `atoi` reads what `%d` has written, and
that nothing overflows on the way, at the ends of the range either.
-/

namespace Pintos.Stdlib

open Library Library.Bytes Stdio

/-- The result of an operation is not an `int`. -/
inductive Overflow where
  | overflow
  deriving DecidableEq

/-- The result `x` of an operation on integers. -/
def checked (x : ℤ) : Except Overflow ℤ := if -2 ^ 31 ≤ x ∧ x < 2 ^ 31 then .ok x else .error .overflow

/-- `isspace`. -/
def isSpace (ch : UInt8) : Bool :=
  ch == ' '.toUInt8 || ch == 12 || ch == '\n'.toUInt8 || ch == '\r'.toUInt8 || ch == '\t'.toUInt8 || ch == 11

/-- `while (isspace (*s)) s++;` -/
def skipSpace : List UInt8 → List UInt8
  | [] => []
  | ch :: s => if isSpace ch then skipSpace s else ch :: s

/-- Parses the sign: whether the number is negative, and what follows. -/
def parseSign (s : List UInt8) : Bool × List UInt8 :=
  if s.headD 0 = '+'.toUInt8 then (false, s.tail)
  else if s.headD 0 = '-'.toUInt8 then (true, s.tail)
  else (false, s)

/-- `for (value = 0; isdigit (*s); s++) value = value * 10 - (*s - '0');` from some `value` on. -/
def parseNegated : List UInt8 → ℤ → Except Overflow ℤ
  | [], value => .ok value
  | ch :: s, value =>
    if isDigit ch then do
      let tenfold ← checked (value * 10)
      let value ← checked (tenfold - (ch.toNat - '0'.toNat))
      parseNegated s value
    else .ok value

/-- `atoi`. -/
def atoi (s : CString) : Except Overflow ℤ := do
  let (negative, s) := parseSign (skipSpace s.bytes)
  let value ← parseNegated s 0
  if negative then pure value else checked (-value)

theorem checked_ok {x : ℤ} (h : -2 ^ 31 ≤ x) (h' : x < 2 ^ 31) : checked x = .ok x := if_pos ⟨h, h'⟩

/-! ### Reading -/

theorem skipSpace_append {ws : List UInt8} (s : List UInt8) (h : ∀ ch ∈ ws, isSpace ch = true) :
    skipSpace (ws ++ s) = skipSpace s := by
  induction ws with
  | nil => rfl
  | cons ch ws ih =>
    rw [List.cons_append, skipSpace, if_pos (h ch List.mem_cons_self)]
    exact ih fun c hc => h c (List.mem_cons_of_mem ch hc)

/-- A digit is one of the characters from `0` to `9`. -/
theorem isDigit_iff (ch : UInt8) : isDigit ch = true ↔ 48 ≤ ch.toNat ∧ ch.toNat ≤ 57 := by
  rw [isDigit, Bool.and_eq_true, decide_eq_true_iff, decide_eq_true_iff, UInt8.le_iff_toNat_le, UInt8.le_iff_toNat_le]
  exact Iff.rfl

/-- **The loop over the digits** stays within the range as long as the number does; the number is kept negated. -/
theorem parseNegated_eq {ds s : List UInt8} {n : ℕ} (hds : ∀ ch ∈ ds, isDigit ch = true) (hs : isDigit (s.headD 0) = false)
    (hle : ds.foldl (fun n ch => n * 10 + (ch.toNat - 48)) n ≤ 2 ^ 31) :
    parseNegated (ds ++ s) (-n) = .ok (-(ds.foldl (fun n ch => n * 10 + (ch.toNat - 48)) n : ℕ)) := by
  induction ds generalizing n with
  | nil =>
    cases s with
    | nil => rfl
    | cons ch s =>
      change (if isDigit ch = true then _ else Except.ok (-(n : ℤ))) = _
      rw [if_neg (by rw [show isDigit ch = false from hs]; exact Bool.false_ne_true)]
      rfl
  | cons ch ds ih =>
    have hch := hds ch List.mem_cons_self
    have hrange := (isDigit_iff ch).1 hch
    rw [List.foldl_cons] at hle ⊢
    have hmono := Count.le_foldl_decimal ds (n * 10 + (ch.toNat - 48))
    have htenfold : checked (-(n : ℤ) * 10) = pure (-(n : ℤ) * 10) := checked_ok (by omega) (by omega)
    have hvalue : checked (-(n : ℤ) * 10 - (ch.toNat - '0'.toNat)) = pure (-(n * 10 + (ch.toNat - 48) : ℕ) : ℤ) := by
      have heq : -(n : ℤ) * 10 - (ch.toNat - '0'.toNat) = (-(n * 10 + (ch.toNat - 48) : ℕ) : ℤ) := by
        change -(n : ℤ) * 10 - (ch.toNat - (48 : ℕ)) = _
        omega
      rw [heq]
      exact checked_ok (by omega) (by omega)
    rw [List.cons_append, parseNegated, if_pos hch, htenfold, pure_bind, hvalue, pure_bind]
    exact ih (fun c hc => hds c (List.mem_cons_of_mem ch hc)) hle

/-- What the parts of a number are for `atoi`: white space, a sign, digits, and what follows. -/
theorem atoi_eq {ws sign ds rest : List UInt8} {negative : Bool} (h : 0 ∉ ws ++ (sign ++ ds) ++ rest)
    (hws : ∀ ch ∈ ws, isSpace ch = true) (hsign : sign = if negative then ['-'.toUInt8] else [])
    (hds : ∀ ch ∈ ds, isDigit ch = true) (hne : ds ≠ []) (hrest : isDigit (rest.headD 0) = false)
    (hle : decimal ds < 2 ^ 31 ∨ negative = true ∧ decimal ds ≤ 2 ^ 31) :
    atoi ⟨ws ++ (sign ++ ds) ++ rest, h⟩ = .ok (if negative then -decimal ds else decimal ds) := by
  obtain ⟨ch, ds', hcons⟩ := List.exists_cons_of_ne_nil hne
  have hch : isDigit ch = true := hds ch (hcons ▸ List.mem_cons_self)
  have hdigits : parseNegated (ds ++ rest) 0 = .ok (-(decimal ds : ℤ)) := parseNegated_eq (n := 0) hds hrest (by
    change decimal ds ≤ 2 ^ 31
    omega)
  have hsplit : parseSign (skipSpace (ws ++ (sign ++ ds) ++ rest)) = (negative, ds ++ rest) := by
    rw [List.append_assoc, skipSpace_append _ hws, hsign]
    cases negative with
    | true => rfl
    | false =>
      have hne : ∀ c, isDigit c = false → ch ≠ c := by
        rintro c hc rfl
        rw [hc] at hch
        exact Bool.false_ne_true hch
      have hspace : isSpace ch = false := by
        unfold isSpace
        simp [hne ' '.toUInt8 rfl, hne 12 rfl, hne '\n'.toUInt8 rfl, hne '\r'.toUInt8 rfl, hne '\t'.toUInt8 rfl, hne 11 rfl]
      rw [hcons]
      change parseSign (if isSpace ch = true then _ else ch :: (ds' ++ rest)) = _
      rw [if_neg (by rw [hspace]; exact Bool.false_ne_true), parseSign, List.headD_cons, if_neg (hne _ rfl), if_neg (hne _ rfl)]
      rfl
  unfold atoi
  rw [hsplit]
  change (parseNegated (ds ++ rest) 0 >>= _) = _
  rw [hdigits]
  cases negative with
  | true => rfl
  | false =>
    change checked (- -(decimal ds : ℤ)) = _
    have hlt : decimal ds < 2 ^ 31 := hle.resolve_right fun h => Bool.false_ne_true h.1
    rw [neg_neg]
    exact checked_ok (by omega) (by omega)

/-! ### What `%d` writes -/

/-- The digits stand for themselves. -/
theorem val_baseD {ch : UInt8} (h : isDigit ch = true) : baseD.val ch = some (ch.toNat - 48) := by
  obtain ⟨h1, h2⟩ := (isDigit_iff ch).1 h
  have hall : ∀ n ∈ Finset.Icc 48 57, baseD.val (UInt8.ofNat n) = some (n - 48) := by decide
  have hch := hall ch.toNat (Finset.mem_Icc.2 ⟨h1, h2⟩)
  rwa [UInt8.ofNat_toNat] at hch

theorem isDigit_of_mem {ch : UInt8} (h : ch ∈ baseD.digits) : isDigit ch = true := by
  have hall : ∀ c ∈ baseD.digits, isDigit c = true := by decide +kernel
  exact hall ch h

/-- The number that digits stand for is the one that is read from them. -/
theorem decimal_eq_read (ds : List UInt8) (h : ∀ ch ∈ ds, isDigit ch = true) :
    decimal ds = Numerals.read 10 baseD.val ds := by
  induction ds using List.reverseRecOn with
  | nil => rfl
  | append_singleton ds ch ih =>
    have hch := h ch (List.mem_append_right ds List.mem_cons_self)
    rw [Numerals.read_concat (val_baseD hch), ← ih fun c hc => h c (List.mem_append_left _ hc), decimal, List.foldl_append,
      List.foldl_cons, List.foldl_nil, ← decimal]
    omega

/-- The conversion `%d`. -/
def percentD : Conversion := { width := 0, precision := -1 }

/-- Without the flag for commas there are only digits. -/
theorem isDigit_numeralRev {value : ℕ} {ch : UInt8} (h : ch ∈ numeralRev percentD baseD value) : isDigit ch = true := by
  change ch ∈ paddedRev percentD baseD value at h
  apply isDigit_of_mem
  rcases List.mem_append.1 h with h | h
  · obtain ⟨i, hi, rfl⟩ := Numerals.mem_emit_unmarked (show 0 < baseD.base by decide) (fun _ => rfl) h
    exact (IntegerBase.valid_of_mem (by simp [bases])).digit_mem hi
  · rw [List.eq_of_mem_replicate h]
    decide

theorem sign_magnitude (x : BitVec 32) : (x.signExtend 64).slt 0 = decide (x.toInt < 0) ∧
    (if (x.signExtend 64).slt 0 then -(x.signExtend 64) else x.signExtend 64).toNat = x.toInt.natAbs := by
  have hext : (x.signExtend 64).toInt = x.toInt := BitVec.toInt_signExtend_of_le (by decide)
  have hslt : (x.signExtend 64).slt 0 = decide (x.toInt < 0) := by
    rw [BitVec.slt, hext]
    rfl
  refine ⟨hslt, ?_⟩
  have hlt := (x.signExtend 64).isLt
  have hle := x.le_toInt
  have hgt := x.toInt_lt
  rw [hslt]
  rw [BitVec.toInt_eq_toNat_cond] at hext
  by_cases h0 : x.toInt < 0
  · rw [decide_eq_true h0, if_pos rfl, BitVec.toNat_neg]
    split_ifs at hext <;> omega
  · rw [decide_eq_false h0, if_neg Bool.false_ne_true]
    split_ifs at hext <;> omega

/-- The numeral that `%d` writes: digits that are read as the magnitude. -/
theorem numeral_percentD {value : ℕ} (hv : value < 2 ^ 64) : (∀ ch ∈ (numeralRev percentD baseD value).reverse, isDigit ch = true) ∧
    (numeralRev percentD baseD value).reverse ≠ [] ∧ decimal (numeralRev percentD baseD value).reverse = value := by
  have hb : baseD.Valid := IntegerBase.valid_of_mem (by simp [bases])
  have hdigits : ∀ ch ∈ (numeralRev percentD baseD value).reverse, isDigit ch = true :=
    fun ch hch => isDigit_numeralRev (List.mem_reverse.1 hch)
  refine ⟨hdigits, ?_, ?_⟩
  · intro hnil
    have hlen := length_numeralRev (c := percentD) hb hv
    rw [List.reverse_eq_nil_iff.1 hnil, numeralLength] at hlen
    have hone : (min (renderedPrecision percentD) 63).toNat = 1 := rfl
    rw [hone, List.length_nil] at hlen
    omega
  · rw [decimal_eq_read _ hdigits]
    exact read_numeralRev hb hv

/-- **What `%d` outputs**: a sign for a negative number, and its digits. -/
theorem vprintf_percentD (str : BitVec 32 → CString) (h : 0 ∉ chars "%d") (args : Args) : vprintf str ⟨chars "%d", h⟩ args =
    .ok ((if decide ((args 0).toInt < 0) then ['-'.toUInt8] else []) ++
      (numeralRev percentD baseD (args 0).toInt.natAbs).reverse) := by
  have hb : baseD.Valid := IntegerBase.valid_of_mem (by simp [bases])
  have hbound : (args 0).toInt.natAbs < 2 ^ 64 := by
    have hle := (args 0).le_toInt
    have hgt := (args 0).toInt_lt
    omega
  obtain ⟨hneg, hvalue⟩ := sign_magnitude (args 0)
  have hrun : vprintf str ⟨chars "%d", h⟩ args = (convert str 'd'.toUInt8 percentD args >>= fun r =>
      (.ok (r.1 ++ []) : Except Stop (List UInt8))) := rfl
  have hconvert : convert str 'd'.toUInt8 percentD args =
      (formatInteger (if ((args 0).signExtend 64).slt 0 then -((args 0).signExtend 64) else (args 0).signExtend 64).toNat true
        (((args 0).signExtend 64).slt 0) baseD percentD >>= fun out => .ok (out, args.drop 1)) := rfl
  have hfront : front (signOf true (decide ((args 0).toInt < 0)) percentD.flags) (xOf percentD baseD (args 0).toInt.natAbs) =
      if decide ((args 0).toInt < 0) then ['-'.toUInt8] else [] := by
    cases decide ((args 0).toInt < 0) <;> rfl
  have hpad : ∀ len ≤ 65, padOf percentD len = 0 := by
    intro len hlen
    unfold padOf
    rw [show percentD.width = 0 from rfl, wrap_eq ⟨by omega, by omega⟩]
    omega
  have hlen := length_numeralRev_le (c := percentD) hb hbound
  rw [hrun, hconvert, hvalue, hneg, formatInteger_eq hb hbound, hfront, hpad _ (by split_ifs <;> simp <;> omega)]
  change Except.ok ([] ++ _ ++ [] ++ _ ++ [] ++ []) = _
  simp only [List.nil_append, List.append_nil]

/-- **`atoi` undoes `%d`**, whatever white space is before the number and whatever follows that does not begin with a digit. -/
theorem atoi_vprintf (str : BitVec 32 → CString) (hformat : 0 ∉ chars "%d") (args : Args) (ws rest : List UInt8)
    (hws : ∀ ch ∈ ws, isSpace ch = true) (hrest : isDigit (rest.headD 0) = false) (hnul : 0 ∉ rest) :
    ∃ out, vprintf str ⟨chars "%d", hformat⟩ args = .ok out ∧
      ∃ h : 0 ∉ ws ++ out ++ rest, atoi ⟨ws ++ out ++ rest, h⟩ = .ok (args 0).toInt := by
  have hle := (args 0).le_toInt
  have hgt := (args 0).toInt_lt
  obtain ⟨hdigits, hne, hdecimal⟩ := @numeral_percentD (args 0).toInt.natAbs (by omega)
  refine ⟨_, vprintf_percentD str hformat args, ?_, ?_⟩
  · have hnot : ∀ c, isDigit c = true → c ≠ 0 := by
      rintro c hc rfl
      exact absurd hc (by decide)
    simp only [List.mem_append, not_or]
    refine ⟨⟨fun h => absurd (hws 0 h) (by decide), ?_, fun h => hnot 0 (hdigits 0 h) rfl⟩, hnul⟩
    split_ifs
    · decide
    · exact List.not_mem_nil
  · rw [atoi_eq _ hws rfl hdigits hne hrest, hdecimal]
    · by_cases h0 : (args 0).toInt < 0
      · rw [decide_eq_true h0, if_pos rfl]
        congr 1
        omega
      · rw [decide_eq_false h0, if_neg Bool.false_ne_true]
        congr 1
        omega
    · rw [hdecimal, decide_eq_true_iff]
      omega

theorem noNul_percentD : (0 : UInt8) ∉ chars "%d" := by decide

/-- **`INT_MIN`**, after a space and before a letter. -/
theorem atoi_vprintf_min : ∃ out, vprintf (fun _ => ⟨[], List.not_mem_nil⟩) ⟨chars "%d", noNul_percentD⟩ (fun _ => 0x80000000) =
    .ok out ∧ ∃ h : 0 ∉ chars " " ++ out ++ chars "x", atoi ⟨chars " " ++ out ++ chars "x", h⟩ = .ok (-2 ^ 31) :=
  atoi_vprintf (fun _ => ⟨[], List.not_mem_nil⟩) noNul_percentD (fun _ => 0x80000000) (chars " ") (chars "x") (by decide +kernel) rfl
    (by decide +kernel)

end Pintos.Stdlib
