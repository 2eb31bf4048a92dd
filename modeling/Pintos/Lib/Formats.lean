import Mathlib.Data.List.TakeWhile
import Pintos.Lib.FormatInteger

/-!
# Conversion specifications

The specifications that `parse_conversion` reads: flags, a width, a precision and a
type, each as long as possible. From every text it reads one (`exists_spec`), and it
stops behind it (`parseConversion_eq`).

`__vprintf` reads no character behind its format exactly if no specification is cut
off by the end of the format (`vprintf_reads_iff`).
-/

namespace Pintos.Stdio

open Library Library.Bytes

/-! ### Flags -/

/-- Whether a character is a flag. -/
def isFlag (ch : UInt8) : Bool := (setFlag ch {}).isSome

/-- The flags with the one of a character. -/
def addFlag (f : Flags) (ch : UInt8) : Flags := (setFlag ch f).getD f

/-- The flags of a text. -/
def flagsOf (fl : List UInt8) : Flags := fl.foldl addFlag {}

theorem setFlag_eq (ch : UInt8) (f : Flags) : setFlag ch f = if isFlag ch then some (addFlag f ch) else none := by
  unfold addFlag isFlag setFlag
  split_ifs <;> simp_all

theorem parseFlags_eq {fl s : List UInt8} {f : Flags} (hfl : ∀ ch ∈ fl, isFlag ch = true) (hs : isFlag (s.headD 0) = false) :
    parseFlags (fl ++ s) f = (s, fl.foldl addFlag f) := by
  induction fl generalizing f with
  | nil =>
    cases s with
    | nil => rfl
    | cons ch s =>
      have hch : isFlag ch = false := hs
      simp [parseFlags, setFlag_eq, hch]
  | cons ch fl ih =>
    simp only [List.cons_append, parseFlags, setFlag_eq, hfl ch List.mem_cons_self, if_true, List.foldl_cons]
    exact ih fun c hc => hfl c (List.mem_cons_of_mem ch hc)

/-! ### Widths and precisions -/

/-- A width, or what is behind the point of a precision. -/
inductive Count where
  /-- Digits, perhaps none. -/
  | digits (ds : List UInt8)
  /-- `*`. -/
  | star

namespace Count

/-- The characters. -/
def text : Count → List UInt8
  | digits ds => ds
  | star => ['*'.toUInt8]

/-- The number is read as far as possible before `s`. -/
def Ends : Count → List UInt8 → Prop
  | digits ds, s => (∀ ch ∈ ds, isDigit ch = true) ∧ isDigit (s.headD 0) = false ∧ (ds = [] → s.headD 0 ≠ '*'.toUInt8)
  | star, _ => True

/-- The number that the loop over the digits has. -/
def wrapped (ds : List UInt8) (n : ℤ) : ℤ := ds.foldl (fun n ch => wrap (n * 10 + ch.toNat - 48)) n

/-- The number that is read. -/
def code (args : Args) : Count → ℤ
  | digits ds => wrapped ds 0
  | star => (args 0).toInt

/-- The arguments that are left. -/
def rest (args : Args) : Count → Args
  | digits _ => args
  | star => args.drop 1

variable {k : Count} {s : List UInt8}

theorem parseDigits_eq {ds : List UInt8} {n : ℤ} (hds : ∀ ch ∈ ds, isDigit ch = true) (hs : isDigit (s.headD 0) = false) :
    parseDigits (ds ++ s) n = (s, wrapped ds n) := by
  induction ds generalizing n with
  | nil =>
    cases s with
    | nil => rfl
    | cons ch s =>
      have hch : isDigit ch = false := hs
      simp [parseDigits, hch, wrapped]
  | cons ch ds ih =>
    rw [List.cons_append, parseDigits, if_pos (hds ch List.mem_cons_self)]
    exact ih fun c hc => hds c (List.mem_cons_of_mem ch hc)

/-- No digit is a `*`. -/
theorem ne_star {ch : UInt8} (h : isDigit ch = true) : ch ≠ '*'.toUInt8 := by
  rintro rfl
  exact absurd h (by decide)

theorem parseCount_eq (h : k.Ends s) (args : Args) : parseCount (k.text ++ s) args = (s, k.code args, k.rest args) := by
  cases k with
  | star => rfl
  | digits ds =>
    obtain ⟨hds, hs, hstar⟩ := h
    have hhead : (ds ++ s).headD 0 ≠ '*'.toUInt8 := by
      cases ds with
      | nil => exact hstar rfl
      | cons ch ds => exact ne_star (hds ch List.mem_cons_self)
    rw [parseCount, text, if_neg hhead, parseDigits_eq hds hs]
    rfl

/-- **A number can be read from every text.** -/
theorem exists_ends (s : List UInt8) : ∃ (k : Count) (s' : List UInt8), s = k.text ++ s' ∧ k.Ends s' := by
  by_cases hstar : s.headD 0 = '*'.toUInt8
  · cases s with
    | nil => exact absurd hstar (by decide)
    | cons ch s =>
      obtain rfl : ch = '*'.toUInt8 := hstar
      exact ⟨star, s, rfl, trivial⟩
  · refine ⟨digits (s.takeWhile isDigit), s.dropWhile isDigit, (List.takeWhile_append_dropWhile).symm, fun ch hch => ?_, ?_, ?_⟩
    · exact List.mem_takeWhile_imp hch
    · cases hdrop : s.dropWhile isDigit with
      | nil => rfl
      | cons ch s' =>
        have hhead := List.head_dropWhile_not isDigit (l := s) (by rw [hdrop]; simp)
        simpa [hdrop] using hhead
    · intro hnil
      have hs : s.dropWhile isDigit = s := by
        have := List.takeWhile_append_dropWhile (p := isDigit) (l := s)
        rwa [hnil, List.nil_append] at this
      rwa [hs]

end Count

/-! ### Types -/

namespace ArgType

/-- The letters of a type. -/
def text : ArgType → List UInt8
  | char => ['h'.toUInt8, 'h'.toUInt8]
  | short => ['h'.toUInt8]
  | int => []
  | intmax => ['j'.toUInt8]
  | long => ['l'.toUInt8]
  | longlong => ['l'.toUInt8, 'l'.toUInt8]
  | ptrdifft => ['t'.toUInt8]
  | sizet => ['z'.toUInt8]

/-- The type is read as far as possible before `s`. -/
def Ends : ArgType → List UInt8 → Prop
  | short, s => s.headD 0 ≠ 'h'.toUInt8
  | long, s => s.headD 0 ≠ 'l'.toUInt8
  | int, s => s.headD 0 ≠ 'h'.toUInt8 ∧ s.headD 0 ≠ 'j'.toUInt8 ∧ s.headD 0 ≠ 'l'.toUInt8 ∧ s.headD 0 ≠ 't'.toUInt8 ∧
      s.headD 0 ≠ 'z'.toUInt8
  | _, _ => True

theorem parseType_eq {t : ArgType} {s : List UInt8} (h : t.Ends s) : parseType (t.text ++ s) = (s, t) := by
  cases t with
  | short => exact if_neg h
  | long => exact if_neg h
  | int =>
    obtain ⟨hh, hj, hl, ht, hz⟩ := h
    exact (if_neg hh).trans ((if_neg hj).trans ((if_neg hl).trans ((if_neg ht).trans (if_neg hz))))
  | char => rfl
  | intmax => rfl
  | longlong => rfl
  | ptrdifft => rfl
  | sizet => rfl

/-- **A type can be read from every text.** -/
theorem exists_ends (s : List UInt8) : ∃ (t : ArgType) (s' : List UInt8), s = t.text ++ s' ∧ t.Ends s' := by
  have hint : (s.headD 0 ≠ 'h'.toUInt8 ∧ s.headD 0 ≠ 'j'.toUInt8 ∧ s.headD 0 ≠ 'l'.toUInt8 ∧ s.headD 0 ≠ 't'.toUInt8 ∧
      s.headD 0 ≠ 'z'.toUInt8) → ∃ (t : ArgType) (s' : List UInt8), s = t.text ++ s' ∧ t.Ends s' := fun h => ⟨int, s, rfl, h⟩
  cases s with
  | nil => exact hint (by decide)
  | cons ch s =>
    by_cases hh : ch = 'h'.toUInt8
    · subst hh
      by_cases hhh : s.headD 0 = 'h'.toUInt8
      · cases s with
        | nil => exact absurd hhh (by decide)
        | cons ch s =>
          obtain rfl : ch = 'h'.toUInt8 := hhh
          exact ⟨char, s, rfl, trivial⟩
      · exact ⟨short, s, rfl, hhh⟩
    by_cases hj : ch = 'j'.toUInt8
    · exact ⟨intmax, s, by rw [hj]; rfl, trivial⟩
    by_cases hl : ch = 'l'.toUInt8
    · subst hl
      by_cases hll : s.headD 0 = 'l'.toUInt8
      · cases s with
        | nil => exact absurd hll (by decide)
        | cons ch s =>
          obtain rfl : ch = 'l'.toUInt8 := hll
          exact ⟨longlong, s, rfl, trivial⟩
      · exact ⟨long, s, rfl, hll⟩
    by_cases ht : ch = 't'.toUInt8
    · exact ⟨ptrdifft, s, by rw [ht]; rfl, trivial⟩
    by_cases hz : ch = 'z'.toUInt8
    · exact ⟨sizet, s, by rw [hz]; rfl, trivial⟩
    exact hint ⟨hh, hj, hl, ht, hz⟩

end ArgType

/-! ### Specifications -/

/-- A conversion specification, without `%` and without the conversion's own character. -/
structure Spec where
  flags : List UInt8
  width : Count
  /-- What is behind the point, if there is one. -/
  precision : Option Count
  type : ArgType

namespace Spec

/-- The point and the precision. -/
def precisionText (sp : Spec) : List UInt8 :=
  match sp.precision with
  | none => []
  | some k => '.'.toUInt8 :: k.text

/-- The characters of a specification. -/
def text (sp : Spec) : List UInt8 := sp.flags ++ (sp.width.text ++ (sp.precisionText ++ sp.type.text))

/-- The specification is read as far as possible before `s`. -/
structure Ends (sp : Spec) (s : List UInt8) : Prop where
  flags : ∀ ch ∈ sp.flags, isFlag ch = true
  flagsEnd : isFlag ((sp.width.text ++ (sp.precisionText ++ (sp.type.text ++ s))).headD 0) = false
  width : sp.width.Ends (sp.precisionText ++ (sp.type.text ++ s))
  precision : match sp.precision with
    | none => (sp.type.text ++ s).headD 0 ≠ '.'.toUInt8
    | some k => k.Ends (sp.type.text ++ s)
  type : sp.type.Ends s

/-- The precision that is read, with -1 for none. -/
def precisionCode (sp : Spec) (args : Args) : ℤ :=
  match sp.precision with
  | none => -1
  | some k => if k.code args < 0 then -1 else k.code args

/-- The arguments that are left. -/
def rest (sp : Spec) (args : Args) : Args :=
  match sp.precision with
  | none => sp.width.rest args
  | some k => k.rest (sp.width.rest args)

/-- The conversion that is read. -/
def conversion (sp : Spec) (args : Args) : Conversion :=
  let f := flagsOf sp.flags
  let f := if f.minus then { f with zero := false } else f
  let f := if f.plus then { f with space := false } else f
  let width := sp.width.code args
  let f := if width < 0 then { f with minus := true } else f
  let precision := sp.precisionCode (sp.width.rest args)
  { flags := if 0 ≤ precision then { f with zero := false } else f
    width := if width < 0 then wrap (-width) else width
    precision := precision
    type := sp.type }

variable {sp : Spec} {s : List UInt8}

theorem parsePrecision_eq (h : sp.Ends s) (args : Args) : parsePrecision (sp.precisionText ++ (sp.type.text ++ s)) args =
    (sp.type.text ++ s, sp.precisionCode args, sp.precision.elim args fun k => k.rest args) := by
  have hp := h.precision
  unfold precisionText precisionCode
  cases hsp : sp.precision with
  | none =>
    rw [hsp] at hp
    exact if_neg hp
  | some k =>
    rw [hsp] at hp
    have htail : (('.'.toUInt8 :: k.text) ++ (sp.type.text ++ s)).tail = k.text ++ (sp.type.text ++ s) := rfl
    have hdot : parsePrecision (('.'.toUInt8 :: k.text) ++ (sp.type.text ++ s)) args = _ := if_pos rfl
    refine hdot.trans ?_
    rw [htail, Count.parseCount_eq hp]
    rfl

/-- **`parse_conversion`** reads the specification, and stops behind it. -/
theorem parseConversion_eq (h : sp.Ends s) (args : Args) :
    parseConversion (sp.text ++ s) args = (s, sp.conversion args, sp.rest args) := by
  have htext : sp.text ++ s = sp.flags ++ (sp.width.text ++ (sp.precisionText ++ (sp.type.text ++ s))) := by
    simp only [text, List.append_assoc]
  have hflags := parseFlags_eq (f := {}) h.flags h.flagsEnd
  have hwidth := Count.parseCount_eq h.width args
  have hprecision := parsePrecision_eq h (sp.width.rest args)
  have hrest : (sp.precision.elim (sp.width.rest args) fun k => k.rest (sp.width.rest args)) = sp.rest args := by
    unfold rest
    cases sp.precision <;> rfl
  have htype := ArgType.parseType_eq h.type
  rw [htext, parseConversion, hflags]
  dsimp only
  rw [hwidth]
  dsimp only
  rw [hprecision, hrest]
  dsimp only
  rw [htype]
  rfl

/-- **A specification can be read from every text.** -/
theorem exists_spec (s : List UInt8) : ∃ (sp : Spec) (s' : List UInt8), s = sp.text ++ s' ∧ sp.Ends s' := by
  obtain ⟨k, s₂, hk, hkends⟩ := Count.exists_ends (s.dropWhile isFlag)
  have hflags : ∀ ch ∈ s.takeWhile isFlag, isFlag ch = true := fun ch hch => List.mem_takeWhile_imp hch
  have hend : isFlag ((s.dropWhile isFlag).headD 0) = false := by
    cases hdrop : s.dropWhile isFlag with
    | nil => rfl
    | cons ch s' =>
      have hhead := List.head_dropWhile_not isFlag (l := s) (by rw [hdrop]; simp)
      simpa [hdrop] using hhead
  have hsplit : s.takeWhile isFlag ++ s.dropWhile isFlag = s := List.takeWhile_append_dropWhile
  by_cases hpoint : s₂.headD 0 = '.'.toUInt8
  · cases s₂ with
    | nil => exact absurd hpoint (by decide)
    | cons ch s₂ =>
      obtain rfl : ch = '.'.toUInt8 := hpoint
      obtain ⟨p, s₃, rfl, hp⟩ := Count.exists_ends s₂
      obtain ⟨t, s₄, rfl, ht⟩ := ArgType.exists_ends s₃
      refine ⟨⟨s.takeWhile isFlag, k, some p, t⟩, s₄, ?_, hflags, ?_, hkends, hp, ht⟩
      · refine hsplit.symm.trans ?_
        rw [hk]
        simp [text, precisionText]
      · rw [hk] at hend
        exact hend
  · obtain ⟨t, s₃, rfl, ht⟩ := ArgType.exists_ends s₂
    refine ⟨⟨s.takeWhile isFlag, k, none, t⟩, s₃, ?_, hflags, ?_, hkends, hpoint, ht⟩
    · refine hsplit.symm.trans ?_
      rw [hk]
      simp [text, precisionText]
    · rw [hk] at hend
      exact hend

end Spec

/-! ### What `__vprintf` reads -/

/-- No conversion of an integer goes wrong. -/
theorem formatInteger_ok {α : Type} {b : IntegerBase} (hb : b ∈ bases) {value : ℕ} (hv : value < 2 ^ 64) (s n : Bool) (c : Conversion)
    (f : List UInt8 → α) : ∃ r, (formatInteger value s n b c >>= fun out => pure (f out)) = .ok r := by
  rw [formatInteger_eq (IntegerBase.valid_of_mem hb) hv]
  exact ⟨_, rfl⟩

/-- **No conversion of a character goes wrong.** -/
theorem convert_ok (str : BitVec 32 → CString) (ch : UInt8) (c : Conversion) (args : Args) : ∃ r, convert str ch c args = .ok r := by
  unfold convert
  by_cases hd : ch = 'd'.toUInt8 ∨ ch = 'i'.toUInt8
  · rw [if_pos hd]
    exact formatInteger_ok (by simp [bases]) (BitVec.isLt _) ..
  rw [if_neg hd]
  by_cases hu : ch = 'o'.toUInt8 ∨ ch = 'u'.toUInt8 ∨ ch = 'x'.toUInt8 ∨ ch = 'X'.toUInt8
  · rw [if_pos hu]
    refine formatInteger_ok ?_ (BitVec.isLt _) ..
    split_ifs <;> simp [bases]
  rw [if_neg hu]
  by_cases hc : ch = 'c'.toUInt8
  · rw [if_pos hc]
    exact ⟨_, rfl⟩
  rw [if_neg hc]
  by_cases hs : ch = 's'.toUInt8
  · rw [if_pos hs]
    exact ⟨_, rfl⟩
  rw [if_neg hs]
  by_cases hp : ch = 'p'.toUInt8
  · rw [if_pos hp]
    exact formatInteger_ok (by simp [bases]) ((args 0).isLt.trans (by decide)) ..
  rw [if_neg hp]
  split_ifs
  · exact ⟨_, rfl⟩
  · exact ⟨_, rfl⟩

/-- The format strings that do not end inside of a specification: each `%` is followed by another one, or by a
specification with a character after it. -/
inductive Complete : List UInt8 → Prop where
  /-- The end. -/
  | nil : Complete []
  /-- A character that is copied. -/
  | char {ch : UInt8} {s : List UInt8} (hch : ch ≠ '%'.toUInt8) (h : Complete s) : Complete (ch :: s)
  /-- `%%`. -/
  | percent {s : List UInt8} (h : Complete s) : Complete ('%'.toUInt8 :: '%'.toUInt8 :: s)
  /-- A conversion. -/
  | conversion {sp : Spec} {ch : UInt8} {s : List UInt8} (hsp : sp.Ends (ch :: s))
    (hhead : (sp.text ++ ch :: s).headD 0 ≠ '%'.toUInt8) (h : Complete s) : Complete ('%'.toUInt8 :: (sp.text ++ ch :: s))

theorem complete_char {ch : UInt8} {s : List UInt8} (hch : ch ≠ '%'.toUInt8) : Complete (ch :: s) ↔ Complete s := by
  constructor
  · intro h
    cases h with
    | char _ h => exact h
    | percent h => exact absurd rfl hch
    | conversion _ _ _ => exact absurd rfl hch
  · exact .char hch

theorem complete_percent {s : List UInt8} : Complete ('%'.toUInt8 :: '%'.toUInt8 :: s) ↔ Complete s := by
  constructor
  · intro h
    generalize ht : '%'.toUInt8 :: '%'.toUInt8 :: s = t at h
    cases h with
    | nil => cases ht
    | char hch _ => exact absurd (List.cons.inj ht).1.symm hch
    | percent h =>
      obtain rfl := (List.cons.inj (List.cons.inj ht).2).2
      exact h
    | conversion _ hhead _ =>
      rw [← (List.cons.inj ht).2] at hhead
      exact absurd rfl hhead
  · exact .percent

/-- **After a `%` there is a specification**, and it is followed by a character. -/
theorem complete_conversion {sp : Spec} {s : List UInt8} (hsp : sp.Ends s) (hhead : (sp.text ++ s).headD 0 ≠ '%'.toUInt8) :
    Complete ('%'.toUInt8 :: (sp.text ++ s)) ↔ ∃ ch s', s = ch :: s' ∧ Complete s' := by
  constructor
  · intro h
    generalize ht : '%'.toUInt8 :: (sp.text ++ s) = t at h
    cases h with
    | nil => cases ht
    | char hch _ => exact absurd (List.cons.inj ht).1.symm hch
    | percent h =>
      rw [(List.cons.inj ht).2] at hhead
      exact absurd rfl hhead
    | @conversion sp' ch s' hsp' _ h =>
      -- both specifications are the one that is read
      have hrest := Spec.parseConversion_eq hsp fun _ => 0
      rw [(List.cons.inj ht).2, Spec.parseConversion_eq hsp'] at hrest
      exact ⟨ch, s', (Prod.mk.inj hrest).1.symm, h⟩
  · rintro ⟨ch, s', rfl, h⟩
    exact .conversion hsp hhead h

theorem bind_ok_iff {α β : Type} {x : Except Stop α} {a : α} (hx : x = .ok a) (f : α → Except Stop β) :
    (∃ r, (x >>= f) = .ok r) ↔ ∃ r, f a = .ok r := by
  rw [hx]
  rfl

/-- A call that only adds characters to what another one outputs. -/
theorem bind_pure_ok_iff {α : Type} {x : Except Stop α} (f : α → α) :
    (∃ r, (x >>= fun a => pure (f a)) = .ok r) ↔ ∃ a, x = .ok a := by
  cases x with
  | ok a => exact ⟨fun _ => ⟨a, rfl⟩, fun _ => ⟨f a, rfl⟩⟩
  | error e =>
    refine ⟨fun h => ?_, fun h => ?_⟩
    · obtain ⟨r, hr⟩ := h
      cases hr
    · obtain ⟨r, hr⟩ := h
      cases hr

/-- **The loop ends inside of its format** exactly if the format is complete. -/
theorem vprintfLoop_ok_iff (str : BitVec 32 → CString) {n : ℕ} {s : List UInt8} (hn : s.length < n) (args : Args) :
    (∃ out, vprintfLoop str n s args = .ok out) ↔ Complete s := by
  induction n using Nat.strong_induction_on generalizing s args with
  | _ n ih =>
    cases n with
    | zero => exact absurd hn (Nat.not_lt_zero _)
    | succ n =>
      cases s with
      | nil => exact iff_of_true ⟨[], rfl⟩ .nil
      | cons ch s =>
        rw [List.length_cons] at hn
        rw [vprintfLoop]
        by_cases hch : ch = '%'.toUInt8
        · rw [if_neg (not_not.2 hch)]
          subst hch
          by_cases hper : s.headD 0 = '%'.toUInt8
          · rw [if_pos hper]
            cases s with
            | nil => exact absurd hper (by decide)
            | cons ch s =>
              obtain rfl : ch = '%'.toUInt8 := hper
              rw [List.length_cons] at hn
              rw [bind_pure_ok_iff, complete_percent]
              exact ih n (Nat.lt_succ_self n) (by rw [List.tail_cons]; omega) args
          · rw [if_neg hper]
            obtain ⟨sp, s', rfl, hsp⟩ := Spec.exists_spec s
            rw [Spec.parseConversion_eq hsp, complete_conversion hsp hper]
            dsimp only
            obtain ⟨⟨text, args'⟩, htext⟩ := convert_ok str (s'.headD 0) (sp.conversion args) (sp.rest args)
            rw [bind_ok_iff htext]
            dsimp only
            cases s' with
            | nil =>
              refine iff_of_false ?_ ?_
              · intro h
                obtain ⟨r, hr⟩ := h
                cases hr
              · intro h
                obtain ⟨ch, s', hs, -⟩ := h
                cases hs
            | cons ch s' =>
              rw [List.length_append, List.length_cons] at hn
              dsimp only
              rw [bind_pure_ok_iff, ih n (Nat.lt_succ_self n) (by omega) args']
              constructor
              · exact fun h => ⟨ch, s', rfl, h⟩
              · intro h
                obtain ⟨_, _, hs, h⟩ := h
                cases hs
                exact h
        · rw [if_pos hch, bind_pure_ok_iff, complete_char hch]
          exact ih n (Nat.lt_succ_self n) (by omega) args

/-- **`__vprintf` reads only its format string**, and returns, exactly if no specification is cut off by its end. -/
theorem vprintf_reads_iff (str : BitVec 32 → CString) (format : CString) (args : Args) :
    (∃ out, vprintf str format args = .ok out) ↔ Complete format.bytes :=
  vprintfLoop_ok_iff str (Nat.lt_succ_self _) args

/-- **A format that ends in `%`**, and one that ends after a flag and a width: the null byte is passed. -/
theorem vprintf_passes_end :
    vprintf (fun _ => ⟨[], by decide⟩) ⟨chars "ab%", by decide⟩ (fun _ => 0) = .error .pastEnd ∧
      vprintf (fun _ => ⟨[], by decide⟩) ⟨chars "%-5", by decide⟩ (fun _ => 0) = .error .pastEnd := by
  decide +kernel

end Pintos.Stdio
