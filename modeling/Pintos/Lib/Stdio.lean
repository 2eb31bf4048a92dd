import Pintos.Lib.CString
import Pintos.Library.Bytes

/-!
# Formatted output

`__vprintf` and what it calls (`lib/stdio.c`). A pointer into a string is the list of
the characters from it on, without the null byte that ends them; a pointer that is
moved past this byte ends the run (`Stop.pastEnd`). The arguments are the words on the
stack, one after the other, and strings are looked up by their addresses. A call
returns the characters that it outputs.
-/

namespace Pintos.Stdio

open Library.Bytes

/-- The ways in which a call goes wrong. -/
inductive Stop where
  /-- A character after the null byte of the format is read. -/
  | pastEnd
  /-- A character is put behind the end of `buf`. -/
  | bufferFull
  /-- The loop has not ended. -/
  | fuel
  deriving DecidableEq

/-! ### Arguments -/

/-- The words of a `va_list`. -/
abbrev Args := ℕ → BitVec 32

/-- The arguments after the first `n` words. -/
def Args.drop (args : Args) (n : ℕ) : Args := fun i => args (n + i)

/-- `va_arg` for a value of two words. -/
def Args.long (args : Args) : BitVec 64 := args 1 ++ args 0

/-! ### Conversions -/

/-- The flags of a conversion. -/
structure Flags where
  minus : Bool := false
  plus : Bool := false
  space : Bool := false
  pound : Bool := false
  zero : Bool := false
  group : Bool := false
  deriving DecidableEq

/-- The type of an argument. -/
inductive ArgType where
  /-- `hh`. -/
  | char
  /-- `h`. -/
  | short
  /-- No letter. -/
  | int
  /-- `j`. -/
  | intmax
  /-- `l`. -/
  | long
  /-- `ll`. -/
  | longlong
  /-- `t`. -/
  | ptrdifft
  /-- `z`. -/
  | sizet
  deriving DecidableEq

/-- `struct printf_conversion`; a precision of -1 is none. -/
structure Conversion where
  flags : Flags := {}
  width : ℤ := 0
  precision : ℤ := -1
  type : ArgType := .int
  deriving DecidableEq

/-- `struct integer_base`; an `x` of 0 is none. -/
structure IntegerBase where
  base : ℕ
  digits : List UInt8
  x : UInt8
  group : ℕ

/-- The characters of a text. -/
def chars (s : String) : List UInt8 := s.toList.map Char.toUInt8

/-- `base_d`. -/
def baseD : IntegerBase := ⟨10, chars "0123456789", 0, 3⟩

/-- `base_o`. -/
def baseO : IntegerBase := ⟨8, chars "01234567", 0, 3⟩

/-- `base_x`. -/
def baseX : IntegerBase := ⟨16, chars "0123456789abcdef", 'x'.toUInt8, 4⟩

/-- `base_X`. -/
def baseXUpper : IntegerBase := ⟨16, chars "0123456789ABCDEF", 'X'.toUInt8, 4⟩

/-! ### `parse_conversion` -/

/-- The flags with the one of the character `ch`, if it is one. -/
def setFlag (ch : UInt8) (f : Flags) : Option Flags :=
  if ch = '-'.toUInt8 then some { f with minus := true }
  else if ch = '+'.toUInt8 then some { f with plus := true }
  else if ch = ' '.toUInt8 then some { f with space := true }
  else if ch = '#'.toUInt8 then some { f with pound := true }
  else if ch = '0'.toUInt8 then some { f with zero := true }
  else if ch = 39 then some { f with group := true } -- an apostrophe
  else none

/-- The loop over the flag characters. -/
def parseFlags : List UInt8 → Flags → List UInt8 × Flags
  | [], f => ([], f)
  | ch :: s, f =>
    match setFlag ch f with
    | some f' => parseFlags s f'
    | none => (ch :: s, f)

/-- `isdigit`. -/
def isDigit (ch : UInt8) : Bool := '0'.toUInt8 ≤ ch && ch ≤ '9'.toUInt8

/-- The loop over the digits of a width or a precision. -/
def parseDigits : List UInt8 → ℤ → List UInt8 × ℤ
  | [], n => ([], n)
  | ch :: s, n => if isDigit ch then parseDigits s (wrap (n * 10 + ch.toNat - 48)) else (ch :: s, n)

/-- A width, or a precision after its point: an argument for `*`, or digits. -/
def parseCount (s : List UInt8) (args : Args) : List UInt8 × ℤ × Args :=
  if s.headD 0 = '*'.toUInt8 then (s.tail, (args 0).toInt, args.drop 1)
  else ((parseDigits s 0).1, (parseDigits s 0).2, args)

/-- A precision, if there is a point. -/
def parsePrecision (s : List UInt8) (args : Args) : List UInt8 × ℤ × Args :=
  if s.headD 0 = '.'.toUInt8 then
    let (s, n, args) := parseCount s.tail args
    (s, if n < 0 then -1 else n, args)
  else (s, -1, args)

/-- The letters of a type. -/
def parseType (s : List UInt8) : List UInt8 × ArgType :=
  let ch := s.headD 0
  if ch = 'h'.toUInt8 then
    if s.tail.headD 0 = 'h'.toUInt8 then (s.tail.tail, .char) else (s.tail, .short)
  else if ch = 'j'.toUInt8 then (s.tail, .intmax)
  else if ch = 'l'.toUInt8 then
    if s.tail.headD 0 = 'l'.toUInt8 then (s.tail.tail, .longlong) else (s.tail, .long)
  else if ch = 't'.toUInt8 then (s.tail, .ptrdifft)
  else if ch = 'z'.toUInt8 then (s.tail, .sizet)
  else (s, .int)

/-- `parse_conversion`: it returns where the conversion's own character is. -/
def parseConversion (s : List UInt8) (args : Args) : List UInt8 × Conversion × Args :=
  let (s, f) := parseFlags s {}
  let f := if f.minus then { f with zero := false } else f
  let f := if f.plus then { f with space := false } else f
  let (s, width, args) := parseCount s args
  let f := if width < 0 then { f with minus := true } else f
  let width := if width < 0 then wrap (-width) else width
  let (s, precision, args) := parsePrecision s args
  let f := if 0 ≤ precision then { f with zero := false } else f
  let (s, type) := parseType s
  (s, ⟨f, width, precision, type⟩, args)

/-! ### `format_integer` -/

/-- Puts a character into `buf`, which has 64 bytes. -/
def push (buf : List UInt8) (ch : UInt8) : Except Stop (List UInt8) :=
  if buf.length < 64 then .ok (buf ++ [ch]) else .error .bufferFull

/-- The loop over the digits, the last one first. -/
def accumulate (group : Bool) (b : IntegerBase) : ℕ → ℕ → ℕ → List UInt8 → Except Stop (List UInt8)
  | 0, _, value, buf => if value = 0 then .ok buf else .error .fuel
  | n + 1, digitCnt, value, buf =>
    if value = 0 then .ok buf
    else do
      let buf ← if group && decide (0 < digitCnt) && decide (digitCnt % b.group = 0) then push buf ','.toUInt8 else pure buf
      let buf ← push buf (b.digits.getD (value % b.base) 0)
      accumulate group b n (digitCnt + 1) (value / b.base) buf

/-- The loop that appends zeros up to the precision. -/
def appendZeros (precision : ℤ) : ℕ → List UInt8 → Except Stop (List UInt8)
  | 0, _ => .error .fuel
  | n + 1, buf =>
    if buf.length < precision ∧ buf.length < 63 then do
      let buf ← push buf '0'.toUInt8
      appendZeros precision n buf
    else .ok buf

/-- The zero that the flag `#` puts before an octal number. -/
def octalZero (pound : Bool) (b : IntegerBase) (buf : List UInt8) : Except Stop (List UInt8) :=
  if pound && decide (b.base = 8) && decide (buf.getLast? ≠ some '0'.toUInt8) then push buf '0'.toUInt8 else .ok buf

/-- The sign character, or 0. -/
def signOf (isSigned negative : Bool) (f : Flags) : UInt8 :=
  if isSigned then
    if f.plus then if negative then '-'.toUInt8 else '+'.toUInt8
    else if f.space then if negative then '-'.toUInt8 else ' '.toUInt8
    else if negative then '-'.toUInt8 else 0
  else 0

/-- `output_dup`. -/
def outputDup (ch : UInt8) (cnt : ℤ) : List UInt8 := List.replicate cnt.toNat ch

/-- `format_integer`. -/
def formatInteger (value : ℕ) (isSigned negative : Bool) (b : IntegerBase) (c : Conversion) : Except Stop (List UInt8) := do
  let sign := signOf isSigned negative c.flags
  let x := if c.flags.pound && decide (value ≠ 0) then b.x else 0
  let buf ← accumulate c.flags.group b 64 0 value []
  let precision := if c.precision < 0 then 1 else c.precision
  let buf ← appendZeros precision 64 buf
  let buf ← octalZero c.flags.pound b buf
  let padCnt := wrap (c.width - buf.length - (if x ≠ 0 then 2 else 0) - (if sign ≠ 0 then 1 else 0))
  let padCnt := if padCnt < 0 then 0 else padCnt
  pure <|
    (if !c.flags.minus && !c.flags.zero then outputDup ' '.toUInt8 padCnt else []) ++
    (if sign ≠ 0 then [sign] else []) ++
    (if x ≠ 0 then ['0'.toUInt8, x] else []) ++
    (if c.flags.zero then outputDup '0'.toUInt8 padCnt else []) ++
    buf.reverse ++
    (if c.flags.minus then outputDup ' '.toUInt8 padCnt else [])

/-! ### `__vprintf` -/

/-- `format_string`. -/
def formatString (string : List UInt8) (c : Conversion) : List UInt8 :=
  (if (string.length : ℤ) < c.width ∧ c.flags.minus = false then outputDup ' '.toUInt8 (c.width - string.length) else []) ++
  string ++
  (if (string.length : ℤ) < c.width ∧ c.flags.minus = true then outputDup ' '.toUInt8 (c.width - string.length) else [])

/-- The value of a signed integer conversion, and the arguments after it. -/
def signedArg (type : ArgType) (args : Args) : BitVec 64 × Args :=
  match type with
  | .char => (((args 0).setWidth 8).signExtend 64, args.drop 1)
  | .short => (((args 0).setWidth 16).signExtend 64, args.drop 1)
  | .int | .long | .ptrdifft => ((args 0).signExtend 64, args.drop 1)
  | .intmax | .longlong => (args.long, args.drop 2)
  | .sizet =>
    let value := (args 0).setWidth 64
    (if (0x7fffffff : BitVec 64).slt value then value - 0xffffffff - 1 else value, args.drop 1)

/-- The value of an unsigned integer conversion, and the arguments after it. -/
def unsignedArg (type : ArgType) (args : Args) : BitVec 64 × Args :=
  match type with
  | .char => (((args 0).setWidth 8).setWidth 64, args.drop 1)
  | .short => (((args 0).setWidth 16).setWidth 64, args.drop 1)
  | .int | .long | .sizet => ((args 0).setWidth 64, args.drop 1)
  | .intmax | .longlong => (args.long, args.drop 2)
  | .ptrdifft => ((args 0).signExtend 64 &&& 0xffffffff, args.drop 1)

/-- What `__printf` outputs for a conversion that there is not. -/
def noConversion (ch : UInt8) (text : String) : List UInt8 := chars "<<no %" ++ [ch] ++ chars text

/-- The `switch` over the conversion's character `ch`. -/
def convert (str : BitVec 32 → CString) (ch : UInt8) (c : Conversion) (args : Args) : Except Stop (List UInt8 × Args) :=
  if ch = 'd'.toUInt8 ∨ ch = 'i'.toUInt8 then do
    let (value, args) := signedArg c.type args
    let negative := value.slt 0
    let out ← formatInteger (if negative then -value else value).toNat true negative baseD c
    pure (out, args)
  else if ch = 'o'.toUInt8 ∨ ch = 'u'.toUInt8 ∨ ch = 'x'.toUInt8 ∨ ch = 'X'.toUInt8 then do
    let (value, args) := unsignedArg c.type args
    let b := if ch = 'o'.toUInt8 then baseO else if ch = 'u'.toUInt8 then baseD
      else if ch = 'x'.toUInt8 then baseX else baseXUpper
    let out ← formatInteger value.toNat false false b c
    pure (out, args)
  else if ch = 'c'.toUInt8 then
    pure (formatString [UInt8.ofNat (args 0).toNat] c, args.drop 1)
  else if ch = 's'.toUInt8 then
    let s := if args 0 = 0 then chars "(null)" else (str (args 0)).bytes
    -- a precision of -1 is `SIZE_MAX` for `strnlen`
    pure (formatString (s.take (ofSigned c.precision)) c, args.drop 1)
  else if ch = 'p'.toUInt8 then do
    let out ← formatInteger (args 0).toNat false false baseX { c with flags := { pound := true } }
    pure (out, args.drop 1)
  else if ch ∈ chars "feEgGn" then pure (noConversion ch " in kernel>>", args)
  else pure (noConversion ch " conversion>>", args)

/-- The loop of `__vprintf`, for at most `n` turns. -/
def vprintfLoop (str : BitVec 32 → CString) : ℕ → List UInt8 → Args → Except Stop (List UInt8)
  | 0, _, _ => .error .fuel
  | _ + 1, [], _ => .ok []
  | n + 1, ch :: format, args =>
    if ch ≠ '%'.toUInt8 then do
      let out ← vprintfLoop str n format args
      pure (ch :: out)
    else if format.headD 0 = '%'.toUInt8 then do
      let out ← vprintfLoop str n format.tail args
      pure ('%'.toUInt8 :: out)
    else do
      let (format, c, args) := parseConversion format args
      let (text, args) ← convert str (format.headD 0) c args
      match format with
      -- the increment of the loop passes the null byte
      | [] => .error .pastEnd
      | _ :: format =>
        let out ← vprintfLoop str n format args
        pure (text ++ out)

/-- `__vprintf`. -/
def vprintf (str : BitVec 32 → CString) (format : CString) (args : Args) : Except Stop (List UInt8) :=
  vprintfLoop str (format.strlen + 1) format.bytes args

/-- What `__vprintf` itself outputs for the formats that are used for conversions that there are not. -/
theorem vprintf_noConversion (str : BitVec 32 → CString) (args : Args) :
    vprintf str ⟨chars "<<no %%%c conversion>>", by decide⟩ args =
        .ok (noConversion (UInt8.ofNat (args 0).toNat) " conversion>>") ∧
      vprintf str ⟨chars "<<no %%%c in kernel>>", by decide⟩ args =
        .ok (noConversion (UInt8.ofNat (args 0).toNat) " in kernel>>") := ⟨rfl, rfl⟩

end Pintos.Stdio
