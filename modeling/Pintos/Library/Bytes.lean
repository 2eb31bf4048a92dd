import Mathlib.Algebra.Order.Ring.Int
import Mathlib.Data.Int.Notation
import Mathlib.Data.Int.Bitwise
import Mathlib.Tactic.Common

/-!
# Words and bits in bytes

32-bit words laid out least significant byte first, two's complement, and bit
strings packed eight to a byte. Each encoding is read back by its decoding
(`unpack_pack`, `toSigned_ofSigned`, `bitOf_bitsByte`).
-/

namespace Pintos.Library.Bytes

/-! ### Words -/

/-- Byte `i` of the word `w`. -/
def byteOf (w i : ℕ) : UInt8 := UInt8.ofNat (w / 256 ^ i)

/-- The word in the bytes `b 0`, …, `b 3`. -/
def word (b : ℕ → UInt8) : ℕ :=
  (b 0).toNat + 256 * (b 1).toNat + 65536 * (b 2).toNat + 16777216 * (b 3).toNat

theorem word_byteOf (w : ℕ) : word (byteOf w) = w % 2 ^ 32 := by
  simp only [word, byteOf, UInt8.toNat_ofNat']
  omega

theorem word_lt (b : ℕ → UInt8) : word b < 2 ^ 32 := by
  have h0 := (b 0).toNat_lt
  have h1 := (b 1).toNat_lt
  have h2 := (b 2).toNat_lt
  have h3 := (b 3).toNat_lt
  unfold word
  omega

/-- The words `w 0`, `w 1`, … one after another: byte `i`. -/
def pack (w : ℕ → ℕ) (i : ℕ) : UInt8 := byteOf (w (i / 4)) (i % 4)

/-- Word `j` of a sequence of bytes. -/
def unpack (b : ℕ → UInt8) (j : ℕ) : ℕ := word fun i => b (4 * j + i)

theorem unpack_congr {b b' : ℕ → UInt8} {j : ℕ} (h : ∀ i < 4, b (4 * j + i) = b' (4 * j + i)) :
    unpack b j = unpack b' j := by
  simp only [unpack, word, h 0 (by decide), h 1 (by decide), h 2 (by decide), h 3 (by decide)]

@[simp] theorem unpack_pack (w : ℕ → ℕ) (j : ℕ) : unpack (pack w) j = w j % 2 ^ 32 := by
  rw [← word_byteOf]
  simp only [unpack, word, pack, show (4 * j + 0) / 4 = j by omega, show (4 * j + 1) / 4 = j by omega,
    show (4 * j + 2) / 4 = j by omega, show (4 * j + 3) / 4 = j by omega, show (4 * j + 0) % 4 = 0 by omega,
    show (4 * j + 1) % 4 = 1 by omega, show (4 * j + 2) % 4 = 2 by omega, show (4 * j + 3) % 4 = 3 by omega]

/-! ### Two's complement -/

/-- An integer that fits in 32 bits. -/
def InRange (x : ℤ) : Prop := -2 ^ 31 ≤ x ∧ x < 2 ^ 31

/-- The word an integer is kept in. -/
def ofSigned (x : ℤ) : ℕ := (x % 2 ^ 32).toNat

/-- The integer a word stands for. -/
def toSigned (n : ℕ) : ℤ := if n < 2 ^ 31 then n else n - 2 ^ 32

/-- The integer that 32-bit arithmetic keeps of `x`. -/
def wrap (x : ℤ) : ℤ := toSigned (ofSigned x)

theorem ofSigned_lt (x : ℤ) : ofSigned x < 2 ^ 32 := by
  unfold ofSigned
  omega

theorem toSigned_ofSigned {x : ℤ} (h : InRange x) : toSigned (ofSigned x) = x := by
  obtain ⟨h1, h2⟩ := h
  unfold toSigned ofSigned
  split_ifs <;> omega

theorem wrap_eq {x : ℤ} (h : InRange x) : wrap x = x := toSigned_ofSigned h

theorem wrap_inRange (x : ℤ) : InRange (wrap x) := by
  unfold wrap toSigned ofSigned InRange
  split_ifs <;> omega

theorem ofSigned_of_nonneg {x : ℤ} (h0 : 0 ≤ x) (h : x < 2 ^ 32) : ofSigned x = x.toNat := by
  unfold ofSigned
  omega

/-! ### Bits -/

/-- Byte `j` of a string of bits. -/
def bitsByte (f : ℕ → Bool) (j : ℕ) : UInt8 := UInt8.ofNat (Nat.ofBits fun b : Fin 8 => f (8 * j + b))

/-- Bit `i` of a sequence of bytes. -/
def bitOf (b : ℕ → UInt8) (i : ℕ) : Bool := (b (i / 8)).toNat.testBit (i % 8)

@[simp] theorem bitOf_bitsByte (f : ℕ → Bool) (i : ℕ) : bitOf (bitsByte f) i = f i := by
  have hlt : Nat.ofBits (fun b : Fin 8 => f (8 * (i / 8) + b)) < 2 ^ 8 := Nat.ofBits_lt_two_pow _
  simp only [bitOf, bitsByte, UInt8.toNat_ofNat']
  rw [Nat.mod_eq_of_lt hlt, Nat.testBit_ofBits_lt _ _ (Nat.mod_lt _ (by decide))]
  simp only
  congr 1
  omega

end Pintos.Library.Bytes
