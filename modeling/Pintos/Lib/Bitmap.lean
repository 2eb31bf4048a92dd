import Mathlib.Data.List.Range
import Pintos.Library.Bytes

/-!
# Bitmaps

`lib/kernel/bitmap.c`. The words that hold the bits are left out: bit `k` of the
map is bit `k` of memory from `bits` on, and `bytes` is that memory. Bits past
`bit_cnt` in the last word are memory that is never set; they are written to a
file with the rest and cleared when it is read.
-/

namespace Pintos

open Library

/-- `struct bitmap`. -/
structure Bitmap where
  /-- `bit_cnt`. -/
  bitCnt : ℕ
  /-- `bits`. -/
  bit : ℕ → Bool

namespace Bitmap

/-- `bitmap_create`. -/
def create (n : ℕ) : Bitmap := ⟨n, fun _ => false⟩

/-- `bitmap_set_multiple`. -/
def setMultiple (b : Bitmap) (start cnt : ℕ) (value : Bool) : Bitmap :=
  { b with bit := fun i => if start ≤ i ∧ i < start + cnt then value else b.bit i }

/-- `bitmap_mark`. -/
def mark (b : Bitmap) (i : ℕ) : Bitmap := b.setMultiple i 1 true

/-- `bitmap_flip`. -/
def flip (b : Bitmap) (i : ℕ) : Bitmap := b.setMultiple i 1 (!b.bit i)

/-- `bitmap_contains`. -/
def contains (b : Bitmap) (start cnt : ℕ) (value : Bool) : Bool :=
  (List.range cnt).any fun i => b.bit (start + i) == value

/-- `bitmap_all`. -/
def all (b : Bitmap) (start cnt : ℕ) : Bool := !b.contains start cnt false

/-- `bitmap_scan`; `BITMAP_ERROR` is `none`. -/
def scan (b : Bitmap) (start cnt : ℕ) (value : Bool) : Option ℕ :=
  if cnt ≤ b.bitCnt then
    (List.range' start (b.bitCnt - cnt + 1 - start)).find? fun i => !b.contains i cnt (!value)
  else none

/-- `byte_cnt`: the bytes of the words that hold `n` bits. -/
def byteCnt (n : ℕ) : ℕ := 4 * ((n + 31) / 32)

/-- `bitmap_buf_size`: a `struct bitmap` of two words, and the bits. -/
def bufSize (n : ℕ) : ℕ := 8 + byteCnt n

/-- `bitmap_file_size`. -/
def fileSize (b : Bitmap) : ℕ := byteCnt b.bitCnt

/-- The memory that holds the bits. -/
def bytes (b : Bitmap) : ℕ → UInt8 := Bytes.bitsByte b.bit

/-- The bits in memory read from a file, those past the last one cleared (`last_mask`). -/
def ofBytes (n : ℕ) (m : ℕ → UInt8) : Bitmap := ⟨n, fun i => i < n && Bytes.bitOf m i⟩

/-! ### One bit at a time -/

@[simp] theorem bitCnt_setMultiple (b : Bitmap) (s n : ℕ) (v : Bool) : (b.setMultiple s n v).bitCnt = b.bitCnt := rfl

theorem bit_setMultiple_one (b : Bitmap) (s i : ℕ) (v : Bool) :
    (b.setMultiple s 1 v).bit i = if i = s then v else b.bit i := by
  simp only [setMultiple]
  refine if_congr ?_ rfl rfl
  omega

theorem contains_one (b : Bitmap) (s : ℕ) (v : Bool) : b.contains s 1 v = (b.bit s == v) := by
  simp [contains]

theorem all_one (b : Bitmap) (s : ℕ) : b.all s 1 = b.bit s := by
  rw [all, contains_one]
  cases b.bit s <;> rfl

/-- A scan for one clear bit finds the first. -/
theorem scan_one_eq_some {b : Bitmap} {i : ℕ} (h : b.scan 0 1 false = some i) :
    i < b.bitCnt ∧ b.bit i = false ∧ ∀ j < i, b.bit j = true := by
  unfold scan at h
  split_ifs at h with hc
  obtain ⟨hp, as, bs, heq, has⟩ := List.find?_eq_some_iff_append.1 h
  have hi : i ∈ List.range' 0 (b.bitCnt - 1 + 1 - 0) := by rw [heq]; simp
  rw [List.mem_range'_1] at hi
  refine ⟨by omega, by simpa [contains_one] using hp, fun j hj => ?_⟩
  have hjmem : j ∈ List.range' 0 (b.bitCnt - 1 + 1 - 0) := by rw [List.mem_range'_1]; omega
  have hsorted : (List.range' 0 (b.bitCnt - 1 + 1 - 0)).Pairwise (· < ·) := List.pairwise_lt_range'
  rw [heq] at hjmem hsorted
  rcases List.mem_append.1 hjmem with hjm | hjm
  · simpa [contains_one] using has j hjm
  · rcases List.mem_cons.1 hjm with rfl | hjm
    · omega
    · have := (List.pairwise_cons.1 (List.pairwise_append.1 hsorted).2.1).1 j hjm
      omega

theorem scan_one_eq_none {b : Bitmap} (h : b.scan 0 1 false = none) {i : ℕ} (hi : i < b.bitCnt) : b.bit i = true := by
  unfold scan at h
  rw [if_pos (by omega)] at h
  have := List.find?_eq_none.1 h i (by rw [List.mem_range'_1]; omega)
  simpa [contains_one] using this

/-! ### Runs -/

theorem contains_eq_false {b : Bitmap} {start cnt : ℕ} {v : Bool} :
    b.contains start cnt v = false ↔ ∀ j, start ≤ j → j < start + cnt → b.bit j = !v := by
  rw [contains, List.any_eq_false]
  constructor
  · intro h j h1 h2
    have hj := h (j - start) (List.mem_range.2 (by omega))
    rw [Nat.add_sub_cancel' h1] at hj
    cases v <;> simpa using hj
  · intro h j hj
    rw [List.mem_range] at hj
    rw [h (start + j) (by omega) (by omega)]
    cases v <;> decide

theorem all_eq_true {b : Bitmap} {start cnt : ℕ} :
    b.all start cnt = true ↔ ∀ j, start ≤ j → j < start + cnt → b.bit j = true := by
  rw [all, Bool.not_eq_true', contains_eq_false]
  rfl

/-- A scan finds a run of clear bits. -/
theorem scan_eq_some {b : Bitmap} {cnt i : ℕ} (h : b.scan 0 cnt false = some i) :
    i + cnt ≤ b.bitCnt ∧ ∀ j, i ≤ j → j < i + cnt → b.bit j = false := by
  unfold scan at h
  split_ifs at h with hc
  have hmem := List.mem_of_find?_eq_some h
  rw [List.mem_range'_1] at hmem
  have hp := List.find?_some h
  rw [Bool.not_eq_true', contains_eq_false] at hp
  exact ⟨by omega, hp⟩

/-- A scan that finds nothing has looked at every run. -/
theorem scan_eq_none {b : Bitmap} {cnt i : ℕ} (h : b.scan 0 cnt false = none) (hi : i + cnt ≤ b.bitCnt) :
    ∃ j, i ≤ j ∧ j < i + cnt ∧ b.bit j = true := by
  unfold scan at h
  rw [if_pos (by omega)] at h
  have hp := List.find?_eq_none.1 h i (by rw [List.mem_range'_1]; omega)
  by_contra hno
  refine hp ?_
  rw [Bool.not_eq_true', contains_eq_false]
  intro j h1 h2
  exact Bool.eq_false_iff.2 fun hj => hno ⟨j, h1, h2, hj⟩

/-- What is written to a file is read back, up to the bits past the last one. -/
theorem bit_ofBytes_bytes (b : Bitmap) (i : ℕ) (hi : i < b.bitCnt) : (ofBytes b.bitCnt b.bytes).bit i = b.bit i := by
  simp [ofBytes, bytes, hi]

end Bitmap

end Pintos
