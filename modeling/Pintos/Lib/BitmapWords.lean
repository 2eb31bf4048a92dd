import Mathlib.Order.Bounds.Basic
import Pintos.Lib.Bitmap
import Pintos.Library.PackedBits
import Pintos.Library.Prog

/-!
# The words of a bitmap

`lib/kernel/bitmap.c` with the 32-bit words that hold the bits. Each function does to the
words what `Bitmap` says of the bits (`toBitmap`), and does not look at a word that is not
there.
-/

namespace Pintos.BitmapWords

open Library Library.Prog Library.PackedBits

/-- `ELEM_BITS`. -/
abbrev elemBits : ℕ := 32

/-- `elem_cnt`. -/
def elemCnt (bitCnt : ℕ) : ℕ := (bitCnt + 31) / 32

/-- `struct bitmap`: the number of bits, and the words from `bits` on. -/
structure WordMap where
  bitCnt : ℕ
  bits : ℕ → BitVec elemBits
  /-- `elem_cnt` does not overflow: `bitmap_create` fails for a bitmap that is larger. -/
  bitCnt_le : bitCnt + 31 < 2 ^ 32

/-- How a function goes wrong. -/
inductive Stop where
  /-- A failed assertion. -/
  | assertion
  /-- A word that is not there is used. -/
  | outOfBounds
  deriving DecidableEq

/-- Functions on a bitmap. -/
abbrev BitM := Prog WordMap Stop

/-- `BITMAP_ERROR`. -/
def bitmapError : ℕ := 2 ^ 32 - 1

/-- `elem_idx`. -/
def elemIdx (bitIdx : ℕ) : ℕ := bitIdx / elemBits

/-- `bit_mask`. -/
def bitMask (bitIdx : ℕ) : BitVec elemBits := mask elemBits bitIdx

/-- `last_mask`. -/
def lastMask (b : WordMap) : BitVec elemBits :=
  let lastBits := b.bitCnt % elemBits
  if lastBits ≠ 0 then BitVec.ofNat elemBits 1 <<< lastBits - 1 else -1

/-- `ASSERT`. -/
def assert (c : Prop) [Decidable c] : BitM Unit := if c then pure () else stop .assertion

/-- `b->bits[idx]`. -/
def elem (idx : ℕ) : BitM (BitVec elemBits) := do
  let b ← gets id
  if idx < elemCnt b.bitCnt then pure (b.bits idx) else stop .outOfBounds

/-- `b->bits[idx] = v`. -/
def setElem (idx : ℕ) (v : BitVec elemBits) : BitM Unit := do
  let b ← gets id
  if idx < elemCnt b.bitCnt then modify fun b => { b with bits := Function.update b.bits idx v } else stop .outOfBounds

/-- `bitmap_size`. -/
def bitmapSize : BitM ℕ := gets WordMap.bitCnt

/-- `bitmap_mark`. -/
def bitmapMark (bitIdx : ℕ) : BitM Unit := do
  let e ← elem (elemIdx bitIdx)
  setElem (elemIdx bitIdx) (e ||| bitMask bitIdx)

/-- `bitmap_reset`. -/
def bitmapReset (bitIdx : ℕ) : BitM Unit := do
  let e ← elem (elemIdx bitIdx)
  setElem (elemIdx bitIdx) (e &&& ~~~bitMask bitIdx)

/-- `bitmap_flip`. -/
def bitmapFlip (bitIdx : ℕ) : BitM Unit := do
  let e ← elem (elemIdx bitIdx)
  setElem (elemIdx bitIdx) (e ^^^ bitMask bitIdx)

/-- `bitmap_set`. -/
def bitmapSet (idx : ℕ) (value : Bool) : BitM Unit := do
  let bitCnt ← bitmapSize
  assert (idx < bitCnt)
  if value then bitmapMark idx else bitmapReset idx

/-- `bitmap_test`. -/
def bitmapTest (idx : ℕ) : BitM Bool := do
  let bitCnt ← bitmapSize
  assert (idx < bitCnt)
  let e ← elem (elemIdx idx)
  pure (decide (e &&& bitMask idx ≠ 0))

/-- The assertions on a range of bits; the sum is a `size_t`. -/
def assertRange (start cnt : ℕ) : BitM Unit := do
  let bitCnt ← bitmapSize
  assert (start ≤ bitCnt)
  assert ((start + cnt) % 2 ^ 32 ≤ bitCnt)

/-- The loop of `bitmap_set_multiple`, with `n` turns left. -/
def setLoop (start : ℕ) (value : Bool) : ℕ → ℕ → BitM Unit
  | 0, _ => pure ()
  | n + 1, i => do
    bitmapSet (start + i) value
    setLoop start value n (i + 1)

/-- `bitmap_set_multiple`. -/
def bitmapSetMultiple (start cnt : ℕ) (value : Bool) : BitM Unit := do
  assertRange start cnt
  setLoop start value cnt 0

/-- `bitmap_set_all`. -/
def bitmapSetAll (value : Bool) : BitM Unit := do
  let bitCnt ← bitmapSize
  bitmapSetMultiple 0 bitCnt value

/-- The loop of `bitmap_count`. -/
def countLoop (start : ℕ) (value : Bool) : ℕ → ℕ → ℕ → BitM ℕ
  | 0, _, valueCnt => pure valueCnt
  | n + 1, i, valueCnt => do
    let t ← bitmapTest (start + i)
    countLoop start value n (i + 1) (if t = value then valueCnt + 1 else valueCnt)

/-- `bitmap_count`. -/
def bitmapCount (start cnt : ℕ) (value : Bool) : BitM ℕ := do
  assertRange start cnt
  countLoop start value cnt 0 0

/-- The loop of `bitmap_contains`. -/
def containsLoop (start : ℕ) (value : Bool) : ℕ → ℕ → BitM Bool
  | 0, _ => pure false
  | n + 1, i => do
    let t ← bitmapTest (start + i)
    if t = value then pure true else containsLoop start value n (i + 1)

/-- `bitmap_contains`. -/
def bitmapContains (start cnt : ℕ) (value : Bool) : BitM Bool := do
  assertRange start cnt
  containsLoop start value cnt 0

/-- `bitmap_any`. -/
def bitmapAny (start cnt : ℕ) : BitM Bool := bitmapContains start cnt true

/-- `bitmap_none`. -/
def bitmapNone (start cnt : ℕ) : BitM Bool := do
  let r ← bitmapContains start cnt true
  pure !r

/-- `bitmap_all`. -/
def bitmapAll (start cnt : ℕ) : BitM Bool := do
  let r ← bitmapContains start cnt false
  pure !r

/-- The loop of `bitmap_scan`, with `n` turns left until `i` is past `last`. -/
def scanLoop (cnt : ℕ) (value : Bool) : ℕ → ℕ → BitM ℕ
  | 0, _ => pure bitmapError
  | n + 1, i => do
    let r ← bitmapContains i cnt (!value)
    if r then scanLoop cnt value n (i + 1) else pure i

/-- `bitmap_scan`. -/
def bitmapScan (start cnt : ℕ) (value : Bool) : BitM ℕ := do
  let bitCnt ← bitmapSize
  assert (start ≤ bitCnt)
  if cnt ≤ bitCnt then
    let last := bitCnt - cnt
    scanLoop cnt value (last + 1 - start) start
  else pure bitmapError

/-- `bitmap_scan_and_flip`. -/
def bitmapScanAndFlip (start cnt : ℕ) (value : Bool) : BitM ℕ := do
  let idx ← bitmapScan start cnt value
  if idx ≠ bitmapError then do
    bitmapSetMultiple idx cnt (!value)
    pure idx
  else pure idx

/-! ### The bits -/

/-- The bits, with those behind the last one. -/
def WordMap.toBitmap (b : WordMap) : Bitmap := ⟨b.bitCnt, bit b.bits⟩

/-- The bits as a list. -/
def WordMap.bools (b : WordMap) : List Bool := (List.range b.bitCnt).map (bit b.bits)

variable {b : WordMap} {i idx start cnt n : ℕ} {value : Bool} {E : Stop → Prop}

theorem elemIdx_lt (h : i < b.bitCnt) : elemIdx i < elemCnt b.bitCnt := by
  unfold elemIdx elemCnt elemBits
  omega

theorem wp_assert {c : Prop} [Decidable c] {Q : Unit → WordMap → Prop} (hc : c) : wp (assert c) Q E b ↔ Q () b := by
  rw [assert, if_pos hc, wp_pure]

theorem wp_elem {Q : BitVec elemBits → WordMap → Prop} (h : idx < elemCnt b.bitCnt) : wp (elem idx) Q E b ↔ Q (b.bits idx) b := by
  rw [elem, wp_bind, wp_gets, id, if_pos h, wp_pure]

theorem wp_setElem {Q : Unit → WordMap → Prop} {v : BitVec elemBits} (h : idx < elemCnt b.bitCnt) :
    wp (setElem idx v) Q E b ↔ Q () { b with bits := Function.update b.bits idx v } := by
  rw [setElem, wp_bind, wp_gets, id, if_pos h, wp_modify]

/-- Bitmaps are equal if their bits are. -/
theorem bitmap_ext {b b' : Bitmap} (hcnt : b.bitCnt = b'.bitCnt) (hbit : ∀ k, b.bit k = b'.bit k) : b = b' := by
  cases b
  cases b'
  obtain rfl : _ = _ := hcnt
  obtain rfl : _ = _ := funext hbit
  rfl

/-- **`bitmap_set`** sets a bit. -/
theorem bitmapSet_spec (h : i < b.bitCnt) :
    wp (bitmapSet i value) (fun _ b' => b'.toBitmap = b.toBitmap.setMultiple i 1 value) E b := by
  have hidx := elemIdx_lt h
  rw [bitmapSet, wp_bind, bitmapSize, wp_gets, wp_bind, wp_assert h]
  cases value with
  | true =>
    rw [if_pos rfl, bitmapMark, wp_bind, wp_elem hidx, wp_setElem hidx]
    refine bitmap_ext rfl fun k => ?_
    rw [Bitmap.bit_setMultiple_one]
    exact bit_or_mask (by decide)
  | false =>
    rw [if_neg Bool.false_ne_true, bitmapReset, wp_bind, wp_elem hidx, wp_setElem hidx]
    refine bitmap_ext rfl fun k => ?_
    rw [Bitmap.bit_setMultiple_one]
    exact bit_and_not_mask (by decide)

/-- **`bitmap_flip`** toggles a bit. -/
theorem bitmapFlip_spec (h : i < b.bitCnt) : wp (bitmapFlip i) (fun _ b' => b'.toBitmap = b.toBitmap.flip i) E b := by
  have hidx := elemIdx_lt h
  rw [bitmapFlip, wp_bind, wp_elem hidx, wp_setElem hidx]
  refine bitmap_ext rfl fun k => ?_
  rw [Bitmap.flip, Bitmap.bit_setMultiple_one]
  exact bit_xor_mask (by decide)

/-- **`bitmap_test`** reads a bit. -/
theorem wp_bitmapTest {Q : Bool → WordMap → Prop} (h : i < b.bitCnt) : wp (bitmapTest i) Q E b ↔ Q (b.toBitmap.bit i) b := by
  have hbit : decide (b.bits (elemIdx i) &&& bitMask i ≠ 0) = b.toBitmap.bit i := by
    rw [Bool.eq_iff_iff, decide_eq_true_iff]
    exact and_mask_ne_zero (by decide)
  rw [bitmapTest, wp_bind, bitmapSize, wp_gets, wp_bind, wp_assert h, wp_bind, wp_elem (elemIdx_lt h), wp_pure, hbit]

theorem wp_assertRange {Q : Unit → WordMap → Prop} (h : start + cnt ≤ b.bitCnt) : wp (assertRange start cnt) Q E b ↔ Q () b := by
  have hle := b.bitCnt_le
  rw [assertRange, wp_bind, bitmapSize, wp_gets, wp_bind, wp_assert (by omega), wp_assert]
  rw [Nat.mod_eq_of_lt (by omega)]
  exact h

/-- **`last_mask`** keeps the bits of the last word that are in use. -/
theorem getLsbD_lastMask (h : elemIdx i + 1 = elemCnt b.bitCnt) : (lastMask b).getLsbD (i % 32) = decide (i < b.bitCnt) := by
  unfold elemIdx elemCnt elemBits at h
  unfold lastMask elemBits
  dsimp only
  split_ifs with hlast
  · have hn : b.bitCnt % 32 < 32 := Nat.mod_lt _ (by decide)
    have hone : (1#32 <<< (b.bitCnt % 32)).toNat = 2 ^ (b.bitCnt % 32) := by
      have hlt : 2 ^ (b.bitCnt % 32) < 2 ^ 32 := Nat.pow_lt_pow_right (by decide) hn
      rw [BitVec.toNat_shiftLeft, show (1#32).toNat = 1 from rfl, Nat.one_shiftLeft, Nat.mod_eq_of_lt hlt]
    have hmask : (1#32 <<< (b.bitCnt % 32) - 1).toNat = 2 ^ (b.bitCnt % 32) - 1 := by
      have hle : (1 : BitVec 32) ≤ 1#32 <<< (b.bitCnt % 32) := by
        rw [BitVec.le_def, hone]
        exact Nat.one_le_two_pow
      rw [BitVec.toNat_sub_of_le hle, hone]
      rfl
    rw [BitVec.getLsbD, hmask, Nat.testBit_two_pow_sub_one, decide_eq_decide]
    omega
  · rw [show (-1 : BitVec 32) = BitVec.allOnes 32 by decide, BitVec.getLsbD_allOnes, decide_eq_decide]
    omega

/-! ### The loops -/

theorem setLoop_spec (h : start + i + n ≤ b.bitCnt) :
    wp (setLoop start value n i) (fun _ b' => b'.toBitmap = b.toBitmap.setMultiple (start + i) n value) E b := by
  induction n generalizing i b with
  | zero =>
    refine bitmap_ext rfl fun k => ?_
    exact (if_neg (by omega)).symm
  | succ n ih =>
    rw [setLoop, wp_bind]
    refine wp_post (bitmapSet_spec (by omega)) fun _ b₁ h₁ => ?_
    have hcnt : b₁.bitCnt = b.bitCnt := congrArg Bitmap.bitCnt h₁
    refine wp_post (ih (by omega)) fun _ b' h' => ?_
    rw [h', h₁]
    refine bitmap_ext rfl fun k => ?_
    simp only [Bitmap.setMultiple]
    split_ifs <;> first | rfl | omega

/-- **`bitmap_set_multiple`.** -/
theorem bitmapSetMultiple_spec (h : start + cnt ≤ b.bitCnt) :
    wp (bitmapSetMultiple start cnt value) (fun _ b' => b'.toBitmap = b.toBitmap.setMultiple start cnt value) E b := by
  rw [bitmapSetMultiple, wp_bind, wp_assertRange h]
  exact setLoop_spec (by omega)

theorem countLoop_spec {c : ℕ} {Q : ℕ → WordMap → Prop} (h : start + i + n ≤ b.bitCnt) : wp (countLoop start value n i c) Q E b ↔
    Q (c + (List.range' (start + i) n).countP fun k => b.toBitmap.bit k == value) b := by
  induction n generalizing i c with
  | zero => rfl
  | succ n ih =>
    rw [countLoop, wp_bind, wp_bitmapTest (by omega), ih (by omega), List.range'_succ, List.countP_cons, Nat.add_assoc start]
    by_cases ht : b.toBitmap.bit (start + i) = value
    · rw [if_pos ht, if_pos (by simp [ht]), Nat.add_assoc c, Nat.add_comm 1]
    · rw [if_neg ht, if_neg (by simp [ht])]
      exact Iff.rfl

theorem containsLoop_spec {Q : Bool → WordMap → Prop} (h : start + i + n ≤ b.bitCnt) : wp (containsLoop start value n i) Q E b ↔
    Q ((List.range' (start + i) n).any fun k => b.toBitmap.bit k == value) b := by
  induction n generalizing i with
  | zero => rfl
  | succ n ih =>
    rw [containsLoop, wp_bind, wp_bitmapTest (by omega), List.range'_succ, List.any_cons]
    by_cases ht : b.toBitmap.bit (start + i) = value
    · rw [if_pos ht, wp_pure, beq_iff_eq.2 ht, Bool.true_or]
    · rw [if_neg ht, ih (by omega), beq_eq_false_iff_ne.2 ht, Bool.false_or, Nat.add_assoc start]

/-- **`bitmap_contains`.** -/
theorem wp_bitmapContains {Q : Bool → WordMap → Prop} (h : start + cnt ≤ b.bitCnt) : wp (bitmapContains start cnt value) Q E b ↔
    Q (b.toBitmap.contains start cnt value) b := by
  have heq : (List.range' start cnt).any (fun k => b.toBitmap.bit k == value) = b.toBitmap.contains start cnt value := by
    rw [Bitmap.contains, List.range'_eq_map_range, List.any_map]
    rfl
  rw [bitmapContains, wp_bind, wp_assertRange h, containsLoop_spec (by omega), Nat.add_zero, heq]

theorem wp_bitmapCount {Q : ℕ → WordMap → Prop} (h : start + cnt ≤ b.bitCnt) : wp (bitmapCount start cnt value) Q E b ↔
    Q ((List.range' start cnt).countP fun k => b.toBitmap.bit k == value) b := by
  rw [bitmapCount, wp_bind, wp_assertRange h, countLoop_spec (by omega), Nat.add_zero, Nat.zero_add]

theorem wp_bitmapAll {Q : Bool → WordMap → Prop} (h : start + cnt ≤ b.bitCnt) : wp (bitmapAll start cnt) Q E b ↔
    Q (b.toBitmap.all start cnt) b := by
  rw [bitmapAll, wp_bind, wp_bitmapContains h, wp_pure]
  exact Iff.rfl

theorem wp_bitmapAny {Q : Bool → WordMap → Prop} (h : start + cnt ≤ b.bitCnt) : wp (bitmapAny start cnt) Q E b ↔
    Q (b.toBitmap.contains start cnt true) b := wp_bitmapContains h

theorem wp_bitmapNone {Q : Bool → WordMap → Prop} (h : start + cnt ≤ b.bitCnt) : wp (bitmapNone start cnt) Q E b ↔
    Q (!b.toBitmap.contains start cnt true) b := by
  rw [bitmapNone, wp_bind, wp_bitmapContains h, wp_pure]

/-- **`bitmap_set_all`.** -/
theorem bitmapSetAll_spec : wp (bitmapSetAll value)
    (fun _ b' => b'.toBitmap = b.toBitmap.setMultiple 0 b.bitCnt value) E b := by
  rw [bitmapSetAll, wp_bind, bitmapSize, wp_gets]
  exact bitmapSetMultiple_spec (by omega)

theorem scanLoop_spec {Q : ℕ → WordMap → Prop} (h : i + n + cnt ≤ b.bitCnt + 1) : wp (scanLoop cnt value n i) Q E b ↔
    Q (((List.range' i n).find? fun k => !b.toBitmap.contains k cnt (!value)).getD bitmapError) b := by
  induction n generalizing i with
  | zero => exact Iff.rfl
  | succ n ih =>
    rw [scanLoop, wp_bind, wp_bitmapContains (by omega), List.range'_succ, List.find?_cons]
    cases b.toBitmap.contains i cnt (!value) with
    | false => exact Iff.rfl
    | true =>
      rw [if_pos rfl, ih (by omega)]
      exact Iff.rfl

/-- **`bitmap_scan`.** -/
theorem wp_bitmapScan {Q : ℕ → WordMap → Prop} (h : start ≤ b.bitCnt) : wp (bitmapScan start cnt value) Q E b ↔
    Q ((b.toBitmap.scan start cnt value).getD bitmapError) b := by
  rw [bitmapScan, wp_bind, bitmapSize, wp_gets, wp_bind, wp_assert h, Bitmap.scan]
  by_cases hcnt : cnt ≤ b.bitCnt
  · rw [if_pos hcnt, if_pos (show cnt ≤ b.toBitmap.bitCnt from hcnt)]
    change wp (scanLoop cnt value (b.bitCnt - cnt + 1 - start) start) Q E b ↔
      Q (((List.range' start (b.bitCnt - cnt + 1 - start)).find? fun i => !b.toBitmap.contains i cnt (!value)).getD bitmapError) b
    rcases Nat.lt_or_ge (b.bitCnt - cnt) start with hlt | hge
    · rw [show b.bitCnt - cnt + 1 - start = 0 by omega]
      exact Iff.rfl
    · exact scanLoop_spec (by omega)
  · rw [if_neg hcnt, if_neg (show ¬ cnt ≤ b.toBitmap.bitCnt from hcnt)]
    exact Iff.rfl

/-! ### The list of the bits -/

theorem getElem?_bools (b : WordMap) (k : ℕ) : b.bools[k]? = if k < b.bitCnt then some (bit b.bits k) else none := by
  rw [WordMap.bools, List.getElem?_map]
  split_ifs with h
  · rw [List.getElem?_range h, Option.map_some]
  · rw [List.getElem?_eq_none (by simpa using h), Option.map_none]

theorem length_bools (b : WordMap) : b.bools.length = b.bitCnt := by rw [WordMap.bools, List.length_map, List.length_range]

/-- The bits from `start` on. -/
theorem slice_bools (h : start + cnt ≤ b.bitCnt) : (b.bools.drop start).take cnt = (List.range' start cnt).map b.toBitmap.bit := by
  refine List.ext_getElem? fun k => ?_
  rw [List.getElem?_take, List.getElem?_drop, getElem?_bools, List.getElem?_map]
  by_cases hk : k < cnt
  · rw [if_pos hk, if_pos (by omega), List.getElem?_range' hk, Option.map_some, Nat.one_mul]
    rfl
  · rw [if_neg hk, List.getElem?_eq_none (by simpa using hk), Option.map_none]

theorem contains_eq (h : start + cnt ≤ b.bitCnt) (v : Bool) :
    b.toBitmap.contains start cnt v = ((b.bools.drop start).take cnt).contains v := by
  rw [Bool.eq_iff_iff, List.contains_iff_mem, slice_bools h, Bitmap.contains, List.any_eq_true, List.range'_eq_map_range,
    List.map_map, List.mem_map]
  simp only [beq_iff_eq, Function.comp_apply]

/-- There are `cnt` bits from place `i` on, and all of them are `value`. -/
def RunAt (b : WordMap) (cnt : ℕ) (value : Bool) (i : ℕ) : Prop :=
  i + cnt ≤ b.bools.length ∧ (b.bools.drop i).take cnt = List.replicate cnt value

theorem runAt_iff : RunAt b cnt value i ↔ i + cnt ≤ b.bitCnt ∧ b.toBitmap.contains i cnt (!value) = false := by
  rw [RunAt, length_bools]
  refine and_congr_right fun h => ?_
  rw [slice_bools h, Bitmap.contains_eq_false, List.eq_replicate_iff, List.length_map, List.length_range', and_iff_right rfl]
  simp only [List.forall_mem_map, List.mem_range'_1, Bool.not_not, and_imp]

/-- What a scan from `start` on is to return. -/
def Found (b : WordMap) (start cnt : ℕ) (value : Bool) (r : ℕ) : Prop :=
  r ≠ bitmapError ∧ IsLeast {i | start ≤ i ∧ RunAt b cnt value i} r ∨
    r = bitmapError ∧ ∀ i, start ≤ i → ¬ RunAt b cnt value i

/-- **A scan** finds the first run, if there is one. -/
theorem found_scan (b : WordMap) (start cnt : ℕ) (value : Bool) : Found b start cnt value ((b.toBitmap.scan start cnt value).getD bitmapError) := by
  have hle := b.bitCnt_le
  unfold Bitmap.scan
  by_cases hcnt : cnt ≤ b.bitCnt
  · rw [if_pos (show cnt ≤ b.toBitmap.bitCnt from hcnt)]
    change Found b start cnt value
      (((List.range' start (b.bitCnt - cnt + 1 - start)).find? fun i => !b.toBitmap.contains i cnt (!value)).getD bitmapError)
    cases hfind : (List.range' start (b.bitCnt - cnt + 1 - start)).find? fun i => !b.toBitmap.contains i cnt (!value) with
    | none =>
      refine .inr ⟨rfl, fun i hi hrun => ?_⟩
      obtain ⟨hin, hcontains⟩ := runAt_iff.1 hrun
      have hnot := List.find?_range'_eq_none.1 hfind i hi (by omega)
      rw [hcontains] at hnot
      exact Bool.false_ne_true hnot
    | some r =>
      obtain ⟨hr, hmem, hfirst⟩ := List.find?_range'_eq_some.1 hfind
      rw [List.mem_range'_1] at hmem
      rw [Bool.not_eq_true'] at hr
      change Found b start cnt value r
      refine .inl ⟨?_, ⟨hmem.1, runAt_iff.2 ⟨by omega, hr⟩⟩, ?_⟩
      · change r ≠ 2 ^ 32 - 1
        omega
      · rintro i ⟨hi, hrun⟩
        by_contra hlt
        have hnot := hfirst i hi (by omega)
        rw [(runAt_iff.1 hrun).2] at hnot
        exact Bool.false_ne_true hnot
  · rw [if_neg (show ¬ cnt ≤ b.toBitmap.bitCnt from hcnt)]
    refine .inr ⟨rfl, fun i _ hrun => ?_⟩
    have hin := (runAt_iff.1 hrun).1
    omega

/-- **`bitmap_scan_and_flip`** returns what a scan does, and flips the run. -/
theorem bitmapScanAndFlip_spec (h : start ≤ b.bitCnt) : wp (bitmapScanAndFlip start cnt value)
    (fun r b' => r = (b.toBitmap.scan start cnt value).getD bitmapError ∧ b'.bitCnt = b.bitCnt ∧
      ∀ k, bit b'.bits k = if r ≠ bitmapError ∧ r ≤ k ∧ k < r + cnt then !bit b.bits k else bit b.bits k) E b := by
  rw [bitmapScanAndFlip, wp_bind, wp_bitmapScan h]
  rcases found_scan b start cnt value with ⟨hr, ⟨-, hrun⟩, -⟩ | ⟨hr, -⟩
  · obtain ⟨hin, hcontains⟩ := runAt_iff.1 hrun
    rw [if_pos hr, wp_bind]
    refine wp_post (bitmapSetMultiple_spec hin) fun _ b' hb' => ⟨rfl, congrArg Bitmap.bitCnt hb', fun k => ?_⟩
    have hbit : bit b'.bits k = (b.toBitmap.setMultiple _ cnt (!value)).bit k := congrFun (congrArg Bitmap.bit hb') k
    rw [hbit, Bitmap.setMultiple]
    dsimp only
    split_ifs with hk hk' hk'
    · have hval := Bitmap.contains_eq_false.1 hcontains k hk.1 hk.2
      rw [Bool.not_not] at hval
      exact congrArg not hval.symm
    · exact absurd ⟨hr, hk⟩ hk'
    · exact absurd hk'.2 hk
    · rfl
  · rw [if_neg (not_not_intro hr)]
    exact ⟨rfl, rfl, fun k => (if_neg fun hand => hand.1 hr).symm⟩

/-- A function that only reads. -/
theorem ok_of_reads {α : Type} {m : BitM α} {r : α} (h : wp m (fun r' b' => r' = r ∧ b' = b) (fun _ => False) b) :
    m b = .ok (r, b) := by
  obtain ⟨_, _, hrun, rfl, rfl⟩ := exists_ok h
  exact hrun

/-- **The words of a bitmap** are a list of bits, whatever their number is. A scan finds the first run of bits, if there is one,
and may flip this run and nothing else; a range of bits is set, counted and searched as a part of the list. -/
theorem bitmap_words_agree (b : WordMap) (start cnt : ℕ) (value : Bool) (hstart : start ≤ b.bitCnt) :
    (∃ r, Found b start cnt value r ∧ bitmapScan start cnt value b = .ok (r, b) ∧
      ∃ b', bitmapScanAndFlip start cnt value b = .ok (r, b') ∧ b'.bitCnt = b.bitCnt ∧
        ∀ k, bit b'.bits k = if r ≠ bitmapError ∧ r ≤ k ∧ k < r + cnt then !bit b.bits k else bit b.bits k) ∧
      (start + cnt ≤ b.bitCnt →
        (∃ b', bitmapSetMultiple start cnt value b = .ok ((), b') ∧
          (∀ k, b'.bools[k]? = if start ≤ k ∧ k < start + cnt then some value else b.bools[k]?) ∧
          ∀ k, b.bitCnt ≤ k → bit b'.bits k = bit b.bits k) ∧
        bitmapCount start cnt value b = .ok (((b.bools.drop start).take cnt).count value, b) ∧
        bitmapContains start cnt value b = .ok (((b.bools.drop start).take cnt).contains value, b) ∧
        bitmapAll start cnt b = .ok (((b.bools.drop start).take cnt).all id, b)) := by
  constructor
  · have hscan : bitmapScan start cnt value b = .ok (_, b) := ok_of_reads ((wp_bitmapScan hstart).2 ⟨rfl, rfl⟩)
    obtain ⟨_, b', hflip, hr, hcnt, hbits⟩ := exists_ok (bitmapScanAndFlip_spec hstart)
    subst hr
    exact ⟨_, found_scan b start cnt value, hscan, b', hflip, hcnt, hbits⟩
  · intro h
    have hslice := slice_bools h
    refine ⟨?_, ok_of_reads ((wp_bitmapCount h).2 ⟨?_, rfl⟩), ok_of_reads ((wp_bitmapContains h).2 ⟨?_, rfl⟩),
      ok_of_reads ((wp_bitmapAll h).2 ⟨?_, rfl⟩)⟩
    · obtain ⟨⟨⟩, b', hset, hb'⟩ := exists_ok (@bitmapSetMultiple_spec b start cnt value _ h)
      have hcnt : b'.bitCnt = b.bitCnt := congrArg Bitmap.bitCnt hb'
      have hbit : ∀ k, bit b'.bits k = if start ≤ k ∧ k < start + cnt then value else bit b.bits k :=
        fun k => congrFun (congrArg Bitmap.bit hb') k
      refine ⟨b', hset, fun k => ?_, fun k hk => ?_⟩
      · rw [getElem?_bools, getElem?_bools, hcnt, hbit]
        split_ifs <;> first | rfl | omega
      · rw [hbit, if_neg (by omega)]
    · rw [hslice, List.count, List.countP_map]
      rfl
    · exact contains_eq h value
    · rw [Bitmap.all, contains_eq h false, Bool.eq_iff_iff, Bool.not_eq_true', ← Bool.not_eq_true, List.contains_iff_mem,
        List.all_eq_true]
      constructor
      · intro hmem x hx
        cases x with
        | true => rfl
        | false => exact absurd hx hmem
      · intro hall hmem
        exact Bool.false_ne_true (hall false hmem)

/-- A bitmap of 33 bits, of which the first word's are set. -/
def firstWord : WordMap := ⟨33, fun i => if i = 0 then -1 else 0, by decide⟩

/-- **The bit behind a full word** is found and flipped. -/
theorem bitmap_words_agree_33 : (∃ r, Found firstWord 0 1 false r ∧ bitmapScan 0 1 false firstWord = .ok (r, firstWord)) ∧
    bitmapCount 30 3 true firstWord = .ok (((firstWord.bools.drop 30).take 3).count true, firstWord) := by
  obtain ⟨⟨r, hr, hscan, -⟩, -⟩ := bitmap_words_agree firstWord 0 1 false (Nat.zero_le _)
  exact ⟨⟨r, hr, hscan⟩, ((bitmap_words_agree firstWord 30 3 true (by decide)).2 (by decide)).2.1⟩

end Pintos.BitmapWords
