import Mathlib.Algebra.Order.Ring.Int
import Mathlib.Data.Nat.Digits.Defs
import Mathlib.Data.List.Count
import Mathlib.Tactic.Common

/-!
# Numerals with separators

A number is written with its last digit first, with a separator before some of the
digits, and is read back without them (`readRev_emit`).
-/

namespace Pintos.Library.Numerals

variable {α : Type*} (base : ℕ) (digit : ℕ → α) (sep : α) (mark : ℕ → Bool)

/-- At most `n` digits of `v`, the last one first, numbered from `k` on: there is a separator before each one whose number
is marked. -/
def emit : ℕ → ℕ → ℕ → List α
  | 0, _, _ => []
  | n + 1, k, v =>
    if v = 0 then [] else (if mark k then [sep] else []) ++ digit (v % base) :: emit n (k + 1) (v / base)

/-- The number that is written with the last digit first, without what has no value. -/
def readRev (val : α → Option ℕ) : List α → ℕ
  | [] => 0
  | c :: l =>
    match val c with
    | some i => i + base * readRev val l
    | none => readRev val l

/-- The number that is written with the first digit first. -/
def read (val : α → Option ℕ) (l : List α) : ℕ := readRev base val l.reverse

variable {base digit sep mark} {val : α → Option ℕ} {n k v : ℕ}

theorem emit_zero_value : emit base digit sep mark n k 0 = [] := by
  cases n <;> simp [emit]

theorem emit_succ (hv : v ≠ 0) : emit base digit sep mark (n + 1) k v =
    (if mark k then [sep] else []) ++ digit (v % base) :: emit base digit sep mark n (k + 1) (v / base) := by
  rw [emit, if_neg hv]

/-- With enough digits for a number, there are enough for its quotient. -/
theorem div_lt_pow (hv : v < base ^ (n + 1)) : v / base < base ^ n :=
  Nat.div_lt_of_lt_mul (by rwa [Nat.pow_succ, Nat.mul_comm] at hv)

theorem readRev_append_zeros (hzero : val (digit 0) = some 0) (l : List α) (m : ℕ) :
    readRev base val (l ++ List.replicate m (digit 0)) = readRev base val l := by
  induction l with
  | nil =>
    induction m with
    | zero => rfl
    | succ m ih =>
      rw [List.nil_append] at ih
      simp [List.replicate_succ, readRev, hzero, ih]
  | cons c l ih =>
    simp only [List.cons_append, readRev, ih]

/-- **A numeral is read back.** -/
theorem readRev_emit (hbase : 0 < base) (hval : ∀ i < base, val (digit i) = some i) (hsep : val sep = none) (hv : v < base ^ n) :
    readRev base val (emit base digit sep mark n k v) = v := by
  induction n generalizing k v with
  | zero =>
    rw [Nat.pow_zero, Nat.lt_one_iff] at hv
    rw [hv]
    rfl
  | succ n ih =>
    by_cases h0 : v = 0
    · rw [h0, emit_zero_value]
      rfl
    · have hrest : readRev base val (digit (v % base) :: emit base digit sep mark n (k + 1) (v / base)) = v := by
        simp only [readRev, hval _ (Nat.mod_lt v hbase), ih (div_lt_pow hv)]
        exact Nat.mod_add_div v base
      rw [emit_succ h0]
      cases mark k with
      | false => exact hrest
      | true => simpa [readRev, hsep] using hrest

/-- There are as many digits as the number has, and as many separators as marks. -/
theorem length_emit (hbase : 1 < base) (hv : v < base ^ n) : (emit base digit sep mark n k v).length =
    (Nat.digits base v).length + (List.range' k (Nat.digits base v).length).countP mark := by
  induction n generalizing k v with
  | zero =>
    rw [Nat.pow_zero, Nat.lt_one_iff] at hv
    simp [hv, emit]
  | succ n ih =>
    by_cases h0 : v = 0
    · simp [h0, emit_zero_value]
    · have hdigits : (Nat.digits base v).length = (Nat.digits base (v / base)).length + 1 := by
        rw [Nat.digits_def' hbase (Nat.pos_of_ne_zero h0), List.length_cons]
      rw [emit_succ h0, List.length_append, List.length_cons, ih (div_lt_pow hv), hdigits, List.range'_succ, List.countP_cons]
      cases hk : mark k <;> simp <;> omega

/-- Only digits and separators are written. -/
theorem mem_emit (hbase : 0 < base) {c : α} (hc : c ∈ emit base digit sep mark n k v) : c = sep ∨ ∃ i < base, c = digit i := by
  induction n generalizing k v with
  | zero => simp [emit] at hc
  | succ n ih =>
    by_cases h0 : v = 0
    · rw [h0, emit_zero_value] at hc
      simp at hc
    · rw [emit_succ h0, List.mem_append, List.mem_cons] at hc
      rcases hc with hc | rfl | hc
      · left
        split_ifs at hc
        · exact List.mem_singleton.1 hc
        · simp at hc
      · exact .inr ⟨_, Nat.mod_lt v hbase, rfl⟩
      · exact ih hc

/-- Without separators, only digits are written. -/
theorem mem_emit_unmarked (hbase : 0 < base) (hmark : ∀ k, mark k = false) {c : α}
    (hc : c ∈ emit base digit sep mark n k v) : ∃ i < base, c = digit i := by
  induction n generalizing k v with
  | zero => simp [emit] at hc
  | succ n ih =>
    by_cases h0 : v = 0
    · rw [h0, emit_zero_value] at hc
      simp at hc
    · rw [emit_succ h0, hmark, if_neg Bool.false_ne_true, List.nil_append, List.mem_cons] at hc
      rcases hc with rfl | hc
      · exact ⟨_, Nat.mod_lt v hbase, rfl⟩
      · exact ih hc

/-- What is read when there is a digit more at the end. -/
theorem read_concat {c : α} {i : ℕ} (hc : val c = some i) (l : List α) : read base val (l ++ [c]) = i + base * read base val l := by
  rw [read, List.reverse_append, List.reverse_singleton, List.singleton_append, readRev, hc]
  rfl

/-- The first digit is not 0. -/
theorem getLast_emit (hbase : 1 < base) (hv : v < base ^ n) (h0 : v ≠ 0) :
    ∃ i, 0 < i ∧ i < base ∧ (emit base digit sep mark n k v).getLast? = some (digit i) := by
  induction n generalizing k v with
  | zero =>
    rw [Nat.pow_zero, Nat.lt_one_iff] at hv
    exact absurd hv h0
  | succ n ih =>
    rw [emit_succ h0]
    by_cases hq : v / base = 0
    · have hlt : v < base := (Nat.div_eq_zero_iff.1 hq).resolve_left (by omega)
      refine ⟨v, Nat.pos_of_ne_zero h0, hlt, ?_⟩
      rw [hq, emit_zero_value, Nat.mod_eq_of_lt hlt]
      simp
    · obtain ⟨i, hpos, hi, hlast⟩ := ih (k := k + 1) (div_lt_pow hv) hq
      refine ⟨i, hpos, hi, ?_⟩
      rw [List.getLast?_append, List.getLast?_cons, hlast]
      simp

/-- Before every `g`-th digit but the first there is a separator. -/
theorem countP_multiples {g : ℕ} (m : ℕ) :
    (List.range' 0 m).countP (fun j => decide (0 < j) && decide (j % g = 0)) = (m - 1) / g := by
  induction m with
  | zero => simp
  | succ m ih =>
    rw [List.range'_concat, List.countP_append, ih, List.countP_singleton]
    cases m with
    | zero => simp
    | succ m =>
      rw [Nat.add_sub_cancel, Nat.add_sub_cancel, Nat.succ_div]
      simp [Nat.dvd_iff_mod_eq_zero]

end Pintos.Library.Numerals
