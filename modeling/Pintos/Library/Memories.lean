import Mathlib.Data.List.GetD
import Mathlib.Logic.Function.Basic
import Pintos.Library.Prog

/-!
# Programs over memory

Memory is a byte for every address. A state of a program that works on memory (`Access`)
says which addresses may be read and written; `load` and `store` stop at the others. Where
the accesses are lawful, a store changes one byte of what is seen and nothing about which
addresses may be used, so that a program is described by the memory that it leaves.
-/

namespace Pintos.Library

open Prog

/-- Memory, byte by byte. -/
abbrev Mem : Type := ℕ → UInt8

namespace Mem

variable {m m' : Mem} {a b x n : ℕ} {l l' : List UInt8}

/-- The bytes `l` are at `a`. -/
def Has (m : Mem) : ℕ → List UInt8 → Prop
  | _, [] => True
  | a, b :: l => m a = b ∧ Has m (a + 1) l

/-- `n` bytes at `a` are replaced by those of `src`. -/
def copy (m : Mem) (a n : ℕ) (src : ℕ → UInt8) : Mem := fun x => if a ≤ x ∧ x < a + n then src (x - a) else m x

theorem has_append : m.Has a (l ++ l') ↔ m.Has a l ∧ m.Has (a + l.length) l' := by
  induction l generalizing a with
  | nil => exact ⟨fun h => ⟨trivial, h⟩, fun h => h.2⟩
  | cons b l ih =>
    rw [List.cons_append, Has, Has, ih, and_assoc, List.length_cons, Nat.add_assoc, Nat.add_comm 1]

theorem has_iff : m.Has a l ↔ ∀ i (h : i < l.length), m (a + i) = l[i] := by
  induction l generalizing a with
  | nil => exact iff_of_true trivial fun i h => absurd h (Nat.not_lt_zero i)
  | cons b l ih =>
    rw [Has, ih]
    constructor
    · rintro ⟨h0, h⟩ i hi
      cases i with
      | zero => exact h0
      | succ i =>
        have hi' := h i (Nat.lt_of_succ_lt_succ hi)
        rwa [Nat.add_assoc, Nat.add_comm 1] at hi'
    · intro h
      refine ⟨h 0 (Nat.zero_lt_succ _), fun i hi => ?_⟩
      have hi' := h (i + 1) (Nat.succ_lt_succ hi)
      rwa [Nat.add_assoc, Nat.add_comm 1]

/-- What is there does not depend on other bytes. -/
theorem Has.congr (h : m.Has a l) (hm : ∀ x, a ≤ x → x < a + l.length → m' x = m x) : m'.Has a l := by
  rw [has_iff] at h ⊢
  intro i hi
  rw [hm (a + i) (Nat.le_add_right ..) (by omega)]
  exact h i hi

theorem copy_zero (src : ℕ → UInt8) : m.copy a 0 src = m := by
  funext x
  exact if_neg fun h => by omega

theorem copy_of_outside {src : ℕ → UInt8} (h : x < a ∨ a + n ≤ x) : m.copy a n src x = m x := if_neg fun hx => by omega

theorem copy_of_inside {src : ℕ → UInt8} (h : x < n) : m.copy a n src (a + x) = src x := by
  rw [copy, if_pos (by omega), Nat.add_sub_cancel_left]

/-- A byte more at the front. -/
theorem copy_succ {src : ℕ → UInt8} : copy (Function.update m a (src 0)) (a + 1) n (fun i => src (i + 1)) = m.copy a (n + 1) src := by
  funext x
  unfold copy
  by_cases hx : x = a
  · subst hx
    rw [if_neg (by omega), if_pos (by omega), Function.update_self, Nat.sub_self]
  · rw [Function.update_of_ne hx]
    by_cases h : a + 1 ≤ x ∧ x < a + 1 + n
    · rw [if_pos h, if_pos (by omega)]
      change src (x - (a + 1) + 1) = src (x - a)
      rw [show x - (a + 1) + 1 = x - a by omega]
    · rw [if_neg h, if_neg (by omega)]

/-- A byte more at the back. -/
theorem copy_last {src : ℕ → UInt8} : copy (Function.update m (a + n) (src n)) a n src = m.copy a (n + 1) src := by
  funext x
  unfold copy
  by_cases hx : x = a + n
  · subst hx
    rw [if_neg (by omega), if_pos (by omega), Function.update_self, Nat.add_sub_cancel_left]
  · rw [Function.update_of_ne hx]
    by_cases h : a ≤ x ∧ x < a + n
    · rw [if_pos h, if_pos (by omega)]
    · rw [if_neg h, if_neg (by omega)]

theorem copy_congr {src src' : ℕ → UInt8} (h : ∀ i < n, src i = src' i) : m.copy a n src = m.copy a n src' := by
  funext x
  unfold copy
  split_ifs with hx
  · exact h _ (by omega)
  · rfl

end Mem

/-! ### Access -/

/-- A state of a program that works on memory. -/
class Access (σ : Type) where
  byte : σ → Mem
  readable : σ → ℕ → Bool
  writable : σ → ℕ → Bool
  store : σ → ℕ → UInt8 → σ

/-- A store changes one byte, in states in which memory is in order (`Sound`). -/
class LawfulAccess (σ : Type) extends Access σ where
  Sound : σ → Prop
  sound_store {s : σ} {a : ℕ} (v : UInt8) : Sound s → writable s a = true → Sound (store s a v)
  byte_store {s : σ} {a : ℕ} (v : UInt8) : Sound s → writable s a = true → byte (store s a v) = Function.update (byte s) a v
  readable_store {s : σ} {a : ℕ} (v : UInt8) : Sound s → writable s a = true → readable (store s a v) = readable s
  writable_store {s : σ} {a : ℕ} (v : UInt8) : Sound s → writable s a = true → writable (store s a v) = writable s

/-- Memory alone, all of which may be used. -/
instance flatAccess : LawfulAccess Mem where
  byte m := m
  readable _ _ := true
  writable _ _ := true
  store m a v := Function.update m a v
  Sound _ := True
  sound_store _ _ _ := trivial
  byte_store _ _ _ := rfl
  readable_store _ _ _ := rfl
  writable_store _ _ _ := rfl

/-- How a program over memory goes wrong. -/
inductive MemFault where
  /-- An access to memory that may not be used. -/
  | access
  /-- A failed assertion. -/
  | assertion
  /-- A loop has not ended. -/
  | fuel
  deriving DecidableEq

/-- Programs over memory. -/
abbrev MemM (σ : Type) := Prog σ MemFault

variable {σ α : Type}

section Programs

variable [Access σ]

/-- `*a`. -/
def loadByte (a : ℕ) : MemM σ UInt8 := do
  let s ← gets id
  if Access.readable s a then pure (Access.byte s a) else stop .access

/-- `*a = v`. -/
def storeByte (a : ℕ) (v : UInt8) : MemM σ Unit := do
  let s ← gets id
  if Access.writable s a then modify fun s => Access.store s a v else stop .access

/-- `ASSERT`. -/
def require (c : Prop) [Decidable c] : MemM σ Unit := if c then pure () else stop .assertion

omit [Access σ] in
theorem wp_require {s : σ} {E : MemFault → Prop} {c : Prop} [Decidable c] {Q : Unit → σ → Prop} (hc : c) :
    wp (require c) Q E s ↔ Q () s := by
  rw [require, if_pos hc, wp_pure]

end Programs

variable [LawfulAccess σ] {s s' s'' : σ} {m m' : Mem} {a n : ℕ} {v : UInt8} {E : MemFault → Prop}

/-- The memory of `s` became `m`; what may be used is the same. -/
structure Leaves (s : σ) (m : Mem) (s' : σ) : Prop where
  sound : LawfulAccess.Sound s'
  byte : Access.byte s' = m
  readable : Access.readable s' = Access.readable s
  writable : Access.writable s' = Access.writable s

theorem Leaves.refl (h : LawfulAccess.Sound s) : Leaves s (Access.byte s) s := ⟨h, rfl, rfl, rfl⟩

theorem Leaves.trans (h : Leaves s m s') (h' : Leaves s' m' s'') : Leaves s m' s'' :=
  ⟨h'.sound, h'.byte, h'.readable.trans h.readable, h'.writable.trans h.writable⟩

/-- All of `n` bytes at `a` may be read. -/
def ReadableAt (s : σ) (a n : ℕ) : Prop := ∀ i < n, Access.readable s (a + i) = true

/-- All of `n` bytes at `a` may be written. -/
def WritableAt (s : σ) (a n : ℕ) : Prop := ∀ i < n, Access.writable s (a + i) = true

theorem ReadableAt.succ {a : ℕ} (h : ReadableAt s a (n + 1)) : Access.readable s a = true ∧ ReadableAt s (a + 1) n := by
  refine ⟨h 0 (Nat.zero_lt_succ n), fun i hi => ?_⟩
  rw [Nat.add_assoc, Nat.add_comm 1]
  exact h (i + 1) (Nat.succ_lt_succ hi)

theorem WritableAt.succ {a : ℕ} (h : WritableAt s a (n + 1)) : Access.writable s a = true ∧ WritableAt s (a + 1) n := by
  refine ⟨h 0 (Nat.zero_lt_succ n), fun i hi => ?_⟩
  rw [Nat.add_assoc, Nat.add_comm 1]
  exact h (i + 1) (Nat.succ_lt_succ hi)

theorem ReadableAt.leaves {s' : σ} {m : Mem} {a : ℕ} (h : ReadableAt s a n) (hl : Leaves s m s') : ReadableAt s' a n :=
  fun i hi => hl.readable ▸ h i hi

theorem WritableAt.leaves {s' : σ} {m : Mem} {a : ℕ} (h : WritableAt s a n) (hl : Leaves s m s') : WritableAt s' a n :=
  fun i hi => hl.writable ▸ h i hi

theorem wp_loadByte {Q : UInt8 → σ → Prop} (h : Access.readable s a = true) : wp (loadByte a) Q E s ↔ Q (Access.byte s a) s := by
  rw [loadByte, wp_bind, wp_gets, id, if_pos h, wp_pure]

/-- **A store.** -/
theorem wp_storeByte {Q : Unit → σ → Prop} (hs : LawfulAccess.Sound s) (h : Access.writable s a = true)
    (hQ : ∀ s', Leaves s (Function.update (Access.byte s) a v) s' → Q () s') : wp (storeByte a v) Q E s := by
  rw [storeByte, wp_bind, wp_gets, id, if_pos h, wp_modify]
  exact hQ _ ⟨LawfulAccess.sound_store v hs h, LawfulAccess.byte_store v hs h, LawfulAccess.readable_store v hs h,
    LawfulAccess.writable_store v hs h⟩

end Pintos.Library
