import Mathlib.Algebra.Order.Ring.Int
import Mathlib.Data.Finset.Card
import Mathlib.Data.Finset.Range
import Mathlib.Logic.Function.Basic
import Mathlib.Tactic.Common

/-!
# Maps in slots

A table of `n` slots, each empty or with a key and a value, in which no key is
twice. It represents a map: the value of a key is in the only slot that has it.
Filling an empty slot, also one past the end, inserts a binding, and emptying a
slot deletes one.
-/

namespace Pintos.Library.Slots

variable {κ ν : Type} {n n' : ℕ} {t t' : ℕ → Option (κ × ν)} {m : κ → Option ν} {key : κ} {val : ν} {i : ℕ}

/-- **The slots represent the map `m`.** -/
structure Represents (n : ℕ) (t : ℕ → Option (κ × ν)) (m : κ → Option ν) : Prop where
  distinct : ∀ i j key v w, i < n → j < n → t i = some (key, v) → t j = some (key, w) → i = j
  binds : ∀ key v, m key = some v ↔ ∃ i < n, t i = some (key, v)

theorem Represents.empty (h : ∀ i < n, t i = none) : Represents n t fun _ => none := by
  refine ⟨fun i j key v w hi _ hti _ => ?_, fun key v => ⟨fun hm => (by cases hm), fun ⟨i, hi, hti⟩ => ?_⟩⟩
  · rw [h i hi] at hti
    cases hti
  · rw [h i hi] at hti
    cases hti

/-- A key that no slot has is not bound. -/
theorem Represents.eq_none_iff (h : Represents n t m) : m key = none ↔ ∀ i < n, ∀ v, t i ≠ some (key, v) := by
  constructor
  · intro hm i hi v hti
    rw [(h.binds key v).2 ⟨i, hi, hti⟩] at hm
    cases hm
  · intro hno
    refine Option.eq_none_iff_forall_ne_some.2 fun v hm => ?_
    obtain ⟨i, hi, hti⟩ := (h.binds key v).1 hm
    exact hno i hi v hti

/-- The slots are the same. -/
theorem Represents.congr (h : Represents n t m) (ht : ∀ j < n, t' j = t j) : Represents n t' m := by
  refine ⟨fun i j key v w hi hj hti htj => h.distinct i j key v w hi hj ((ht i hi).symm.trans hti) ((ht j hj).symm.trans htj),
    fun key v => (h.binds key v).trans ⟨fun ⟨i, hi, hti⟩ => ⟨i, hi, (ht i hi).trans hti⟩, fun ⟨i, hi, hti⟩ => ⟨i, hi, ?_⟩⟩⟩
  exact (ht i hi).symm.trans hti

/-- **A new binding**, in a slot that was empty or past the end. -/
theorem Represents.insert [DecidableEq κ] (h : Represents n t m) (hm : m key = none) (hn : n ≤ n') (hi : i < n')
    (hempty : i < n → t i = none) (hself : t' i = some (key, val)) (hold : ∀ j < n, j ≠ i → t' j = t j)
    (hnew : ∀ j < n', n ≤ j → j ≠ i → t' j = none) : Represents n' t' (Function.update m key (some val)) := by
  -- a slot other than `i` that has something is one of the old ones
  have hcases : ∀ j < n', ∀ key' v, t' j = some (key', v) → j = i ∧ key' = key ∧ v = val ∨ j < n ∧ j ≠ i ∧ t j = some (key', v) := by
    intro j hj key' v htj
    by_cases hji : j = i
    · subst hji
      rw [hself, Option.some.injEq, Prod.mk.injEq] at htj
      exact .inl ⟨rfl, htj.1.symm, htj.2.symm⟩
    · by_cases hjn : j < n
      · exact .inr ⟨hjn, hji, (hold j hjn hji).symm.trans htj⟩
      · rw [hnew j hj (Nat.le_of_not_lt hjn) hji] at htj
        cases htj
  have hno := h.eq_none_iff.1 hm
  refine ⟨fun j₁ j₂ key' v w h₁ h₂ ht₁ ht₂ => ?_, fun key' v => ?_⟩
  · rcases hcases j₁ h₁ key' v ht₁ with ⟨rfl, rfl, rfl⟩ | ⟨hn₁, -, ht₁⟩ <;>
      rcases hcases j₂ h₂ key' w ht₂ with ⟨rfl, hk, rfl⟩ | ⟨hn₂, -, ht₂⟩
    · rfl
    · exact absurd ht₂ (hno j₂ hn₂ w)
    · exact absurd (hk ▸ ht₁) (hno j₁ hn₁ v)
    · exact h.distinct j₁ j₂ key' v w hn₁ hn₂ ht₁ ht₂
  · by_cases hk : key' = key
    · subst hk
      rw [Function.update_self]
      constructor
      · intro hv
        cases hv
        exact ⟨i, hi, hself⟩
      · rintro ⟨j, hj, htj⟩
        rcases hcases j hj key' v htj with ⟨-, -, rfl⟩ | ⟨hjn, -, htj⟩
        · rfl
        · exact absurd htj (hno j hjn v)
    · rw [Function.update_of_ne hk, h.binds]
      constructor
      · rintro ⟨j, hj, htj⟩
        have hji : j ≠ i := by
          rintro rfl
          rw [hempty hj] at htj
          cases htj
        exact ⟨j, by omega, (hold j hj hji).trans htj⟩
      · rintro ⟨j, hj, htj⟩
        rcases hcases j hj key' v htj with ⟨-, hk', -⟩ | ⟨hjn, -, htj⟩
        · exact absurd hk' hk
        · exact ⟨j, hjn, htj⟩

/-- **A binding less**: the slot that has the key is emptied. -/
theorem Represents.erase [DecidableEq κ] (h : Represents n t m) (hi : i < n) (hold : t i = some (key, val))
    (hself : t' i = none) (hother : ∀ j < n, j ≠ i → t' j = t j) : Represents n t' (Function.update m key none) := by
  have hcases : ∀ j < n, ∀ key' v, t' j = some (key', v) → j ≠ i ∧ t j = some (key', v) := by
    intro j hj key' v htj
    have hji : j ≠ i := by
      rintro rfl
      rw [hself] at htj
      cases htj
    exact ⟨hji, (hother j hj hji).symm.trans htj⟩
  refine ⟨fun j₁ j₂ key' v w h₁ h₂ ht₁ ht₂ => ?_, fun key' v => ?_⟩
  · exact h.distinct j₁ j₂ key' v w h₁ h₂ (hcases j₁ h₁ key' v ht₁).2 (hcases j₂ h₂ key' w ht₂).2
  · by_cases hk : key' = key
    · subst hk
      rw [Function.update_self]
      refine ⟨fun hv => (by cases hv), fun ⟨j, hj, htj⟩ => ?_⟩
      obtain ⟨hji, htj⟩ := hcases j hj key' v htj
      exact absurd (h.distinct j i key' v val hj hi htj hold) hji
    · rw [Function.update_of_ne hk, h.binds]
      constructor
      · rintro ⟨j, hj, htj⟩
        have hji : j ≠ i := by
          rintro rfl
          rw [hold] at htj
          cases htj
          exact hk rfl
        exact ⟨j, hj, (hother j hj hji).trans htj⟩
      · rintro ⟨j, hj, htj⟩
        exact ⟨j, hj, (hcases j hj key' v htj).2⟩

/-- The slots in use. -/
def used (n : ℕ) (t : ℕ → Option (κ × ν)) : Finset ℕ := (Finset.range n).filter fun i => (t i).isSome

theorem mem_used : i ∈ used n t ↔ i < n ∧ ∃ key val, t i = some (key, val) := by
  rw [used, Finset.mem_filter, Finset.mem_range, Option.isSome_iff_exists, Prod.exists]

theorem Represents.exists_used (h : Represents n t m) (hm : m key ≠ none) : ∃ i ∈ used n t, ∃ val, t i = some (key, val) := by
  obtain ⟨val, hval⟩ := Option.ne_none_iff_exists'.1 hm
  obtain ⟨i, hi, hti⟩ := (h.binds key val).1 hval
  exact ⟨i, mem_used.2 ⟨hi, key, val, hti⟩, val, hti⟩

/-- Of a map with two keys: **more than two slots are in use** exactly if it has a third. -/
theorem Represents.two_lt_card_used (h : Represents n t m) {a b : κ} (hab : a ≠ b) (ha : m a ≠ none) (hb : m b ≠ none) :
    2 < (used n t).card ↔ ∃ key, key ≠ a ∧ key ≠ b ∧ m key ≠ none := by
  obtain ⟨i, hi, v, hti⟩ := h.exists_used ha
  obtain ⟨j, hj, w, htj⟩ := h.exists_used hb
  constructor
  · intro hcard
    obtain ⟨l, hl, hne⟩ := Finset.exists_mem_notMem_of_card_lt_card (Finset.card_le_two.trans_lt hcard : Finset.card {i, j} < _)
    obtain ⟨hln, key, val, htl⟩ := mem_used.1 hl
    refine ⟨key, ?_, ?_, ?_⟩
    · rintro rfl
      exact hne (Finset.mem_insert.2 (.inl (h.distinct l i key val v hln (mem_used.1 hi).1 htl hti)))
    · rintro rfl
      exact hne (Finset.mem_insert.2 (.inr (Finset.mem_singleton.2 (h.distinct l j key val w hln (mem_used.1 hj).1 htl htj))))
    · rw [(h.binds key val).2 ⟨l, hln, htl⟩]
      exact Option.some_ne_none val
  · rintro ⟨key, hka, hkb, hkey⟩
    obtain ⟨l, hl, u, htl⟩ := h.exists_used hkey
    have hne : ∀ {x y : ℕ} {kx ky : κ} {vx vy : ν}, t x = some (kx, vx) → t y = some (ky, vy) → kx ≠ ky → x ≠ y := by
      rintro x _ kx ky vx vy hx hy hk rfl
      rw [hx] at hy
      cases hy
      exact hk rfl
    calc 2 < ({i, j, l} : Finset ℕ).card := by
          rw [Finset.card_eq_three.2 ⟨i, j, l, hne hti htj hab, hne hti htl hka.symm, hne htj htl hkb.symm, rfl⟩]
          exact Nat.lt_succ_self 2
      _ ≤ (used n t).card := Finset.card_le_card fun x hx => by
          rcases Finset.mem_insert.1 hx with rfl | hx
          · exact hi
          rcases Finset.mem_insert.1 hx with rfl | hx
          · exact hj
          · rw [Finset.mem_singleton.1 hx]
            exact hl

end Pintos.Library.Slots
