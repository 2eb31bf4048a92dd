import Mathlib.Algebra.Order.Ring.Int
import Mathlib.Logic.Equiv.Basic
import Mathlib.Tactic.Common

/-!
# Heap sort

Heap sort over the places `1` to `n`; the children of place `i` are `2 * i` and
`2 * i + 1`. An element that may be smaller than its children is exchanged with the largest
one until it is in order (`sift`); everything else is in order all the time (`Sinking`).
What is moved stays between `1` and `n` (`Permutes`).
-/

namespace Pintos.Library.HeapSort

variable {α : Type*}

/-! ### The algorithm -/

/-- The elements of two places are exchanged. -/
def exchange (a : ℕ → α) (i j : ℕ) : ℕ → α := a ∘ Equiv.swap i j

section Algorithm

variable (gt : α → α → Bool)

/-- The place `c`, if there is one and its element is larger than that of the place `max`. -/
def larger (a : ℕ → α) (n max c : ℕ) : ℕ := if c ≤ n ∧ gt (a c) (a max) then c else max

/-- The place of the largest among an element and its children. -/
def largest (a : ℕ → α) (n i : ℕ) : ℕ := larger gt a n (larger gt a n i (2 * i)) (2 * i + 1)

/-- The element of place `i` sinks for at most a number of steps. -/
def sift (n : ℕ) : ℕ → ℕ → (ℕ → α) → ℕ → α
  | 0, _, a => a
  | fuel + 1, i, a =>
    if largest gt a n i = i then a else sift n fuel (largest gt a n i) (exchange a i (largest gt a n i))

/-- The places from some `i` down to 1 are put in order. -/
def build (n : ℕ) : ℕ → (ℕ → α) → ℕ → α
  | 0, a => a
  | i + 1, a => build n i (sift gt n n (i + 1) a)

/-- The largest element is put behind the others, until there is one left. -/
def extract : ℕ → (ℕ → α) → ℕ → α
  | 0, a => a
  | i + 1, a => if i = 0 then a else extract i (sift gt i i 1 (exchange a 1 (i + 1)))

/-- Heap sort. -/
def heapSort (n : ℕ) (a : ℕ → α) : ℕ → α := extract gt n (build gt n (n / 2) a)

end Algorithm

/-! ### Permutations of the first places -/

/-- The elements of the places 1 to `n` are moved among these. -/
def Permutes (n : ℕ) (a b : ℕ → α) : Prop := ∃ π : Equiv.Perm ℕ, (∀ k, k < 1 ∨ n < k → π k = k) ∧ b = a ∘ π

namespace Permutes

variable {n m i j : ℕ} {a b c : ℕ → α}

theorem refl (n : ℕ) (a : ℕ → α) : Permutes n a a := ⟨Equiv.refl ℕ, fun _ _ => rfl, rfl⟩

theorem trans (h : Permutes n a b) (h' : Permutes n b c) : Permutes n a c := by
  obtain ⟨π, hπ, rfl⟩ := h
  obtain ⟨ρ, hρ, rfl⟩ := h'
  refine ⟨ρ.trans π, fun k hk => ?_, rfl⟩
  rw [Equiv.trans_apply, hρ k hk, hπ k hk]

theorem mono (h : Permutes n a b) (hle : n ≤ m) : Permutes m a b := by
  obtain ⟨π, hπ, hb⟩ := h
  exact ⟨π, fun k hk => hπ k (by omega), hb⟩

theorem exchange (hi : 1 ≤ i) (hin : i ≤ n) (hj : 1 ≤ j) (hjn : j ≤ n) (a : ℕ → α) : Permutes n a (exchange a i j) :=
  ⟨Equiv.swap i j, fun k hk => Equiv.swap_apply_of_ne_of_ne (by omega) (by omega), rfl⟩

/-- Other places are not touched. -/
theorem eq_of_outside (h : Permutes n a b) {k : ℕ} (hk : k < 1 ∨ n < k) : b k = a k := by
  obtain ⟨π, hπ, rfl⟩ := h
  rw [Function.comp_apply, hπ k hk]

/-- What holds of all the elements holds of them afterwards. -/
theorem forall_mem (h : Permutes n a b) {P : α → Prop} (hP : ∀ k, 1 ≤ k → k ≤ n → P (a k)) {k : ℕ} (hk : 1 ≤ k) (hkn : k ≤ n) :
    P (b k) := by
  obtain ⟨π, hπ, rfl⟩ := h
  have hin : 1 ≤ π k ∧ π k ≤ n := by
    by_contra hout
    have hfix : π k = k := π.injective (hπ (π k) (by omega))
    omega
  exact hP (π k) hin.1 hin.2

end Permutes

/-! ### Order -/

/-- The order that a comparison stands for. -/
def Le (gt : α → α → Bool) (x y : α) : Prop := gt x y = false

/-- A total preorder. -/
structure TotalPreorder (gt : α → α → Bool) : Prop where
  total : ∀ x y, Le gt x y ∨ Le gt y x
  trans : ∀ x y z, Le gt x y → Le gt y z → Le gt x z

theorem TotalPreorder.refl {gt : α → α → Bool} (h : TotalPreorder gt) (x : α) : Le gt x x := or_self_iff.1 (h.total x x)

theorem TotalPreorder.le_of_gt {gt : α → α → Bool} (h : TotalPreorder gt) {x y : α} (hgt : gt x y = true) : Le gt y x :=
  (h.total x y).resolve_left fun hle => Bool.false_ne_true (hle.symm.trans hgt)

variable {gt : α → α → Bool} {a b : ℕ → α} {lo n i m fuel : ℕ}

/-- From place `lo` on, no child is larger than its parent. -/
def Ordered (gt : α → α → Bool) (a : ℕ → α) (lo n : ℕ) : Prop :=
  ∀ c, 2 ≤ c → c ≤ n → lo ≤ c / 2 → Le gt (a c) (a (c / 2))

/-- All is in order but for the element of place `i`, which may be too small. -/
structure Sinking (gt : α → α → Bool) (a : ℕ → α) (lo n i : ℕ) : Prop where
  others : ∀ c, 2 ≤ c → c ≤ n → lo ≤ c / 2 → c / 2 ≠ i → Le gt (a c) (a (c / 2))
  above : lo ≤ i / 2 → 2 ≤ i → ∀ c, c ≤ n → c / 2 = i → Le gt (a c) (a (i / 2))

theorem larger_spec (h : TotalPreorder gt) (a : ℕ → α) (n max c : ℕ) :
    (larger gt a n max c = max ∨ larger gt a n max c = c ∧ c ≤ n) ∧ Le gt (a max) (a (larger gt a n max c)) ∧
      (c ≤ n → Le gt (a c) (a (larger gt a n max c))) := by
  unfold larger
  split_ifs with hc
  · exact ⟨.inr ⟨rfl, hc.1⟩, h.le_of_gt hc.2, fun _ => h.refl _⟩
  · exact ⟨.inl rfl, h.refl _, fun hcn => Bool.eq_false_iff.2 fun hgt => hc ⟨hcn, hgt⟩⟩

/-- **The element that is chosen** is one of the three, and none of them is larger. -/
theorem largest_spec (h : TotalPreorder gt) (a : ℕ → α) (n : ℕ) (hi : 1 ≤ i) :
    (largest gt a n i = i ∨ largest gt a n i / 2 = i ∧ i < largest gt a n i ∧ largest gt a n i ≤ n) ∧
      Le gt (a i) (a (largest gt a n i)) ∧ ∀ c, c ≤ n → c / 2 = i → Le gt (a c) (a (largest gt a n i)) := by
  obtain ⟨hcase, hself, hleft⟩ := larger_spec h a n i (2 * i)
  obtain ⟨hcase', hfirst, hright⟩ := larger_spec h a n (larger gt a n i (2 * i)) (2 * i + 1)
  rw [← largest] at hcase' hfirst hright
  refine ⟨by omega, h.trans _ _ _ hself hfirst, fun c hcn hci => ?_⟩
  rcases (show c = 2 * i ∨ c = 2 * i + 1 by omega) with rfl | rfl
  · exact h.trans _ _ _ (hleft hcn) hfirst
  · exact hright hcn

theorem exchange_left (a : ℕ → α) (i j : ℕ) : exchange a i j i = a j := by rw [exchange, Function.comp_apply, Equiv.swap_apply_left]

theorem exchange_right (a : ℕ → α) (i j : ℕ) : exchange a i j j = a i := by rw [exchange, Function.comp_apply, Equiv.swap_apply_right]

theorem exchange_of_ne {a : ℕ → α} {i j k : ℕ} (hi : k ≠ i) (hj : k ≠ j) : exchange a i j k = a k := by
  rw [exchange, Function.comp_apply, Equiv.swap_apply_of_ne_of_ne hi hj]

/-- The element is not smaller than its children: all is in order. -/
theorem Sinking.finish (h : Sinking gt a lo n i) (hstop : ∀ c, 2 ≤ c → c ≤ n → c / 2 = i → Le gt (a c) (a i)) :
    Ordered gt a lo n := by
  intro c hc hcn hlo
  by_cases hci : c / 2 = i
  · rw [hci]
    exact hstop c hc hcn hci
  · exact h.others c hc hcn hlo hci

/-- **One step down**: the element is exchanged with the largest child. -/
theorem Sinking.move (h : Sinking gt a lo n i) (hi : 1 ≤ i) (hlo : lo ≤ i) (hm : m / 2 = i) (hmn : m ≤ n)
    (hle : Le gt (a i) (a m)) (hmax : ∀ c, 2 ≤ c → c ≤ n → c / 2 = i → Le gt (a c) (a m)) :
    Sinking gt (exchange a i m) lo n m := by
  constructor
  · intro c hc hcn hclo hne
    by_cases hci : c / 2 = i
    · rw [hci, exchange_left]
      by_cases hcm : c = m
      · rw [hcm, exchange_right]
        exact hle
      · rw [exchange_of_ne (by omega) hcm]
        exact hmax c hc hcn hci
    · rw [exchange_of_ne hci hne]
      by_cases hceq : c = i
      · rw [hceq, exchange_left]
        exact h.above (hceq ▸ hclo) (hceq ▸ hc) m hmn hm
      · have hcm : c ≠ m := by
          rintro rfl
          exact hci hm
        rw [exchange_of_ne hceq hcm]
        exact h.others c hc hcn hclo hci
  · intro _ _ c hcn hcm
    rw [hm, exchange_left, exchange_of_ne (by omega) (by omega)]
    have hc := h.others c (by omega) hcn (by omega) (by omega)
    rwa [hcm] at hc

/-- **Sinking** puts all in order. -/
theorem sift_ordered (ht : TotalPreorder gt) (h : Sinking gt a lo n i) (hi : 1 ≤ i) (hlo : lo ≤ i) (hf : n < i + fuel) :
    Ordered gt (sift gt n fuel i a) lo n := by
  induction fuel generalizing a i with
  | zero => exact h.finish fun c _ hcn hci => by omega
  | succ fuel ih =>
    obtain ⟨hcase, hle, hmax⟩ := largest_spec ht a n hi
    rw [sift]
    split_ifs with hm
    · exact h.finish fun c hc hcn hci => hm ▸ hmax c hcn hci
    · obtain ⟨hpar, hgt, hmn⟩ := hcase.resolve_left hm
      refine ih (h.move hi hlo hpar hmn hle fun c hc hcn hci => hmax c hcn hci) (by omega) (by omega) (by omega)

theorem sift_permutes (ht : TotalPreorder gt) (hi : 1 ≤ i) (hin : i ≤ n) : Permutes n a (sift gt n fuel i a) := by
  induction fuel generalizing a i with
  | zero => exact .refl n a
  | succ fuel ih =>
    obtain ⟨hcase, -, -⟩ := largest_spec ht a n hi
    rw [sift]
    split_ifs with hm
    · exact .refl n a
    · obtain ⟨-, hgt, hmn⟩ := hcase.resolve_left hm
      exact (Permutes.exchange hi hin (by omega) hmn a).trans (ih (by omega) hmn)

/-! ### The two phases -/

theorem build_permutes (ht : TotalPreorder gt) (hin : i ≤ n) : Permutes n a (build gt n i a) := by
  induction i generalizing a with
  | zero => exact .refl n a
  | succ i ih => exact (sift_permutes ht (by omega) hin).trans (ih (by omega))

/-- **The heap is built** from the last parent to the first. -/
theorem build_ordered (ht : TotalPreorder gt) (h : Ordered gt a (i + 1) n) : Ordered gt (build gt n i a) 1 n := by
  induction i generalizing a with
  | zero => exact h
  | succ i ih =>
    refine ih (sift_ordered ht ⟨fun c hc hcn hlo hne => h c hc hcn (by omega), fun hlo _ => by omega⟩ (by omega) le_rfl (by omega))

/-- The first element of a heap is a largest one. -/
theorem Ordered.le_first (ht : TotalPreorder gt) (h : Ordered gt a 1 n) {k : ℕ} (hk : 1 ≤ k) (hkn : k ≤ n) : Le gt (a k) (a 1) := by
  induction k using Nat.strong_induction_on with
  | _ k ih =>
    rcases Nat.lt_or_ge k 2 with h1 | h2
    · obtain rfl : k = 1 := by omega
      exact ht.refl _
    · exact ht.trans _ _ _ (h k h2 hkn (by omega)) (ih (k / 2) (by omega) (by omega) (by omega))

/-- The first `i` places are a heap, the places behind them are sorted, and no element of the heap is larger than one of
these. -/
structure Extracting (gt : α → α → Bool) (a : ℕ → α) (n i : ℕ) : Prop where
  heap : Ordered gt a 1 i
  below : ∀ j k, 1 ≤ j → j ≤ i → i < k → k ≤ n → Le gt (a j) (a k)
  sorted : ∀ j k, i < j → j ≤ k → k ≤ n → Le gt (a j) (a k)

/-- **The largest element of the heap** is put behind the others. -/
theorem Extracting.step (ht : TotalPreorder gt) (h : Extracting gt a n (i + 1)) (hi : 1 ≤ i) (hin : i + 1 ≤ n) :
    Extracting gt (sift gt i i 1 (exchange a 1 (i + 1))) n i := by
  have hperm : Permutes i (exchange a 1 (i + 1)) (sift gt i i 1 (exchange a 1 (i + 1))) := sift_permutes ht le_rfl hi
  have hlast : sift gt i i 1 (exchange a 1 (i + 1)) (i + 1) = a 1 := by
    rw [hperm.eq_of_outside (.inr (Nat.lt_succ_self i)), exchange_right]
  have hbehind : ∀ k, i + 1 < k → sift gt i i 1 (exchange a 1 (i + 1)) k = a k := by
    intro k hk
    rw [hperm.eq_of_outside (.inr (by omega)), exchange_of_ne (by omega) (by omega)]
  -- what was in the heap and is not the largest element is in it still
  have hmem : ∀ P : α → Prop, (∀ k, 1 ≤ k → k ≤ i + 1 → P (a k)) → ∀ k, 1 ≤ k → k ≤ i →
      P (sift gt i i 1 (exchange a 1 (i + 1)) k) := by
    intro P hP k hk hki
    refine hperm.forall_mem (fun j hj hji => ?_) hk hki
    exact (Permutes.exchange le_rfl (by omega) (by omega) le_rfl a : Permutes (i + 1) a _).forall_mem hP hj (by omega)
  constructor
  · refine sift_ordered ht ⟨fun c hc hci hlo hne => ?_, fun hlo _ => by omega⟩ le_rfl le_rfl (by omega)
    rw [exchange_of_ne (by omega) (by omega), exchange_of_ne (by omega) (by omega)]
    exact h.heap c hc (by omega) hlo
  · intro j k hj hji hik hkn
    rcases Nat.lt_or_ge (i + 1) k with hlt | hge
    · rw [hbehind k hlt]
      exact hmem (fun x => Le gt x (a k)) (fun l hl hli => h.below l k hl hli hlt hkn) j hj hji
    · obtain rfl : k = i + 1 := by omega
      rw [hlast]
      exact hmem (fun x => Le gt x (a 1)) (fun l hl hli => h.heap.le_first ht hl hli) j hj hji
  · intro j k hij hjk hkn
    rcases Nat.lt_or_ge (i + 1) k with hlt | hge
    · rw [hbehind k hlt]
      rcases Nat.lt_or_ge (i + 1) j with hjlt | hjge
      · rw [hbehind j hjlt]
        exact h.sorted j k hjlt hjk hkn
      · obtain rfl : j = i + 1 := by omega
        rw [hlast]
        exact h.below 1 k le_rfl (by omega) hlt hkn
    · obtain rfl : k = i + 1 := by omega
      obtain rfl : j = i + 1 := by omega
      exact ht.refl _

/-- **The second phase** sorts, and moves nothing outside. -/
theorem extract_spec (ht : TotalPreorder gt) (h : Extracting gt a n i) (hin : i ≤ n) :
    Permutes n a (extract gt i a) ∧ ∀ j k, 1 ≤ j → j ≤ k → k ≤ n → Le gt (extract gt i a j) (extract gt i a k) := by
  induction i generalizing a with
  | zero => exact ⟨.refl n a, fun j k hj hjk hkn => h.sorted j k hj hjk hkn⟩
  | succ i ih =>
    rw [extract]
    split_ifs with h0
    · subst h0
      refine ⟨.refl n a, fun j k hj hjk hkn => ?_⟩
      rcases Nat.lt_or_ge 1 k with hlt | hge
      · rcases Nat.lt_or_ge 1 j with hjlt | hjge
        · exact h.sorted j k hjlt hjk hkn
        · exact h.below j k hj hjge hlt hkn
      · obtain rfl : k = j := by omega
        exact ht.refl _
    · have hi : 1 ≤ i := Nat.pos_of_ne_zero h0
      obtain ⟨hperm, hsorted⟩ := ih (h.step ht hi hin) (by omega)
      have hsift : Permutes i (exchange a 1 (i + 1)) (sift gt i i 1 (exchange a 1 (i + 1))) := sift_permutes ht le_rfl hi
      exact ⟨((Permutes.exchange le_rfl (by omega) (by omega) hin a).trans (hsift.mono (by omega))).trans hperm, hsorted⟩

/-- **Heap sort** sorts. -/
theorem heapSort_spec (ht : TotalPreorder gt) (n : ℕ) (a : ℕ → α) :
    Permutes n a (heapSort gt n a) ∧ ∀ j k, 1 ≤ j → j ≤ k → k ≤ n → Le gt (heapSort gt n a j) (heapSort gt n a k) := by
  have hbuilt : Ordered gt (build gt n (n / 2) a) 1 n := build_ordered ht fun c hc hcn hlo => by omega
  obtain ⟨hperm, hsorted⟩ := extract_spec ht (i := n) ⟨hbuilt, fun j k _ _ _ _ => by omega, fun j k _ _ _ => by omega⟩ le_rfl
  exact ⟨(build_permutes ht (by omega)).trans hperm, hsorted⟩

end Pintos.Library.HeapSort
