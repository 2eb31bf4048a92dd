import Pintos.Library.HeapSort
import Pintos.Library.Memories

/-!
# `sort`

`sort` of `lib/stdlib.c` with `do_swap`, `do_compare` and `heapify`, as programs over memory.
The array is its address; an element is its bytes, and `compare` is a function of two
elements. `sort_sorts` holds of every memory in which the bytes of the array may be used,
also if no others may: so no element but those of the indexes 1 to `cnt` is touched. The
indexes are natural numbers: an object has fewer than `2 ^ 31` bytes, so that `2 * i + 1` is
a `size_t`.
-/

namespace Pintos.Stdlib

open Library Library.Prog Library.HeapSort

variable {σ : Type}

/-- The element with the 1-based index `k`. -/
def element (m : Mem) (array size k : ℕ) : Fin size → UInt8 := fun i => m (array + (k - 1) * size + i)

section Programs

variable [Access σ]

/-- The loop of `do_swap`, from byte `i` on. -/
def swapBytes (a b : ℕ) : ℕ → ℕ → MemM σ Unit
  | 0, _ => pure ()
  | n + 1, i => do
    let t ← loadByte (a + i)
    let u ← loadByte (b + i)
    storeByte (a + i) u
    storeByte (b + i) t
    swapBytes a b n (i + 1)

/-- `do_swap`. -/
def doSwap (array aIdx bIdx size : ℕ) : MemM σ Unit :=
  swapBytes (array + (aIdx - 1) * size) (array + (bIdx - 1) * size) size 0

/-- What `compare` reads through a pointer to an element. -/
def loadElement (a size : ℕ) : MemM σ (Fin size → UInt8) := do
  let s ← gets id
  if ∀ i : Fin size, Access.readable s (a + i) = true then pure fun i => Access.byte s (a + i) else stop .access

variable {size : ℕ}

/-- `do_compare`. -/
def doCompare (array aIdx bIdx : ℕ) (compare : (Fin size → UInt8) → (Fin size → UInt8) → ℤ) : MemM σ ℤ := do
  let a ← loadElement (array + (aIdx - 1) * size) size
  let b ← loadElement (array + (bIdx - 1) * size) size
  pure (compare a b)

/-- `if (child <= cnt && do_compare (array, child, max, size, compare, aux) > 0) max = child;`: the new `max`. -/
def maxWith (array child max cnt : ℕ) (compare : (Fin size → UInt8) → (Fin size → UInt8) → ℤ) : MemM σ ℕ :=
  if child ≤ cnt then do
    let c ← doCompare array child max compare
    pure (if 0 < c then child else max)
  else pure max

/-- `heapify`, for at most a number of turns of its loop. -/
def heapify (array cnt : ℕ) (compare : (Fin size → UInt8) → (Fin size → UInt8) → ℤ) : ℕ → ℕ → MemM σ Unit
  | 0, _ => stop .fuel
  | fuel + 1, i => do
    let max ← maxWith array (2 * i) i cnt compare
    let max ← maxWith array (2 * i + 1) max cnt compare
    if max = i then pure ()
    else do
      doSwap array i max size
      heapify array cnt compare fuel max

/-- The loop of `sort` that builds a heap, from `i` on. -/
def buildHeap (array cnt : ℕ) (compare : (Fin size → UInt8) → (Fin size → UInt8) → ℤ) : ℕ → MemM σ Unit
  | 0 => pure ()
  | i + 1 => do
    heapify array cnt compare cnt (i + 1)
    buildHeap array cnt compare i

/-- The loop of `sort` that sorts the heap, from `i` on. -/
def sortHeap (array : ℕ) (compare : (Fin size → UInt8) → (Fin size → UInt8) → ℤ) : ℕ → MemM σ Unit
  | 0 => pure ()
  | i + 1 =>
    if i = 0 then pure ()
    else do
      doSwap array 1 (i + 1) size
      heapify array i compare i 1
      sortHeap array compare i

/-- `sort`; `compare` is not a null pointer. -/
def sort (array cnt : ℕ) (compare : (Fin size → UInt8) → (Fin size → UInt8) → ℤ) : MemM σ Unit := do
  require (array ≠ 0 ∨ cnt = 0)
  require (0 < size)
  buildHeap array cnt compare (cnt / 2)
  sortHeap array compare cnt

end Programs

/-! ### Arrays in memory -/

variable [LawfulAccess σ] {s s' : σ} {array size n len i j k fuel : ℕ} {a b : ℕ → Fin size → UInt8}

/-- The array has the elements `a`, and its bytes may be used. -/
structure Holds (array n : ℕ) (s : σ) (a : ℕ → Fin size → UInt8) : Prop where
  sound : LawfulAccess.Sound s
  readable : ReadableAt s array (n * size)
  writable : WritableAt s array (n * size)
  elements : ∀ k, 1 ≤ k → k ≤ n → element (Access.byte s) array size k = a k

/-- Nothing but the array has changed. -/
def Keeps (array bytes : ℕ) (s s' : σ) : Prop := ∀ x, x < array ∨ array + bytes ≤ x → Access.byte s' x = Access.byte s x

theorem Keeps.refl (array bytes : ℕ) (s : σ) : Keeps array bytes s s := fun _ _ => rfl

theorem Keeps.trans {s'' : σ} {bytes : ℕ} (h : Keeps array bytes s s') (h' : Keeps array bytes s' s'') : Keeps array bytes s s'' :=
  fun x hx => (h' x hx).trans (h x hx)

/-- An element is within the array. -/
theorem element_le (hk : 1 ≤ k) (hkn : k ≤ n) : (k - 1) * size + size ≤ n * size := by
  have hmul := Nat.mul_le_mul_right size hkn
  obtain ⟨k, rfl⟩ := Nat.exists_eq_add_of_le' hk
  rwa [Nat.add_sub_cancel, ← Nat.succ_mul]

/-- Elements are one behind the other. -/
theorem element_disjoint (hi : 1 ≤ i) (hij : i < j) : (i - 1) * size + size ≤ (j - 1) * size :=
  element_le hi (by omega)

/-- `n` bytes at `a` and at `b` have changed places. -/
structure Swapped (m m' : Mem) (a b n : ℕ) : Prop where
  left : ∀ i < n, m' (a + i) = m (b + i)
  right : ∀ i < n, m' (b + i) = m (a + i)
  others : ∀ x, (x < a ∨ a + n ≤ x) → (x < b ∨ b + n ≤ x) → m' x = m x

theorem swapBytes_spec {a b : ℕ} (hs : LawfulAccess.Sound s) (hra : ReadableAt s (a + i) n) (hrb : ReadableAt s (b + i) n)
    (hwa : WritableAt s (a + i) n) (hwb : WritableAt s (b + i) n) (hdis : a + i + n ≤ b + i ∨ b + i + n ≤ a + i) :
    wp (swapBytes a b n i) (fun _ s' => ∃ m', Swapped (Access.byte s) m' (a + i) (b + i) n ∧ Leaves s m' s') (fun _ => False) s := by
  induction n generalizing i s with
  | zero =>
    refine ⟨_, ⟨fun i hi => absurd hi (Nat.not_lt_zero i), fun i hi => absurd hi (Nat.not_lt_zero i), fun _ _ _ => rfl⟩, .refl hs⟩
  | succ n ih =>
    obtain ⟨hra0, hra⟩ := hra.succ
    obtain ⟨hrb0, hrb⟩ := hrb.succ
    obtain ⟨hwa0, hwa⟩ := hwa.succ
    obtain ⟨hwb0, hwb⟩ := hwb.succ
    rw [swapBytes, wp_bind, wp_loadByte hra0, wp_bind, wp_loadByte hrb0, wp_bind]
    refine wp_storeByte hs hwa0 fun s₁ h₁ => ?_
    rw [wp_bind]
    refine wp_storeByte h₁.sound (h₁.writable ▸ hwb0) fun s₂ h₂ => ?_
    have h₁₂ := h₁.trans h₂
    rw [h₁.byte] at h₁₂
    refine wp_post (ih h₁₂.sound (hra.leaves h₁₂) (hrb.leaves h₁₂) (hwa.leaves h₁₂) (hwb.leaves h₁₂) (by omega))
      fun _ s' hpost => ?_
    obtain ⟨m', hm', hl⟩ := hpost
    refine ⟨m', ?_, h₁₂.trans hl⟩
    rw [h₁₂.byte] at hm'
    constructor
    · intro k hk
      rcases k with _ | k
      · rw [hm'.others _ (.inl (by omega)) (by omega), Nat.add_zero, Function.update_of_ne (by omega), Function.update_self,
          Nat.add_zero]
      · rw [show a + i + (k + 1) = a + (i + 1) + k by omega, hm'.left k (by omega), Function.update_of_ne (by omega),
          Function.update_of_ne (by omega)]
        congr 1
        omega
    · intro k hk
      rcases k with _ | k
      · rw [hm'.others _ (by omega) (.inl (by omega)), Nat.add_zero, Function.update_self, Nat.add_zero]
      · rw [show b + i + (k + 1) = b + (i + 1) + k by omega, hm'.right k (by omega), Function.update_of_ne (by omega),
          Function.update_of_ne (by omega)]
        congr 1
        omega
    · intro x hxa hxb
      rw [hm'.others x (by omega) (by omega), Function.update_of_ne (by omega), Function.update_of_ne (by omega)]

/-- **`do_swap`** exchanges two elements. -/
theorem doSwap_spec (h : Holds array n s a) (hi : 1 ≤ i) (hin : i ≤ n) (hj : 1 ≤ j) (hjn : j ≤ n) (hne : i ≠ j) :
    wp (doSwap array i j size) (fun _ s' => Holds array n s' (exchange a i j) ∧ Keeps array (n * size) s s') (fun _ => False) s := by
  have hile : (i - 1) * size + size ≤ n * size := element_le hi hin
  have hjle : (j - 1) * size + size ≤ n * size := element_le hj hjn
  have hdis : ∀ k l, 1 ≤ k → 1 ≤ l → k ≠ l → (k - 1) * size + size ≤ (l - 1) * size ∨ (l - 1) * size + size ≤ (k - 1) * size := by
    intro k l hk hl hkl
    rcases Nat.lt_or_gt_of_ne hkl with hlt | hgt
    · exact .inl (element_disjoint hk hlt)
    · exact .inr (element_disjoint hl hgt)
  have hpart : ∀ {p : ℕ → Bool} {o : ℕ}, (∀ x < n * size, p (array + x) = true) → o + size ≤ n * size →
      ∀ x < size, p (array + o + 0 + x) = true := by
    intro p o hp ho x hx
    rw [Nat.add_zero, Nat.add_assoc]
    exact hp (o + x) (by omega)
  refine wp_post (swapBytes_spec h.sound (hpart h.readable hile) (hpart h.readable hjle) (hpart h.writable hile)
    (hpart h.writable hjle) (by have := hdis i j hi hj hne; omega)) fun _ s' hpost => ?_
  obtain ⟨m', hm', hl⟩ := hpost
  refine ⟨⟨hl.sound, ?_, ?_, ?_⟩, ?_⟩
  · exact h.readable.leaves hl
  · exact h.writable.leaves hl
  · intro k hk hkn
    rw [Nat.add_zero, Nat.add_zero] at hm'
    have heq : ∀ l, 1 ≤ l → l ≤ n → (∀ x : Fin size, m' (array + (k - 1) * size + x) = Access.byte s (array + (l - 1) * size + x)) →
        element (Access.byte s') array size k = a l := by
      intro l hl1 hln hbytes
      rw [← h.elements l hl1 hln, hl.byte]
      exact funext hbytes
    by_cases hki : k = i
    · subst hki
      rw [exchange_left]
      exact heq j hj hjn fun x => hm'.left x x.isLt
    · by_cases hkj : k = j
      · subst hkj
        rw [exchange_right]
        exact heq i hi hin fun x => hm'.right x x.isLt
      · rw [exchange_of_ne hki hkj]
        have hdi := hdis k i hk hi hki
        have hdj := hdis k j hk hj hkj
        exact heq k hk hkn fun x => hm'.others _ (by omega) (by omega)
  · intro x hx
    rw [hl.byte]
    exact hm'.others x (by omega) (by omega)

/-! ### The sort -/

variable {compare : (Fin size → UInt8) → (Fin size → UInt8) → ℤ} {Q : ℤ → σ → Prop} {R : ℕ → σ → Prop}

/-- The comparison says that the first element is larger. -/
def greater (compare : (Fin size → UInt8) → (Fin size → UInt8) → ℤ) (x y : Fin size → UInt8) : Bool := decide (0 < compare x y)

theorem wp_loadElement {P : (Fin size → UInt8) → σ → Prop} (h : Holds array n s a) (hk : 1 ≤ k) (hkn : k ≤ n) :
    wp (loadElement (array + (k - 1) * size) size) P (fun _ => False) s ↔ P (a k) s := by
  have hle : (k - 1) * size + size ≤ n * size := element_le hk hkn
  have hread : ∀ i : Fin size, Access.readable s (array + (k - 1) * size + i) = true := by
    intro i
    rw [Nat.add_assoc]
    exact h.readable _ (by omega)
  rw [loadElement, wp_bind, wp_gets, id, if_pos hread, wp_pure, ← h.elements k hk hkn]
  rfl

theorem wp_doCompare (h : Holds array n s a) (hi : 1 ≤ i) (hin : i ≤ n) (hj : 1 ≤ j) (hjn : j ≤ n) :
    wp (doCompare array i j compare) Q (fun _ => False) s ↔ Q (compare (a i) (a j)) s := by
  rw [doCompare, wp_bind, wp_loadElement h hi hin, wp_bind, wp_loadElement h hj hjn, wp_pure]

theorem wp_maxWith (h : Holds array n s a) (hi : 1 ≤ i) (hj : 1 ≤ j) (hjn : j ≤ n) (hlen : len ≤ n) :
    wp (maxWith array i j len compare) R (fun _ => False) s ↔ R (larger (greater compare) a len j i) s := by
  rw [maxWith, larger]
  by_cases hil : i ≤ len
  · rw [if_pos hil, wp_bind, wp_doCompare h hi (by omega) hj hjn, wp_pure]
    by_cases hc : 0 < compare (a i) (a j)
    · rw [if_pos hc, if_pos ⟨hil, decide_eq_true hc⟩]
    · rw [if_neg hc, if_neg fun hand => hc (of_decide_eq_true hand.2)]
  · rw [if_neg hil, if_neg fun hand => hil hand.1, wp_pure]

/-- **`heapify`** lets an element sink. -/
theorem heapify_spec (ht : TotalPreorder (greater compare)) (h : Holds array n s a) (hi : 1 ≤ i) (hil : i ≤ len) (hlen : len ≤ n)
    (hf : len < i + fuel) : wp (heapify array len compare fuel i)
      (fun _ s' => Holds array n s' (sift (greater compare) len fuel i a) ∧ Keeps array (n * size) s s') (fun _ => False) s := by
  induction fuel generalizing s a i with
  | zero => exact absurd hil (by omega)
  | succ fuel ih =>
    obtain ⟨hleft, -, -⟩ := larger_spec ht a len i (2 * i)
    obtain ⟨hmax, -, -⟩ := largest_spec ht a len hi
    rw [heapify, wp_bind, wp_maxWith h (by omega) hi (by omega) hlen, wp_bind,
      wp_maxWith h (by omega) (by omega) (by omega) hlen, ← largest, sift]
    by_cases hstop : largest (greater compare) a len i = i
    · rw [if_pos hstop, if_pos hstop]
      exact ⟨h, .refl _ _ s⟩
    · obtain ⟨-, hgt, hmn⟩ := hmax.resolve_left hstop
      rw [if_neg hstop, if_neg hstop, wp_bind]
      refine wp_post (doSwap_spec h hi (by omega) (by omega) (by omega) (Ne.symm hstop)) fun _ s₁ hpost => ?_
      obtain ⟨h₁, hk₁⟩ := hpost
      refine wp_post (ih h₁ (by omega) hmn (by omega)) fun _ s' hpost => ?_
      obtain ⟨h', hk'⟩ := hpost
      exact ⟨h', hk₁.trans hk'⟩

/-- **The heap is built.** -/
theorem buildHeap_spec (ht : TotalPreorder (greater compare)) (h : Holds array n s a) (hin : i ≤ n) :
    wp (buildHeap array n compare i)
      (fun _ s' => Holds array n s' (build (greater compare) n i a) ∧ Keeps array (n * size) s s') (fun _ => False) s := by
  induction i generalizing s a with
  | zero => exact ⟨h, .refl _ _ s⟩
  | succ i ih =>
    rw [buildHeap, wp_bind]
    refine wp_post (heapify_spec ht h (by omega) hin le_rfl (by omega)) fun _ s₁ hpost => ?_
    obtain ⟨h₁, hk₁⟩ := hpost
    refine wp_post (ih h₁ (by omega)) fun _ s' hpost => ?_
    obtain ⟨h', hk'⟩ := hpost
    exact ⟨h', hk₁.trans hk'⟩

/-- **The heap is sorted.** -/
theorem sortHeap_spec (ht : TotalPreorder (greater compare)) (h : Holds array n s a) (hin : i ≤ n) :
    wp (sortHeap array compare i)
      (fun _ s' => Holds array n s' (extract (greater compare) i a) ∧ Keeps array (n * size) s s') (fun _ => False) s := by
  induction i generalizing s a with
  | zero => exact ⟨h, .refl _ _ s⟩
  | succ i ih =>
    rw [sortHeap, extract]
    by_cases h0 : i = 0
    · rw [if_pos h0, if_pos h0]
      exact ⟨h, .refl _ _ s⟩
    · rw [if_neg h0, if_neg h0, wp_bind]
      refine wp_post (doSwap_spec h le_rfl (by omega) (by omega) hin (by omega)) fun _ s₁ hpost => ?_
      obtain ⟨h₁, hk₁⟩ := hpost
      rw [wp_bind]
      refine wp_post (heapify_spec ht h₁ le_rfl (by omega) (by omega) (by omega)) fun _ s₂ hpost => ?_
      obtain ⟨h₂, hk₂⟩ := hpost
      refine wp_post (ih h₂ (by omega)) fun _ s' hpost => ?_
      obtain ⟨h', hk'⟩ := hpost
      exact ⟨h', (hk₁.trans hk₂).trans hk'⟩

/-- **`sort` sorts** every array, for every comparison that is a total preorder: it returns, the elements from 1 to `cnt` are
permuted and then in order, and nothing else has changed. -/
theorem sort_sorts (s : σ) (array cnt size : ℕ) (compare : (Fin size → UInt8) → (Fin size → UInt8) → ℤ)
    (hs : LawfulAccess.Sound s) (hr : ReadableAt s array (cnt * size)) (hw : WritableAt s array (cnt * size))
    (harray : array ≠ 0 ∨ cnt = 0) (hsize : 0 < size) (htotal : ∀ x y, compare x y ≤ 0 ∨ compare y x ≤ 0)
    (htrans : ∀ x y z, compare x y ≤ 0 → compare y z ≤ 0 → compare x z ≤ 0) :
    ∃ s', sort array cnt compare s = .ok ((), s') ∧
      (∃ π : Equiv.Perm ℕ, (∀ k, k < 1 ∨ cnt < k → π k = k) ∧ ∀ k, 1 ≤ k → k ≤ cnt →
        element (Access.byte s') array size k = element (Access.byte s) array size (π k)) ∧
      (∀ i j, 1 ≤ i → i ≤ j → j ≤ cnt →
        compare (element (Access.byte s') array size i) (element (Access.byte s') array size j) ≤ 0) ∧
      ∀ x, x < array ∨ array + cnt * size ≤ x → Access.byte s' x = Access.byte s x := by
  have hle : ∀ x y, Le (greater compare) x y ↔ compare x y ≤ 0 := by
    intro x y
    rw [Le, greater, decide_eq_false_iff_not, not_lt]
  have ht : TotalPreorder (greater compare) := by
    constructor
    · intro x y
      rw [hle, hle]
      exact htotal x y
    · intro x y z
      rw [hle, hle, hle]
      exact htrans x y z
  have hholds : Holds array cnt s (element (Access.byte s) array size) := ⟨hs, hr, hw, fun _ _ _ => rfl⟩
  have hspec : wp (sort array cnt compare) (fun _ s' =>
      Holds array cnt s' (heapSort (greater compare) cnt (element (Access.byte s) array size)) ∧ Keeps array (cnt * size) s s')
      (fun _ => False) s := by
    rw [sort, wp_bind, wp_require harray, wp_bind, wp_require hsize, wp_bind]
    refine wp_post (buildHeap_spec ht hholds (by omega)) fun _ s₁ hpost => ?_
    obtain ⟨h₁, hk₁⟩ := hpost
    refine wp_post (sortHeap_spec ht h₁ le_rfl) fun _ s' hpost => ?_
    obtain ⟨h', hk'⟩ := hpost
    exact ⟨h', hk₁.trans hk'⟩
  obtain ⟨⟨⟩, s', hrun, hsorted, hkeeps⟩ := exists_ok hspec
  obtain ⟨⟨π, hπ, heq⟩, hord⟩ := heapSort_spec ht cnt (element (Access.byte s) array size)
  refine ⟨s', hrun, ⟨π, hπ, fun k hk hkn => ?_⟩, fun i j hi hij hjn => ?_, hkeeps⟩
  · rw [hsorted.elements k hk hkn, heq]
    rfl
  · rw [hsorted.elements i hi (by omega), hsorted.elements j (by omega) hjn, ← hle]
    exact hord i j hi hij hjn

/-- One-byte elements are compared as numbers. -/
def compareBytes (x y : Fin 1 → UInt8) : ℤ := (x 0).toNat - (y 0).toNat

/-- **Three bytes.** -/
theorem sort_sorts_three : ∃ m' : Mem, sort 100 3 compareBytes (fun x => [7, 9, 2].getD (x - 100) 0 : Mem) = .ok ((), m') ∧
    (∀ i j, 1 ≤ i → i ≤ j → j ≤ 3 → compareBytes (element m' 100 1 i) (element m' 100 1 j) ≤ 0) := by
  obtain ⟨m', hrun, -, hsorted, -⟩ := sort_sorts (fun x => [7, 9, 2].getD (x - 100) 0 : Mem) 100 3 1 compareBytes trivial
    (fun _ _ => rfl) (fun _ _ => rfl) (.inl (by decide)) (by decide) (fun x y => by unfold compareBytes; omega)
    (fun x y z => by unfold compareBytes; omega)
  exact ⟨m', hrun, hsorted⟩

end Pintos.Stdlib
