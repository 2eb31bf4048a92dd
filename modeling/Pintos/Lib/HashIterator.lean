import Mathlib.Tactic.IntervalCases
import Pintos.Lib.Hash
import Pintos.Lib.LinkedList

/-!
# Going through a hash table

`hash_first`, `hash_next` and `hash_apply` of `lib/kernel/hash.c`, on the elements and
their links, and the loop of `destroy_spt` (`vm/page.c`). A `struct hash_elem` is the
`struct list_elem` in it, and the iterator of `hash_first` stands on the head of a list.

The array of buckets lies in memory as the table says (`Laid`). An iterator yields the
elements bucket by bucket, each of them once, and then a null pointer
(`iteration_exact`).
-/

namespace Pintos.HashIterator

open Library Library.Prog LinkedList

variable {ι : Type}

/-- `struct hash_iterator`: the number of the bucket, and the element. -/
structure HashIterator (ι : Type) where
  bucket : ℕ
  elem : Option ι

section Iterator

variable [DecidableEq ι] (buckets : List (KList ι))

/-- `hash_first`. -/
def hashFirst : ListM ι (HashIterator ι) := do
  let bucket ← orStop buckets[0]? .null
  pure ⟨0, some bucket.head⟩

/-- The loop of `hash_next`. -/
def nextLoop : ℕ → ℕ → ι → ListM ι (HashIterator ι)
  | 0, _, _ => stop .fuel
  | n + 1, i, elem => do
    let bucket ← orStop buckets[i]? .null
    if elem = listEnd bucket then
      if buckets.length ≤ i + 1 then pure ⟨i + 1, none⟩
      else do
        let bucket ← orStop buckets[i + 1]? .null
        let elem ← listBegin bucket
        nextLoop n (i + 1) elem
    else pure ⟨i, some elem⟩

/-- `hash_next`. -/
def hashNext (i : HashIterator ι) : ListM ι (HashIterator ι) := do
  let elem ← orStop i.elem .null
  let elem ← listNext elem
  nextLoop buckets (buckets.length + 1) i.bucket elem

/-- What `n` calls of `hash_next` return. -/
def nexts : ℕ → HashIterator ι → ListM ι (List (Option ι))
  | 0, _ => pure []
  | n + 1, i => do
    let i ← hashNext buckets i
    let elems ← nexts n i
    pure (i.elem :: elems)

end Iterator

/-! ### What is done with the elements -/

section Walk

variable [DecidableEq ι] {τ : Type} (buckets : List (KList ι)) (action : ι → τ → τ)

/-- A call that reads the links. -/
def reading {α : Type} (m : ListM ι α) : Prog (Links ι × τ) Fault α := within Prod.fst (fun s t => (s, t.2)) m

/-- The loop of `destroy_spt`; `hash_cur` returns `i.elem`. -/
def destroyLoop : ℕ → HashIterator ι → Prog (Links ι × τ) Fault Unit
  | 0, _ => stop .fuel
  | n + 1, i =>
    match i.elem with
    | none => pure ()
    | some spte => do
      modify fun t => (t.1, action spte t.2)
      let i ← reading (hashNext buckets i)
      destroyLoop n i

/-- `destroy_spt`, with `before_munmap` for the action. -/
def destroySpt (fuel : ℕ) : Prog (Links ι × τ) Fault Unit := do
  let i ← reading (hashFirst buckets)
  let i ← reading (hashNext buckets i)
  destroyLoop buckets action fuel i

/-- The loop of `hash_apply` over a bucket. -/
def applyLoop (bucket : KList ι) : ℕ → ι → Prog (Links ι × τ) Fault Unit
  | 0, _ => stop .fuel
  | n + 1, elem =>
    if elem = listEnd bucket then pure ()
    else do
      let next ← reading (listNext elem)
      modify fun t => (t.1, action elem t.2)
      applyLoop bucket n next

/-- `hash_apply`. -/
def hashApply (fuel : ℕ) : List (KList ι) → Prog (Links ι × τ) Fault Unit
  | [] => pure ()
  | bucket :: buckets => do
    let elem ← reading (listBegin bucket)
    applyLoop action bucket fuel elem
    hashApply fuel buckets

end Walk

/-! ### The table in memory -/

/-- The list `l` lies in memory. -/
def Holds (s : Links ι) (bucket : KList ι) (l : List ι) : Prop := s.Whole (bucket.head :: (l ++ [bucket.tail]))

/-- **The buckets of a table lie in memory.** -/
def Laid (s : Links ι) (buckets : List (KList ι)) (ls : List (List ι)) : Prop := List.Forall₂ (Holds s) buckets ls

/-- The iterator stands before the elements `rest`: on an element of a bucket, or on its head. -/
structure Before (s : Links ι) (buckets : List (KList ι)) (i : HashIterator ι) (rest : List ι) : Prop where
  at_elem : ∃ bs k bs' ls u e r, buckets = bs ++ k :: bs' ∧ i = ⟨bs.length, some e⟩ ∧ s.Whole (u ++ e :: (r ++ [k.tail])) ∧
    Laid s bs' ls ∧ rest = r ++ ls.flatten

section

variable [DecidableEq ι] {s : Links ι} {buckets : List (KList ι)} {ls : List (List ι)} {rest : List ι}

/-- The first element of a list, or its tail. -/
theorem Holds.next {k : KList ι} {l : List ι} (h : Holds s k l) : ∃ e, s.next k.head = some e ∧ (l ++ [k.tail]).head? = some e := by
  obtain ⟨e, t, he⟩ := List.exists_cons_of_ne_nil (show l ++ [k.tail] ≠ [] by simp)
  unfold Holds at h
  rw [he] at h
  exact ⟨e, Links.Whole.next_eq (u := []) h, by rw [he]; rfl⟩

/-- **The loop of `hash_next`** crosses empty buckets up to an element or the end of the array. -/
theorem nextLoop_spec {n : ℕ} {bs bs' : List (KList ι)} {k : KList ι} {u r : List ι} {e : ι} (hb : buckets = bs ++ k :: bs')
    (hw : s.Whole (u ++ (r ++ [k.tail]))) (he : (r ++ [k.tail]).head? = some e) (hls : Laid s bs' ls) (hn : bs'.length < n) :
    wp (nextLoop buckets n bs.length e)
      (fun i s' => s' = s ∧ i.elem = (r ++ ls.flatten).head? ∧ ∀ x rest, r ++ ls.flatten = x :: rest → Before s buckets i rest)
      (fun _ => False) s := by
  induction n generalizing bs k bs' u r e ls with
  | zero => exact absurd hn (Nat.not_lt_zero _)
  | succ n ih =>
    have hk : buckets[bs.length]? = some k := by simp [hb]
    rw [nextLoop, hk, wp_bind, wp_orStop_some]
    cases r with
    | nil =>
      obtain rfl : k.tail = e := Option.some.inj he
      rw [listEnd, if_pos rfl]
      cases hls with
      | nil =>
        rw [if_pos (by simp [hb])]
        refine ⟨rfl, rfl, fun x rest hc => ?_⟩
        cases hc
      | @cons k' l bs'' ls hk' hls =>
        have hb' : buckets = (bs ++ [k]) ++ k' :: bs'' := by simpa using hb
        have hi : buckets[bs.length + 1]? = some k' := by simp [hb]
        obtain ⟨e', hnext, he'⟩ := hk'.next
        rw [if_neg (by simp [hb]), hi, wp_bind, wp_orStop_some, wp_bind, listBegin, wp_getNext hnext]
        have := ih (u := [k'.head]) hb' hk' he' hls (Nat.lt_of_succ_lt_succ hn)
        rw [List.length_append] at this
        exact this
    | cons x r =>
      obtain rfl : x = e := Option.some.inj he
      have hne : x ≠ k.tail := by
        rintro rfl
        exact (List.nodup_cons.1 (List.nodup_append.1 hw.nodup).2.1).1 (by simp)
      rw [listEnd, if_neg hne]
      refine ⟨rfl, rfl, fun y rest hc => ?_⟩
      obtain ⟨rfl, rfl⟩ := List.cons.inj hc
      exact ⟨bs, k, bs', ls, u, x, r, hb, rfl, hw, hls, rfl⟩

/-- **`hash_next`** returns the first of the elements that are left. -/
theorem hashNext_spec {i : HashIterator ι} (h : Before s buckets i rest) :
    wp (hashNext buckets i)
      (fun i' s' => s' = s ∧ i'.elem = rest.head? ∧ ∀ x rest', rest = x :: rest' → Before s buckets i' rest') (fun _ => False) s := by
  obtain ⟨bs, k, bs', ls, u, e, r, hb, rfl, hw, hls, rfl⟩ := h
  obtain ⟨e', t, he'⟩ := List.exists_cons_of_ne_nil (show r ++ [k.tail] ≠ [] by simp)
  have hnext : s.next e = some e' := by
    rw [he'] at hw
    exact hw.next_eq
  rw [hashNext, wp_bind, wp_orStop_some, wp_bind, wp_listNext hnext]
  refine nextLoop_spec (u := u ++ [e]) hb (by simpa using hw) (by rw [he']; rfl) hls ?_
  rw [hb, List.length_append, List.length_cons]
  omega

/-- **`hash_first`** stands before all elements. -/
theorem hashFirst_spec (h : Laid s buckets ls) (hpos : 0 < ls.length) :
    wp (hashFirst buckets) (fun i s' => s' = s ∧ Before s buckets i ls.flatten) (fun _ => False) s := by
  cases h with
  | nil => exact absurd hpos (Nat.lt_irrefl 0)
  | @cons k l bs ls hk hls =>
    rw [hashFirst, wp_bind, List.getElem?_cons_zero, wp_orStop_some, wp_pure]
    exact ⟨rfl, [], k, bs, ls, [], k.head, l, rfl, rfl, hk, hls, rfl⟩

/-- What the calls return, one after the other. -/
theorem nexts_spec {i : HashIterator ι} (h : Before s buckets i rest) :
    wp (nexts buckets (rest.length + 1) i) (fun es s' => s' = s ∧ es = rest.map some ++ [none]) (fun _ => False) s := by
  induction rest generalizing i with
  | nil =>
    rw [nexts]
    refine wp_seq (hashNext_spec h) (fun _ => id) ?_
    rintro i' _ ⟨rfl, hi, -⟩
    rw [List.length_nil, nexts, wp_bind, wp_pure, wp_pure, hi]
    exact ⟨rfl, rfl⟩
  | cons x rest ih =>
    rw [List.length_cons, nexts]
    refine wp_seq (hashNext_spec h) (fun _ => id) ?_
    rintro i' _ ⟨rfl, hi, hbefore⟩
    refine wp_seq (ih (hbefore x rest rfl)) (fun _ => id) ?_
    rintro es _ ⟨rfl, rfl⟩
    rw [wp_pure, hi]
    exact ⟨rfl, rfl⟩

/-! ### What is done with the elements -/

variable {τ : Type} {action : ι → τ → τ} {t : τ}

theorem wp_reading {α : Type} {m : ListM ι α} {Q : α → Links ι × τ → Prop} {P : α → Links ι → Prop}
    (hm : wp m P (fun _ => False) s) (hQ : ∀ a s', P a s' → Q a (s', t)) : wp (reading m) Q (fun _ => False) (s, t) := by
  rw [reading, wp_within]
  exact wp_post hm hQ

/-- The loop of `destroy_spt`, from an element on. -/
theorem destroyLoop_spec {n : ℕ} {i : HashIterator ι} (hi : i.elem = rest.head?)
    (h : ∀ x rest', rest = x :: rest' → Before s buckets i rest') (hn : rest.length < n) :
    wp (destroyLoop buckets action n i) (fun _ st => st = (s, rest.foldl (fun t e => action e t) t)) (fun _ => False) (s, t) := by
  induction rest generalizing i t n with
  | nil =>
    cases n with
    | zero => exact absurd hn (Nat.not_lt_zero _)
    | succ n =>
      rw [destroyLoop, hi]
      rfl
  | cons x rest ih =>
    cases n with
    | zero => exact absurd hn (Nat.not_lt_zero _)
    | succ n =>
      rw [destroyLoop, hi]
      dsimp only [List.head?_cons]
      rw [wp_bind, wp_modify, wp_bind]
      refine wp_reading (hashNext_spec (h x rest rfl)) ?_
      rintro i' _ ⟨rfl, hi', h'⟩
      exact ih hi' h' (Nat.lt_of_succ_lt_succ hn)

/-- **`destroy_spt`** handles the elements one after the other. -/
theorem destroySpt_spec {fuel : ℕ} (h : Laid s buckets ls) (hpos : 0 < ls.length) (hfuel : ls.flatten.length < fuel) :
    wp (destroySpt buckets action fuel) (fun _ st => st = (s, ls.flatten.foldl (fun t e => action e t) t)) (fun _ => False) (s, t) := by
  rw [destroySpt, wp_bind]
  refine wp_reading (hashFirst_spec h hpos) ?_
  rintro i _ ⟨rfl, hi⟩
  rw [wp_bind]
  refine wp_reading (hashNext_spec hi) ?_
  rintro i' _ ⟨rfl, hi', h'⟩
  exact destroyLoop_spec hi' h' hfuel

/-- The loop of `hash_apply` over a bucket. -/
theorem applyLoop_spec {n : ℕ} {k : KList ι} {u r : List ι} {e : ι} (hw : s.Whole (u ++ (r ++ [k.tail])))
    (he : (r ++ [k.tail]).head? = some e) (hn : r.length < n) :
    wp (applyLoop action k n e) (fun _ st => st = (s, r.foldl (fun t e => action e t) t)) (fun _ => False) (s, t) := by
  induction r generalizing u e t n with
  | nil =>
    cases n with
    | zero => exact absurd hn (Nat.not_lt_zero _)
    | succ n =>
      obtain rfl : k.tail = e := Option.some.inj he
      rw [applyLoop, listEnd, if_pos rfl]
      rfl
  | cons x r ih =>
    cases n with
    | zero => exact absurd hn (Nat.not_lt_zero _)
    | succ n =>
      obtain rfl : x = e := Option.some.inj he
      obtain ⟨e', v, he'⟩ := List.exists_cons_of_ne_nil (show r ++ [k.tail] ≠ [] by simp)
      have hne : x ≠ k.tail := by
        rintro rfl
        exact (List.nodup_cons.1 (List.nodup_append.1 hw.nodup).2.1).1 (by simp)
      have hnext : s.next x = some e' := by
        rw [List.cons_append, he'] at hw
        exact hw.next_eq
      rw [applyLoop, listEnd, if_neg hne, wp_bind, reading, wp_within, wp_listNext hnext, wp_bind, wp_modify]
      exact ih (u := u ++ [x]) (by simpa using hw) (by rw [he']; rfl) (Nat.lt_of_succ_lt_succ hn)

/-- **`hash_apply`** handles the elements one after the other. -/
theorem hashApply_spec {fuel : ℕ} (h : Laid s buckets ls) (hfuel : ls.flatten.length < fuel) :
    wp (hashApply action fuel buckets) (fun _ st => st = (s, ls.flatten.foldl (fun t e => action e t) t)) (fun _ => False) (s, t) := by
  induction h generalizing t with
  | nil => rfl
  | @cons k l bs ls hk hls ih =>
    rw [List.flatten_cons, List.length_append] at hfuel
    obtain ⟨e, hnext, he⟩ := hk.next
    rw [hashApply, wp_bind, reading, wp_within, listBegin, wp_getNext hnext]
    refine wp_seq (applyLoop_spec (u := [k.head]) hk he (by omega)) (fun _ => id) ?_
    rintro _ _ rfl
    rw [List.flatten_cons, List.foldl_append]
    exact ih (by omega)

/-- **Iteration is exact**: for every well-formed table the iterator yields each element once and then a null pointer,
`destroy_spt` and `hash_apply` handle each element once, in this order, and end. The links stay as they are. -/
theorem iteration_exact {κ : Type} {F : Hasher κ} {key : ι → κ} {h : Hash ι} (hw : Hash.Wf F key h)
    (hl : Laid s buckets h.buckets) :
    h.elems.Nodup ∧ (∀ b ∈ h.buckets, ∀ e ∈ b, e ∈ h.elems) ∧
      wp (hashFirst buckets >>= nexts buckets (h.elems.length + 1)) (fun es s' => s' = s ∧ es = h.elems.map some ++ [none])
        (fun _ => False) s ∧
      ∀ fuel, h.elems.length < fuel → ∀ (τ : Type) (action : ι → τ → τ) (t : τ),
        wp (destroySpt buckets action fuel) (fun _ st => st = (s, h.elems.foldl (fun t e => action e t) t)) (fun _ => False) (s, t) ∧
          wp (hashApply action fuel buckets) (fun _ st => st = (s, h.elems.foldl (fun t e => action e t) t)) (fun _ => False) (s, t) := by
  refine ⟨hw.nodup.of_map, fun b hb e he => List.mem_flatten.2 ⟨b, hb, he⟩, ?_, fun fuel hfuel τ action t => ⟨?_, ?_⟩⟩
  · refine wp_seq (hashFirst_spec hl hw.pos) (fun _ => id) ?_
    rintro i _ ⟨rfl, hi⟩
    exact nexts_spec hi
  · exact destroySpt_spec hl hw.pos hfuel
  · exact hashApply_spec hl hfuel

end

/-- A table of four buckets, two of them empty. -/
def threeTable : Hash ℕ := ⟨3, 0, [[], [1], [], [7, 3]]⟩

/-- Its buckets, and the links of its elements. -/
def threeBuckets : List (KList ℕ) := [⟨10, 11⟩, ⟨20, 21⟩, ⟨30, 31⟩, ⟨40, 41⟩]

def threeLinks : Links ℕ where
  next n := if n = 10 then some 11 else if n = 20 then some 1 else if n = 1 then some 21 else if n = 30 then some 31
    else if n = 40 then some 7 else if n = 7 then some 3 else if n = 3 then some 41 else none
  prev n := if n = 11 then some 10 else if n = 1 then some 20 else if n = 21 then some 1 else if n = 31 then some 30
    else if n = 7 then some 40 else if n = 3 then some 7 else if n = 41 then some 3 else none

theorem threeTable_wf : Hash.Wf ⟨id, fun m n => decide (m < n)⟩ id threeTable := by
  refine ⟨by decide, fun i e he => ?_, by decide, rfl⟩
  have hi : i < 4 := by
    by_contra hge
    rw [List.getD_eq_default _ _ (not_lt.1 hge)] at he
    cases he
  revert e
  interval_cases i <;> decide

theorem threeTable_laid : Laid threeLinks threeBuckets threeTable.buckets := by
  refine .cons ?_ (.cons ?_ (.cons ?_ (.cons ?_ .nil)))
  all_goals
    refine ⟨?_, by decide, ?_, ?_⟩
    · simp [Links.Linked, threeLinks]
    · simp [threeLinks]
    · simp [threeLinks]

theorem iteration_exact_three : wp (hashFirst threeBuckets >>= nexts threeBuckets 4)
    (fun es s' => s' = threeLinks ∧ es = [some 1, some 7, some 3, none]) (fun _ => False) threeLinks :=
  (iteration_exact threeTable_wf threeTable_laid).2.2.1

end Pintos.HashIterator
