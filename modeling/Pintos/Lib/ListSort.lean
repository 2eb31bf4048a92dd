import Pintos.Lib.LinkedList

/-!
# `list_sort`

`list_sort` is a natural merge sort in place: one turn of its outer loop is a pass over
the runs of the list. It ends, no assertion fails, and it leaves a list with the same
elements, in order, equivalent ones in the order that they had (`listSort_sorts`).
-/

namespace Pintos.LinkedList

open Library Library.Prog Library.NaturalMerge

variable {ι : Type} [DecidableEq ι] {s s' : Links ι} {u v w seg xs ys : List ι} {a b x : ι}

/-! ### What is not touched -/

/-- Only the links of the elements `xs` may differ. -/
def Within (xs : List ι) (s s' : Links ι) : Prop := ∀ c ∉ xs, s'.next c = s.next c ∧ s'.prev c = s.prev c

theorem Within.refl (xs : List ι) (s : Links ι) : Within xs s s := fun _ _ => ⟨rfl, rfl⟩

theorem Within.trans {s'' : Links ι} (h : Within xs s s') (h' : Within ys s' s'') (hsub : ys ⊆ xs) : Within xs s s'' := by
  intro c hc
  obtain ⟨h1, h2⟩ := h c hc
  obtain ⟨h1', h2'⟩ := h' c fun hy => hc (hsub hy)
  exact ⟨h1'.trans h1, h2'.trans h2⟩

/-! ### `list_splice` -/

/-- **`list_splice`** moves a segment back over the elements `w`. -/
theorem listSplice_spec {before first last : ι} (h : s.Whole (u ++ (w ++ (seg ++ v)))) (hu : u ≠ [])
    (hb : w.head? = some before) (hf : seg.head? = some first) (hl : v.head? = some last) :
    wp (listSplice before first last)
      (fun _ s' => s'.Whole (u ++ (seg ++ (w ++ v))) ∧ Within (u ++ (w ++ (seg ++ v))) s s') (fun _ => False) s := by
  obtain ⟨u, p, rfl⟩ := (List.eq_nil_or_concat' u).resolve_left hu
  obtain ⟨v, rfl⟩ := List.head?_eq_some_iff.1 hl
  obtain ⟨w₁, q, rfl⟩ := (List.eq_nil_or_concat' w).resolve_left (by rintro rfl; cases hb)
  obtain ⟨seg₁, e, rfl⟩ := (List.eq_nil_or_concat' seg).resolve_left (by rintro rfl; cases hf)
  obtain ⟨w₂, hw₂⟩ := List.head?_eq_some_iff.1 hb
  obtain ⟨seg₂, hseg₂⟩ := List.head?_eq_some_iff.1 hf
  -- the six links that are followed
  have hprevB : s.prev before = some p := by
    rw [hw₂] at h
    exact Links.Whole.prev_eq (u := u) (v := w₂ ++ (seg₁ ++ [e] ++ last :: v)) (by simpa using h)
  have hprevF : s.prev first = some q := by
    rw [hseg₂] at h
    exact Links.Whole.prev_eq (u := u ++ [p] ++ w₁) (v := seg₂ ++ last :: v) (by simpa using h)
  have hmid : s.Whole ((u ++ [p] ++ (w₁ ++ [q]) ++ seg₁) ++ e :: last :: v) := by simpa using h
  have hprevL := hmid.prev_eq
  have hnextE := hmid.next_eq
  have hnextF : s.next first ≠ none := by
    rw [hseg₂] at h
    exact Links.Whole.next_ne_none (u := u ++ [p] ++ (w₁ ++ [q])) (v := seg₂ ++ last :: v) (by simpa using h) (by simp)
  have hprevE : s.prev e ≠ none := by
    exact Links.Whole.prev_ne_none (u := u ++ [p] ++ (w₁ ++ [q]) ++ seg₁) (v := last :: v) (by simpa using h) (by simp)
  obtain ⟨-, hwsv, -⟩ := List.nodup_append.1 h.nodup
  obtain ⟨-, hsegv, hwd⟩ := List.nodup_append.1 hwsv
  obtain ⟨-, -, hsd⟩ := List.nodup_append.1 hsegv
  have mb : before ∈ w₁ ++ [q] := List.mem_of_head? hb
  have mf : first ∈ seg₁ ++ [e] := List.mem_of_head? hf
  have heq : e ≠ q := fun hc => hwd q (by simp) e (by simp) hc.symm
  have hlb : before ≠ last := hwd before mb last (by simp)
  have hfb : before ≠ first := hwd before mb first (List.mem_append_left _ mf)
  have hfl : first ≠ last := hsd first mf last (by simp)
  -- the assertions hold
  have hcheckB : (isInterior s before || isTail s before) = true := by
    unfold isInterior isTail
    rw [hprevB]
    cases s.next before <;> rfl
  have hcheckF : isInterior s first = true := by
    rw [isInterior, hprevF, Option.isSome_some, Bool.true_and, Option.isSome_iff_ne_none]
    exact hnextF
  have hcheckE : isInterior s e = true := by
    rw [isInterior, hnextE, Option.isSome_some, Bool.and_true, Option.isSome_iff_ne_none]
    exact hprevE
  rw [listSplice, wp_bind, wp_gets, wp_bind, id, wp_assert hcheckB, if_neg hfl, wp_bind, wp_listPrev hprevL, wp_bind, wp_assert hcheckF,
    wp_bind, wp_assert hcheckE, spliceLinks, wp_bind, wp_getPrev hprevF, wp_bind, wp_getNext hnextE, wp_bind, wp_modify, wp_bind,
    wp_getNext (b := last) (by simp [Function.update_of_ne heq, hnextE]), wp_bind, wp_getPrev (a := q) (by simpa using hprevF),
    wp_bind, wp_modify, wp_bind, wp_getPrev (a := p) (by simp [Function.update_of_ne hlb, hprevB]), wp_bind, wp_modify,
    wp_bind, wp_modify, wp_bind, wp_getPrev (a := p) (by simp [Function.update_of_ne hlb, Function.update_of_ne hfb, hprevB]),
    wp_bind, wp_modify, wp_modify]
  have hw := h.splice (p := p) (b := before) (q := q) (f := first) (l := e) (y := last) (by simp) hb (by simp) hf (by simp) rfl
  refine ⟨hw, fun c hc => ?_⟩
  have hne : ∀ a ∈ u ++ [p] ++ (w₁ ++ [q] ++ (seg₁ ++ [e] ++ last :: v)), c ≠ a := fun a ha heq => hc (heq ▸ ha)
  refine ⟨Links.splice_next (hne p (by simp)) (hne q (by simp)) (hne e (by simp)), Links.splice_prev (hne before ?_) (hne first ?_) (hne last (by simp))⟩
  · exact List.mem_append_right _ (List.mem_append_left _ mb)
  · exact List.mem_append_right _ (List.mem_append_right _ (List.mem_append_left _ mf))

/-! ### Runs -/

section

variable {less : ι → ι → Bool} {l m q : List ι} {rest : List ι}

/-- The loop of `is_sorted`, from the element `x`. -/
theorem isSortedLoop_spec {n : ℕ} (h : s.Whole (u ++ x :: (q ++ v))) (hb : v.head? = some b)
    (hq : (x :: q).IsChain fun a b => le less a b = true) (hn : q.length < n) :
    wp (isSortedLoop less b n x) (fun r s' => r = true ∧ s' = s) (fun _ => False) s := by
  induction q generalizing u x n with
  | nil =>
    obtain ⟨v, rfl⟩ := List.head?_eq_some_iff.1 hb
    cases n with
    | zero => exact absurd hn (Nat.not_lt_zero _)
    | succ n =>
      rw [isSortedLoop, wp_bind, wp_listNext h.next_eq, if_pos rfl]
      exact ⟨rfl, rfl⟩
  | cons y q ih =>
    cases n with
    | zero => exact absurd hn (Nat.not_lt_zero _)
    | succ n =>
      obtain ⟨hxy, hchain⟩ := List.isChain_cons_cons.1 hq
      have h' : s.Whole (u ++ [x] ++ y :: (q ++ v)) := by simpa using h
      have hyb : y ≠ b := by
        rintro rfl
        obtain ⟨-, hnd, -⟩ := List.nodup_append.1 h'.nodup
        exact (List.nodup_cons.1 hnd).1 (List.mem_append_right _ (List.mem_of_head? hb))
      have hless : less y x = false := by simpa [le] using hxy
      rw [List.cons_append] at h
      rw [isSortedLoop, wp_bind, wp_listNext h.next_eq, if_neg hyb, wp_bind, wp_listPrev h.prev_eq, hless]
      exact ih h' hchain (Nat.lt_of_succ_lt_succ hn)

/-- **`is_sorted`** of elements in order. -/
theorem isSorted_spec {fuel : ℕ} (h : s.Whole (u ++ (l ++ v))) (ha : (l ++ v).head? = some a) (hb : v.head? = some b)
    (hl : l.IsChain fun a b => le less a b = true) (hfuel : l.length ≤ fuel) :
    wp (isSorted less fuel a b) (fun r s' => r = true ∧ s' = s) (fun _ => False) s := by
  cases l with
  | nil =>
    rw [List.nil_append, hb] at ha
    obtain rfl := Option.some.inj ha
    rw [isSorted, if_neg (not_not.2 rfl)]
    exact ⟨rfl, rfl⟩
  | cons x q =>
    obtain rfl : x = a := Option.some.inj ha
    have hxb : x ≠ b := by
      rintro rfl
      obtain ⟨-, hnd, -⟩ := List.nodup_append.1 h.nodup
      exact (List.nodup_cons.1 hnd).1 (List.mem_append_right _ (List.mem_of_head? hb))
    rw [isSorted, if_pos hxb]
    exact isSortedLoop_spec h hb hl hfuel

/-- The loop of `find_end_of_run`, from the element `x` of a run. -/
theorem findEndLoop_spec {n : ℕ} (h : s.Whole (u ++ x :: (q ++ (rest ++ v)))) (hb : v.head? = some b)
    (hq : (x :: q).IsChain fun a b => le less a b = true) (hend : ∀ y ∈ rest.head?, ∀ z ∈ (x :: q).getLast?, le less z y = false)
    (hn : q.length < n) :
    wp (findEndLoop less b n x) (fun r s' => (rest ++ v).head? = some r ∧ s' = s) (fun _ => False) s := by
  induction q generalizing u x n with
  | nil =>
    cases n with
    | zero => exact absurd hn (Nat.not_lt_zero _)
    | succ n =>
      cases rest with
      | nil =>
        obtain ⟨v, rfl⟩ := List.head?_eq_some_iff.1 hb
        rw [findEndLoop, wp_bind, wp_listNext h.next_eq, if_pos rfl]
        exact ⟨rfl, rfl⟩
      | cons y rest =>
        have hyb : y ≠ b := by
          rintro rfl
          obtain ⟨-, hnd, -⟩ := List.nodup_append.1 h.nodup
          exact (List.nodup_cons.1 (List.nodup_cons.1 hnd).2).1 (List.mem_append_right _ (List.mem_of_head? hb))
        have hless : less y x = true := by simpa [le] using hend y rfl x rfl
        rw [List.nil_append, List.cons_append] at h
        rw [findEndLoop, wp_bind, wp_listNext h.next_eq, if_neg hyb, wp_bind, wp_listPrev h.prev_eq, hless]
        exact ⟨rfl, rfl⟩
  | cons y q ih =>
    cases n with
    | zero => exact absurd hn (Nat.not_lt_zero _)
    | succ n =>
      obtain ⟨hxy, hchain⟩ := List.isChain_cons_cons.1 hq
      have h' : s.Whole (u ++ [x] ++ y :: (q ++ (rest ++ v))) := by simpa using h
      have hyb : y ≠ b := by
        rintro rfl
        obtain ⟨-, hnd, -⟩ := List.nodup_append.1 h'.nodup
        exact (List.nodup_cons.1 hnd).1 (List.mem_append_right _ (List.mem_append_right _ (List.mem_of_head? hb)))
      have hless : less y x = false := by simpa [le] using hxy
      rw [List.cons_append] at h
      rw [findEndLoop, wp_bind, wp_listNext h.next_eq, if_neg hyb, wp_bind, wp_listPrev h.prev_eq, hless]
      exact ih h' hchain (by simpa [List.getLast?_cons_cons] using hend) (Nat.lt_of_succ_lt_succ hn)

/-- **`find_end_of_run`** finds the element after the run `m`. -/
theorem findEndOfRun_spec {fuel : ℕ} (h : s.Whole (u ++ (m ++ (rest ++ v)))) (ha : m.head? = some a) (hb : v.head? = some b)
    (hm : m.IsChain fun a b => le less a b = true) (hend : ∀ y ∈ rest.head?, ∀ z ∈ m.getLast?, le less z y = false)
    (hfuel : m.length ≤ fuel) :
    wp (findEndOfRun less fuel a b) (fun r s' => (rest ++ v).head? = some r ∧ s' = s) (fun _ => False) s := by
  obtain ⟨q, rfl⟩ := List.head?_eq_some_iff.1 ha
  have hab : a ≠ b := by
    rintro rfl
    obtain ⟨-, hnd, -⟩ := List.nodup_append.1 h.nodup
    exact (List.nodup_cons.1 hnd).1 (List.mem_append_right _ (List.mem_append_right _ (List.mem_of_head? hb)))
  rw [findEndOfRun, wp_bind, wp_assert (decide_eq_true hab)]
  exact findEndLoop_spec h hb hm hend hfuel

/-! ### Merging -/

/-- **The loop of `inplace_merge`** merges what is left of the two ranges. -/
theorem mergeLoop_spec {n : ℕ} {a0 a1b0 b1 : ι} (h : s.Whole (u ++ (l ++ (m ++ v)))) (hu : u ≠ [])
    (h0 : (l ++ (m ++ v)).head? = some a0) (h1 : (m ++ v).head? = some a1b0) (h2 : v.head? = some b1) (hn : l.length + m.length < n) :
    wp (mergeLoop less b1 n a0 a1b0)
      (fun _ s' => s'.Whole (u ++ (l.merge m (le less) ++ v)) ∧ Within (u ++ (l ++ (m ++ v))) s s') (fun _ => False) s := by
  induction n generalizing s u l m a0 a1b0 with
  | zero => exact absurd hn (Nat.not_lt_zero _)
  | succ n ih =>
    rw [mergeLoop]
    cases l with
    | nil =>
      rw [List.nil_append, h1] at h0
      rw [if_neg fun hc => hc.1 (Option.some.inj h0).symm, List.nil_merge]
      exact ⟨by simpa using h, .refl _ s⟩
    | cons x l =>
      cases m with
      | nil =>
        rw [List.nil_append, h2] at h1
        rw [if_neg fun hc => hc.2 (Option.some.inj h1).symm, List.merge_right]
        exact ⟨by simpa using h, .refl _ s⟩
      | cons y m =>
        obtain rfl : x = a0 := Option.some.inj h0
        obtain rfl : y = a1b0 := Option.some.inj h1
        obtain ⟨-, hnd, -⟩ := List.nodup_append.1 h.nodup
        obtain ⟨-, hndm, hlm⟩ := List.nodup_append.1 hnd
        have hxy : x ≠ y := hlm x List.mem_cons_self y List.mem_cons_self
        have hyb : y ≠ b1 := by
          rintro rfl
          exact (List.nodup_cons.1 hndm).1 (List.mem_append_right _ (List.mem_of_head? h2))
        rw [if_pos ⟨hxy, hyb⟩, List.cons_merge_cons]
        simp only [List.length_cons] at hn
        cases hless : less y x with
        | false =>
          have hle : le less x y = true := by simp [le, hless]
          rw [if_pos (by rfl), if_pos hle]
          have h' : s.Whole (u ++ [x] ++ (l ++ (y :: m ++ v))) := by simpa using h
          obtain ⟨c, t, hc⟩ := List.exists_cons_of_ne_nil (show l ++ (y :: m ++ v) ≠ [] by simp)
          have hnext : s.next x = some c := by
            rw [hc, List.append_assoc] at h'
            exact h'.next_eq
          rw [wp_bind, wp_listNext hnext]
          refine wp_post (ih h' (by simp) (by rw [hc]; rfl) rfl (by simp only [List.length_cons]; omega)) ?_
          rintro _ s' ⟨hw, hin⟩
          exact ⟨by simpa using hw, by simpa using hin⟩
        | true =>
          have hle : ¬ le less x y = true := by simp [le, hless]
          rw [if_neg (by simp), if_neg hle]
          obtain ⟨c, t, hc⟩ := List.exists_cons_of_ne_nil (show m ++ v ≠ [] by
            rintro hnil
            rw [(List.append_eq_nil_iff.1 hnil).2] at h2
            cases h2)
          have hmid : s.Whole (u ++ (x :: l) ++ y :: c :: t) := by
            rw [← hc]
            simpa using h
          have hsplit : s.Whole (u ++ (x :: l ++ ([y] ++ (m ++ v)))) := by simpa using h
          rw [wp_bind, wp_listNext hmid.next_eq, wp_bind, wp_listPrev hmid.prev_eq]
          refine wp_seq (listSplice_spec hsplit hu rfl rfl (by rw [hc]; rfl)) (fun _ => id) ?_
          rintro _ s₁ ⟨hw₁, hin₁⟩
          have hw₁' : s₁.Whole (u ++ [y] ++ (x :: l ++ (m ++ v))) := by simpa using hw₁
          refine wp_post (ih hw₁' (by simp) rfl (by rw [hc]; rfl) (by simp only [List.length_cons]; omega)) ?_
          rintro _ s' ⟨hw, hin⟩
          refine ⟨by simpa using hw, ?_⟩
          refine Within.trans (by simpa using hin₁) hin fun e he => ?_
          simp only [List.mem_append, List.mem_cons, List.not_mem_nil, or_false] at he ⊢
          tauto

/-- **`inplace_merge`**: its assertions hold, and the two runs are merged. -/
theorem inplaceMerge_spec {fuel : ℕ} {a0 a1b0 b1 : ι} (h : s.Whole (u ++ (l ++ (m ++ v)))) (hu : u ≠ []) (h0 : l.head? = some a0)
    (h1 : m.head? = some a1b0) (h2 : v.head? = some b1) (hl : l.IsChain fun a b => le less a b = true)
    (hm : m.IsChain fun a b => le less a b = true) (hfuel : l.length + m.length < fuel) :
    wp (inplaceMerge less fuel a0 a1b0 b1)
      (fun _ s' => s'.Whole (u ++ (l.merge m (le less) ++ v)) ∧ Within (u ++ (l ++ (m ++ v))) s s') (fun _ => False) s := by
  have h0' : (l ++ (m ++ v)).head? = some a0 := by rw [List.head?_append, h0]; rfl
  have h1' : (m ++ v).head? = some a1b0 := by rw [List.head?_append, h1]; rfl
  have h' : s.Whole (u ++ l ++ (m ++ v)) := by simpa using h
  rw [inplaceMerge]
  refine wp_seq (isSorted_spec h h0' h1' hl (by omega)) (fun _ => id) ?_
  rintro _ _ ⟨rfl, rfl⟩
  rw [wp_bind, wp_assert rfl]
  refine wp_seq (isSorted_spec h' h1' h2 hm (by omega)) (fun _ => id) ?_
  rintro _ _ ⟨rfl, rfl⟩
  rw [wp_bind, wp_assert rfl]
  exact mergeLoop_spec h hu h0' h1' h2 hfuel

/-! ### Passes -/

/-- **The inner loop of `list_sort`** merges the runs `ls` in pairs. -/
theorem passLoop_spec {list : KList ι} {fuel n cnt : ℕ} {ls : List (List ι)} {a0 : ι} (h : s.Whole (u ++ (ls.flatten ++ [list.tail])))
    (hu : u ≠ []) (hruns : AreRuns (le less) ls) (ha : (ls.flatten ++ [list.tail]).head? = some a0)
    (hfuel : ls.flatten.length < fuel) (hn : ls.length < n) :
    wp (passLoop less list fuel n a0 cnt)
      (fun r s' => r = cnt + (mergePairs (le less) ls).length ∧
        s'.Whole (u ++ ((mergePairs (le less) ls).flatten ++ [list.tail])) ∧ Within (u ++ (ls.flatten ++ [list.tail])) s s')
      (fun _ => False) s := by
  induction ls using mergePairs.induct generalizing s u n cnt a0 with
  | case1 =>
    obtain rfl : list.tail = a0 := Option.some.inj ha
    cases n with
    | zero => exact absurd hn (Nat.not_lt_zero _)
    | succ n =>
      rw [passLoop, listEnd, if_pos rfl]
      exact ⟨rfl, h, .refl _ s⟩
  | case2 m =>
    cases n with
    | zero => exact absurd hn (Nat.not_lt_zero _)
    | succ n =>
      obtain ⟨x, q, rfl⟩ := List.exists_cons_of_ne_nil hruns.ne_nil
      simp only [List.flatten_cons, List.flatten_nil, List.append_nil, mergePairs] at *
      obtain rfl : x = a0 := Option.some.inj ha
      have hne : x ≠ list.tail := by
        rintro rfl
        obtain ⟨-, hnd, -⟩ := List.nodup_append.1 h.nodup
        exact (List.nodup_cons.1 hnd).1 (by simp)
      rw [passLoop, listEnd, if_neg hne]
      have hrun := hruns.chain _ List.mem_cons_self
      refine wp_seq (findEndOfRun_spec (show s.Whole (u ++ (x :: q ++ ([] ++ [list.tail]))) from h) rfl rfl hrun (by simp) hfuel.le) (fun _ => id) ?_
      rintro _ _ ⟨hr, rfl⟩
      rw [if_pos (Option.some.inj hr).symm]
      exact ⟨rfl, h, .refl _ _⟩
  | case3 m m' ls ih =>
    cases n with
    | zero => exact absurd hn (Nat.not_lt_zero _)
    | succ n =>
      obtain ⟨x, q, rfl⟩ := List.exists_cons_of_ne_nil hruns.ne_nil
      obtain ⟨y, q', rfl⟩ := List.exists_cons_of_ne_nil hruns.tail.ne_nil
      obtain rfl : x = a0 := Option.some.inj ha
      have hm := hruns.chain _ List.mem_cons_self
      have hm' := hruns.tail.chain _ List.mem_cons_self
      have h' : s.Whole (u ++ (x :: q ++ (y :: q' ++ (ls.flatten ++ [list.tail])))) := by simpa using h
      have hnd := (List.nodup_append.1 h'.nodup).2.1
      have hx : x ≠ list.tail := by
        rintro rfl
        exact (List.nodup_cons.1 hnd).1 (by simp)
      have hy : y ≠ list.tail := by
        rintro rfl
        exact (List.nodup_cons.1 (List.nodup_append.1 hnd).2.1).1 (by simp)
      simp only [List.flatten_cons, List.length_append, List.length_cons] at hfuel hn
      have hfirst : s.Whole (u ++ (x :: q ++ (((y :: q') :: ls).flatten ++ [list.tail]))) := by simpa using h
      have hsecond : s.Whole (u ++ x :: q ++ (y :: q' ++ (ls.flatten ++ [list.tail]))) := by simpa using h
      rw [passLoop, listEnd, if_neg hx]
      refine wp_seq (findEndOfRun_spec hfirst rfl rfl hm hruns.end_eq_false (by simp; omega)) (fun _ => id) ?_
      rintro r s₁ ⟨hr, rfl⟩
      obtain rfl : y = r := Option.some.inj hr
      have hb1 : ∃ b1, (ls.flatten ++ [list.tail]).head? = some b1 := by
        cases ls.flatten with
        | nil => exact ⟨_, rfl⟩
        | cons c t => exact ⟨_, rfl⟩
      obtain ⟨b1, hb1⟩ := hb1
      rw [if_neg hy]
      refine wp_seq (findEndOfRun_spec hsecond rfl rfl hm'
        hruns.tail.end_eq_false (by simp only [List.length_cons]; omega)) (fun _ => id) ?_
      rintro r s₁ ⟨hr, rfl⟩
      obtain rfl : b1 = r := Option.some.inj (hb1.symm.trans hr)
      refine wp_seq (inplaceMerge_spec h' hu rfl rfl hb1 hm hm' (by simp only [List.length_cons]; omega)) (fun _ => id) ?_
      rintro _ s₂ ⟨h₂, hin₂⟩
      -- the pass goes on behind the merged runs
      have h₂' : s₂.Whole (u ++ (x :: q).merge (y :: q') (le less) ++ (ls.flatten ++ [list.tail])) := by simpa using h₂
      refine wp_post (ih h₂' (by simp [hu]) hruns.tail.tail hb1 (by omega) (by omega)) ?_
      rintro r s₃ ⟨hr, h₃, hin₃⟩
      refine ⟨?_, by simpa [mergePairs] using h₃, ?_⟩
      · rw [hr, mergePairs, List.length_cons]
        omega
      · refine Within.trans (by simpa using hin₂) hin₃ fun e he => ?_
        simp only [List.mem_append, List.mem_merge, List.flatten_cons] at he ⊢
        tauto

/-- **The outer loop of `list_sort`** ends with the list in order: each pass leaves half of the runs. -/
theorem sortLoop_spec [IsStrictWeakOrder ι fun a b => less a b = true] {list : KList ι} {fuel n : ℕ}
    (h : s.Whole (list.head :: (l ++ [list.tail]))) (hfuel : l.length < fuel) (hn : (l.splitBy (le less)).length ≤ n) (hpos : 0 < n) :
    wp (sortLoop less list fuel n)
      (fun _ s' => ∃ l', s'.Whole (list.head :: (l' ++ [list.tail])) ∧ Rearranges less l l' ∧ (l'.Pairwise fun a b => le less a b = true) ∧
        Within (list.head :: (l ++ [list.tail])) s s') (fun _ => False) s := by
  induction n generalizing s l with
  | zero => exact absurd hpos (Nat.lt_irrefl 0)
  | succ n ih =>
    have hflat := List.flatten_splitBy (le less) l
    have hruns := areRuns_splitBy (le less) l
    obtain ⟨a, t, ha⟩ := List.exists_cons_of_ne_nil (show l ++ [list.tail] ≠ [] by simp)
    have hnext : s.next list.head = some a := by
      rw [ha] at h
      exact Links.Whole.next_eq (u := []) h
    have hcount : (l.splitBy (le less)).length < fuel := (length_splitBy_le l).trans_lt hfuel
    have hpassed : s.Whole ([list.head] ++ ((l.splitBy (le less)).flatten ++ [list.tail])) := by
      rw [hflat]
      exact h
    rw [sortLoop, wp_bind, listBegin, wp_getNext hnext]
    refine wp_seq (passLoop_spec hpassed (by simp) hruns
      (by rw [hflat, ha]; rfl) (by rw [hflat]; exact hfuel) hcount) (fun _ => id) ?_
    rintro cnt s₁ ⟨hcnt, h₁, hin₁⟩
    rw [hflat] at hin₁
    have hpass := @pass_rearranges _ less _ l
    change s₁.Whole (list.head :: (pass (le less) l ++ [list.tail])) at h₁
    rw [Nat.zero_add, length_mergePairs] at hcnt
    have hlen := @length_runs_pass_le _ less _ l
    rw [wp_ite]
    refine ⟨fun hgt => ?_, fun hle => ?_⟩
    · refine wp_post (ih h₁ (by rw [hpass.perm.length_eq]; exact hfuel) (by omega) (by omega)) ?_
      rintro _ s₂ ⟨l', h₂, hre, hsorted, hin₂⟩
      refine ⟨l', h₂, hpass.trans hre, hsorted, Within.trans hin₁ hin₂ fun e he => ?_⟩
      simpa [hpass.perm.mem_iff] using he
    · exact ⟨pass (le less) l, h₁, hpass, pairwise_pass (by omega), hin₁⟩

/-- **`list_sort`**: for every list and every strict weak order it ends, no assertion fails, and it leaves a list with the
same elements in order, equivalent ones in the order that they had. Other elements are not touched. -/
theorem listSort_sorts [IsStrictWeakOrder ι fun a b => less a b = true] {list : KList ι} {fuel : ℕ}
    (h : s.Whole (list.head :: (l ++ [list.tail]))) (hfuel : l.length + 1 < fuel) :
    wp (listSort less fuel list)
      (fun _ s' => ∃ l', s'.Whole (list.head :: (l' ++ [list.tail])) ∧ l'.Perm l ∧ (l'.Pairwise fun a b => less b a = false) ∧
        (∀ a, l'.filter (equiv less a) = l.filter (equiv less a)) ∧
        ∀ c ∉ list.head :: (l ++ [list.tail]), s'.next c = s.next c ∧ s'.prev c = s.prev c)
      (fun _ => False) s := by
  have hcount : (l.splitBy (le less)).length ≤ fuel := (length_splitBy_le l).trans (by omega)
  rw [listSort]
  refine wp_seq (sortLoop_spec h (by omega) hcount (by omega)) (fun _ => id) ?_
  rintro _ s₁ ⟨l', h₁, hre, hsorted, hin⟩
  obtain ⟨a, t, ha⟩ := List.exists_cons_of_ne_nil (show l' ++ [list.tail] ≠ [] by simp)
  have hnext : s₁.next list.head = some a := by
    rw [ha] at h₁
    exact Links.Whole.next_eq (u := []) h₁
  rw [wp_bind, listBegin, wp_getNext hnext]
  refine wp_seq (isSorted_spec (u := [list.head]) h₁ (by rw [ha]; rfl) rfl hsorted.isChain ?_) (fun _ => id) ?_
  · rw [hre.perm.length_eq]
    omega
  · rintro _ _ ⟨rfl, rfl⟩
    rw [wp_assert rfl]
    refine ⟨l', h₁, hre.perm, ?_, hre.stable, hin⟩
    simpa [le] using hsorted

/-- Numbers in the order of their halves. -/
theorem halves_strictWeakOrder : IsStrictWeakOrder ℕ fun a b => decide (a / 2 < b / 2) = true where
  irrefl a h := lt_irrefl _ (of_decide_eq_true h)
  trans a b c hab hbc := decide_eq_true ((of_decide_eq_true hab).trans (of_decide_eq_true hbc))
  incomp_trans a b c hab hbc := by
    simp only [decide_eq_true_eq] at *
    omega

/-- The list of the elements 5, 4 and 1, between 10 and 11. -/
def threeLinks : Links ℕ where
  prev n := if n = 5 then some 10 else if n = 4 then some 5 else if n = 1 then some 4 else if n = 11 then some 1 else none
  next n := if n = 10 then some 5 else if n = 5 then some 4 else if n = 4 then some 1 else if n = 1 then some 11 else none

theorem threeLinks_whole : threeLinks.Whole (10 :: ([5, 4, 1] ++ [11])) := by
  refine ⟨?_, by decide, ?_, ?_⟩
  · simp [Links.Linked, threeLinks]
  · simp [threeLinks]
  · simp [threeLinks]

theorem listSort_sorts_three : wp (listSort (fun a b => decide (a / 2 < b / 2)) 5 ⟨10, 11⟩)
    (fun _ s' => ∃ l', s'.Whole (10 :: (l' ++ [11])) ∧ l'.Perm [5, 4, 1]) (fun _ => False) threeLinks := by
  have := halves_strictWeakOrder
  have hw : threeLinks.Whole ((KList.mk 10 11).head :: ([5, 4, 1] ++ [(KList.mk 10 11).tail])) := threeLinks_whole
  refine wp_post (listSort_sorts hw (by decide)) ?_
  rintro _ s' ⟨l', hw, hperm, -⟩
  exact ⟨l', hw, hperm⟩

end

end Pintos.LinkedList
