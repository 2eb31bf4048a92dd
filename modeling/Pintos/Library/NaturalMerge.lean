import Mathlib.Algebra.Order.Ring.Int
import Mathlib.Data.List.SplitBy
import Mathlib.Order.Defs.Unbundled
import Mathlib.Tactic.Common

/-!
# Natural merge sort

A list is divided into its runs, which are in order, and neighbouring runs are merged.
Such a pass keeps the elements, and equivalent ones in their order (`pass_rearranges`);
it leaves half of the runs (`length_runs_pass_le`), and a list with one run is sorted.
-/

namespace Pintos.Library.NaturalMerge

variable {α : Type}

/-! ### Orders -/

section Order

variable (less : α → α → Bool)

/-- `a` may stand before `b`. -/
def le (a b : α) : Bool := !less b a

/-- Neither of `a` and `b` is less. -/
def equiv (a b : α) : Bool := !less a b && !less b a

variable {less} [h : IsStrictWeakOrder α fun a b => less a b = true]

theorem le_total (a b : α) : (le less a b || le less b a) = true := by
  cases hba : less b a with
  | false => simp [le, hba]
  | true =>
    have hab : less a b = false := Bool.eq_false_iff.2 fun hab => h.irrefl a (h.trans a b a hab hba)
    simp [le, hab]

theorem le_trans (a b c : α) (hab : le less a b = true) (hbc : le less b c = true) : le less a c = true := by
  simp only [le, Bool.not_eq_true'] at *
  by_contra hca
  rw [Bool.not_eq_false] at hca
  -- otherwise all three would be equivalent
  have hnab : less a b ≠ true := fun hlt => by
    rw [h.trans c a b hca hlt] at hbc
    cases hbc
  have hnbc : less b c ≠ true := fun hlt => by
    rw [h.trans b c a hlt hca] at hab
    cases hab
  exact (h.incomp_trans a b c ⟨hnab, by simp [hab]⟩ ⟨hnbc, by simp [hbc]⟩).2 hca

/-- Two elements that are equivalent to a third one are equivalent. -/
theorem not_less_of_equiv {a b c : α} (hb : equiv less a b = true) (hc : equiv less a c = true) : less b c = false := by
  simp only [equiv, Bool.and_eq_true, Bool.not_eq_true'] at hb hc
  exact Bool.eq_false_iff.2 (h.incomp_trans b a c ⟨by simp [hb.2], by simp [hb.1]⟩ ⟨by simp [hc.1], by simp [hc.2]⟩).1

end Order

/-! ### Merging -/

section Merge

variable {less : α → α → Bool}

/-- `l'` has the elements of `l`, those that are equivalent to one another in the order of `l`. -/
structure Rearranges (less : α → α → Bool) (l l' : List α) : Prop where
  perm : l'.Perm l
  stable : ∀ a, l'.filter (equiv less a) = l.filter (equiv less a)

theorem Rearranges.refl (l : List α) : Rearranges less l l := ⟨.refl l, fun _ => rfl⟩

theorem Rearranges.trans {l l' l'' : List α} (h : Rearranges less l l') (h' : Rearranges less l' l'') : Rearranges less l l'' :=
  ⟨h'.perm.trans h.perm, fun a => (h'.stable a).trans (h.stable a)⟩

theorem Rearranges.append {l l' m m' : List α} (h : Rearranges less l l') (h' : Rearranges less m m') :
    Rearranges less (l ++ m) (l' ++ m') := by
  refine ⟨h.perm.append h'.perm, fun a => ?_⟩
  rw [List.filter_append, List.filter_append, h.stable, h'.stable]

variable [IsStrictWeakOrder α fun a b => less a b = true]

/-- **Merging is stable.** -/
theorem filter_merge {l m : List α} (hl : l.Pairwise fun a b => le less a b = true) (a : α) :
    (l.merge m (le less)).filter (equiv less a) = l.filter (equiv less a) ++ m.filter (equiv less a) := by
  induction l generalizing m with
  | nil => simp
  | cons x l ih =>
    induction m with
    | nil => simp
    | cons y m ihm =>
      rw [List.cons_merge_cons]
      split_ifs with hxy
      · rw [List.filter_cons, ih hl.of_cons, List.filter_cons (x := x)]
        split_ifs <;> rfl
      · rw [List.filter_cons, ihm]
        by_cases hy : equiv less a y = true
        · -- what `y` is put before is not equivalent to it
          have hnone : (x :: l).filter (equiv less a) = [] := by
            rw [List.filter_eq_nil_iff]
            intro z hz hza
            have hyz := not_less_of_equiv hy hza
            have hyx : less y x = true := by simpa [le] using hxy
            have hxz : le less x z = true := by
              rcases List.mem_cons.1 hz with rfl | hz
              · simpa using @le_total _ less _ z z
              · exact List.rel_of_pairwise_cons hl hz
            have hzy : le less z y = true := by simp [le, hyz]
            have := le_trans x z y hxz hzy
            simp [le, hyx] at this
          rw [if_pos hy, hnone, List.filter_cons, if_pos hy]
          rfl
        · rw [if_neg hy, List.filter_cons (x := y), if_neg hy]

/-- **Merging.** -/
theorem merge_rearranges {l m : List α} (hl : l.Pairwise fun a b => le less a b = true) :
    Rearranges less (l ++ m) (l.merge m (le less)) :=
  ⟨List.merge_perm_append _, fun a => by rw [filter_merge hl, List.filter_append]⟩

end Merge

/-! ### Passes -/

section Pass

variable (r : α → α → Bool)

/-- The lists are runs: none is empty, each is in order, and none goes on in the next one. -/
structure AreRuns (ls : List (List α)) : Prop where
  ne : [] ∉ ls
  chain : ∀ m ∈ ls, m.IsChain fun a b => r a b = true
  ends : ls.IsChain fun a b => ∃ ha hb, r (a.getLast ha) (b.head hb) = false

theorem areRuns_splitBy (l : List α) : AreRuns r (l.splitBy r) :=
  ⟨List.nil_notMem_splitBy r l, fun _ => List.isChain_of_mem_splitBy, List.isChain_getLast_head_splitBy r l⟩

/-- Neighbouring lists are merged. -/
def mergePairs : List (List α) → List (List α)
  | [] => []
  | [a] => [a]
  | a :: b :: ls => a.merge b r :: mergePairs ls

/-- **A pass.** -/
def pass (l : List α) : List α := (mergePairs r (l.splitBy r)).flatten

variable {r}

theorem AreRuns.tail {a : List α} {ls : List (List α)} (h : AreRuns r (a :: ls)) : AreRuns r ls :=
  ⟨fun hc => h.ne (List.mem_cons_of_mem a hc), fun m hm => h.chain m (List.mem_cons_of_mem a hm), h.ends.tail⟩

theorem AreRuns.ne_nil {a : List α} {ls : List (List α)} (h : AreRuns r (a :: ls)) : a ≠ [] := fun hnil =>
  h.ne (hnil ▸ List.mem_cons_self)

/-- A run does not go on behind its end. -/
theorem AreRuns.end_eq_false {a : List α} {ls : List (List α)} (h : AreRuns r (a :: ls)) :
    ∀ y ∈ ls.flatten.head?, ∀ x ∈ a.getLast?, r x y = false := by
  intro y hy x hx
  cases ls with
  | nil => cases hy
  | cons b ls =>
    obtain ⟨ha, hb, hend⟩ := (List.isChain_cons_cons.1 h.ends).1
    rw [List.flatten_cons, List.head?_append_of_ne_nil _ hb, List.head?_eq_some_head hb] at hy
    rw [List.getLast?_eq_some_getLast ha] at hx
    cases hy
    cases hx
    exact hend

theorem AreRuns.splitBy {ls : List (List α)} (h : AreRuns r ls) : ls.flatten.splitBy r = ls :=
  List.splitBy_flatten h.ne h.chain h.ends

/-- There are at most as many runs as elements. -/
theorem length_splitBy_le (l : List α) : (l.splitBy r).length ≤ l.length := by
  have hle : ∀ ls : List (List α), [] ∉ ls → ls.length ≤ ls.flatten.length := by
    intro ls hls
    induction ls with
    | nil => exact le_rfl
    | cons a ls ih =>
      rw [List.mem_cons, not_or] at hls
      obtain ⟨hne, hls⟩ := hls
      have := List.length_pos_iff.2 (Ne.symm hne)
      have := ih hls
      rw [List.flatten_cons, List.length_append, List.length_cons]
      omega
  have h := hle _ (List.nil_notMem_splitBy r l)
  rwa [List.flatten_splitBy] at h

theorem length_mergePairs (ls : List (List α)) : (mergePairs r ls).length = (ls.length + 1) / 2 := by
  induction ls using mergePairs.induct with
  | case1 => simp [mergePairs]
  | case2 a => simp [mergePairs]
  | case3 a b ls ih =>
    simp only [mergePairs, List.length_cons, ih]
    omega

/-- A list that is in order before another one adds at most one run. -/
theorem length_splitBy_append_le {m l : List α} (hm : m.IsChain fun a b => r a b = true) :
    ((m ++ l).splitBy r).length ≤ (l.splitBy r).length + 1 := by
  rcases List.eq_nil_or_concat' m with rfl | ⟨m, x, rfl⟩
  · exact Nat.le_succ _
  by_cases hl : l = []
  · rw [hl, List.append_nil, List.splitBy_of_isChain (by simp) hm]
    rfl
  obtain ⟨a, ls, hls⟩ := List.exists_cons_of_ne_nil (List.splitBy_ne_nil (r := r).2 hl)
  have hruns := areRuns_splitBy r l
  have hflat := List.flatten_splitBy r l
  rw [hls] at hruns hflat
  obtain ⟨y, a, rfl⟩ := List.exists_cons_of_ne_nil fun hnil => hruns.ne (hnil ▸ List.mem_cons_self)
  obtain ⟨hya, hrest⟩ := List.forall_mem_cons.1 hruns.chain
  cases hxy : r x y with
  | true =>
    -- the first run begins earlier
    have h : AreRuns r ((m ++ x :: y :: a) :: ls) := by
      refine ⟨?_, List.forall_mem_cons.2 ⟨?_, hrest⟩, ?_⟩
      · simp only [List.mem_cons, not_or]
        exact ⟨by simp, fun hc => hruns.ne (List.mem_cons_of_mem _ hc)⟩
      · exact List.isChain_append_cons_cons.2 ⟨hm, hxy, hya⟩
      · cases ls with
        | nil => exact List.isChain_singleton _
        | cons b ls =>
          obtain ⟨⟨ha, hb, hend⟩, htail⟩ := List.isChain_cons_cons.1 hruns.ends
          refine List.isChain_cons_cons.2 ⟨⟨by simp, hb, ?_⟩, htail⟩
          rw [List.getLast_append_of_ne_nil _ (by simp), List.getLast_cons (by simp)]
          exact hend
    have heq : m ++ [x] ++ l = ((m ++ x :: y :: a) :: ls).flatten := by
      rw [← hflat]
      simp
    rw [heq, h.splitBy, hls]
    exact Nat.le_succ _
  | false =>
    have h : AreRuns r ((m ++ [x]) :: (y :: a) :: ls) := by
      refine ⟨?_, List.forall_mem_cons.2 ⟨hm, hruns.chain⟩, List.isChain_cons_cons.2 ⟨⟨by simp, by simp, ?_⟩, hruns.ends⟩⟩
      · simp only [List.mem_cons, not_or]
        exact ⟨by simp, by simp, fun hc => hruns.ne (List.mem_cons_of_mem _ hc)⟩
      · simpa using hxy
    have heq : m ++ [x] ++ l = ((m ++ [x]) :: (y :: a) :: ls).flatten := by
      rw [← hflat]
      simp
    rw [heq, h.splitBy, hls]
    exact le_rfl

/-- Lists that are in order have no more runs than they are. -/
theorem length_splitBy_flatten_le {ls : List (List α)} (h : ∀ m ∈ ls, m.IsChain fun a b => r a b = true) :
    (ls.flatten.splitBy r).length ≤ ls.length := by
  induction ls with
  | nil => exact le_rfl
  | cons m ls ih =>
    obtain ⟨hm, hls⟩ := List.forall_mem_cons.1 h
    have := ih hls
    exact (length_splitBy_append_le hm).trans (Nat.succ_le_succ this)

end Pass

section Sorting

variable {less : α → α → Bool} [IsStrictWeakOrder α fun a b => less a b = true] {ls : List (List α)}

theorem pairwise_of_isChain {l : List α} (h : l.IsChain fun a b => le less a b = true) : l.Pairwise fun a b => le less a b = true := by
  have : IsTrans α fun a b => le less a b = true := ⟨le_trans⟩
  exact List.isChain_iff_pairwise.1 h

/-- Merged runs are in order. -/
theorem isChain_mergePairs (h : ∀ m ∈ ls, m.IsChain fun a b => le less a b = true) :
    ∀ m ∈ mergePairs (le less) ls, m.IsChain fun a b => le less a b = true := by
  induction ls using mergePairs.induct with
  | case1 => exact h
  | case2 a => exact h
  | case3 a b ls ih =>
    obtain ⟨ha, hb⟩ := List.forall_mem_cons.1 h
    obtain ⟨hb, hls⟩ := List.forall_mem_cons.1 hb
    exact List.forall_mem_cons.2 ⟨(List.pairwise_merge le_trans le_total a b (pairwise_of_isChain ha) (pairwise_of_isChain hb)).isChain, ih hls⟩

theorem mergePairs_rearranges (h : ∀ m ∈ ls, m.IsChain fun a b => le less a b = true) :
    Rearranges less ls.flatten (mergePairs (le less) ls).flatten := by
  induction ls using mergePairs.induct with
  | case1 => exact .refl _
  | case2 a => exact .refl _
  | case3 a b ls ih =>
    obtain ⟨ha, hb⟩ := List.forall_mem_cons.1 h
    obtain ⟨hb, hls⟩ := List.forall_mem_cons.1 hb
    rw [List.flatten_cons, List.flatten_cons, ← List.append_assoc, mergePairs, List.flatten_cons]
    exact (merge_rearranges (pairwise_of_isChain ha)).append (ih hls)

/-- **A pass keeps the elements**, and equivalent ones in their order. -/
theorem pass_rearranges (l : List α) : Rearranges less l (pass (le less) l) := by
  have h := mergePairs_rearranges (areRuns_splitBy (le less) l).chain
  rwa [List.flatten_splitBy] at h

/-- **A pass leaves half of the runs.** -/
theorem length_runs_pass_le (l : List α) : ((pass (le less) l).splitBy (le less)).length ≤ ((l.splitBy (le less)).length + 1) / 2 := by
  rw [← length_mergePairs (r := le less)]
  exact length_splitBy_flatten_le (isChain_mergePairs (areRuns_splitBy (le less) l).chain)

/-- A pass over at most two runs sorts. -/
theorem pairwise_pass {l : List α} (h : ((l.splitBy (le less)).length + 1) / 2 ≤ 1) :
    (pass (le less) l).Pairwise fun a b => le less a b = true := by
  have hchain := isChain_mergePairs (areRuns_splitBy (le less) l).chain
  rw [← length_mergePairs (r := le less)] at h
  unfold pass
  match hls : mergePairs (le less) (l.splitBy (le less)), h with
  | [], _ => exact List.Pairwise.nil
  | [a], _ =>
    rw [hls] at hchain
    simpa using pairwise_of_isChain (hchain a List.mem_cons_self)

end Sorting

end Pintos.Library.NaturalMerge
