import Mathlib.Algebra.Order.Ring.Int
import Mathlib.Data.List.TakeWhile
import Mathlib.Tactic.Common

/-!
# Tokens

The tokens of a list are its maximal segments without a delimiter that are not empty. A
token is given by where it starts and how long it is. `tokens` cuts them off from the
front; `mem_tokens_iff` says that it finds these and no others.
-/

namespace Pintos.Library

variable {α : Type} {p : α → Bool} {l : List α} {i n d t : ℕ} {f g : ℕ → Bool}

/-- A maximal run of places from `i` on at which `f` holds; there are `n` of them. -/
structure IsRun (f : ℕ → Bool) (i n : ℕ) : Prop where
  pos : 0 < n
  inside : ∀ j < n, f (i + j) = true
  before : 0 < i → f (i - 1) = false
  behind : f (i + n) = false

/-- **The first run**, after `d` places without any, and then the runs behind it. -/
theorem isRun_iff (hd : ∀ j < d, f j = false) (ht : ∀ j < t, f (d + j) = true) (hend : f (d + t) = false) (hpos : 0 < t)
    (hrest : ∀ j, f (d + t + 1 + j) = g j) : IsRun f i n ↔ i = d ∧ n = t ∨ ∃ i', i = d + t + 1 + i' ∧ IsRun g i' n := by
  constructor
  · rintro ⟨hn, hin, hbefore, hbehind⟩
    have h0 : f i = true := hin 0 hn
    rcases Nat.lt_or_ge i d with hid | hid
    · exact absurd ((hd i hid).symm.trans h0) Bool.false_ne_true
    rcases Nat.lt_or_ge i (d + t) with hit | hit
    · left
      have hi : i = d := by
        by_contra hne
        have hlast := ht (i - 1 - d) (by omega)
        rw [show d + (i - 1 - d) = i - 1 by omega, hbefore (by omega)] at hlast
        exact Bool.false_ne_true hlast
      subst hi
      refine ⟨rfl, ?_⟩
      rcases Nat.lt_trichotomy n t with hlt | heq | hgt
      · exact absurd (hbehind.symm.trans (ht n hlt)) Bool.false_ne_true
      · exact heq
      · exact absurd (hend.symm.trans (hin t hgt)) Bool.false_ne_true
    · right
      have hne : i ≠ d + t := by
        rintro rfl
        exact Bool.false_ne_true (hend.symm.trans h0)
      obtain ⟨i', rfl⟩ : ∃ i', i = d + t + 1 + i' := ⟨i - (d + t + 1), by omega⟩
      refine ⟨i', rfl, hn, fun j hj => ?_, fun hi' => ?_, ?_⟩
      · rw [← hrest, ← Nat.add_assoc]
        exact hin j hj
      · rw [← hrest, show d + t + 1 + (i' - 1) = d + t + 1 + i' - 1 by omega]
        exact hbefore (by omega)
      · rw [← hrest, ← Nat.add_assoc]
        exact hbehind
  · rintro (⟨rfl, rfl⟩ | ⟨i', rfl, hn, hin, hbefore, hbehind⟩)
    · exact ⟨hpos, ht, fun hi => hd _ (by omega), hend⟩
    · refine ⟨hn, fun j hj => ?_, fun _ => ?_, ?_⟩
      · rw [Nat.add_assoc, hrest]
        exact hin j hj
      · rcases Nat.eq_zero_or_pos i' with rfl | hi'
        · exact hend
        · rw [show d + t + 1 + i' - 1 = d + t + 1 + (i' - 1) by omega, hrest]
          exact hbefore hi'
      · rw [Nat.add_assoc, hrest]
        exact hbehind

theorem not_isRun (h : ∀ j, f j = false) : ¬ IsRun f i n := fun hr => by
  have h0 := hr.inside 0 hr.pos
  rw [h] at h0
  exact Bool.false_ne_true h0

/-! ### Lists -/

/-- There is an element at place `k`, and it is no delimiter. -/
def free (p : α → Bool) (l : List α) (k : ℕ) : Bool := (l[k]?.map fun x => !p x).getD false

theorem lt_length_of_free {k : ℕ} (h : free p l k = true) : k < l.length := by
  by_contra hge
  rw [free, List.getElem?_eq_none (Nat.not_lt.1 hge)] at h
  exact Bool.false_ne_true h

/-- A run of places at which there is an element ends within the list. -/
theorem IsRun.add_le (h : IsRun (free p l) i n) : i + n ≤ l.length := by
  have hpos := h.pos
  have hlast := lt_length_of_free (h.inside (n - 1) (by omega))
  omega

/-- How many delimiters the list begins with. -/
def skipped (p : α → Bool) (l : List α) : ℕ := (l.takeWhile p).length

/-- How long the first token is. -/
def tokenLength (p : α → Bool) (l : List α) : ℕ := ((l.dropWhile p).takeWhile fun x => !p x).length

/-- What is behind the first token and the delimiter that ends it. -/
def behindToken (p : α → Bool) (l : List α) : List α := (l.dropWhile p).drop (tokenLength p l + 1)

theorem length_behindToken (h : l.dropWhile p ≠ []) : (behindToken p l).length < l.length := by
  have hle := (List.dropWhile_sublist (l := l) p).length_le
  have hpos := List.length_pos_iff.2 h
  unfold behindToken
  rw [List.length_drop]
  omega

/-- **The tokens**, with where each starts. -/
def tokens (p : α → Bool) (l : List α) : List (ℕ × ℕ) :=
  if h : l.dropWhile p = [] then []
  else
    (skipped p l, tokenLength p l) ::
      (tokens p (behindToken p l)).map fun x => (skipped p l + tokenLength p l + 1 + x.1, x.2)
termination_by l.length
decreasing_by exact length_behindToken h

theorem tokens_of_nil (h : l.dropWhile p = []) : tokens p l = [] := by
  rw [tokens, dif_pos h]

theorem tokens_of_ne_nil (h : l.dropWhile p ≠ []) : tokens p l = (skipped p l, tokenLength p l) ::
    (tokens p (behindToken p l)).map fun x => (skipped p l + tokenLength p l + 1 + x.1, x.2) := by
  rw [tokens, dif_neg h]

theorem skipped_add_length : skipped p l + (l.dropWhile p).length = l.length := by
  have hl := congrArg List.length (List.takeWhile_append_dropWhile (p := p) (l := l))
  rwa [List.length_append] at hl

/-- Behind the elements that satisfy `q`. -/
theorem getElem?_dropWhile (q : α → Bool) (l : List α) (k : ℕ) : l[(l.takeWhile q).length + k]? = (l.dropWhile q)[k]? := by
  have h : (l.takeWhile q ++ l.dropWhile q)[(l.takeWhile q).length + k]? = (l.dropWhile q)[k]? := by
    rw [List.getElem?_append_right (Nat.le_add_right ..), Nat.add_sub_cancel_left]
  rwa [List.takeWhile_append_dropWhile] at h

theorem getElem?_skipped (k : ℕ) : l[skipped p l + k]? = (l.dropWhile p)[k]? := getElem?_dropWhile p l k

/-- The list begins with delimiters. -/
theorem free_of_lt_skipped {k : ℕ} (h : k < skipped p l) : free p l k = false := by
  have hk : l[k]? = (l.takeWhile p)[k]? := by
    conv_lhs => rw [← List.takeWhile_append_dropWhile (p := p) (l := l)]
    exact List.getElem?_append_left h
  rw [free, hk, List.getElem?_eq_getElem h, Option.map_some, Option.getD_some,
    List.mem_takeWhile_imp (List.getElem_mem h)]
  rfl

theorem tokenLength_le : tokenLength p l ≤ (l.dropWhile p).length := (List.takeWhile_sublist _).length_le

theorem tokenLength_pos (h : l.dropWhile p ≠ []) : 0 < tokenLength p l := by
  obtain ⟨x, r, hx⟩ := List.exists_cons_of_ne_nil h
  have hhead : p x = false := by
    have hnot := List.head_dropWhile_not p h
    simp only [hx, List.head_cons] at hnot
    exact hnot
  rw [tokenLength, hx, List.takeWhile_cons_of_pos (by rw [hhead]; rfl)]
  exact Nat.zero_lt_succ _

/-- Then come the characters of the token. -/
theorem free_of_token {k : ℕ} (h : k < tokenLength p l) : free p l (skipped p l + k) = true := by
  have hk : (l.dropWhile p)[k]? = ((l.dropWhile p).takeWhile fun x => !p x)[k]? := by
    conv_lhs => rw [← List.takeWhile_append_dropWhile (p := fun x => !p x) (l := l.dropWhile p)]
    exact List.getElem?_append_left h
  rw [free, getElem?_skipped, hk, List.getElem?_eq_getElem h, Option.map_some, Option.getD_some]
  exact List.mem_takeWhile_imp (p := fun x => !p x) (List.getElem_mem h)

/-- A delimiter ends it, or the end of the list. -/
theorem free_tokenLength : free p l (skipped p l + tokenLength p l) = false := by
  have hk : (l.dropWhile p)[tokenLength p l]? = ((l.dropWhile p).dropWhile fun x => !p x)[0]? :=
    getElem?_dropWhile (fun x => !p x) (l.dropWhile p) 0
  rw [free, getElem?_skipped, hk]
  cases hr : (l.dropWhile p).dropWhile fun x => !p x with
  | nil => rfl
  | cons x r =>
    have hnot := List.head_dropWhile_not (fun x => !p x) (l := l.dropWhile p) (by rw [hr]; exact List.cons_ne_nil _ _)
    simp only [hr, List.head_cons, Bool.not_eq_false'] at hnot
    simp [hnot]

theorem free_behind (k : ℕ) : free p l (skipped p l + tokenLength p l + 1 + k) = free p (behindToken p l) k := by
  unfold free
  rw [Nat.add_assoc, Nat.add_assoc, getElem?_skipped, behindToken, List.getElem?_drop, Nat.add_assoc]

/-- **The tokens are the maximal segments without a delimiter.** -/
theorem mem_tokens_iff (l : List α) : (i, n) ∈ tokens p l ↔ IsRun (free p l) i n := by
  induction hlen : l.length using Nat.strong_induction_on generalizing l i n with
  | _ k ih =>
    by_cases h : l.dropWhile p = []
    · rw [tokens_of_nil h]
      refine iff_of_false List.not_mem_nil (not_isRun fun j => ?_)
      rcases Nat.lt_or_ge j (skipped p l) with hj | hj
      · exact free_of_lt_skipped hj
      · obtain ⟨j, rfl⟩ := Nat.exists_eq_add_of_le hj
        rw [free, getElem?_skipped, h]
        rfl
    · rw [tokens_of_ne_nil h, isRun_iff (fun j hj => free_of_lt_skipped hj) (fun j hj => free_of_token hj) free_tokenLength
        (tokenLength_pos h) free_behind, List.mem_cons, Prod.mk.injEq, List.mem_map]
      refine or_congr_right ⟨?_, ?_⟩
      · rintro ⟨⟨i', n'⟩, hmem, heq⟩
        obtain ⟨rfl, rfl⟩ := Prod.mk.inj heq
        exact ⟨i', rfl, (ih _ (hlen ▸ length_behindToken h) _ rfl).1 hmem⟩
      · rintro ⟨i', rfl, hrun⟩
        exact ⟨(i', n), (ih _ (hlen ▸ length_behindToken h) _ rfl).2 hrun, rfl⟩

/-- They come in order, with a delimiter between two. -/
theorem pairwise_tokens (l : List α) : (tokens p l).Pairwise fun x y => x.1 + x.2 < y.1 := by
  induction hlen : l.length using Nat.strong_induction_on generalizing l with
  | _ k ih =>
    by_cases h : l.dropWhile p = []
    · rw [tokens_of_nil h]
      exact List.Pairwise.nil
    · rw [tokens_of_ne_nil h, List.pairwise_cons]
      constructor
      · intro y hy
        obtain ⟨x, _, rfl⟩ := List.mem_map.1 hy
        dsimp only
        omega
      · refine (List.pairwise_map).2 ((ih _ (hlen ▸ length_behindToken h) _ rfl).imp fun hlt => ?_)
        dsimp only
        omega

/-! ### The segments themselves -/

/-- The tokens, as segments of the list. -/
def words (p : α → Bool) (l : List α) : List (List α) := (tokens p l).map fun t => (l.drop t.1).take t.2

theorem drop_skipped : l.drop (skipped p l) = l.dropWhile p := by
  refine List.ext_getElem? fun k => ?_
  rw [List.getElem?_drop, getElem?_skipped]

theorem words_of_nil (h : l.dropWhile p = []) : words p l = [] := by
  rw [words, tokens_of_nil h, List.map_nil]

/-- The first word, and then those behind it. -/
theorem words_of_ne_nil (h : l.dropWhile p ≠ []) :
    words p l = (l.dropWhile p).take (tokenLength p l) :: words p (behindToken p l) := by
  rw [words, tokens_of_ne_nil h, List.map_cons, List.map_map, drop_skipped, words]
  refine congrArg _ (List.map_congr_left fun t _ => ?_)
  rw [behindToken, ← drop_skipped, List.drop_drop, List.drop_drop, Function.comp_apply, Nat.add_assoc, Nat.add_assoc,
    Nat.add_assoc]

theorem length_words_le (l : List α) : (words p l).length ≤ l.length := by
  induction hlen : l.length using Nat.strong_induction_on generalizing l with
  | _ k ih =>
    by_cases h : l.dropWhile p = []
    · rw [words_of_nil h]
      exact Nat.zero_le _
    · have hlt := hlen ▸ length_behindToken h
      rw [words_of_ne_nil h, List.length_cons]
      exact Nat.succ_le_of_lt ((ih _ hlt _ rfl).trans_lt hlt)

end Pintos.Library
