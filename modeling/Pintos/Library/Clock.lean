import Mathlib.Algebra.Order.Ring.Int
import Mathlib.Data.List.Perm.Basic
import Mathlib.Data.List.TakeWhile
import Mathlib.Tactic.Common

/-!
# The clock

Second-chance selection over a circular list: while the first item is marked as
used, its mark is cleared and it goes to the back. The loop goes round at most
once, so the length of the list bounds it, and `spin_length` says where it ends:
the items up to the first unused one have gone to the back, cleared.
-/

namespace Pintos.Library.Clock

variable {α β : Type} (used : α → Bool) (clear : α → α)

/-- At most `n` turns of the clock; the selected item ends at the front. -/
def spin : ℕ → List α → List α
  | 0, l => l
  | _ + 1, [] => []
  | n + 1, x :: l => if used x then spin n (l ++ [clear x]) else x :: l

theorem spin_append (l acc : List α) :
    spin used clear l.length (l ++ acc) = l.dropWhile used ++ acc ++ (l.takeWhile used).map clear := by
  induction l generalizing acc with
  | nil => simp [spin]
  | cons x l ih =>
    simp only [List.length_cons, List.cons_append, spin]
    by_cases hx : used x
    · rw [if_pos hx, List.append_assoc, ih, List.dropWhile_cons_of_pos hx, List.takeWhile_cons_of_pos hx]
      simp
    · rw [if_neg hx, List.dropWhile_cons_of_neg hx, List.takeWhile_cons_of_neg hx]
      simp

/-- **Where the clock stops**: the used items before the first unused one go to the back,
cleared; if every item is used, all are cleared and the first is first again. -/
theorem spin_length (l : List α) :
    spin used clear l.length l = l.dropWhile used ++ (l.takeWhile used).map clear := by
  simpa using spin_append used clear l []

/-- **The loop of the clock, without a bound on its turns**: started with the first list, it stops with the second. -/
inductive Stops : List α → List α → Prop
  /-- The first item is unused. -/
  | stop {x : α} {l : List α} : used x = false → Stops (x :: l) (x :: l)
  /-- The first item is used: it is cleared and goes to the back. -/
  | turn {x : α} {l r : List α} : used x = true → Stops (l ++ [clear x]) r → Stops (x :: l) r

theorem stops_append (hclear : ∀ x, used (clear x) = false) (l : List α) {acc : List α} (hacc : ∀ x ∈ acc, used x = false)
    (hne : l ++ acc ≠ []) : Stops used clear (l ++ acc) (l.dropWhile used ++ acc ++ (l.takeWhile used).map clear) := by
  induction l generalizing acc with
  | nil =>
    cases acc with
    | nil => exact absurd rfl hne
    | cons x acc =>
      simp only [List.nil_append, List.dropWhile_nil, List.takeWhile_nil, List.map_nil, List.append_nil]
      exact .stop (hacc x List.mem_cons_self)
  | cons x l ih =>
    by_cases hx : used x = true
    · have hacc' : ∀ y ∈ acc ++ [clear x], used y = false := by
        intro y hy
        rcases List.mem_append.1 hy with hy | hy
        · exact hacc y hy
        · rw [List.mem_singleton.1 hy]
          exact hclear x
      have hstep := ih hacc' (by simp)
      rw [List.dropWhile_cons_of_pos hx, List.takeWhile_cons_of_pos hx]
      refine .turn hx ?_
      simpa using hstep
    · rw [List.dropWhile_cons_of_neg hx, List.takeWhile_cons_of_neg hx]
      simp only [List.map_nil, List.append_nil, List.cons_append]
      exact .stop (by simpa using hx)

/-- **The clock stops**, after at most as many turns as there are items. -/
theorem stops_spin (hclear : ∀ x, used (clear x) = false) {l : List α} (hl : l ≠ []) :
    Stops used clear l (spin used clear l.length l) := by
  have h := stops_append used clear hclear l (show ∀ x ∈ [], used x = false by simp) (by simpa using hl)
  simpa [spin_length] using h

/-- **What the clock selects**: the first unused item, before which it clears the others and puts them to the back; or, if
every item is used, the first one, after all were cleared. -/
inductive Selects : List α → α → List α → Prop
  /-- Not every item is used. -/
  | unused {passed rest : List α} {x : α} : (∀ y ∈ passed, used y = true) → used x = false →
      Selects (passed ++ x :: rest) x (x :: rest ++ passed.map clear)
  /-- Every item is used. -/
  | allUsed {x : α} {l : List α} : (∀ y ∈ x :: l, used y = true) → Selects (x :: l) (clear x) ((x :: l).map clear)

/-- The item at the front when the clock has stopped. -/
theorem selects_of_head {l : List α} {v : α} (hv : (l.dropWhile used ++ (l.takeWhile used).map clear).head? = some v) :
    Selects used clear l v (l.dropWhile used ++ (l.takeWhile used).map clear) := by
  cases hd : l.dropWhile used with
  | nil =>
    have hall := List.dropWhile_eq_nil_iff.1 hd
    rw [hd, List.takeWhile_eq_self_iff.2 hall] at hv
    rw [List.takeWhile_eq_self_iff.2 hall, List.nil_append]
    cases l with
    | nil => cases hv
    | cons x l =>
      cases hv
      exact .allUsed hall
  | cons x rest =>
    rw [hd] at hv
    obtain rfl : x = v := by simpa using hv
    have hx : used x = false := by
      have := List.head_dropWhile_not used (by rw [hd]; simp)
      simpa [hd] using this
    have hsplit : l = l.takeWhile used ++ x :: rest := by
      rw [← hd]
      exact List.takeWhile_append_dropWhile.symm
    have hpassed : ∀ y ∈ l.takeWhile used, used y = true := fun y hy => List.mem_takeWhile_imp hy
    have h : Selects used clear (l.takeWhile used ++ x :: rest) x _ := .unused hpassed hx
    rw [← hsplit] at h
    exact h

/-- What clearing does not change is only permuted. -/
theorem spin_map_perm (f : α → β) (hf : ∀ x, f (clear x) = f x) (l : List α) :
    ((spin used clear l.length l).map f).Perm (l.map f) := by
  have hc : (f ∘ clear) = f := funext hf
  rw [spin_length, List.map_append, List.map_map, hc]
  refine List.perm_append_comm.trans ?_
  rw [← List.map_append, List.takeWhile_append_dropWhile]

theorem mem_spin {l : List α} {y : α} (h : y ∈ spin used clear l.length l) :
    ∃ x ∈ l, y = x ∨ y = clear x := by
  rw [spin_length, List.mem_append, List.mem_map] at h
  rcases h with h | ⟨x, hx, rfl⟩
  · exact ⟨y, (List.dropWhile_sublist _).subset h, Or.inl rfl⟩
  · exact ⟨x, (List.takeWhile_sublist _).subset hx, Or.inr rfl⟩

theorem mem_spin_of_mem {l : List α} {x : α} (h : x ∈ l) :
    x ∈ spin used clear l.length l ∨ clear x ∈ spin used clear l.length l := by
  rw [spin_length]
  rw [← List.takeWhile_append_dropWhile (p := used) (l := l), List.mem_append] at h
  rcases h with h | h
  · exact Or.inr (List.mem_append_right _ (List.mem_map_of_mem h))
  · exact Or.inl (List.mem_append_left _ h)

@[simp] theorem length_spin (l : List α) : (spin used clear l.length l).length = l.length := by
  simpa using (spin_map_perm used clear (fun _ => ()) (fun _ => rfl) l).length_eq

/-- **A used item at the back survives**: if the last item is used and is not the only one,
the clock does not stop at it. -/
theorem head_spin_of_last {l : List α} {x y : α} {r : List α} (hx : used x) (hl : l ≠ [])
    (h : spin used clear (l ++ [x]).length (l ++ [x]) = y :: r) : ∃ z ∈ l, y = z ∨ y = clear z := by
  rw [spin_length] at h
  by_cases hall : ∀ z ∈ l, used z
  · -- every item is used: the first is first again
    have hall' : ∀ z ∈ l ++ [x], used z = true := by
      intro z hz
      rcases List.mem_append.1 hz with hz | hz
      · exact hall z hz
      · rw [List.mem_singleton.1 hz]; exact hx
    rw [List.dropWhile_eq_nil_iff.2 hall', List.takeWhile_eq_self_iff.2 hall', List.nil_append] at h
    cases l with
    | nil => exact absurd rfl hl
    | cons z l =>
      simp only [List.cons_append, List.map_cons, List.cons.injEq] at h
      exact ⟨z, List.mem_cons_self, Or.inr h.1.symm⟩
  · -- the clock stops inside `l`
    have hne : l.dropWhile used ≠ [] := fun hnil => hall (List.dropWhile_eq_nil_iff.1 hnil)
    have hdrop : (l ++ [x]).dropWhile used = l.dropWhile used ++ [x] := by
      rw [List.dropWhile_append]
      simp [List.isEmpty_iff, hne]
    rw [hdrop] at h
    cases hd : l.dropWhile used with
    | nil => exact absurd hd hne
    | cons w t =>
      rw [hd] at h
      simp only [List.cons_append, List.cons.injEq] at h
      have hw : w ∈ l := (List.dropWhile_sublist used).subset (by rw [hd]; exact List.mem_cons_self)
      exact ⟨w, hw, Or.inl h.1.symm⟩

end Pintos.Library.Clock
