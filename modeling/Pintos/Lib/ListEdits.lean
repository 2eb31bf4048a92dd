import Mathlib.Data.List.Destutter
import Pintos.Lib.ListSort
import Pintos.Library.LinkSegments

/-!
# Editing lists

`list_insert`, `list_remove`, the functions that push and pop, `list_reverse`,
`list_insert_ordered` and `list_unique` of `lib/kernel/list.c`, and `list_splice` between any
two places. Each is described by the list that it leaves and by the elements whose links it
may change.
-/

namespace Pintos.LinkedList

open Library Library.Prog

variable {ι : Type}

/-! ### Lists and other elements -/

section

variable {s s' : Links ι} {u v xs ys ds : List ι} {a b c : ι} {list : KList ι} {duplicates : Option (KList ι)}

/-- The elements of a list, with its own ones. -/
def KList.nodes (list : KList ι) (xs : List ι) : List ι := list.head :: (xs ++ [list.tail])

theorem check_of_prev (h : s.prev a = some b) : (isInterior s a || isTail s a) = true := by
  unfold isInterior isTail
  rw [h]
  cases s.next a <;> rfl

/-- A list of elements that are not touched. -/
theorem Within.frame (h : Within ys s s') (hw : s.Whole xs) (hdis : ∀ a ∈ xs, a ∉ ys) : s'.Whole xs :=
  hw.frame (fun a ha => (h a (hdis a ha)).1) fun a ha => (h a (hdis a ha)).2

theorem Within.mono (h : Within xs s s') (hsub : xs ⊆ ys) : Within ys s s' := fun c hc => h c fun hx => hc (hsub hx)

theorem isInterior_of (hp : s.prev a = some b) (hn : s.next a = some c) : isInterior s a = true := by
  rw [isInterior, hp, hn]
  rfl

theorem KList.nodes_append (list : KList ι) (u v : List ι) : list.nodes (u ++ v) = (list.head :: u) ++ (v ++ [list.tail]) := by
  simp [nodes]

/-- The element after the head. -/
theorem Whole.listBegin (h : s.Whole (list.nodes xs)) : ∃ a, (xs ++ [list.tail]).head? = some a ∧ s.next list.head = some a := by
  cases xs with
  | nil => exact ⟨list.tail, rfl, Links.Whole.next_eq (u := []) (v := []) h⟩
  | cons a xs => exact ⟨a, rfl, Links.Whole.next_eq (u := []) (v := xs ++ [list.tail]) h⟩

/-- The elements of the list of duplicates, with its own ones, if there is one. -/
def duplicateNodes (duplicates : Option (KList ι)) (xs : List ι) : List ι :=
  match duplicates with
  | some d => d.nodes xs
  | none => []

theorem mem_duplicateNodes : a ∈ duplicateNodes duplicates (ds ++ [b]) → a = b ∨ a ∈ duplicateNodes duplicates ds := by
  cases duplicates with
  | none => exact fun h => absurd h List.not_mem_nil
  | some d =>
    simp only [duplicateNodes, KList.nodes, List.mem_cons, List.mem_append, List.not_mem_nil, or_false]
    grind

end

variable [DecidableEq ι]

/-! ### The functions -/

/-- `list_init`. -/
def listInit (list : KList ι) : ListM ι Unit := do
  modify (Links.setPrev list.head none)
  modify (Links.setNext list.head (some list.tail))
  modify (Links.setPrev list.tail (some list.head))
  modify (Links.setNext list.tail none)

/-- `list_insert`. -/
def listInsert (before elem : ι) : ListM ι Unit := do
  let s ← gets id
  assert (isInterior s before || isTail s before)
  modify (Links.setPrev elem (s.prev before))
  modify (Links.setNext elem (some before))
  let p ← getPrev before
  modify (Links.setNext p (some elem))
  modify (Links.setPrev before (some elem))

/-- `list_remove`. -/
def listRemove (elem : ι) : ListM ι (Option ι) := do
  let s ← gets id
  assert (isInterior s elem)
  let p ← getPrev elem
  modify (Links.setNext p (s.next elem))
  let n ← getNext elem
  let s ← gets id
  modify (Links.setPrev n (s.prev elem))
  gets fun s => s.next elem

/-- `list_push_front`. -/
def listPushFront (list : KList ι) (elem : ι) : ListM ι Unit := do
  let before ← listBegin list
  listInsert before elem

/-- `list_push_back`. -/
def listPushBack (list : KList ι) (elem : ι) : ListM ι Unit := listInsert (listEnd list) elem

/-- `list_empty`. -/
def listEmpty (list : KList ι) : ListM ι Bool := do
  let a ← listBegin list
  pure (decide (a = listEnd list))

/-- `list_front`. -/
def listFront (list : KList ι) : ListM ι ι := do
  let empty ← listEmpty list
  assert (!empty)
  getNext list.head

/-- `list_back`. -/
def listBack (list : KList ι) : ListM ι ι := do
  let empty ← listEmpty list
  assert (!empty)
  getPrev list.tail

/-- `list_pop_front`. -/
def listPopFront (list : KList ι) : ListM ι ι := do
  let front ← listFront list
  let _ ← listRemove front
  pure front

/-- `list_pop_back`. -/
def listPopBack (list : KList ι) : ListM ι ι := do
  let back ← listBack list
  let _ ← listRemove back
  pure back

/-- The loop of `list_reverse`, which swaps the two links of an element. -/
def reverseLoop (list : KList ι) : ℕ → ι → ListM ι Unit
  | 0, _ => stop .fuel
  | n + 1, e =>
    if e = listEnd list then pure ()
    else do
      modify (Links.turn e)
      let e ← getPrev e
      reverseLoop list n e

/-- `list_reverse`. -/
def listReverse (fuel : ℕ) (list : KList ι) : ListM ι Unit := do
  let empty ← listEmpty list
  if empty then pure ()
  else do
    let e ← listBegin list
    reverseLoop list fuel e
    -- `swap (&list->head.next, &list->tail.prev)`
    let s ← gets id
    modify (Links.setNext list.head (s.prev list.tail))
    modify (Links.setPrev list.tail (s.next list.head))
    -- `swap (&list->head.next->prev, &list->tail.prev->next)`
    let a ← getNext list.head
    let b ← getPrev list.tail
    let s ← gets id
    modify (Links.setPrev a (s.next b))
    modify (Links.setNext b (s.prev a))

section

variable (less : ι → ι → Bool)

/-- The loop of `list_insert_ordered`: the element before which `elem` is inserted. -/
def positionLoop (list : KList ι) (elem : ι) : ℕ → ι → ListM ι ι
  | 0, _ => stop .fuel
  | n + 1, e =>
    if e = listEnd list then pure e
    else if less elem e then pure e
    else do
      let e ← listNext e
      positionLoop list elem n e

/-- `list_insert_ordered`. -/
def listInsertOrdered (fuel : ℕ) (list : KList ι) (elem : ι) : ListM ι Unit := do
  let e ← listBegin list
  let e ← positionLoop less list elem fuel e
  listInsert e elem

/-- `if (duplicates != NULL) list_push_back (duplicates, next);` -/
def pushDuplicate (duplicates : Option (KList ι)) (next : ι) : ListM ι Unit :=
  match duplicates with
  | some d => listPushBack d next
  | none => pure ()

/-- The loop of `list_unique`. -/
def uniqueLoop (list : KList ι) (duplicates : Option (KList ι)) : ℕ → ι → ListM ι Unit
  | 0, _ => stop .fuel
  | n + 1, elem => do
    let next ← listNext elem
    if next = listEnd list then pure ()
    else if !less elem next && !less next elem then do
      let _ ← listRemove next
      pushDuplicate duplicates next
      uniqueLoop list duplicates n elem
    else uniqueLoop list duplicates n next

/-- `list_unique`; `duplicates` may be a null pointer. -/
def listUnique (fuel : ℕ) (list : KList ι) (duplicates : Option (KList ι)) : ListM ι Unit := do
  let empty ← listEmpty list
  if empty then pure ()
  else do
    let elem ← listBegin list
    uniqueLoop less list duplicates fuel elem

end

/-! ### Inserting and removing -/

variable {s s' : Links ι} {u v seg xs ys x y : List ι} {a b c elem before first last : ι} {list : KList ι} {fuel : ℕ}

/-- **`list_init`** makes an empty list. -/
theorem listInit_spec (h : list.head ≠ list.tail) :
    wp (listInit list) (fun _ s' => s'.Whole (list.nodes []) ∧ Within (list.nodes []) s s') (fun _ => False) s := by
  rw [listInit, wp_bind, wp_modify, wp_bind, wp_modify, wp_bind, wp_modify, wp_modify]
  constructor
  · constructor
    · refine List.isChain_cons_cons.2 ⟨⟨?_, ?_⟩, List.isChain_singleton _⟩
      · simp [Function.update_of_ne h]
      · simp
    · simp [KList.nodes, h]
    · rintro _ ⟨⟩
      simp [Function.update_of_ne h]
    · rintro _ ⟨⟩
      simp
  · intro c hc
    simp only [KList.nodes, List.nil_append, List.mem_cons, List.not_mem_nil, or_false, not_or] at hc
    simp [Function.update_of_ne hc.1, Function.update_of_ne hc.2]

/-- **`list_insert`** puts an element before another one. -/
theorem listInsert_spec (h : s.Whole (u ++ before :: v)) (hu : u ≠ []) (hn : elem ∉ u ++ before :: v) :
    wp (listInsert before elem) (fun _ s' => s'.Whole (u ++ elem :: before :: v) ∧ Within (elem :: (u ++ before :: v)) s s')
      (fun _ => False) s := by
  obtain ⟨u, p, rfl⟩ := (List.eq_nil_or_concat' u).resolve_left hu
  have hlinked : s.Whole (u ++ p :: before :: v) := by simpa using h
  have hprev := hlinked.prev_eq
  have hbe : before ≠ elem := by
    rintro rfl
    exact hn (by simp)
  rw [listInsert, wp_bind, wp_gets, wp_bind, id, wp_assert (check_of_prev hprev), wp_bind, wp_modify, wp_bind, wp_modify, wp_bind,
    wp_getPrev (a := p) (by simp [Function.update_of_ne hbe, hprev]), wp_bind, wp_modify, wp_modify, hprev]
  have hsingle : s.Linked [elem] := List.isChain_singleton elem
  have hw := h.link (p := p) (b := before) (f := elem) (l := elem) hsingle
    (by simp) (fun a ha => by rwa [List.mem_singleton.1 ha]) (by simp) rfl rfl rfl
  refine ⟨hw, fun c hc => ?_⟩
  have hne : ∀ a ∈ elem :: (u ++ [p] ++ before :: v), c ≠ a := fun a ha heq => hc (heq ▸ ha)
  exact ⟨Links.link_next (hne p (by simp)) (hne elem (by simp)), Links.link_prev (hne before (by simp)) (hne elem (by simp))⟩

/-- **`list_remove`** takes an element out, and returns the next one. -/
theorem listRemove_spec (h : s.Whole (u ++ elem :: a :: v)) (hu : u ≠ []) :
    wp (listRemove elem) (fun r s' => r = some a ∧ s'.Whole (u ++ a :: v) ∧ Within (u ++ elem :: a :: v) s s') (fun _ => False) s := by
  obtain ⟨u, p, rfl⟩ := (List.eq_nil_or_concat' u).resolve_left hu
  have hlinked : s.Whole (u ++ p :: elem :: a :: v) := by simpa using h
  have hprev := hlinked.prev_eq
  have hnext := h.next_eq
  have hep : elem ≠ p := by
    have hnd := (List.nodup_append.1 hlinked.nodup).2.1
    rintro rfl
    exact (List.nodup_cons.1 hnd).1 List.mem_cons_self
  rw [listRemove, wp_bind, wp_gets, wp_bind, id, wp_assert (isInterior_of hprev hnext), wp_bind, wp_getPrev hprev, wp_bind, wp_modify,
    wp_bind, wp_getNext (b := a) (by simp [Function.update_of_ne hep, hnext]), wp_bind, wp_gets, id, wp_bind, wp_modify, wp_gets,
    hnext]
  have hseg : s.Whole (u ++ [p] ++ ([elem] ++ a :: v)) := h
  obtain ⟨hw, -⟩ := hseg.unlink (q := p) (y := a) (by simp) rfl
  have hstate : Links.setPrev a (s.setNext p (some a) |>.prev elem) (s.setNext p (some a)) = s.unlink p a := by
    rw [Links.unlink, Links.setNext_prev, hprev]
  rw [hstate]
  refine ⟨by simp [Links.unlink, Function.update_of_ne hep, hnext], hw, fun c hc => ?_⟩
  have hne : ∀ b ∈ u ++ [p] ++ elem :: a :: v, c ≠ b := fun b hb heq => hc (heq ▸ hb)
  exact ⟨Links.unlink_next (hne p (by simp)), Links.unlink_prev (hne a (by simp))⟩

/-! ### `list_splice` -/

/-- **`list_splice`** moves the elements from `first` up to `last` before another element, be it in what is left of their list
or in another one. -/
theorem listSplice_moves (h : s.Whole (u ++ (seg ++ v))) (hu : u ≠ []) (hf : seg.head? = some first) (hl : v.head? = some last)
    (hdest : x ++ y = u ++ v ∨ s.Whole (x ++ y) ∧ ∀ a ∈ x ++ y, a ∉ u ++ (seg ++ v)) (hx : x ≠ []) (hb : y.head? = some before) :
    wp (listSplice before first last)
      (fun _ s' => s'.Whole (x ++ (seg ++ y)) ∧ ((∀ a ∈ x ++ y, a ∉ u ++ (seg ++ v)) → s'.Whole (u ++ v)) ∧
        Within (u ++ (seg ++ v) ++ (x ++ y)) s s') (fun _ => False) s := by
  obtain ⟨u, q, rfl⟩ := (List.eq_nil_or_concat' u).resolve_left hu
  obtain ⟨x, p, rfl⟩ := (List.eq_nil_or_concat' x).resolve_left hx
  obtain ⟨v, rfl⟩ := List.head?_eq_some_iff.1 hl
  obtain ⟨y, rfl⟩ := List.head?_eq_some_iff.1 hb
  obtain ⟨seg₁, e, rfl⟩ := (List.eq_nil_or_concat' seg).resolve_left (by rintro rfl; cases hf)
  obtain ⟨seg₂, hseg₂⟩ := List.head?_eq_some_iff.1 hf
  obtain ⟨-, hsegv, husv⟩ := List.nodup_append.1 h.nodup
  obtain ⟨hseg, -, hsd⟩ := List.nodup_append.1 hsegv
  have mf : first ∈ seg₁ ++ [e] := List.mem_of_head? hf
  have hfl : first ≠ last := hsd first mf last List.mem_cons_self
  have heq : e ≠ q := fun hc => husv q (by simp) e (by simp) hc.symm
  -- the links of the segment to what is around it
  have hprevF : s.prev first = some q := by
    rw [hseg₂] at h
    exact Links.Whole.prev_eq (u := u) (v := seg₂ ++ last :: v) (by simpa using h)
  have hmid : s.Whole ((u ++ [q] ++ seg₁) ++ e :: last :: v) := by simpa using h
  have hprevL := hmid.prev_eq
  have hnextE := hmid.next_eq
  have hnextF : s.next first ≠ none := by
    rw [hseg₂] at h
    exact Links.Whole.next_ne_none (u := u ++ [q]) (v := seg₂ ++ last :: v) (by simpa using h) (by simp)
  have hprevE : s.prev e ≠ none := Links.Whole.prev_ne_none (u := u ++ [q] ++ seg₁) (v := last :: v) (by simpa using h) (by simp)
  obtain ⟨f₂, hnextF⟩ := Option.ne_none_iff_exists'.1 hnextF
  obtain ⟨e₂, hprevE⟩ := Option.ne_none_iff_exists'.1 hprevE
  -- without the segment
  obtain ⟨hrest, hlinkedSeg⟩ := h.unlink (q := q) (y := last) (by simp) rfl
  have hdestW : (s.unlink q last).Whole (x ++ [p] ++ before :: y) := by
    rcases hdest with hsame | ⟨hother, hdis⟩
    · rw [hsame]
      exact hrest
    · refine hother.frame (fun a ha => Links.unlink_next ?_) fun a ha => Links.unlink_prev ?_
      · rintro rfl
        exact hdis a ha (by simp)
      · rintro rfl
        exact hdis a ha (by simp)
  have hdisSeg : ∀ a ∈ seg₁ ++ [e], a ∉ x ++ [p] ++ before :: y := by
    intro a ha hxy
    rcases hdest with hsame | ⟨-, hdis⟩
    · rw [hsame] at hxy
      rcases List.mem_append.1 hxy with hau | hav
      · exact husv a hau a (List.mem_append_left _ ha) rfl
      · exact hsd a ha a hav rfl
    · exact hdis a hxy (List.mem_append_right _ (List.mem_append_left _ ha))
  have hprevB : (s.unlink q last).prev before = some p := by
    have hdestW' : (s.unlink q last).Whole (x ++ p :: before :: y) := by simpa using hdestW
    exact hdestW'.prev_eq
  have hcheckB : (isInterior s before || isTail s before) = true := by
    by_cases hbl : before = last
    · rw [hbl]
      exact check_of_prev hprevL
    · rw [Links.unlink_prev hbl] at hprevB
      exact check_of_prev hprevB
  have hbf : before ≠ first := by
    rintro rfl
    exact hdisSeg before mf (by simp)
  rw [listSplice, wp_bind, wp_gets, wp_bind, id, wp_assert hcheckB, if_neg hfl, wp_bind, wp_listPrev hprevL, wp_bind,
    wp_assert (isInterior_of hprevF hnextF), wp_bind, wp_assert (isInterior_of hprevE hnextE), spliceLinks, wp_bind,
    wp_getPrev hprevF, wp_bind, wp_getNext hnextE, wp_bind, wp_modify, wp_bind,
    wp_getNext (b := last) (by simp [Function.update_of_ne heq, hnextE]), wp_bind, wp_getPrev (a := q) (by simpa using hprevF),
    wp_bind, wp_modify]
  change wp _ _ _ (s.unlink q last)
  rw [wp_bind, wp_getPrev hprevB, wp_bind, wp_modify, wp_bind, wp_modify, wp_bind,
    wp_getPrev (a := p) (by simp [Function.update_of_ne hbf, hprevB]), wp_bind, wp_modify, wp_modify]
  have hw := hdestW.link (p := p) (b := before) (f := first) (l := e) hlinkedSeg hseg hdisSeg (by simp) rfl hf (by simp)
  refine ⟨hw, fun hdis => ?_, fun c hc => ?_⟩
  · refine hrest.frame (fun a ha => Links.link_next ?_ ?_) fun a ha => Links.link_prev ?_ ?_
    · rintro rfl
      exact hdis a (by simp) (by simp at ha ⊢; grind)
    · rintro rfl
      rcases List.mem_append.1 ha with hau | hav
      · exact husv a hau a (by simp) rfl
      · exact hsd a (by simp) a hav rfl
    · rintro rfl
      exact hdis a (by simp) (by simp at ha ⊢; grind)
    · rintro rfl
      rcases List.mem_append.1 ha with hau | hav
      · exact husv a hau a (List.mem_append_left _ mf) rfl
      · exact hsd a mf a hav rfl
  · have hne : ∀ a ∈ u ++ [q] ++ (seg₁ ++ [e] ++ last :: v) ++ (x ++ [p] ++ before :: y), c ≠ a := fun a ha heq => hc (heq ▸ ha)
    have hcf : c ≠ first := hne first (List.mem_append_left _ (List.mem_append_right _ (List.mem_append_left _ mf)))
    constructor
    · exact (Links.link_next (hne p (by simp)) (hne e (by simp))).trans (Links.unlink_next (hne q (by simp)))
    · exact (Links.link_prev (hne before (by simp)) hcf).trans (Links.unlink_prev (hne last (by simp)))

/-! ### The ends of a list -/

/-- **`list_empty`.** -/
theorem wp_listEmpty {Q : Bool → Links ι → Prop} {E : Fault → Prop} (h : s.Whole (list.nodes xs)) :
    wp (listEmpty list) Q E s ↔ Q xs.isEmpty s := by
  obtain ⟨a, ha, hnext⟩ := Whole.listBegin h
  rw [listEmpty, wp_bind, listBegin, wp_getNext hnext, wp_pure]
  cases xs with
  | nil =>
    obtain rfl : list.tail = a := Option.some.inj ha
    rw [listEnd, decide_eq_true rfl]
    rfl
  | cons b xs =>
    obtain rfl : b = a := Option.some.inj ha
    have hne : b ≠ list.tail := by
      rintro rfl
      exact (List.nodup_cons.1 (List.nodup_cons.1 h.nodup).2).1 (by simp)
    rw [listEnd, decide_eq_false hne]
    rfl

/-- **`list_push_front`.** -/
theorem listPushFront_spec (h : s.Whole (list.nodes xs)) (hn : elem ∉ list.nodes xs) :
    wp (listPushFront list elem) (fun _ s' => s'.Whole (list.nodes (elem :: xs)) ∧ Within (elem :: list.nodes xs) s s')
      (fun _ => False) s := by
  obtain ⟨a, ha, hnext⟩ := Whole.listBegin h
  obtain ⟨v, hv⟩ := List.head?_eq_some_iff.1 ha
  have h' : s.Whole ([list.head] ++ a :: v) := by
    rw [← hv]
    exact h
  have hn' : elem ∉ [list.head] ++ a :: v := by
    rw [← hv]
    exact hn
  have hspec := listInsert_spec h' (List.cons_ne_nil _ _) hn'
  rw [← hv] at hspec
  rw [listPushFront, wp_bind, listBegin, wp_getNext hnext]
  exact hspec

/-- **`list_push_back`.** -/
theorem listPushBack_spec (h : s.Whole (list.nodes xs)) (hn : elem ∉ list.nodes xs) :
    wp (listPushBack list elem) (fun _ s' => s'.Whole (list.nodes (xs ++ [elem])) ∧ Within (elem :: list.nodes xs) s s')
      (fun _ => False) s := by
  have hsplit : s.Whole ((list.head :: xs) ++ list.tail :: []) := h
  have hspec := listInsert_spec hsplit (List.cons_ne_nil _ _) hn
  rw [listPushBack, listEnd, KList.nodes_append]
  exact hspec

/-- **`list_pop_front`.** -/
theorem listPopFront_spec (h : s.Whole (list.nodes (a :: xs))) :
    wp (listPopFront list) (fun r s' => r = a ∧ s'.Whole (list.nodes xs) ∧ Within (list.nodes (a :: xs)) s s') (fun _ => False) s := by
  have hnext : s.next list.head = some a := Links.Whole.next_eq (u := []) (v := xs ++ [list.tail]) h
  obtain ⟨b, v, hv⟩ := List.exists_cons_of_ne_nil (show xs ++ [list.tail] ≠ [] by simp)
  have h' : s.Whole ([list.head] ++ a :: b :: v) := by
    rw [← hv]
    exact h
  rw [listPopFront, wp_bind, listFront, wp_bind, wp_listEmpty h, wp_bind,
    wp_assert (show (!(a :: xs).isEmpty) = true from rfl), wp_getNext hnext, wp_bind]
  refine wp_post (listRemove_spec h' (List.cons_ne_nil _ _)) fun _ s' hpost => ?_
  obtain ⟨_, hw, hin⟩ := hpost
  rw [← hv] at hw hin
  exact ⟨rfl, hw, hin⟩

/-- **`list_pop_back`.** -/
theorem listPopBack_spec (h : s.Whole (list.nodes (xs ++ [a]))) :
    wp (listPopBack list) (fun r s' => r = a ∧ s'.Whole (list.nodes xs) ∧ Within (list.nodes (xs ++ [a])) s s') (fun _ => False) s := by
  have h' : s.Whole ((list.head :: xs) ++ a :: list.tail :: []) := by
    rw [KList.nodes_append] at h
    exact h
  have hempty : (xs ++ [a]).isEmpty = false := by simp
  rw [listPopBack, wp_bind, listBack, wp_bind, wp_listEmpty h, hempty, wp_bind, wp_assert (show (!false) = true from rfl),
    wp_getPrev h'.prev_eq, wp_bind]
  refine wp_post (listRemove_spec h' (List.cons_ne_nil _ _)) fun _ s' hpost => ?_
  obtain ⟨_, hw, hin⟩ := hpost
  refine ⟨rfl, hw, ?_⟩
  rw [KList.nodes_append]
  exact hin

/-! ### `list_reverse` -/

/-- The loop of `list_reverse`, when the elements `x` are done. -/
theorem reverseLoop_spec (h : s.Whole (list.nodes (x ++ y))) (ha : (y ++ [list.tail]).head? = some a) (hf : y.length < fuel) :
    wp (reverseLoop list fuel a) (fun _ s' => s' = s.turned (x ++ y)) (fun _ => False) (s.turned x) := by
  induction y generalizing x a fuel with
  | nil =>
    obtain ⟨fuel, rfl⟩ := Nat.exists_eq_succ_of_ne_zero (Nat.ne_zero_of_lt hf)
    obtain rfl : list.tail = a := Option.some.inj ha
    rw [reverseLoop, listEnd, if_pos rfl, wp_pure, List.append_nil]
  | cons e y ih =>
    obtain ⟨fuel, rfl⟩ := Nat.exists_eq_succ_of_ne_zero (Nat.ne_zero_of_lt hf)
    obtain rfl : e = a := Option.some.inj ha
    obtain ⟨b, v, hv⟩ := List.exists_cons_of_ne_nil (show y ++ [list.tail] ≠ [] by simp)
    have hsplit : s.Whole ((list.head :: x) ++ e :: b :: v) := by
      rw [← hv]
      simpa [KList.nodes] using h
    have hnd := (List.nodup_append.1 hsplit.nodup)
    have hex : e ∉ x := fun hex => hnd.2.2 e (List.mem_cons_of_mem _ hex) e List.mem_cons_self rfl
    have hne : e ≠ listEnd list := by
      rintro rfl
      refine (List.nodup_cons.1 hnd.2.1).1 ?_
      rw [← hv]
      exact List.mem_append_right _ (List.mem_singleton.2 rfl)
    rw [reverseLoop, if_neg hne, wp_bind, wp_modify, Links.turn_turned hex, wp_bind, wp_getPrev (a := b)]
    · have hw : s.Whole (list.nodes (x ++ [e] ++ y)) := by simpa using h
      have hloop := ih hw (by rw [hv]; rfl) (Nat.lt_of_succ_lt_succ hf)
      simpa using hloop
    · exact (if_pos (by simp)).trans hsplit.next_eq

/-- **`list_reverse`.** -/
theorem listReverse_spec (h : s.Whole (list.nodes xs)) (hf : xs.length < fuel) :
    wp (listReverse fuel list) (fun _ s' => s'.Whole (list.nodes xs.reverse) ∧ Within (list.nodes xs) s s') (fun _ => False) s := by
  rw [listReverse, wp_bind, wp_listEmpty h]
  cases hxs : xs with
  | nil =>
    subst hxs
    exact ⟨h, .refl _ s⟩
  | cons f rest =>
    rw [← hxs]
    have hempty : xs.isEmpty = false := by rw [hxs]; rfl
    obtain ⟨rest', l, hlast⟩ := (List.eq_nil_or_concat' xs).resolve_left (by rw [hxs]; exact List.cons_ne_nil _ _)
    have hhead : xs.head? = some f := by rw [hxs]; rfl
    have hget : xs.getLast? = some l := by rw [hlast]; simp
    have mf := List.mem_of_head? hhead
    have ml := List.mem_of_getLast? hget
    have hfront : s.Whole ([] ++ list.head :: f :: (rest ++ [list.tail])) := by
      rw [hxs] at h
      exact h
    have hback : s.Whole ((list.head :: rest') ++ l :: list.tail :: []) := by
      rw [hlast, KList.nodes_append] at h
      exact h
    obtain ⟨hnot, hnd⟩ := List.nodup_cons.1 h.nodup
    have hhx : ∀ c ∈ xs, c ≠ list.head := by
      rintro c hc rfl
      exact hnot (List.mem_append_left _ hc)
    have htx : ∀ c ∈ xs, c ≠ list.tail := fun c hc => (List.nodup_append.1 hnd).2.2 c hc _ (List.mem_singleton.2 rfl)
    have hht : list.head ≠ list.tail := by
      intro heq
      exact hnot (heq ▸ List.mem_append_right _ (List.mem_singleton.2 rfl))
    -- the links of the ends, when all the others have been swapped
    have hnextH : (s.turned xs).next list.head = some f := (if_neg fun hc => hhx _ hc rfl).trans hfront.next_eq
    have hprevT : (s.turned xs).prev list.tail = some l := (if_neg fun hc => htx _ hc rfl).trans hback.prev_eq
    have hnextF : (s.turned xs).next f = some list.head := (if_pos mf).trans hfront.prev_eq
    have hprevL : (s.turned xs).prev l = some list.tail := (if_pos ml).trans hback.next_eq
    have hloop := reverseLoop_spec (x := []) (y := xs) h (a := f) (by rw [hxs]; rfl) hf
    rw [Links.turned_nil, List.nil_append] at hloop
    rw [hempty, if_neg Bool.false_ne_true, wp_bind, listBegin, wp_getNext hfront.next_eq]
    refine wp_seq hloop (fun _ => id) fun _ s' hs' => ?_
    subst hs'
    rw [wp_bind, wp_gets, id, wp_bind, wp_modify, wp_bind, wp_modify, hprevT, hnextH, wp_bind,
      wp_getNext (b := l) (by simp), wp_bind, wp_getPrev (a := f) (by simp), wp_bind, wp_gets, id, wp_bind, wp_modify, wp_modify]
    have hstate : (((((s.turned xs).setNext list.head (some l)).setPrev list.tail (some f)).setPrev l
        ((((s.turned xs).setNext list.head (some l)).setPrev list.tail (some f)).next f)).setNext f
        ((((s.turned xs).setNext list.head (some l)).setPrev list.tail (some f)).prev l)) =
        (s.turned xs).close list.head list.tail f l := by
      rw [Links.close]
      simp [Function.update_of_ne (hhx f mf), Function.update_of_ne (htx l ml), hnextF, hprevL]
    rw [hstate]
    have hne : ∀ a ∈ list.nodes xs, ∀ c ∉ list.nodes xs, c ≠ a := by
      rintro a ha c hc rfl
      exact hc ha
    have mx : ∀ a ∈ xs, a ∈ list.nodes xs := fun a ha => List.mem_cons_of_mem _ (List.mem_append_left _ ha)
    refine ⟨h.reversed hhead hget, fun c hc => ?_⟩
    have hcx : c ∉ xs := fun hcx => hc (mx c hcx)
    constructor
    · exact (Links.close_next (hne f (mx f mf) c hc) (hne _ List.mem_cons_self c hc)).trans (if_neg hcx)
    · exact (Links.close_prev (hne l (mx l ml) c hc) (hne _ (by simp [KList.nodes]) c hc)).trans (if_neg hcx)

/-! ### `list_insert_ordered` -/

section

variable {less : ι → ι → Bool}

/-- The loop of `list_insert_ordered` passes the elements that `elem` is not less than. -/
theorem positionLoop_spec (h : s.Whole (u ++ (y ++ [list.tail]))) (ha : (y ++ [list.tail]).head? = some a) (hf : y.length < fuel) :
    wp (positionLoop less list elem fuel a)
      (fun r s' => (y.dropWhile (fun b => !less elem b) ++ [list.tail]).head? = some r ∧ s' = s) (fun _ => False) s := by
  induction y generalizing u a fuel with
  | nil =>
    obtain ⟨fuel, rfl⟩ := Nat.exists_eq_succ_of_ne_zero (Nat.ne_zero_of_lt hf)
    obtain rfl : list.tail = a := Option.some.inj ha
    rw [positionLoop, listEnd, if_pos rfl]
    exact ⟨rfl, rfl⟩
  | cons e y ih =>
    obtain ⟨fuel, rfl⟩ := Nat.exists_eq_succ_of_ne_zero (Nat.ne_zero_of_lt hf)
    obtain rfl : e = a := Option.some.inj ha
    have hnd := (List.nodup_append.1 h.nodup).2.1
    have hne : e ≠ listEnd list := by
      rintro rfl
      exact (List.nodup_cons.1 hnd).1 (List.mem_append_right _ (List.mem_singleton.2 rfl))
    rw [positionLoop, if_neg hne]
    cases hless : less elem e with
    | true =>
      rw [if_pos rfl, List.dropWhile_cons_of_neg (by simp [hless])]
      exact ⟨rfl, rfl⟩
    | false =>
      obtain ⟨b, v, hv⟩ := List.exists_cons_of_ne_nil (show y ++ [list.tail] ≠ [] by simp)
      have hnext : s.next e = some b := by
        rw [List.cons_append, hv] at h
        exact h.next_eq
      have hw : s.Whole (u ++ [e] ++ (y ++ [list.tail])) := by simpa using h
      rw [if_neg Bool.false_ne_true, wp_bind, wp_listNext hnext, List.dropWhile_cons_of_pos (by simp [hless])]
      exact ih hw (by rw [hv]; rfl) (Nat.lt_of_succ_lt_succ hf)

/-- **`list_insert_ordered`** puts an element before the first one that it is less than. -/
theorem listInsertOrdered_spec (h : s.Whole (list.nodes xs)) (hn : elem ∉ list.nodes xs) (hf : xs.length < fuel) :
    wp (listInsertOrdered less fuel list elem)
      (fun _ s' => s'.Whole (list.nodes (xs.takeWhile (fun b => !less elem b) ++ elem :: xs.dropWhile fun b => !less elem b)) ∧
        Within (elem :: list.nodes xs) s s') (fun _ => False) s := by
  obtain ⟨a, ha, hnext⟩ := Whole.listBegin h
  rw [listInsertOrdered, wp_bind, listBegin, wp_getNext hnext]
  refine wp_seq (positionLoop_spec (u := [list.head]) h ha hf) (fun _ => id) fun r s' hpost => ?_
  obtain ⟨hr, hs'⟩ := hpost
  subst hs'
  obtain ⟨v, hv⟩ := List.head?_eq_some_iff.1 hr
  have hsplit : list.nodes xs = (list.head :: xs.takeWhile fun b => !less elem b) ++ r :: v := by
    rw [← hv, ← KList.nodes_append, List.takeWhile_append_dropWhile]
  rw [hsplit] at h hn ⊢
  have hspec := listInsert_spec h (List.cons_ne_nil _ _) hn
  rw [← hv] at hspec
  rw [KList.nodes_append, ← hv]
  exact hspec

/-! ### `list_unique` -/

/-- The two elements are not equivalent. -/
def Differs (less : ι → ι → Bool) (a b : ι) : Prop := less a b = true ∨ less b a = true

instance differs_decidable (less : ι → ι → Bool) : DecidableRel (Differs less) := fun a b =>
  inferInstanceAs (Decidable (less a b = true ∨ less b a = true))

/-- Those of some elements that are equivalent to the last one before them that is not, if that is `a` at first. -/
def repeats (less : ι → ι → Bool) : ι → List ι → List ι
  | _, [] => []
  | a, b :: l => if Differs less a b then repeats less b l else b :: repeats less a l

/-- The elements of a list that are equivalent to the last one before them that is not. -/
def repeated (less : ι → ι → Bool) : List ι → List ι
  | [] => []
  | a :: l => repeats less a l

variable {duplicates : Option (KList ι)} {ds rest : List ι}

/-- A removed element is put behind the duplicates. -/
theorem pushDuplicate_spec (hd : ∀ d ∈ duplicates, s.Whole (d.nodes ds)) (hn : a ∉ duplicateNodes duplicates ds) :
    wp (pushDuplicate duplicates a)
      (fun _ s' => (∀ d ∈ duplicates, s'.Whole (d.nodes (ds ++ [a]))) ∧ Within (a :: duplicateNodes duplicates ds) s s')
      (fun _ => False) s := by
  cases duplicates with
  | none => exact ⟨fun d hd => (by cases hd), fun _ _ => ⟨rfl, rfl⟩⟩
  | some d =>
    refine wp_post (listPushBack_spec (hd d rfl) hn) fun _ s' hpost => ?_
    obtain ⟨hw, hin⟩ := hpost
    refine ⟨?_, hin⟩
    rintro _ ⟨⟩
    exact hw

/-- **The loop of `list_unique`**, after the elements `u` and with `elem` as the one that is compared. -/
theorem uniqueLoop_spec (h : s.Whole (u ++ (elem :: (rest ++ [list.tail])))) (hu : u ≠ [])
    (hd : ∀ d ∈ duplicates, s.Whole (d.nodes ds))
    (hdis : ∀ a ∈ duplicateNodes duplicates ds, a ∉ u ++ (elem :: (rest ++ [list.tail]))) (hf : rest.length < fuel) :
    wp (uniqueLoop less list duplicates fuel elem)
      (fun _ s' => s'.Whole (u ++ (List.destutter' (Differs less) elem rest ++ [list.tail])) ∧
        (∀ d ∈ duplicates, s'.Whole (d.nodes (ds ++ repeats less elem rest))) ∧
        Within (u ++ (elem :: (rest ++ [list.tail])) ++ duplicateNodes duplicates ds) s s') (fun _ => False) s := by
  induction rest generalizing s u elem ds fuel with
  | nil =>
    obtain ⟨fuel, rfl⟩ := Nat.exists_eq_succ_of_ne_zero (Nat.ne_zero_of_lt hf)
    rw [uniqueLoop, wp_bind, wp_listNext h.next_eq, listEnd, if_pos rfl, repeats, List.append_nil]
    exact ⟨h, hd, .refl _ s⟩
  | cons b rest ih =>
    obtain ⟨fuel, rfl⟩ := Nat.exists_eq_succ_of_ne_zero (Nat.ne_zero_of_lt hf)
    have hf' := Nat.lt_of_succ_lt_succ hf
    obtain ⟨c, v, hv⟩ := List.exists_cons_of_ne_nil (show rest ++ [list.tail] ≠ [] by simp)
    have hw : s.Whole (u ++ [elem] ++ b :: (rest ++ [list.tail])) := by simpa using h
    have hb := (List.nodup_cons.1 (List.nodup_append.1 hw.nodup).2.1).1
    have hbu : b ∉ u ++ [elem] := fun hmem => (List.nodup_append.1 hw.nodup).2.2 b hmem b List.mem_cons_self rfl
    have hne : b ≠ listEnd list := by
      rintro rfl
      exact hb (List.mem_append_right _ (List.mem_singleton.2 rfl))
    rw [List.cons_append] at h
    rw [uniqueLoop, wp_bind, wp_listNext h.next_eq, if_neg hne]
    by_cases hdiff : Differs less elem b
    · have hcond : ¬ ((!less elem b && !less b elem) = true) := by
        rcases hdiff with hl | hl <;> simp [hl]
      rw [if_neg hcond, List.destutter', if_pos hdiff, repeats, if_pos hdiff]
      have hdis' : ∀ a ∈ duplicateNodes duplicates ds, a ∉ u ++ [elem] ++ b :: (rest ++ [list.tail]) := by
        simpa using hdis
      refine wp_post (ih hw (by simp) hd hdis' hf') fun _ s' hpost => ?_
      obtain ⟨hw', hd', hin⟩ := hpost
      exact ⟨by simpa using hw', hd', by simpa using hin⟩
    · have hcond : (!less elem b && !less b elem) = true := by
        unfold Differs at hdiff
        simpa using hdiff
      rw [if_pos hcond, List.destutter', if_neg hdiff, repeats, if_neg hdiff, wp_bind]
      rw [hv] at hw
      refine wp_post (listRemove_spec hw (by simp)) fun _ s₁ hpost => ?_
      obtain ⟨_, hw₁, hin₁⟩ := hpost
      rw [← hv] at hw₁ hin₁ hw
      have hdn : ∀ a ∈ duplicateNodes duplicates ds, a ∉ u ++ [elem] ++ b :: (rest ++ [list.tail]) := by simpa using hdis
      have hd₁ : ∀ d ∈ duplicates, s₁.Whole (d.nodes ds) := by
        rintro d ⟨⟩
        exact hin₁.frame (hd d rfl) hdn
      have hbn : b ∉ duplicateNodes duplicates ds := fun hmem => hdn b hmem (by simp)
      rw [wp_bind]
      refine wp_post (pushDuplicate_spec hd₁ hbn) fun _ s₂ hpost => ?_
      obtain ⟨hd₂, hin₂⟩ := hpost
      have hw₂ : s₂.Whole (u ++ (elem :: (rest ++ [list.tail]))) := by
        have hsame : u ++ [elem] ++ (rest ++ [list.tail]) = u ++ (elem :: (rest ++ [list.tail])) := by simp
        rw [← hsame]
        refine hin₂.frame hw₁ fun a ha hmem => ?_
        rcases List.mem_cons.1 hmem with rfl | hmem
        · rcases List.mem_append.1 ha with hau | har
          · exact hbu hau
          · exact hb har
        · refine hdn a hmem ?_
          rcases List.mem_append.1 ha with hau | har
          · exact List.mem_append_left _ hau
          · exact List.mem_append_right _ (List.mem_cons_of_mem b har)
      have hdis₂ : ∀ a ∈ duplicateNodes duplicates (ds ++ [b]), a ∉ u ++ (elem :: (rest ++ [list.tail])) := by
        intro a ha hmem
        rcases mem_duplicateNodes ha with rfl | ha
        · simp only [List.mem_append, List.mem_cons] at hmem hbu hb
          grind
        · refine hdis a ha ?_
          simp only [List.mem_append, List.mem_cons] at hmem ⊢
          grind
      refine wp_post (ih hw₂ hu hd₂ hdis₂ hf') fun _ s' hpost => ?_
      obtain ⟨hw', hd', hin'⟩ := hpost
      refine ⟨hw', by simpa using hd', ?_⟩
      have hall₁ : Within (u ++ (elem :: (b :: rest ++ [list.tail])) ++ duplicateNodes duplicates ds) s s₁ :=
        hin₁.mono fun a ha => by
          simp only [List.mem_append, List.mem_cons] at ha ⊢
          grind
      refine (hall₁.trans hin₂ fun a ha => ?_).trans hin' fun a ha => ?_
      · simp only [List.mem_append, List.mem_cons] at ha ⊢
        grind
      · rcases List.mem_append.1 ha with ha | ha
        · simp only [List.mem_append, List.mem_cons] at ha ⊢
          grind
        · rcases mem_duplicateNodes ha with rfl | ha
          · simp
          · exact List.mem_append_right _ ha

/-- **`list_unique`** keeps the first of adjacent equivalent elements; the others become duplicates. -/
theorem listUnique_spec (h : s.Whole (list.nodes xs)) (hd : ∀ d ∈ duplicates, s.Whole (d.nodes ds))
    (hdis : ∀ a ∈ duplicateNodes duplicates ds, a ∉ list.nodes xs) (hf : xs.length ≤ fuel) :
    wp (listUnique less fuel list duplicates)
      (fun _ s' => s'.Whole (list.nodes (xs.destutter (Differs less))) ∧
        (∀ d ∈ duplicates, s'.Whole (d.nodes (ds ++ repeated less xs))) ∧
        Within (list.nodes xs ++ duplicateNodes duplicates ds) s s') (fun _ => False) s := by
  rw [listUnique, wp_bind, wp_listEmpty h]
  cases xs with
  | nil =>
    rw [repeated, List.append_nil]
    exact ⟨h, hd, .refl _ s⟩
  | cons a xs =>
    have hnext : s.next list.head = some a := Links.Whole.next_eq (u := []) (v := xs ++ [list.tail]) h
    rw [List.isEmpty_cons, if_neg Bool.false_ne_true, wp_bind, listBegin, wp_getNext hnext, List.destutter]
    exact uniqueLoop_spec (u := [list.head]) h (List.cons_ne_nil _ _) hd hdis hf

end

end Pintos.LinkedList
