import Pintos.Library.Links
import Pintos.Library.NaturalMerge
import Pintos.Library.Prog

/-!
# Lists

`lib/kernel/list.c`: going through a list, `list_splice`, and `list_sort` with what it
calls. A list has two elements of its own, its head and its tail, around the others. A
`struct list_elem *` is a node, or `none` for a null pointer; where the source asserts
that an argument is not null, it is a node here.

Loops run for at most `fuel` turns (`Fault.fuel`).
-/

namespace Pintos.LinkedList

open Library Library.Prog

/-- `struct list`: the two elements of its own. -/
structure KList (ι : Type) where
  head : ι
  tail : ι

/-- The ways in which a call goes wrong. -/
inductive Fault where
  /-- A failed assertion. -/
  | assertion
  /-- A null pointer is followed. -/
  | null
  /-- A loop has not ended. -/
  | fuel
  deriving DecidableEq

/-- Programs over the elements. -/
abbrev ListM (ι : Type) := Prog (Links ι) Fault

variable {ι : Type}

/-! ### Going through a list -/

/-- `is_head`. -/
def isHead (s : Links ι) (elem : ι) : Bool := (s.prev elem).isNone && (s.next elem).isSome

/-- `is_interior`. -/
def isInterior (s : Links ι) (elem : ι) : Bool := (s.prev elem).isSome && (s.next elem).isSome

/-- `is_tail`. -/
def isTail (s : Links ι) (elem : ι) : Bool := (s.prev elem).isSome && (s.next elem).isNone

/-- `ASSERT`. -/
def assert (c : Bool) : ListM ι Unit := if c then pure () else stop .assertion

/-- `elem->next`, which is followed. -/
def getNext (elem : ι) : ListM ι ι := do
  let s ← gets id
  orStop (s.next elem) .null

/-- `elem->prev`, which is followed. -/
def getPrev (elem : ι) : ListM ι ι := do
  let s ← gets id
  orStop (s.prev elem) .null

/-- `list_begin`. -/
def listBegin (list : KList ι) : ListM ι ι := getNext list.head

/-- `list_end`. -/
def listEnd (list : KList ι) : ι := list.tail

/-- `list_next`. -/
def listNext (elem : ι) : ListM ι ι := do
  let s ← gets id
  assert (isHead s elem || isInterior s elem)
  getNext elem

/-- `list_prev`. -/
def listPrev (elem : ι) : ListM ι ι := do
  let s ← gets id
  assert (isInterior s elem || isTail s elem)
  getPrev elem

section

variable {s : Links ι} {a b : ι}

theorem wp_assert {c : Bool} {Q : Unit → Links ι → Prop} {E : Fault → Prop} (hc : c = true) :
    wp (assert c) Q E s ↔ Q () s := by
  rw [assert, if_pos hc]
  exact Iff.rfl

theorem wp_getNext {Q : ι → Links ι → Prop} {E : Fault → Prop} (h : s.next a = some b) : wp (getNext a) Q E s ↔ Q b s := by
  rw [getNext, wp_bind, wp_gets, id, h]
  exact Iff.rfl

theorem wp_getPrev {Q : ι → Links ι → Prop} {E : Fault → Prop} (h : s.prev b = some a) : wp (getPrev b) Q E s ↔ Q a s := by
  rw [getPrev, wp_bind, wp_gets, id, h]
  exact Iff.rfl

/-- An element with another one after it is a head or an interior element. -/
theorem wp_listNext {Q : ι → Links ι → Prop} {E : Fault → Prop} (h : s.next a = some b) : wp (listNext a) Q E s ↔ Q b s := by
  have hcheck : (isHead s a || isInterior s a) = true := by
    unfold isHead isInterior
    rw [h]
    cases s.prev a <;> rfl
  rw [listNext, wp_bind, wp_gets, wp_bind, id, wp_assert hcheck, wp_getNext h]

/-- One with another one before it is an interior element or a tail. -/
theorem wp_listPrev {Q : ι → Links ι → Prop} {E : Fault → Prop} (h : s.prev b = some a) : wp (listPrev b) Q E s ↔ Q a s := by
  have hcheck : (isInterior s b || isTail s b) = true := by
    unfold isInterior isTail
    rw [h]
    cases s.next b <;> rfl
  rw [listPrev, wp_bind, wp_gets, wp_bind, id, wp_assert hcheck, wp_getPrev h]

end

variable [DecidableEq ι]

/-! ### `list_splice` -/

/-- The assignments of `list_splice`. -/
def spliceLinks (before first last : ι) : ListM ι Unit := do
  -- cleanly remove `first`...`last` from its current list
  let p ← getPrev first
  let n ← getNext last
  modify (Links.setNext p (some n))
  let n ← getNext last
  let p ← getPrev first
  modify (Links.setPrev n (some p))
  -- splice `first`...`last` into new list
  let p ← getPrev before
  modify (Links.setPrev first (some p))
  modify (Links.setNext last (some before))
  let p ← getPrev before
  modify (Links.setNext p (some first))
  modify (Links.setPrev before (some last))

/-- `list_splice`. -/
def listSplice (before first last : ι) : ListM ι Unit := do
  let s ← gets id
  assert (isInterior s before || isTail s before)
  if first = last then pure ()
  else do
    let last ← listPrev last
    assert (isInterior s first)
    assert (isInterior s last)
    spliceLinks before first last

/-! ### `list_sort` -/

section

variable (less : ι → ι → Bool)

/-- The loop of `is_sorted`. -/
def isSortedLoop (b : ι) : ℕ → ι → ListM ι Bool
  | 0, _ => stop .fuel
  | n + 1, a => do
    let a ← listNext a
    if a = b then pure true
    else do
      let p ← listPrev a
      if less a p then pure false else isSortedLoop b n a

/-- `is_sorted`. -/
def isSorted (fuel : ℕ) (a b : ι) : ListM ι Bool := if a ≠ b then isSortedLoop less b fuel a else pure true

/-- The loop of `find_end_of_run`. -/
def findEndLoop (b : ι) : ℕ → ι → ListM ι ι
  | 0, _ => stop .fuel
  | n + 1, a => do
    let a ← listNext a
    if a = b then pure a
    else do
      let p ← listPrev a
      if less a p then pure a else findEndLoop b n a

/-- `find_end_of_run`. -/
def findEndOfRun (fuel : ℕ) (a b : ι) : ListM ι ι := do
  assert (decide (a ≠ b))
  findEndLoop less b fuel a

/-- The loop of `inplace_merge`. -/
def mergeLoop (b1 : ι) : ℕ → ι → ι → ListM ι Unit
  | 0, _, _ => stop .fuel
  | n + 1, a0, a1b0 =>
    if a0 ≠ a1b0 ∧ a1b0 ≠ b1 then
      if !less a1b0 a0 then do
        let a0 ← listNext a0
        mergeLoop b1 n a0 a1b0
      else do
        let a1b0 ← listNext a1b0
        let p ← listPrev a1b0
        listSplice a0 p a1b0
        mergeLoop b1 n a0 a1b0
    else pure ()

/-- `inplace_merge`. -/
def inplaceMerge (fuel : ℕ) (a0 a1b0 b1 : ι) : ListM ι Unit := do
  let sorted ← isSorted less fuel a0 a1b0
  assert sorted
  let sorted ← isSorted less fuel a1b0 b1
  assert sorted
  mergeLoop less b1 fuel a0 a1b0

/-- The inner loop of `list_sort`, which returns `output_run_cnt`. -/
def passLoop (list : KList ι) (fuel : ℕ) : ℕ → ι → ℕ → ListM ι ℕ
  | 0, _, _ => stop .fuel
  | n + 1, a0, outputRunCnt =>
    if a0 = listEnd list then pure outputRunCnt
    else do
      let a1b0 ← findEndOfRun less fuel a0 (listEnd list)
      if a1b0 = listEnd list then pure (outputRunCnt + 1)
      else do
        let b1 ← findEndOfRun less fuel a1b0 (listEnd list)
        inplaceMerge less fuel a0 a1b0 b1
        passLoop list fuel n b1 (outputRunCnt + 1)

/-- The outer loop of `list_sort`. -/
def sortLoop (list : KList ι) (fuel : ℕ) : ℕ → ListM ι Unit
  | 0 => stop .fuel
  | n + 1 => do
    let a0 ← listBegin list
    let outputRunCnt ← passLoop less list fuel fuel a0 0
    if 1 < outputRunCnt then sortLoop list fuel n else pure ()

/-- `list_sort`. -/
def listSort (fuel : ℕ) (list : KList ι) : ListM ι Unit := do
  sortLoop less list fuel fuel
  let a ← listBegin list
  let sorted ← isSorted less fuel a (listEnd list)
  assert sorted

end

end Pintos.LinkedList
