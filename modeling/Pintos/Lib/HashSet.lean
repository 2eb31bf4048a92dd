import Mathlib.Data.Finset.Card
import Mathlib.Order.Defs.Unbundled
import Pintos.Lib.Hash

/-!
# Hash tables as sets

A hash table is a finite set in which no two elements are equivalent, for any
functions `hash` and `less` that are consistent: `less` is a strict weak order,
and elements of which neither is less than the other hash equally.

The classes of equivalent elements serve as keys. They are ordered by `less`, so
that what is known of tables with keys in an order applies to them.
-/

namespace Pintos

/-- The functions of a table are consistent with each other. -/
structure Consistent {α : Type} (F : Hasher α) : Prop where
  order : IsStrictWeakOrder α fun x y => F.less x y = true
  hash : ∀ x y, F.less x y = false → F.less y x = false → F.hash x = F.hash y

namespace Consistent

variable {α : Type} {F : Hasher α}

/-- Neither of two elements is less than the other. -/
def Equiv (F : Hasher α) (x y : α) : Prop := F.less x y = false ∧ F.less y x = false

instance (x y : α) : Decidable (Equiv F x y) := inferInstanceAs (Decidable (_ ∧ _))

theorem refl (hF : Consistent F) (x : α) : Equiv F x x := by
  have hirr := hF.order.irrefl x
  rw [Bool.not_eq_true] at hirr
  exact ⟨hirr, hirr⟩

theorem symm {x y : α} (h : Equiv F x y) : Equiv F y x := ⟨h.2, h.1⟩

theorem trans (hF : Consistent F) {x y z : α} (h : Equiv F x y) (h' : Equiv F y z) : Equiv F x z := by
  have hincomp := hF.order.incomp_trans x y z
  simp only [Bool.not_eq_true] at hincomp
  exact hincomp h h'

/-- What is equivalent to a lesser element is less. -/
theorem less_of_left (hF : Consistent F) {x y z : α} (h : Equiv F x y) (hlt : F.less y z = true) : F.less x z = true := by
  by_contra hnot
  rw [Bool.not_eq_true] at hnot
  cases hgt : F.less z x with
  | false =>
    -- then `x`, and with it `y`, is equivalent to `z`
    have hyz := (trans hF (symm h) ⟨hnot, hgt⟩).1
    rw [hlt] at hyz
    cases hyz
  | true =>
    have hyx : F.less y x = true := hF.order.trans y z x hlt hgt
    rw [h.2] at hyx
    cases hyx

theorem less_of_right (hF : Consistent F) {x y z : α} (h : Equiv F y z) (hlt : F.less x y = true) : F.less x z = true := by
  by_contra hnot
  rw [Bool.not_eq_true] at hnot
  cases hgt : F.less z x with
  | false =>
    have hxy := (trans hF ⟨hnot, hgt⟩ (symm h)).1
    rw [hlt] at hxy
    cases hxy
  | true =>
    have hzy : F.less z y = true := hF.order.trans z x y hgt hlt
    rw [h.2] at hzy
    cases hzy

theorem less_congr (hF : Consistent F) {x x' y y' : α} (hx : Equiv F x x') (hy : Equiv F y y') : F.less x y = F.less x' y' := by
  rw [Bool.eq_iff_iff]
  constructor
  · intro hlt
    exact less_of_left hF (symm hx) (less_of_right hF hy hlt)
  · intro hlt
    exact less_of_left hF hx (less_of_right hF (symm hy) hlt)

/-- Equivalence of elements. -/
def setoid (hF : Consistent F) : Setoid α := ⟨Equiv F, hF.refl, symm, hF.trans⟩

/-- The classes of equivalent elements. -/
abbrev Class (hF : Consistent F) : Type := Quotient hF.setoid

/-- The class of an element. -/
def cls (hF : Consistent F) (x : α) : hF.Class := Quotient.mk hF.setoid x

/-- The functions of the table, on classes. -/
def classes (hF : Consistent F) : Hasher hF.Class where
  hash := Quotient.lift F.hash fun x y h => hF.hash x y h.1 h.2
  less := Quotient.lift₂ F.less fun _ _ _ _ hx hy => hF.less_congr hx hy

theorem cls_eq_iff (hF : Consistent F) {x y : α} : hF.cls x = hF.cls y ↔ Equiv F x y := by
  constructor
  · exact fun h => Quotient.exact h
  · exact fun h => Quotient.sound h

theorem lawful (hF : Consistent F) : Hash.Lawful hF.classes := by
  constructor
  · intro k
    induction k using Quotient.ind with
    | _ x => exact (hF.refl x).1
  · intro k l
    induction k using Quotient.ind with
    | _ x =>
      induction l using Quotient.ind with
      | _ y => exact fun hlt hgt => hF.cls_eq_iff.2 ⟨hlt, hgt⟩

end Consistent

namespace Hash

open Consistent

variable {α : Type} [DecidableEq α]

/-! ### The operations -/

/-- The operations on a table. -/
inductive HashOp (α : Type) where
  /-- `hash_insert`. -/
  | insert (new : α)
  /-- `hash_replace`. -/
  | replace (new : α)
  /-- `hash_find`. -/
  | find (e : α)
  /-- `hash_delete`. -/
  | delete (e : α)
  /-- `hash_clear`. -/
  | clear

/-- What an operation returns, and the table after it; `room` says whether there is memory for other buckets. -/
def HashOp.run (F : Hasher α) (room : Bool) (h : Hash α) : HashOp α → Option α × Hash α
  | .insert new => hashInsert F id room h new
  | .replace new => hashReplace F id room h new
  | .find e => (hashFind F id h e, h)
  | .delete e => hashDelete F id room h e
  | .clear => (none, h.hashClear)

/-- The table after a sequence of operations. -/
def runs (F : Hasher α) (l : List (HashOp α × Bool)) (h : Hash α) : Hash α :=
  l.foldl (fun h op => (op.1.run F op.2 h).2) h

/-- The set after an operation. -/
def HashOp.apply (F : Hasher α) (S : Finset α) : HashOp α → Finset α
  | .insert new => if ∃ x ∈ S, Equiv F x new then S else Insert.insert new S
  | .replace new => Insert.insert new (S.filter fun x => ¬ Equiv F x new)
  | .find _ => S
  | .delete e => S.filter fun x => ¬ Equiv F x e
  | .clear => ∅

/-- What an operation returns for the set `S`: the stored element that is equivalent to its argument, if there is one. -/
def HashOp.Returns (F : Hasher α) (S : Finset α) (r : Option α) : HashOp α → Prop
  | .insert e | .replace e | .find e | .delete e => ∀ x, r = some x ↔ x ∈ S ∧ Equiv F x e
  | .clear => r = none

/-- The set after a sequence of operations. -/
def setRuns (F : Hasher α) (l : List (HashOp α × Bool)) (S : Finset α) : Finset α :=
  l.foldl (fun S op => op.1.apply F S) S

/-- **The table `h` is the set `S`.** -/
structure IsSet (F : Hasher α) (h : Hash α) (S : Finset α) : Prop where
  nodup : h.elems.Nodup
  mem : ∀ x, x ∈ h.elems ↔ x ∈ S
  inequivalent : ∀ x ∈ S, ∀ y ∈ S, Equiv F x y → x = y
  elemCnt : h.elemCnt = S.card
  bucketCnt : Nat.isPowerOfTwo h.buckets.length
  placed : ∀ i, ∀ e ∈ h.buckets.getD i [], F.hash e &&& (h.buckets.length - 1) = i

/-! ### The number of buckets -/

theorem isPowerOf2_iff {x : ℕ} : isPowerOf2 x = true ↔ Nat.isPowerOfTwo x := by
  rw [isPowerOf2, Bool.and_eq_true, decide_eq_true_eq, decide_eq_true_eq]
  exact Nat.ne_zero_and_sub_one_eq_zero_iff_isPowerOfTwo

/-- The loop ends at a power of 2: every turn makes the number less. -/
theorem toPowerOf2_spec (n : ℕ) {x : ℕ} (hx : 0 < x) (hn : x ≤ n) : Nat.isPowerOfTwo (toPowerOf2 n x) := by
  induction n generalizing x with
  | zero => omega
  | succ n ih =>
    rw [toPowerOf2]
    split_ifs with hpow
    · exact isPowerOf2_iff.1 hpow
    · have hle : turnOffLeast1bit x ≤ x - 1 := Nat.and_le_right
      have hpos : 0 < turnOffLeast1bit x := by
        rw [isPowerOf2, Bool.and_eq_true, decide_eq_true_eq, decide_eq_true_eq] at hpow
        exact Nat.pos_of_ne_zero fun h0 => hpow ⟨Nat.ne_of_gt hx, h0⟩
      exact ih hpos (by omega)

theorem newBucketCnt_pow (n : ℕ) : Nat.isPowerOfTwo (newBucketCnt n) := toPowerOf2_spec _ (by omega) le_rfl

section Power

variable {κ : Type} {F : Hasher κ} {key : α → κ} {h : Hash α}

omit [DecidableEq α] in
theorem rehash_pow (room : Bool) (hp : Nat.isPowerOfTwo h.buckets.length) :
    Nat.isPowerOfTwo (rehash F key room h).buckets.length := by
  have hlen : ∀ (l : List α) (b : List (List α)), (l.foldl (push F key) b).length = b.length := by
    intro l
    induction l with
    | nil => exact fun _ => rfl
    | cons e l ih => exact fun b => (ih _).trans (length_push b e)
  rw [rehash]
  split_ifs
  · exact hp
  · rw [hlen, List.length_replicate]
    exact newBucketCnt_pow _
  · exact hp

omit [DecidableEq α] in
theorem hashInsert_pow (room : Bool) (new : α) (hp : Nat.isPowerOfTwo h.buckets.length) :
    Nat.isPowerOfTwo (hashInsert F key room h new).2.buckets.length := by
  refine rehash_pow room ?_
  split_ifs
  · exact hp
  · rw [length_push]
    exact hp

theorem removeElem_length (h : Hash α) (e : α) : (removeElem F key h e).buckets.length = h.buckets.length :=
  List.length_modify ..

theorem hashReplace_pow (room : Bool) (new : α) (hp : Nat.isPowerOfTwo h.buckets.length) :
    Nat.isPowerOfTwo (hashReplace F key room h new).2.buckets.length := by
  refine rehash_pow room ?_
  rw [length_push]
  cases hashFind F key h (key new) with
  | none => exact hp
  | some old =>
    change Nat.isPowerOfTwo (removeElem F key h old).buckets.length
    rw [removeElem_length]
    exact hp

theorem hashDelete_pow (room : Bool) (k : κ) (hp : Nat.isPowerOfTwo h.buckets.length) :
    Nat.isPowerOfTwo (hashDelete F key room h k).2.buckets.length := by
  rw [hashDelete]
  cases hashFind F key h k with
  | none => exact hp
  | some e =>
    refine rehash_pow room ?_
    rw [removeElem_length]
    exact hp

end Power

/-! ### Refinement -/

section Refinement

variable {F : Hasher α} {h : Hash α} {S : Finset α} {x e : α}

/-- The table `h`, with classes for keys, has the elements `S`. -/
structure Holds (hF : Consistent F) (h : Hash α) (S : Finset α) : Prop where
  wf : Wf hF.classes hF.cls h
  pow : Nat.isPowerOfTwo h.buckets.length
  mem : ∀ x, x ∈ h.elems ↔ x ∈ S

variable {hF : Consistent F}

omit [DecidableEq α] in
theorem Holds.init : Holds hF (Hash.init : Hash α) ∅ := by
  have hempty : (Hash.init : Hash α).elems = [] := flatten_replicate_nil 4
  refine ⟨⟨Nat.succ_pos 3, placed_replicate 4, ?_, ?_⟩, ⟨2, rfl⟩, fun x => ?_⟩
  · rw [hempty]
    exact List.nodup_nil
  · rw [hempty]
    rfl
  · rw [hempty]
    simp

theorem Holds.isSet (hh : Holds hF h S) : IsSet F h S := by
  have hnodup : h.elems.Nodup := .of_map _ hh.wf.nodup
  refine ⟨hnodup, hh.mem, fun x hx y hy hxy => ?_, ?_, hh.pow, hh.wf.placed⟩
  · exact hh.wf.key_inj ((hh.mem x).2 hx) ((hh.mem y).2 hy) (hF.cls_eq_iff.2 hxy)
  · have hS : h.elems.toFinset = S := by
      ext x
      rw [List.mem_toFinset]
      exact hh.mem x
    rw [hh.wf.elemCnt, ← hS, List.toFinset_card_of_nodup hnodup]

omit [DecidableEq α] in
/-- **`hash_find`** returns the stored element that is equivalent to its argument. -/
theorem Holds.find (hh : Holds hF h S) : hashFind F id h e = some x ↔ x ∈ S ∧ Equiv F x e := by
  have hfind := hh.wf.hashFind_eq_some hF.lawful (k := hF.cls e) (e := x)
  rw [hh.mem, hF.cls_eq_iff] at hfind
  exact hfind

omit [DecidableEq α] in
theorem Holds.find_none (hh : Holds hF h S) : hashFind F id h e = none ↔ ∀ x ∈ S, ¬ Equiv F x e := by
  rw [Option.eq_none_iff_forall_ne_some]
  constructor
  · intro hno x hx hxe
    exact hno x (hh.find.2 ⟨hx, hxe⟩)
  · intro hno x hfind
    obtain ⟨hx, hxe⟩ := hh.find.1 hfind
    exact hno x hx hxe

/-- The one element that is equivalent to `e` goes. -/
theorem Holds.mem_erase (hh : Holds hF h S) (hx : x ∈ S) (hxe : Equiv F x e) (y : α) :
    y ∈ h.elems.erase x ↔ y ∈ S.filter fun z => ¬ Equiv F z e := by
  have hset := hh.isSet
  rw [hset.nodup.mem_erase_iff, hset.mem, Finset.mem_filter]
  constructor
  · rintro ⟨hne, hy⟩
    exact ⟨hy, fun hye => hne (hset.inequivalent y hy x hx (hF.trans hye (symm hxe)))⟩
  · rintro ⟨hy, hnot⟩
    refine ⟨?_, hy⟩
    rintro rfl
    exact hnot hxe

theorem Holds.insert (hh : Holds hF h S) (room : Bool) (new : α) :
    Holds hF (hashInsert F id room h new).2 ((HashOp.insert new).apply F S) := by
  have hpow : Nat.isPowerOfTwo (hashInsert F id room h new).2.buckets.length := hashInsert_pow room new hh.pow
  rw [HashOp.apply]
  by_cases hold : ∃ x ∈ S, Equiv F x new
  · obtain ⟨x, hx, hxe⟩ := hold
    rw [if_pos ⟨x, hx, hxe⟩]
    obtain ⟨hw, hperm⟩ := hh.wf.hashInsert_old hF.lawful room ((hh.mem x).2 hx) (hF.cls_eq_iff.2 hxe)
    exact ⟨hw, hpow, fun y => hperm.mem_iff.trans (hh.mem y)⟩
  · rw [if_neg hold]
    obtain ⟨hw, hperm⟩ := hh.wf.hashInsert_new hF.lawful room fun x hx (hk : hF.cls x = hF.cls new) =>
      hold ⟨x, (hh.mem x).1 hx, hF.cls_eq_iff.1 hk⟩
    refine ⟨hw, hpow, fun y => hperm.mem_iff.trans ?_⟩
    rw [List.mem_cons, Finset.mem_insert, hh.mem]

theorem Holds.replace (hh : Holds hF h S) (room : Bool) (new : α) :
    Holds hF (hashReplace F id room h new).2 ((HashOp.replace new).apply F S) := by
  have hpow : Nat.isPowerOfTwo (hashReplace F id room h new).2.buckets.length := hashReplace_pow room new hh.pow
  by_cases hold : ∃ x ∈ S, Equiv F x new
  · obtain ⟨x, hx, hxe⟩ := hold
    obtain ⟨hw, hperm⟩ := hh.wf.hashReplace_old hF.lawful room ((hh.mem x).2 hx) (hF.cls_eq_iff.2 hxe)
    refine ⟨hw, hpow, fun y => hperm.mem_iff.trans ?_⟩
    rw [List.mem_cons, hh.mem_erase hx hxe, HashOp.apply, Finset.mem_insert]
  · obtain ⟨hw, hperm⟩ := hh.wf.hashReplace_new hF.lawful room fun x hx (hk : hF.cls x = hF.cls new) =>
      hold ⟨x, (hh.mem x).1 hx, hF.cls_eq_iff.1 hk⟩
    have hall : S.filter (fun x => ¬ Equiv F x new) = S :=
      Finset.filter_true_of_mem fun x hx hxe => hold ⟨x, hx, hxe⟩
    refine ⟨hw, hpow, fun y => hperm.mem_iff.trans ?_⟩
    rw [List.mem_cons, hh.mem, HashOp.apply, hall, Finset.mem_insert]

theorem Holds.delete (hh : Holds hF h S) (room : Bool) (e : α) :
    Holds hF (hashDelete F id room h e).2 ((HashOp.delete e).apply F S) := by
  have hpow : Nat.isPowerOfTwo (hashDelete F id room h e).2.buckets.length := hashDelete_pow room e hh.pow
  by_cases hold : ∃ x ∈ S, Equiv F x e
  · obtain ⟨x, hx, hxe⟩ := hold
    have hcls : hF.cls x = hF.cls e := hF.cls_eq_iff.2 hxe
    have heq := hh.wf.hashDelete_eq hF.lawful room ((hh.mem x).2 hx)
    have hperm := hh.wf.hashDelete_perm hF.lawful room ((hh.mem x).2 hx)
    have hw := ((hh.wf.removeElem ((hh.mem x).2 hx)).rehash room).1
    rw [← heq] at hw
    rw [hcls] at hw hperm
    exact ⟨hw, hpow, fun y => hperm.mem_iff.trans (hh.mem_erase hx hxe y)⟩
  · have hnone : hashFind F id h e = none := hh.find_none.2 fun x hx hxe => hold ⟨x, hx, hxe⟩
    have hall : S.filter (fun x => ¬ Equiv F x e) = S :=
      Finset.filter_true_of_mem fun x hx hxe => hold ⟨x, hx, hxe⟩
    rw [HashOp.apply, hall, hashDelete, hnone]
    exact hh

/-- **One operation** does to the table what it does to the set. -/
theorem Holds.run (hh : Holds hF h S) (room : Bool) (op : HashOp α) : Holds hF (op.run F room h).2 (op.apply F S) := by
  cases op with
  | insert new => exact hh.insert room new
  | replace new => exact hh.replace room new
  | find e => exact hh
  | delete e => exact hh.delete room e
  | clear =>
    obtain ⟨hw, hempty⟩ := hh.wf.hashClear
    refine ⟨hw, ?_, fun x => ?_⟩
    · rw [HashOp.run, hashClear, List.length_replicate]
      exact hh.pow
    · rw [HashOp.run, hempty, HashOp.apply]
      simp

/-- **Every operation** answers as the set does. -/
theorem Holds.returns (hh : Holds hF h S) (room : Bool) (op : HashOp α) : op.Returns F S (op.run F room h).1 := by
  cases op with
  | insert new => exact fun x => hh.find
  | replace new => exact fun x => hh.find
  | find e => exact fun x => hh.find
  | delete e =>
    intro x
    rw [HashOp.run, hashDelete, ← hh.find]
    cases hashFind F id h e <;> rfl
  | clear => rfl

/-- The table and the set, after the same sequence of operations. -/
theorem Holds.runs (l : List (HashOp α × Bool)) (hh : Holds hF h S) : Holds hF (runs F l h) (setRuns F l S) := by
  induction l generalizing h S with
  | nil => exact hh
  | cons op l ih => exact ih (hh.run op.2 op.1)

/-- **Hash tables refine sets.** After every sequence of operations, with or without memory for other buckets at each
of them, the table is the set that the same operations make of the empty one; every further operation returns what
the set does, and `rehash` keeps the elements. -/
theorem hash_refines_set (hF : Consistent F) (l : List (HashOp α × Bool)) :
    IsSet F (Hash.runs F l Hash.init) (setRuns F l ∅) ∧
      (∀ op room, HashOp.Returns F (setRuns F l ∅) (HashOp.run F room (Hash.runs F l Hash.init) op).1 op ∧
        IsSet F (HashOp.run F room (Hash.runs F l Hash.init) op).2 (HashOp.apply F (setRuns F l ∅) op)) ∧
      ∀ room, (rehash F id room (Hash.runs F l Hash.init)).elems.Perm (Hash.runs F l Hash.init).elems := by
  have hh : Holds hF (Hash.runs F l Hash.init) (setRuns F l ∅) := Holds.init.runs l
  refine ⟨hh.isSet, fun op room => ⟨hh.returns room op, (hh.run room op).isSet⟩, fun room => ?_⟩
  exact (hh.wf.rehash room).2

end Refinement

namespace Sample

/-- Numbers that are told apart by their halves. -/
def halves : Hasher ℕ := ⟨fun n => n / 2, fun m n => decide (m / 2 < n / 2)⟩

theorem halves_consistent : Consistent halves := by
  have hless : ∀ m n, halves.less m n = true ↔ m / 2 < n / 2 := fun m n => decide_eq_true_iff
  refine ⟨{ irrefl := fun x => ?_, trans := fun x y z => ?_, incomp_trans := fun x y z => ?_ }, fun x y hxy hyx => ?_⟩
  · rw [hless]
    exact lt_irrefl _
  · simp only [hless]
    exact lt_trans
  · simp only [hless]
    omega
  · rw [← Bool.not_eq_true, hless] at hxy hyx
    exact le_antisymm (not_lt.1 hyx) (not_lt.1 hxy)

end Sample

/-- Of 4 and 5, which are equivalent, the first is kept by `hash_insert` and the second by `hash_replace`. -/
theorem hash_refines_set_halves :
    setRuns Sample.halves [(.insert 4, true), (.insert 5, false), (.insert 9, true), (.replace 5, true)] ∅ = {5, 9} ∧
      IsSet Sample.halves
        (Hash.runs Sample.halves [(.insert 4, true), (.insert 5, false), (.insert 9, true), (.replace 5, true)] Hash.init)
        (setRuns Sample.halves [(.insert 4, true), (.insert 5, false), (.insert 9, true), (.replace 5, true)] ∅) :=
  ⟨by decide, (hash_refines_set Sample.halves_consistent _).1⟩

end Hash

end Pintos
