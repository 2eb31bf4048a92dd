import Mathlib.Algebra.Order.Ring.Int
import Mathlib.Data.List.GetD
import Mathlib.Data.List.Nodup
import Mathlib.Data.List.Perm.Basic
import Mathlib.Tactic.Common

/-!
# Hash tables

`lib/kernel/hash.c`: an array of buckets, each a list of elements. The elements are
pointers to objects of which the table reads only the key, so that the functions here
take the key of an element as an argument. Whether there is memory for another array
when the number of buckets is to change is an argument too.

The table is well formed (`Wf`) if every element lies in the bucket of its key and no
two have the same key; `elems` is the order in which an iterator goes through it.
-/

namespace Pintos

/-- The functions with which a table is initialised. -/
structure Hasher (κ : Type) where
  /-- `hash`. -/
  hash : κ → ℕ
  /-- `less`. -/
  less : κ → κ → Bool

/-- `struct hash`. -/
structure Hash (α : Type) where
  /-- `elem_cnt`. -/
  elemCnt : ℕ
  /-- Which array `buckets` points to: arrays are numbered as they are allocated. -/
  array : ℕ
  /-- The `bucket_cnt` buckets. -/
  buckets : List (List α)

/-- `hash_bytes`, the Fowler-Noll-Vo hash. -/
def hashBytes (buf : List UInt8) : ℕ :=
  buf.foldl (fun hash b => (hash * 16777619 % 2 ^ 32) ^^^ b.toNat) 2166136261

/-- `turn_off_least_1bit`. -/
def turnOffLeast1bit (x : ℕ) : ℕ := x &&& (x - 1)

/-- `is_power_of_2`. -/
def isPowerOf2 (x : ℕ) : Bool := x ≠ 0 && turnOffLeast1bit x = 0

/-- The loop `while (!is_power_of_2 (x)) x = turn_off_least_1bit (x)`, of at most `n` turns. -/
def toPowerOf2 : ℕ → ℕ → ℕ
  | 0, x => x
  | n + 1, x => if isPowerOf2 x then x else toPowerOf2 n (turnOffLeast1bit x)

/-- The number of buckets that `rehash` wants. -/
def newBucketCnt (elemCnt : ℕ) : ℕ := toPowerOf2 (max (elemCnt / 2) 4) (max (elemCnt / 2) 4)

namespace Hash

variable {α κ : Type}

/-- The elements, in the order of `hash_next`. -/
def elems (h : Hash α) : List α := h.buckets.flatten

/-- `hash_init`. -/
def init : Hash α := ⟨0, 0, List.replicate 4 []⟩

section Operations

variable (F : Hasher κ) (key : α → κ)

/-- The index of `find_bucket`. -/
def bucketIdx (k : κ) (cnt : ℕ) : ℕ := F.hash k &&& (cnt - 1)

/-- The elements that `find_elem` takes for equal to one with key `k`. -/
def same (k : κ) (x : α) : Bool := !F.less (key x) k && !F.less k (key x)

/-- `find_elem`. -/
def findElem (bucket : List α) (k : κ) : Option α := bucket.find? (same F key k)

/-- `hash_find`. -/
def hashFind (h : Hash α) (k : κ) : Option α :=
  findElem F key (h.buckets.getD (bucketIdx F k h.buckets.length) []) k

/-- `list_push_front` of `e` to its bucket. -/
def push (buckets : List (List α)) (e : α) : List (List α) :=
  buckets.modify (bucketIdx F (key e) buckets.length) (e :: ·)

/-- `rehash`. -/
def rehash (room : Bool) (h : Hash α) : Hash α :=
  if newBucketCnt h.elemCnt = h.buckets.length then h
  else if room then
    { h with
      array := h.array + 1
      buckets := h.elems.foldl (push F key) (List.replicate (newBucketCnt h.elemCnt) []) }
  else h

/-- `hash_insert`: an element with the key of `new` stays, and is returned. -/
def hashInsert (room : Bool) (h : Hash α) (new : α) : Option α × Hash α :=
  let old := hashFind F key h (key new)
  let h' := if old.isSome then h else { h with elemCnt := h.elemCnt + 1, buckets := push F key h.buckets new }
  (old, rehash F key room h')

/-- `remove_elem`. -/
def removeElem [DecidableEq α] (h : Hash α) (e : α) : Hash α :=
  { h with
    elemCnt := h.elemCnt - 1
    buckets := h.buckets.modify (bucketIdx F (key e) h.buckets.length) (·.erase e) }

/-- `hash_delete`. -/
def hashDelete [DecidableEq α] (room : Bool) (h : Hash α) (k : κ) : Option α × Hash α :=
  match hashFind F key h k with
  | none => (none, h)
  | some found => (some found, rehash F key room (removeElem F key h found))

/-- `hash_replace`: an element with the key of `new` is removed, and returned. -/
def hashReplace [DecidableEq α] (room : Bool) (h : Hash α) (new : α) : Option α × Hash α :=
  let old := hashFind F key h (key new)
  let h' := old.elim h (removeElem F key h)
  (old, rehash F key room { h' with elemCnt := h'.elemCnt + 1, buckets := push F key h'.buckets new })

/-- `hash_clear`. -/
def hashClear (h : Hash α) : Hash α := { h with elemCnt := 0, buckets := List.replicate h.buckets.length [] }

end Operations

/-! ### Iteration -/

/-- `struct hash_iterator`: the array that `bucket` points into, and `elem`. -/
structure Iterator (α : Type) where
  array : ℕ
  elem : Option α

/-- What comes after `e` in a list. -/
def after [DecidableEq α] (e : α) : List α → Option α
  | [] => none
  | x :: l => if x = e then l.head? else after e l

/-- `hash_first`, and the `hash_next` that has to follow. -/
def first (h : Hash α) : Iterator α := ⟨h.array, h.elems.head?⟩

/-- `hash_next`, from an element of the table. If the array has changed, `i->bucket` points to freed memory:
the walk does not see the end of its bucket, takes it for an element, and fails an assertion of `list_next`. -/
def next [DecidableEq α] (h : Hash α) (i : Iterator α) (e : α) : Option (Iterator α) :=
  if i.array = h.array then some { i with elem := after e h.elems } else none

/-! ### The number of buckets -/

theorem toPowerOf2_pos (n : ℕ) {x : ℕ} (hx : 0 < x) : 0 < toPowerOf2 n x := by
  induction n generalizing x with
  | zero => exact hx
  | succ n ih =>
    rw [toPowerOf2]
    split_ifs with hpow
    · exact hx
    · apply ih
      -- a number that is not a power of 2 has another bit
      rw [isPowerOf2, Bool.and_eq_true, decide_eq_true_eq, decide_eq_true_eq] at hpow
      exact Nat.pos_of_ne_zero fun h0 => hpow ⟨Nat.ne_of_gt hx, h0⟩

theorem newBucketCnt_pos (n : ℕ) : 0 < newBucketCnt n := toPowerOf2_pos _ (by omega)

/-! ### Well-formed tables -/

/-- `less` is that of an order. -/
structure Lawful (F : Hasher κ) : Prop where
  irrefl : ∀ k, F.less k k = false
  eq : ∀ k l, F.less k l = false → F.less l k = false → k = l

/-- Every element lies in the bucket of its key. -/
def Placed (F : Hasher κ) (key : α → κ) (buckets : List (List α)) : Prop :=
  ∀ i, ∀ e ∈ buckets.getD i [], bucketIdx F (key e) buckets.length = i

/-- **Well-formed tables.** -/
structure Wf (F : Hasher κ) (key : α → κ) (h : Hash α) : Prop where
  pos : 0 < h.buckets.length
  placed : Placed F key h.buckets
  nodup : (h.elems.map key).Nodup
  elemCnt : h.elemCnt = h.elems.length

section Lemmas

variable {F : Hasher κ} {key : α → κ} {h : Hash α} {k : κ} {e : α}

theorem bucketIdx_lt {cnt : ℕ} (hcnt : 0 < cnt) : bucketIdx F k cnt < cnt :=
  Nat.lt_of_le_of_lt Nat.and_le_right (Nat.sub_lt hcnt Nat.one_pos)

theorem same_iff (hF : Lawful F) {x : α} : same F key k x = true ↔ key x = k := by
  rw [same, Bool.and_eq_true, Bool.not_eq_true', Bool.not_eq_true']
  constructor
  · rintro ⟨hlt, hgt⟩
    exact hF.eq _ _ hlt hgt
  · rintro rfl
    exact ⟨hF.irrefl _, hF.irrefl _⟩

theorem mem_elems {i : ℕ} (he : e ∈ h.buckets.getD i []) : e ∈ h.elems := by
  by_cases hi : i < h.buckets.length
  · rw [List.getD_eq_getElem _ _ hi] at he
    exact List.mem_flatten.2 ⟨_, List.getElem_mem hi, he⟩
  · rw [List.getD_eq_default _ _ (Nat.le_of_not_lt hi)] at he
    cases he

/-- An element is found in its bucket. -/
theorem Placed.mem_bucket {buckets : List (List α)} (hp : Placed F key buckets) (he : e ∈ buckets.flatten) :
    e ∈ buckets.getD (bucketIdx F (key e) buckets.length) [] := by
  obtain ⟨b, hb, heb⟩ := List.mem_flatten.1 he
  obtain ⟨i, hi, rfl⟩ := List.getElem_of_mem hb
  rw [← List.getD_eq_getElem _ [] hi] at heb
  rw [hp i e heb]
  exact heb

/-- Only the keys of the elements matter. -/
theorem Wf.congr (hw : Wf F key h) {key' : α → κ} (hk : ∀ e ∈ h.elems, key' e = key e) : Wf F key' h := by
  refine ⟨hw.pos, fun i e he => ?_, ?_, hw.elemCnt⟩
  · rw [hk e (mem_elems he)]
    exact hw.placed i e he
  · rw [List.map_congr_left hk]
    exact hw.nodup

theorem Wf.key_inj (hw : Wf F key h) {a b : α} (ha : a ∈ h.elems) (hb : b ∈ h.elems) (hab : key a = key b) : a = b :=
  List.inj_on_of_nodup_map hw.nodup ha hb hab

/-- **What `hash_find` finds.** -/
theorem Wf.hashFind_eq_some (hF : Lawful F) (hw : Wf F key h) : hashFind F key h k = some e ↔ e ∈ h.elems ∧ key e = k := by
  constructor
  · intro hfind
    exact ⟨mem_elems (List.mem_of_find?_eq_some hfind), (same_iff hF).1 (List.find?_some hfind)⟩
  · rintro ⟨he, rfl⟩
    have hmem := hw.placed.mem_bucket he
    cases hfind : hashFind F key h (key e) with
    | none =>
      have hno := List.find?_eq_none.1 hfind e hmem
      exact absurd ((same_iff hF).2 rfl) hno
    | some x =>
      have hx := mem_elems (List.mem_of_find?_eq_some hfind)
      rw [hw.key_inj hx he ((same_iff hF).1 (List.find?_some hfind))]

theorem Wf.hashFind_eq_none (hF : Lawful F) (hw : Wf F key h) : hashFind F key h k = none ↔ ∀ e ∈ h.elems, key e ≠ k := by
  rw [Option.eq_none_iff_forall_ne_some]
  constructor
  · intro hno e he hk
    exact hno e ((hw.hashFind_eq_some hF).2 ⟨he, hk⟩)
  · intro hno e hfind
    obtain ⟨he, hk⟩ := (hw.hashFind_eq_some hF).1 hfind
    exact hno e he hk

/-! ### Insertion -/

theorem length_push (buckets : List (List α)) (e : α) : (push F key buckets e).length = buckets.length := by
  rw [push, List.length_modify]

theorem perm_push {buckets : List (List α)} (hpos : 0 < buckets.length) (e : α) :
    (push F key buckets e).flatten.Perm (e :: buckets.flatten) := by
  have hi : bucketIdx F (key e) buckets.length < buckets.length := bucketIdx_lt hpos
  rw [push, List.modify_eq_take_cons_drop hi]
  conv_rhs => rw [← List.take_append_drop (bucketIdx F (key e) buckets.length) buckets]
  rw [List.drop_eq_getElem_cons hi]
  simp only [List.flatten_append, List.flatten_cons, List.cons_append]
  exact List.perm_middle

theorem Placed.push {buckets : List (List α)} (hp : Placed F key buckets) (e : α) : Placed F key (push F key buckets e) := by
  intro i x hx
  rw [length_push]
  rw [Hash.push, List.getD_eq_getElem?_getD, List.getElem?_modify] at hx
  have hold := hp i x
  rw [List.getD_eq_getElem?_getD] at hold
  cases hb : buckets[i]? with
  | none => simp [hb] at hx
  | some b =>
    rw [hb] at hx hold
    simp only [Option.map_eq_map, Option.map_some, Option.getD_some] at hx hold
    split_ifs at hx with hi
    · obtain rfl | hx := List.mem_cons.1 hx
      · exact hi
      · exact hold hx
    · exact hold hx

/-- Moving elements to an array of buckets. -/
theorem foldl_push (l : List α) {buckets : List (List α)} (hpos : 0 < buckets.length) (hp : Placed F key buckets) :
    (l.foldl (push F key) buckets).length = buckets.length ∧ Placed F key (l.foldl (push F key) buckets) ∧
      (l.foldl (push F key) buckets).flatten.Perm (l ++ buckets.flatten) := by
  induction l generalizing buckets with
  | nil => exact ⟨rfl, hp, .refl _⟩
  | cons e l ih =>
    have hlen : (push F key buckets e).length = buckets.length := length_push buckets e
    obtain ⟨h₁, h₂, h₃⟩ := ih (by rw [hlen]; exact hpos) (hp.push e)
    refine ⟨h₁.trans hlen, h₂, h₃.trans ?_⟩
    exact ((perm_push hpos e).append_left l).trans List.perm_middle

theorem placed_replicate (cnt : ℕ) : Placed F key (List.replicate cnt []) := by
  intro i x hx
  simp at hx

theorem flatten_replicate_nil (cnt : ℕ) : (List.replicate cnt ([] : List α)).flatten = [] := by simp

/-- **`rehash`** keeps the elements, in some order. -/
theorem Wf.rehash (hw : Wf F key h) (room : Bool) :
    Wf F key (rehash F key room h) ∧ (rehash F key room h).elems.Perm h.elems := by
  unfold Hash.rehash
  split_ifs
  · exact ⟨hw, .refl _⟩
  · have hpos : 0 < (List.replicate (newBucketCnt h.elemCnt) ([] : List α)).length := by
      rw [List.length_replicate]
      exact newBucketCnt_pos _
    have hempty : Placed F key (List.replicate (newBucketCnt h.elemCnt) []) := placed_replicate _
    obtain ⟨hlen, hp, hperm⟩ := foldl_push h.elems hpos hempty
    rw [flatten_replicate_nil, List.append_nil] at hperm
    refine ⟨⟨?_, hp, ?_, ?_⟩, hperm⟩
    · rw [hlen]
      exact hpos
    · exact (hperm.map key).nodup_iff.2 hw.nodup
    · exact hw.elemCnt.trans hperm.length_eq.symm
  · exact ⟨hw, .refl _⟩

/-- `insert_elem`, of a key that is not in the table. -/
theorem Wf.push (hw : Wf F key h) {new : α} (hnew : ∀ e ∈ h.elems, key e ≠ key new) :
    Wf F key { h with elemCnt := h.elemCnt + 1, buckets := push F key h.buckets new } ∧
      (push F key h.buckets new).flatten.Perm (new :: h.elems) := by
  have hperm : (Hash.push F key h.buckets new).flatten.Perm (new :: h.elems) := perm_push hw.pos new
  refine ⟨⟨?_, hw.placed.push new, ?_, ?_⟩, hperm⟩
  · rw [length_push]
    exact hw.pos
  · rw [elems, (hperm.map key).nodup_iff, List.map_cons, List.nodup_cons]
    refine ⟨fun hmem => ?_, hw.nodup⟩
    obtain ⟨e, he, hk⟩ := List.mem_map.1 hmem
    exact hnew e he hk
  · rw [elems, hperm.length_eq, List.length_cons, hw.elemCnt]

/-- **`hash_insert`** of a key that is not in the table. -/
theorem Wf.hashInsert_new (hF : Lawful F) (hw : Wf F key h) (room : Bool) {new : α} (hnew : ∀ e ∈ h.elems, key e ≠ key new) :
    Wf F key (hashInsert F key room h new).2 ∧ (hashInsert F key room h new).2.elems.Perm (new :: h.elems) := by
  rw [Hash.hashInsert, (hw.hashFind_eq_none hF).2 hnew]
  obtain ⟨hw', hperm⟩ := hw.push hnew
  obtain ⟨hr, hp⟩ := hw'.rehash room
  exact ⟨hr, hp.trans hperm⟩

/-- **`hash_insert`** of a key that is in the table. -/
theorem Wf.hashInsert_old (hF : Lawful F) (hw : Wf F key h) (room : Bool) {new old : α} (hold : old ∈ h.elems)
    (hk : key old = key new) :
    Wf F key (hashInsert F key room h new).2 ∧ (hashInsert F key room h new).2.elems.Perm h.elems := by
  rw [Hash.hashInsert, (hw.hashFind_eq_some hF).2 ⟨hold, hk⟩]
  exact hw.rehash room

theorem Wf.hashClear (hw : Wf F key h) : Wf F key h.hashClear ∧ h.hashClear.elems = [] := by
  have hempty : h.hashClear.elems = [] := flatten_replicate_nil _
  refine ⟨⟨?_, placed_replicate _, ?_, ?_⟩, hempty⟩
  · rw [Hash.hashClear, List.length_replicate]
    exact hw.pos
  · rw [hempty]
    exact List.nodup_nil
  · rw [hempty]
    rfl

/-! ### Deletion -/

variable [DecidableEq α]

theorem flatten_modify_erase {buckets : List (List α)} {i : ℕ} (hi : i < buckets.length)
    (hbefore : ∀ j < i, e ∉ buckets.getD j []) (he : e ∈ buckets.getD i []) :
    (buckets.modify i (·.erase e)).flatten = buckets.flatten.erase e := by
  induction buckets generalizing i with
  | nil => cases hi
  | cons b buckets ih =>
    cases i with
    | zero =>
      rw [List.modify_zero_cons, List.flatten_cons, List.flatten_cons, List.erase_append_left]
      exact he
    | succ i =>
      have hb : e ∉ b := hbefore 0 (Nat.succ_pos i)
      rw [List.modify_succ_cons, List.flatten_cons, List.flatten_cons, List.erase_append_right _ hb]
      rw [ih (Nat.lt_of_succ_lt_succ hi) (fun j hj => hbefore (j + 1) (Nat.succ_lt_succ hj)) he]

/-- **`remove_elem`** keeps the order of the others. -/
theorem Wf.elems_removeElem (hw : Wf F key h) (he : e ∈ h.elems) : (removeElem F key h e).elems = h.elems.erase e := by
  refine flatten_modify_erase (bucketIdx_lt hw.pos) (fun j hj hmem => ?_) (hw.placed.mem_bucket he)
  have := hw.placed j e hmem
  omega

theorem Wf.removeElem (hw : Wf F key h) (he : e ∈ h.elems) : Wf F key (removeElem F key h e) := by
  have helems := hw.elems_removeElem he
  refine ⟨?_, ?_, ?_, ?_⟩
  · rw [Hash.removeElem, List.length_modify]
    exact hw.pos
  · intro i x hx
    rw [Hash.removeElem] at hx ⊢
    rw [List.length_modify]
    refine hw.placed i x ?_
    rw [List.getD_eq_getElem?_getD] at hx ⊢
    rw [List.getElem?_modify] at hx
    cases hb : h.buckets[i]? with
    | none => simp [hb] at hx
    | some b =>
      rw [hb] at hx
      split_ifs at hx
      · exact List.mem_of_mem_erase hx
      · exact hx
  · rw [helems]
    exact hw.nodup.sublist (List.Sublist.map key List.erase_sublist)
  · rw [helems, List.length_erase_of_mem he]
    exact congrArg (· - 1) hw.elemCnt

/-- Removing an element leaves the number of buckets as it is: it is the one wanted, or there is no memory for another
array. -/
def Keeps (room : Bool) (h : Hash α) : Prop := newBucketCnt (h.elemCnt - 1) = h.buckets.length ∨ room = false

theorem Wf.hashDelete_eq (hF : Lawful F) (hw : Wf F key h) (room : Bool) (he : e ∈ h.elems) :
    (hashDelete F key room h (key e)).2 = Hash.rehash F key room (Hash.removeElem F key h e) := by
  rw [hashDelete, (hw.hashFind_eq_some hF).2 ⟨he, rfl⟩]

theorem Wf.hashDelete_perm (hF : Lawful F) (hw : Wf F key h) (room : Bool) (he : e ∈ h.elems) :
    (hashDelete F key room h (key e)).2.elems.Perm (h.elems.erase e) := by
  rw [hw.hashDelete_eq hF room he, ← hw.elems_removeElem he]
  exact ((hw.removeElem he).rehash room).2

/-- **`hash_replace`** of a key that is not in the table. -/
theorem Wf.hashReplace_new (hF : Lawful F) (hw : Wf F key h) (room : Bool) {new : α} (hnew : ∀ e ∈ h.elems, key e ≠ key new) :
    Wf F key (hashReplace F key room h new).2 ∧ (hashReplace F key room h new).2.elems.Perm (new :: h.elems) := by
  rw [Hash.hashReplace, (hw.hashFind_eq_none hF).2 hnew]
  obtain ⟨hw', hperm⟩ := hw.push hnew
  obtain ⟨hr, hp⟩ := hw'.rehash room
  exact ⟨hr, hp.trans hperm⟩

/-- **`hash_replace`** of a key that is in the table. -/
theorem Wf.hashReplace_old (hF : Lawful F) (hw : Wf F key h) (room : Bool) {new old : α} (hold : old ∈ h.elems)
    (hk : key old = key new) : Wf F key (hashReplace F key room h new).2 ∧
      (hashReplace F key room h new).2.elems.Perm (new :: h.elems.erase old) := by
  rw [Hash.hashReplace, (hw.hashFind_eq_some hF).2 ⟨hold, hk⟩]
  have hgone : ∀ e ∈ (Hash.removeElem F key h old).elems, key e ≠ key new := by
    intro e he hke
    rw [hw.elems_removeElem hold] at he
    have hnodup : h.elems.Nodup := .of_map key hw.nodup
    have hne : e ≠ old := ((hnodup.mem_erase_iff).1 he).1
    exact hne (hw.key_inj (List.mem_of_mem_erase he) hold (hke.trans hk.symm))
  obtain ⟨hw', hperm⟩ := (hw.removeElem hold).push hgone
  obtain ⟨hr, hp⟩ := hw'.rehash room
  rw [hw.elems_removeElem hold] at hperm
  exact ⟨hr, hp.trans hperm⟩

theorem after_append {l₁ l₂ : List α} (he : e ∉ l₁) : after e (l₁ ++ e :: l₂) = l₂.head? := by
  induction l₁ with
  | nil => simp [after]
  | cons x l₁ ih =>
    have hx : x ≠ e := fun hx => he (List.mem_cons.2 (.inl hx.symm))
    rw [List.cons_append, after, if_neg hx]
    exact ih fun hmem => he (List.mem_cons_of_mem x hmem)

end Lemmas

end Hash

end Pintos
