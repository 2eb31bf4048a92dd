import Mathlib.Algebra.Order.Ring.Int
import Mathlib.Data.List.Chain
import Mathlib.Logic.Function.Basic
import Mathlib.Tactic.Common

/-!
# Doubly linked nodes

Nodes with a link to the previous and to the next one. Nodes that are linked one after
the other are a list (`Whole`); from any node of it the next and the previous one are
found, and a segment can be moved to another place (`Whole.splice`).
-/

namespace Pintos.Library

/-- The links of the nodes. -/
structure Links (ι : Type) where
  prev : ι → Option ι
  next : ι → Option ι

namespace Links

variable {ι : Type}

section Updates

variable [DecidableEq ι]

/-- Sets the link to the previous node. -/
def setPrev (a : ι) (p : Option ι) (s : Links ι) : Links ι := { s with prev := Function.update s.prev a p }

/-- Sets the link to the next node. -/
def setNext (a : ι) (n : Option ι) (s : Links ι) : Links ι := { s with next := Function.update s.next a n }

@[simp] theorem setPrev_next (a : ι) (p : Option ι) (s : Links ι) : (s.setPrev a p).next = s.next := rfl

@[simp] theorem setNext_prev (a : ι) (n : Option ι) (s : Links ι) : (s.setNext a n).prev = s.prev := rfl

@[simp] theorem setPrev_prev (a : ι) (p : Option ι) (s : Links ι) : (s.setPrev a p).prev = Function.update s.prev a p := rfl

@[simp] theorem setNext_next (a : ι) (n : Option ι) (s : Links ι) : (s.setNext a n).next = Function.update s.next a n := rfl

end Updates

/-! ### Linked nodes -/

/-- The nodes `xs` are linked, one after the other. -/
def Linked (s : Links ι) (xs : List ι) : Prop := xs.IsChain fun a b => s.next a = some b ∧ s.prev b = some a

/-- **The nodes `xs` are a list**: different ones, linked one after the other, and no link leads out at the ends. -/
structure Whole (s : Links ι) (xs : List ι) : Prop where
  linked : s.Linked xs
  nodup : xs.Nodup
  first : ∀ a ∈ xs.head?, s.prev a = none
  last : ∀ a ∈ xs.getLast?, s.next a = none

variable {s s' : Links ι} {xs u v : List ι} {a b : ι}

theorem linked_append : s.Linked (u ++ v) ↔
    s.Linked u ∧ s.Linked v ∧ ∀ a ∈ u.getLast?, ∀ b ∈ v.head?, s.next a = some b ∧ s.prev b = some a := List.isChain_append

theorem Linked.adjacent (h : s.Linked (u ++ a :: b :: v)) : s.next a = some b ∧ s.prev b = some a :=
  (List.isChain_append_cons_cons.1 h).2.1

/-- The node after `a`. -/
theorem Whole.next_eq (h : s.Whole (u ++ a :: b :: v)) : s.next a = some b := h.linked.adjacent.1

/-- The node before `b`. -/
theorem Whole.prev_eq (h : s.Whole (u ++ a :: b :: v)) : s.prev b = some a := h.linked.adjacent.2

/-- There is a node after every one but the last. -/
theorem Whole.next_ne_none (h : s.Whole (u ++ a :: v)) (hv : v ≠ []) : s.next a ≠ none := by
  obtain ⟨b, v, rfl⟩ := List.exists_cons_of_ne_nil hv
  rw [h.next_eq]
  exact Option.some_ne_none b

/-- There is a node before every one but the first. -/
theorem Whole.prev_ne_none (h : s.Whole (u ++ a :: v)) (hu : u ≠ []) : s.prev a ≠ none := by
  obtain ⟨u, b, rfl⟩ := (List.eq_nil_or_concat' u).resolve_left hu
  rw [List.append_assoc] at h
  change s.Whole (u ++ b :: a :: v) at h
  rw [h.prev_eq]
  exact Option.some_ne_none b

/-- **The frame rule**: the links at the ends that lead out may change. -/
theorem Linked.congr (h : s.Linked xs) (hnd : xs.Nodup) (hnext : ∀ a ∈ xs, xs.getLast? ≠ some a → s'.next a = s.next a)
    (hprev : ∀ a ∈ xs, xs.head? ≠ some a → s'.prev a = s.prev a) : s'.Linked xs := by
  induction xs with
  | nil => exact List.isChain_nil
  | cons a xs ih =>
    cases xs with
    | nil => exact List.isChain_singleton a
    | cons b xs =>
      obtain ⟨⟨hab, hba⟩, htail⟩ := List.isChain_cons_cons.1 h
      obtain ⟨hnot, hnd'⟩ := List.nodup_cons.1 hnd
      have hmem : b ∈ a :: b :: xs := List.mem_cons_of_mem a List.mem_cons_self
      refine List.isChain_cons_cons.2 ⟨⟨?_, ?_⟩, ih htail hnd' (fun c hc hlast => ?_) fun c hc hhead => ?_⟩
      · rw [hnext a List.mem_cons_self, hab]
        rw [List.getLast?_cons_cons]
        exact fun hlast => hnot (List.mem_of_getLast? hlast)
      · rw [hprev b hmem, hba]
        intro hhead
        obtain rfl : a = b := Option.some.inj hhead
        exact hnot List.mem_cons_self
      · apply hnext c (List.mem_cons_of_mem a hc)
        rwa [List.getLast?_cons_cons]
      · apply hprev c (List.mem_cons_of_mem a hc)
        intro hhead'
        obtain rfl : a = c := Option.some.inj hhead'
        exact hnot hc

/-! ### Moving a segment -/

/-- The links after the nodes from `f` to `l` have been taken from between `q` and `y`, and put between `p` and `b`. -/
def splice [DecidableEq ι] (p b q f l y : ι) (s : Links ι) : Links ι :=
  ((((s.setNext q (some y)).setPrev y (some q)).setPrev f (some p)).setNext l (some b)).setNext p (some f) |>.setPrev b (some l)

variable [DecidableEq ι] {w seg : List ι} {p q f l y : ι}

/-- Other nodes keep their links. -/
theorem splice_next {c : ι} (hp : c ≠ p) (hq : c ≠ q) (hl : c ≠ l) : (s.splice p b q f l y).next c = s.next c := by
  simp [splice, Function.update_of_ne, hp, hq, hl]

theorem splice_prev {c : ι} (hb : c ≠ b) (hf : c ≠ f) (hy : c ≠ y) : (s.splice p b q f l y).prev c = s.prev c := by
  simp [splice, Function.update_of_ne, hb, hf, hy]

/-- **A segment is moved back** over the nodes `w`. -/
theorem Whole.splice (h : s.Whole (u ++ (w ++ (seg ++ v)))) (hp : u.getLast? = some p) (hb : w.head? = some b)
    (hq : w.getLast? = some q) (hf : seg.head? = some f) (hl : seg.getLast? = some l) (hy : v.head? = some y) :
    (s.splice p b q f l y).Whole (u ++ (seg ++ (w ++ v))) := by
  obtain ⟨hlu, hlwsv, -⟩ := linked_append.1 h.linked
  obtain ⟨hlw, hlsv, -⟩ := linked_append.1 hlwsv
  obtain ⟨hlseg, hlv, -⟩ := linked_append.1 hlsv
  obtain ⟨hu, hwsv, dwsv⟩ := List.nodup_append.1 h.nodup
  obtain ⟨hw, hsegv, dsegv⟩ := List.nodup_append.1 hwsv
  obtain ⟨hseg, hv, hsv⟩ := List.nodup_append.1 hsegv
  have huw : ∀ a ∈ u, ∀ c ∈ w, a ≠ c := fun a ha c hc => dwsv a ha c (List.mem_append_left _ hc)
  have hus : ∀ a ∈ u, ∀ c ∈ seg, a ≠ c := fun a ha c hc => dwsv a ha c (List.mem_append_right _ (List.mem_append_left _ hc))
  have huv : ∀ a ∈ u, ∀ c ∈ v, a ≠ c := fun a ha c hc => dwsv a ha c (List.mem_append_right _ (List.mem_append_right _ hc))
  have hws : ∀ a ∈ w, ∀ c ∈ seg, a ≠ c := fun a ha c hc => dsegv a ha c (List.mem_append_left _ hc)
  have hwv : ∀ a ∈ w, ∀ c ∈ v, a ≠ c := fun a ha c hc => dsegv a ha c (List.mem_append_right _ hc)
  have mp := List.mem_of_getLast? hp
  have mb := List.mem_of_head? hb
  have mq := List.mem_of_getLast? hq
  have mf := List.mem_of_head? hf
  have ml := List.mem_of_getLast? hl
  have my := List.mem_of_head? hy
  constructor
  · have ku : (s.splice p b q f l y).Linked u := by
      refine hlu.congr hu (fun a ha hlast => ?_) fun a ha hhead => ?_
      · exact splice_next (fun heq => hlast (heq ▸ hp)) (huw a ha q mq) (hus a ha l ml)
      · exact splice_prev (huw a ha b mb) (hus a ha f mf) (huv a ha y my)
    have kw : (s.splice p b q f l y).Linked w := by
      refine hlw.congr hw (fun a ha hlast => ?_) fun a ha hhead => ?_
      · exact splice_next (huw p mp a ha).symm (fun heq => hlast (heq ▸ hq)) (hws a ha l ml)
      · exact splice_prev (fun heq => hhead (heq ▸ hb)) (hws a ha f mf) (hwv a ha y my)
    have kseg : (s.splice p b q f l y).Linked seg := by
      refine hlseg.congr hseg (fun a ha hlast => ?_) fun a ha hhead => ?_
      · exact splice_next (hus p mp a ha).symm (hws q mq a ha).symm fun heq => hlast (heq ▸ hl)
      · exact splice_prev (hws b mb a ha).symm (fun heq => hhead (heq ▸ hf)) (hsv a ha y my)
    have kv : (s.splice p b q f l y).Linked v := by
      refine hlv.congr hv (fun a ha hlast => ?_) fun a ha hhead => ?_
      · exact splice_next (huv p mp a ha).symm (hwv q mq a ha).symm (hsv l ml a ha).symm
      · exact splice_prev (hwv b mb a ha).symm (hsv f mf a ha).symm fun heq => hhead (heq ▸ hy)
    refine linked_append.2 ⟨ku, linked_append.2 ⟨kseg, linked_append.2 ⟨kw, kv, ?_⟩, ?_⟩, ?_⟩
    · -- the nodes that were around the segment
      rw [hq, hy]
      rintro _ ⟨⟩ _ ⟨⟩
      simp [Links.splice, Function.update_of_ne, (huw p mp q mq).symm, hws q mq l ml, (hwv b mb y my).symm, (hsv f mf y my).symm]
    · rw [hl, List.head?_append, hb]
      rintro _ ⟨⟩ _ ⟨⟩
      simp [Links.splice, Function.update_of_ne, (hus p mp l ml).symm]
    · rw [hp, List.head?_append, hf]
      rintro _ ⟨⟩ _ ⟨⟩
      simp [Links.splice, Function.update_of_ne, (hws b mb f mf).symm]
  · refine (List.Perm.append_left u ?_).nodup_iff.1 h.nodup
    rw [← List.append_assoc, ← List.append_assoc]
    exact List.perm_append_comm.append_right v
  · intro a ha
    have hne : u ≠ [] := List.ne_nil_of_mem mp
    rw [List.head?_append_of_ne_nil _ hne] at ha
    have ma := List.mem_of_head? ha
    rw [splice_prev (huw a ma b mb) (hus a ma f mf) (huv a ma y my)]
    apply h.first
    rwa [List.head?_append_of_ne_nil _ hne]
  · intro a ha
    have hne : v ≠ [] := List.ne_nil_of_mem my
    rw [List.getLast?_append_of_ne_nil _ (by simp [hne]), List.getLast?_append_of_ne_nil _ (by simp [hne]),
      List.getLast?_append_of_ne_nil _ hne] at ha
    have ma := List.mem_of_getLast? ha
    rw [splice_next (huv p mp a ma).symm (hwv q mq a ma).symm (hsv l ml a ma).symm]
    apply h.last
    rwa [List.getLast?_append_of_ne_nil _ (by simp [hne]), List.getLast?_append_of_ne_nil _ (by simp [hne]),
      List.getLast?_append_of_ne_nil _ hne]

end Links

end Pintos.Library
