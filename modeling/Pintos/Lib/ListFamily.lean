import Mathlib.Data.List.TakeWhile
import Pintos.Lib.ListEdits

/-!
# Families of lists

Several disjoint lists in one store (`Family`). A call of `lib/kernel/list.c` leaves the
family with other elements in the lists that it is about, and the other lists with the
links that they had (`Leaves`).
-/

namespace Pintos.LinkedList

open Library Library.NaturalMerge Library.Prog

variable {ι κ : Type} {less : ι → ι → Bool}

/-! ### The elements -/

section

variable {xs : List ι} {elem : ι}

/-- The elements that an inserted one is behind are not greater, and in a list in order those that it is before are. -/
theorem insertOrdered_pairwise [IsStrictWeakOrder ι fun a b => less a b = true] (h : xs.Pairwise fun a b => less b a = false) :
    (xs.takeWhile (fun b => !less elem b) ++ elem :: xs.dropWhile fun b => !less elem b).Pairwise (fun a b => less b a = false) ∧
      (∀ b ∈ xs.takeWhile (fun b => !less elem b), less elem b = false) ∧
      ∀ b ∈ xs.dropWhile (fun b => !less elem b), less elem b = true := by
  have hsplit := h
  rw [← List.takeWhile_append_dropWhile (p := fun b => !less elem b) (l := xs)] at hsplit
  obtain ⟨htake, hdrop, hcross⟩ := List.pairwise_append.1 hsplit
  have hbefore : ∀ b ∈ xs.takeWhile (fun b => !less elem b), less elem b = false := fun b hb => by
    simpa using List.mem_takeWhile_imp hb
  have hbehind : ∀ b ∈ xs.dropWhile (fun b => !less elem b), less elem b = true := by
    intro b hb
    cases hd : xs.dropWhile fun b => !less elem b with
    | nil =>
      rw [hd] at hb
      cases hb
    | cons c l =>
      have hc : less elem c = true := by
        have hnot := List.head_dropWhile_not (fun b => !less elem b) (l := xs) (by rw [hd]; exact List.cons_ne_nil c l)
        simpa [hd] using hnot
      rw [hd] at hb hdrop
      rcases List.mem_cons.1 hb with rfl | hb
      · exact hc
      · by_contra hnb
        have hle := @NaturalMerge.le_trans ι less _ c b elem (by simp [le, (List.pairwise_cons.1 hdrop).1 b hb]) (by rw [le, Bool.eq_false_iff.2 hnb]; rfl)
        simp [le, hc] at hle
  refine ⟨List.pairwise_append.2 ⟨htake, List.pairwise_cons.2 ⟨fun b hb => ?_, hdrop⟩, fun a ha b hb => ?_⟩, hbefore, hbehind⟩
  · by_contra hlt
    exact asymm_of (fun a b => less a b = true) (hbehind b hb) (by simpa using hlt)
  · rcases List.mem_cons.1 hb with rfl | hb
    · exact hbefore a ha
    · exact hcross a ha b hb

/-- The elements that `list_unique` keeps, and those that it does not. -/
theorem destutter_repeats_perm (a : ι) (xs : List ι) :
    (List.destutter' (Differs less) a xs ++ repeats less a xs).Perm (a :: xs) := by
  induction xs generalizing a with
  | nil => exact .refl _
  | cons b xs ih =>
    rw [List.destutter', repeats]
    by_cases hdiff : Differs less a b
    · rw [if_pos hdiff, if_pos hdiff]
      exact (ih b).cons a
    · rw [if_neg hdiff, if_neg hdiff]
      exact (List.perm_middle.trans ((ih a).cons b)).trans (List.Perm.swap a b xs)

theorem unique_perm (xs : List ι) : (xs.destutter (Differs less) ++ repeated less xs).Perm xs := by
  cases xs with
  | nil => exact .refl _
  | cons a xs => exact destutter_repeats_perm a xs

end

/-! ### Families -/

/-- **A family of disjoint lists**, with the elements `F` that each has. -/
structure Family (lists : κ → KList ι) (F : κ → List ι) (s : Links ι) : Prop where
  whole : ∀ k, s.Whole ((lists k).nodes (F k))
  disjoint : ∀ j k, j ≠ k → ∀ a ∈ (lists j).nodes (F j), a ∉ (lists k).nodes (F k)

/-- An element of none of the lists, other than those of `K`. -/
def Apart (lists : κ → KList ι) (F : κ → List ι) (K : List κ) (a : ι) : Prop := ∀ k ∉ K, a ∉ (lists k).nodes (F k)

/-- What a call about the lists `K` leaves: a family with the elements `F'`, where the other lists have the elements and the
links that they had. -/
structure Leaves (lists : κ → KList ι) (F : κ → List ι) (s : Links ι) (K : List κ) (F' : κ → List ι) (s' : Links ι) : Prop where
  family : Family lists F' s'
  same : ∀ k ∉ K, F' k = F k
  kept : ∀ k ∉ K, ∀ a ∈ (lists k).nodes (F k), s'.next a = s.next a ∧ s'.prev a = s.prev a

variable {lists : κ → KList ι} {F F' : κ → List ι} {s s' : Links ι} {K : List κ} {xs ys zs : List ι} {a elem : ι} {j k : κ}

theorem Family.apart (h : Family lists F s) (hk : k ∈ K) (ha : a ∈ (lists k).nodes (F k)) : Apart lists F K a := by
  intro l hl hal
  refine h.disjoint k l ?_ a ha hal
  rintro rfl
  exact hl hk

theorem Family.apart_cons (h : Family lists F s) (hn : ∀ k, elem ∉ (lists k).nodes (F k)) :
    ∀ a ∈ elem :: (lists k).nodes (F k), Apart lists F [k] a := by
  intro a ha
  rcases List.mem_cons.1 ha with rfl | ha
  · exact fun l _ => hn l
  · exact h.apart (List.mem_singleton.2 rfl) ha

theorem Family.whole_append (h : Family lists F s) (hF : F k = xs ++ ys) :
    s.Whole (((lists k).head :: xs) ++ (ys ++ [(lists k).tail])) := by
  rw [← KList.nodes_append, ← hF]
  exact h.whole k

/-- Nothing happens. -/
theorem Family.leaves (h : Family lists F s) (K : List κ) : Leaves lists F s K F s :=
  ⟨h, fun _ _ => rfl, fun _ _ _ _ => ⟨rfl, rfl⟩⟩

/-- **The frame rule of a family**: a call that touches only elements that are in no list but those of `K`, and makes these
disjoint lists again. -/
theorem Family.step (h : Family lists F s) (hin : Within zs s s') (hzs : ∀ a ∈ zs, Apart lists F K a) (hsame : ∀ k ∉ K, F' k = F k)
    (hwhole : ∀ k ∈ K, s'.Whole ((lists k).nodes (F' k))) (hmem : ∀ k ∈ K, ∀ a ∈ (lists k).nodes (F' k), Apart lists F K a)
    (hdis : ∀ j ∈ K, ∀ k ∈ K, j ≠ k → ∀ a ∈ (lists j).nodes (F' j), a ∉ (lists k).nodes (F' k)) : Leaves lists F s K F' s' := by
  refine ⟨⟨fun k => ?_, fun j k hjk a ha hak => ?_⟩, hsame, fun k hk a ha => hin a fun hz => hzs a hz k hk ha⟩
  · by_cases hk : k ∈ K
    · exact hwhole k hk
    · rw [hsame k hk]
      exact hin.frame (h.whole k) fun a ha hz => hzs a hz k hk ha
  · by_cases hj : j ∈ K
    · by_cases hk : k ∈ K
      · exact hdis j hj k hk hjk a ha hak
      · rw [hsame k hk] at hak
        exact hmem j hj a ha k hk hak
    · rw [hsame j hj] at ha
      by_cases hk : k ∈ K
      · exact hmem k hk a hak j hj ha
      · rw [hsame k hk] at hak
        exact h.disjoint j k hjk a ha hak

section

variable [DecidableEq κ]

/-- A call about one list. -/
theorem Family.stepOne (h : Family lists F s) (hin : Within zs s s') (hwhole : s'.Whole ((lists k).nodes ys))
    (hzs : ∀ a ∈ zs, Apart lists F [k] a) (hys : ∀ a ∈ (lists k).nodes ys, Apart lists F [k] a) :
    Leaves lists F s [k] (Function.update F k ys) s' := by
  refine h.step hin hzs (fun l hl => Function.update_of_ne (mt List.mem_singleton.2 hl) ys F) ?_ ?_ ?_
  · intro l hl
    obtain rfl := List.mem_singleton.1 hl
    rwa [Function.update_self]
  · intro l hl
    obtain rfl := List.mem_singleton.1 hl
    rwa [Function.update_self]
  · intro l hl m hm hlm
    exact absurd ((List.mem_singleton.1 hl).trans (List.mem_singleton.1 hm).symm) hlm

/-- One more element. -/
theorem Family.insertOne (h : Family lists F s) (hn : ∀ k, elem ∉ (lists k).nodes (F k)) (hys : ys ⊆ elem :: F k)
    (hwhole : s'.Whole ((lists k).nodes ys)) (hin : Within (elem :: (lists k).nodes (F k)) s s') :
    Leaves lists F s [k] (Function.update F k ys) s' := by
  refine h.stepOne hin hwhole (h.apart_cons hn) fun a ha => h.apart_cons hn a ?_
  have := @hys a
  simp only [KList.nodes, List.mem_cons, List.mem_append] at ha this ⊢
  grind

/-- Some of the elements. -/
theorem Family.keepSome (h : Family lists F s) (hys : ys ⊆ F k) (hwhole : s'.Whole ((lists k).nodes ys))
    (hin : Within ((lists k).nodes (F k)) s s') : Leaves lists F s [k] (Function.update F k ys) s' := by
  have hall : ∀ a ∈ (lists k).nodes (F k), Apart lists F [k] a := fun a ha => h.apart (List.mem_singleton.2 rfl) ha
  refine h.stepOne hin hwhole hall fun a ha => hall a ?_
  have := @hys a
  simp only [KList.nodes, List.mem_cons, List.mem_append] at ha this ⊢
  grind

/-- A call about two lists. -/
theorem Family.stepTwo (h : Family lists F s) (hjk : j ≠ k) (hin : Within zs s s') (hj : s'.Whole ((lists j).nodes xs))
    (hk : s'.Whole ((lists k).nodes ys)) (hzs : ∀ a ∈ zs, Apart lists F [j, k] a)
    (hxs : ∀ a ∈ (lists j).nodes xs, Apart lists F [j, k] a) (hys : ∀ a ∈ (lists k).nodes ys, Apart lists F [j, k] a)
    (hdis : ∀ a ∈ (lists j).nodes xs, a ∉ (lists k).nodes ys) :
    Leaves lists F s [j, k] (Function.update (Function.update F k ys) j xs) s' := by
  have hvalk : Function.update (Function.update F k ys) j xs k = ys := by
    rw [Function.update_of_ne hjk.symm, Function.update_self]
  refine h.step hin hzs ?_ ?_ ?_ ?_
  · intro l hl
    obtain ⟨hlj, hl⟩ := not_or.1 (mt List.mem_cons.2 hl)
    rw [Function.update_of_ne hlj, Function.update_of_ne (mt List.mem_singleton.2 hl)]
  · intro l hl
    rcases List.mem_pair.1 hl with rfl | rfl
    · rwa [Function.update_self]
    · rwa [hvalk]
  · intro l hl
    rcases List.mem_pair.1 hl with rfl | rfl
    · rwa [Function.update_self]
    · rwa [hvalk]
  · intro l hl m hm hlm a
    rcases List.mem_pair.1 hl with rfl | rfl <;> rcases List.mem_pair.1 hm with rfl | rfl
    · exact absurd rfl hlm
    · rw [Function.update_self, hvalk]
      exact hdis a
    · rw [Function.update_self, hvalk]
      exact fun ha hb => hdis a hb ha
    · exact absurd rfl hlm

/-! ### The functions on a family -/

variable [DecidableEq ι] {u v x y seg : List ι} {before first last : ι} {fuel : ℕ}

/-- **`list_insert`**. -/
theorem Family.wp_listInsert (h : Family lists F s) (hF : F k = u ++ v) (hb : (v ++ [(lists k).tail]).head? = some before)
    (hn : ∀ k, elem ∉ (lists k).nodes (F k)) :
    wp (listInsert before elem) (fun _ s' => Leaves lists F s [k] (Function.update F k (u ++ elem :: v)) s') (fun _ => False) s := by
  obtain ⟨w, hw⟩ := List.head?_eq_some_iff.1 hb
  have hnodes : (lists k).nodes (F k) = ((lists k).head :: u) ++ before :: w := by
    rw [hF, KList.nodes_append, hw]
  have hwhole := h.whole k
  have hnk := hn k
  rw [hnodes] at hwhole hnk
  refine wp_post (listInsert_spec hwhole (List.cons_ne_nil _ _) hnk) fun _ s' hpost => ?_
  obtain ⟨hwhole', hin⟩ := hpost
  rw [← hnodes] at hin
  refine h.insertOne hn ?_ ?_ hin
  · rw [hF]
    intro a ha
    simp only [List.mem_cons, List.mem_append] at ha ⊢
    grind
  · rw [KList.nodes_append]
    change s'.Whole (((lists k).head :: u) ++ elem :: (v ++ [(lists k).tail]))
    rw [hw]
    exact hwhole'

/-- **`list_push_front`**. -/
theorem Family.wp_listPushFront (h : Family lists F s) (hn : ∀ k, elem ∉ (lists k).nodes (F k)) :
    wp (listPushFront (lists k) elem) (fun _ s' => Leaves lists F s [k] (Function.update F k (elem :: F k)) s') (fun _ => False) s := by
  refine wp_post (listPushFront_spec (h.whole k) (hn k)) fun _ _ hpost => ?_
  obtain ⟨hwhole, hin⟩ := hpost
  exact h.insertOne hn (List.Subset.refl _) hwhole hin

/-- **`list_push_back`**. -/
theorem Family.wp_listPushBack (h : Family lists F s) (hn : ∀ k, elem ∉ (lists k).nodes (F k)) :
    wp (listPushBack (lists k) elem) (fun _ s' => Leaves lists F s [k] (Function.update F k (F k ++ [elem])) s') (fun _ => False) s := by
  refine wp_post (listPushBack_spec (h.whole k) (hn k)) fun _ _ hpost => ?_
  obtain ⟨hwhole, hin⟩ := hpost
  refine h.insertOne hn ?_ hwhole hin
  intro a ha
  simp only [List.mem_cons, List.mem_append] at ha ⊢
  grind

/-- **`list_remove`**. -/
theorem Family.wp_listRemove (h : Family lists F s) (hF : F k = u ++ elem :: v) :
    wp (listRemove elem) (fun r s' => r = (v ++ [(lists k).tail]).head? ∧ Leaves lists F s [k] (Function.update F k (u ++ v)) s')
      (fun _ => False) s := by
  obtain ⟨b, w, hw⟩ := List.exists_cons_of_ne_nil (show v ++ [(lists k).tail] ≠ [] by simp)
  have hnodes : (lists k).nodes (F k) = ((lists k).head :: u) ++ elem :: b :: w := by
    rw [hF, KList.nodes_append, ← hw]
    rfl
  have hwhole := h.whole k
  rw [hnodes] at hwhole
  refine wp_post (listRemove_spec hwhole (List.cons_ne_nil _ _)) fun r s' hpost => ?_
  obtain ⟨hr, hwhole', hin⟩ := hpost
  refine ⟨?_, ?_⟩
  · rw [hw]
    exact hr
  · rw [← hnodes] at hin
    refine h.keepSome ?_ ?_ hin
    · rw [hF]
      exact (List.Sublist.append_left (List.sublist_cons_self elem v) u).subset
    · rw [KList.nodes_append, hw]
      exact hwhole'

/-- **`list_pop_front`**. -/
theorem Family.wp_listPopFront (h : Family lists F s) (hF : F k = elem :: v) :
    wp (listPopFront (lists k)) (fun r s' => r = elem ∧ Leaves lists F s [k] (Function.update F k v) s') (fun _ => False) s := by
  have hwhole := h.whole k
  rw [hF] at hwhole
  refine wp_post (listPopFront_spec hwhole) fun r s' hpost => ?_
  obtain ⟨hr, hwhole', hin⟩ := hpost
  refine ⟨hr, ?_⟩
  rw [← hF] at hin
  refine h.keepSome ?_ hwhole' hin
  rw [hF]
  exact List.subset_cons_self elem v

/-- **`list_pop_back`**. -/
theorem Family.wp_listPopBack (h : Family lists F s) (hF : F k = u ++ [elem]) :
    wp (listPopBack (lists k)) (fun r s' => r = elem ∧ Leaves lists F s [k] (Function.update F k u) s') (fun _ => False) s := by
  have hwhole := h.whole k
  rw [hF] at hwhole
  refine wp_post (listPopBack_spec hwhole) fun r s' hpost => ?_
  obtain ⟨hr, hwhole', hin⟩ := hpost
  refine ⟨hr, ?_⟩
  rw [← hF] at hin
  refine h.keepSome ?_ hwhole' hin
  rw [hF]
  exact List.subset_append_left u [elem]

/-- **`list_reverse`**. -/
theorem Family.wp_listReverse (h : Family lists F s) (hf : (F k).length < fuel) :
    wp (listReverse fuel (lists k)) (fun _ s' => Leaves lists F s [k] (Function.update F k (F k).reverse) s') (fun _ => False) s := by
  refine wp_post (listReverse_spec (h.whole k) hf) fun _ _ hpost => ?_
  obtain ⟨hwhole, hin⟩ := hpost
  exact h.keepSome (fun _ ha => List.mem_reverse.1 ha) hwhole hin

/-- **`list_insert_ordered`**. -/
theorem Family.wp_listInsertOrdered (h : Family lists F s) (hn : ∀ k, elem ∉ (lists k).nodes (F k)) (hf : (F k).length < fuel) :
    wp (listInsertOrdered less fuel (lists k) elem)
      (fun _ s' => Leaves lists F s [k]
        (Function.update F k ((F k).takeWhile (fun b => !less elem b) ++ elem :: (F k).dropWhile fun b => !less elem b)) s')
      (fun _ => False) s := by
  refine wp_post (listInsertOrdered_spec (h.whole k) (hn k) hf) fun _ _ hpost => ?_
  obtain ⟨hwhole, hin⟩ := hpost
  refine h.insertOne hn ?_ hwhole hin
  intro a ha
  rcases List.mem_append.1 ha with ha | ha
  · exact List.mem_cons_of_mem elem ((List.takeWhile_sublist _).subset ha)
  · rcases List.mem_cons.1 ha with rfl | ha
    · exact List.mem_cons_self
    · exact List.mem_cons_of_mem elem ((List.dropWhile_sublist _).subset ha)

/-! ### `list_splice` -/

/-- No elements are moved. -/
theorem listSplice_none (h : s.Whole (x ++ before :: y)) (hx : x ≠ []) :
    wp (listSplice before first first) (fun _ s' => s' = s) (fun _ => False) s := by
  obtain ⟨x, p, rfl⟩ := (List.eq_nil_or_concat' x).resolve_left hx
  have hprev : s.prev before = some p := Links.Whole.prev_eq (u := x) (v := y) (by simpa using h)
  rw [listSplice, wp_bind, wp_gets, wp_bind, id, wp_assert (check_of_prev hprev), if_pos rfl, wp_pure]

/-- **`list_splice`** within a list: the elements `seg` are moved to another place between the others. -/
theorem Family.wp_listSplice (h : Family lists F s) (hF : F k = u ++ (seg ++ v)) (hxy : x ++ y = u ++ v)
    (hfirst : (seg ++ (v ++ [(lists k).tail])).head? = some first) (hlast : (v ++ [(lists k).tail]).head? = some last)
    (hbefore : (y ++ [(lists k).tail]).head? = some before) :
    wp (listSplice before first last) (fun _ s' => Leaves lists F s [k] (Function.update F k (x ++ (seg ++ y))) s')
      (fun _ => False) s := by
  have hwhole := h.whole_append hF
  rw [List.append_assoc seg] at hwhole
  cases hseg : seg with
  | nil =>
    subst hseg
    obtain rfl : first = last := Option.some.inj (hfirst.symm.trans hlast)
    obtain ⟨w, hw⟩ := List.head?_eq_some_iff.1 hbefore
    have hsplit := h.whole_append (hF.trans hxy.symm)
    rw [hw] at hsplit
    refine wp_post (listSplice_none hsplit (List.cons_ne_nil _ _)) fun _ s' hs' => ?_
    subst hs'
    rw [List.nil_append, hxy, ← List.nil_append v, ← hF, Function.update_eq_self]
    exact h.leaves [k]
  | cons f rest =>
    rw [← hseg]
    have hhead : seg.head? = some first := by
      rw [hseg] at hfirst ⊢
      exact hfirst
    have hdest : ((lists k).head :: x) ++ (y ++ [(lists k).tail]) = ((lists k).head :: u) ++ (v ++ [(lists k).tail]) := by
      rw [← KList.nodes_append, ← KList.nodes_append, hxy]
    refine wp_post (listSplice_moves hwhole (List.cons_ne_nil _ _) hhead hlast (Or.inl hdest) (List.cons_ne_nil _ _) hbefore)
      fun _ s' hpost => ?_
    obtain ⟨hmoved, _, hin⟩ := hpost
    rw [hdest, ← List.append_assoc seg, ← KList.nodes_append, ← KList.nodes_append, ← hF] at hin
    refine h.keepSome ?_ ?_ (hin.mono ?_)
    · intro a ha
      have hmem : a ∈ x ++ y ↔ a ∈ u ++ v := by rw [hxy]
      rw [hF]
      simp only [List.mem_append] at ha hmem ⊢
      grind
    · rw [KList.nodes_append, List.append_assoc]
      exact hmoved
    · intro a ha
      rw [hF] at ha ⊢
      simp only [KList.nodes, List.mem_append, List.mem_cons] at ha ⊢
      grind

/-- **`list_splice`** from another list. -/
theorem Family.wp_listSpliceFrom (h : Family lists F s) (hjk : j ≠ k) (hk : F k = u ++ (seg ++ v)) (hj : F j = x ++ y)
    (hfirst : (seg ++ (v ++ [(lists k).tail])).head? = some first) (hlast : (v ++ [(lists k).tail]).head? = some last)
    (hbefore : (y ++ [(lists j).tail]).head? = some before) :
    wp (listSplice before first last)
      (fun _ s' => Leaves lists F s [j, k] (Function.update (Function.update F k (u ++ v)) j (x ++ (seg ++ y))) s')
      (fun _ => False) s := by
  have hwhole := h.whole_append hk
  have hwholeJ := h.whole_append hj
  rw [List.append_assoc seg] at hwhole
  cases hseg : seg with
  | nil =>
    subst hseg
    obtain rfl : first = last := Option.some.inj (hfirst.symm.trans hlast)
    obtain ⟨w, hw⟩ := List.head?_eq_some_iff.1 hbefore
    rw [hw] at hwholeJ
    refine wp_post (listSplice_none hwholeJ (List.cons_ne_nil _ _)) fun _ s' hs' => ?_
    subst hs'
    rw [List.nil_append, ← hj, ← List.nil_append v, ← hk, Function.update_eq_self, Function.update_eq_self]
    exact h.leaves [j, k]
  | cons f rest =>
    rw [← hseg]
    have hhead : seg.head? = some first := by
      rw [hseg] at hfirst ⊢
      exact hfirst
    have hkN : (lists k).nodes (F k) = ((lists k).head :: u) ++ (seg ++ (v ++ [(lists k).tail])) := by
      rw [hk, KList.nodes_append, List.append_assoc]
    have hjN : (lists j).nodes (F j) = ((lists j).head :: x) ++ (y ++ [(lists j).tail]) := by
      rw [hj, KList.nodes_append]
    have hdis : ∀ a ∈ ((lists j).head :: x) ++ (y ++ [(lists j).tail]), a ∉ ((lists k).head :: u) ++ (seg ++ (v ++ [(lists k).tail])) := by
      rw [← hkN, ← hjN]
      exact h.disjoint j k hjk
    have hin : ∀ a ∈ (lists k).nodes (F k) ++ (lists j).nodes (F j), Apart lists F [j, k] a := by
      intro a ha
      rcases List.mem_append.1 ha with ha | ha
      · exact h.apart (List.mem_pair.2 (Or.inr rfl)) ha
      · exact h.apart (List.mem_pair.2 (Or.inl rfl)) ha
    refine wp_post (listSplice_moves hwhole (List.cons_ne_nil _ _) hhead hlast (Or.inr ⟨hwholeJ, hdis⟩) (List.cons_ne_nil _ _) hbefore)
      fun _ s' hpost => ?_
    obtain ⟨hmoved, hrest, hwithin⟩ := hpost
    rw [← hkN, ← hjN] at hwithin
    refine h.stepTwo hjk hwithin ?_ ?_ hin (fun a ha => hin a ?_) (fun a ha => hin a ?_) fun a ha hak => ?_
    · rw [KList.nodes_append, List.append_assoc]
      exact hmoved
    · rw [KList.nodes_append]
      exact hrest hdis
    · rw [hk, hj]
      simp only [KList.nodes, List.mem_append, List.mem_cons] at ha ⊢
      grind
    · rw [hk, hj]
      simp only [KList.nodes, List.mem_append, List.mem_cons] at ha ⊢
      grind
    · have hnd := hwhole.nodup
      have := hdis a
      simp only [KList.nodes, List.mem_append, List.mem_cons, List.cons_append, List.nodup_cons, List.nodup_append] at *
      grind

/-! ### `list_unique` -/

/-- **`list_unique`** without a list of duplicates. -/
theorem Family.wp_listUnique (h : Family lists F s) (hf : (F k).length ≤ fuel) :
    wp (listUnique less fuel (lists k) none)
      (fun _ s' => Leaves lists F s [k] (Function.update F k ((F k).destutter (Differs less))) s') (fun _ => False) s := by
  have hspec := @listUnique_spec _ _ _ _ _ _ less none [] (h.whole k) (fun _ hd => by cases hd)
    (fun _ ha => absurd ha List.not_mem_nil) hf
  refine wp_post hspec fun _ s' hpost => ?_
  obtain ⟨hwhole, _, hin⟩ := hpost
  refine h.keepSome ((List.destutter_sublist _ _).subset) hwhole ?_
  simpa [duplicateNodes] using hin

/-- **`list_unique`** with another list for the duplicates. -/
theorem Family.wp_listUniqueDuplicates (h : Family lists F s) (hjk : j ≠ k) (hf : (F k).length ≤ fuel) :
    wp (listUnique less fuel (lists k) (some (lists j)))
      (fun _ s' => Leaves lists F s [j, k]
        (Function.update (Function.update F k ((F k).destutter (Differs less))) j (F j ++ repeated less (F k))) s')
      (fun _ => False) s := by
  have hspec := @listUnique_spec _ _ _ _ _ _ less (some (lists j)) (F j) (h.whole k)
    (fun _ hd => Option.mem_some.1 hd ▸ h.whole j) (h.disjoint j k hjk) hf
  have hperm := @unique_perm _ less (F k)
  have hnd : (F k).Nodup := (List.nodup_append.1 (List.nodup_cons.1 (h.whole k).nodup).2).1
  have hkeep := (List.nodup_append.1 (hperm.nodup_iff.2 hnd)).2.2
  have hmem : ∀ a, a ∈ F k ↔ a ∈ (F k).destutter (Differs less) ∨ a ∈ repeated less (F k) := fun a => by
    rw [← hperm.mem_iff, List.mem_append]
  have hin : ∀ a ∈ (lists k).nodes (F k) ++ (lists j).nodes (F j), Apart lists F [j, k] a := by
    intro a ha
    rcases List.mem_append.1 ha with ha | ha
    · exact h.apart (List.mem_pair.2 (Or.inr rfl)) ha
    · exact h.apart (List.mem_pair.2 (Or.inl rfl)) ha
  have hdis := h.disjoint j k hjk
  refine wp_post hspec fun _ s' hpost => ?_
  obtain ⟨hwhole, hdup, hwithin⟩ := hpost
  refine h.stepTwo hjk hwithin (hdup _ rfl) hwhole hin (fun a ha => hin a ?_)
    (fun a ha => hin a ?_) fun a ha hak => ?_
  · have := hmem a
    simp only [KList.nodes, List.mem_cons, List.mem_append] at ha ⊢
    grind
  · have := hmem a
    simp only [KList.nodes, List.mem_cons, List.mem_append] at ha ⊢
    grind
  · have := hmem a
    have := hdis a
    have := hkeep a
    have := (h.whole k).nodup
    simp only [KList.nodes, List.mem_cons, List.mem_append, List.nodup_cons, List.nodup_append] at *
    grind

/-! ### All functions -/

/-- **The functions of a family of lists**: from each list both traversals find the same elements, one way and the other, and end
at the elements of its own. Every call returns, and leaves such a family: the lists that it is about have the elements that the
operation on sequences gives, and the others are as they were. -/
theorem list_operations (less : ι → ι → Bool) (h : Family lists F s) :
    (∀ k n, (F k).length + 1 < n →
      s.forward n (lists k).head = (lists k).nodes (F k) ∧ s.backward n (lists k).tail = ((lists k).nodes (F k)).reverse) ∧
    -- `list_insert`, `list_push_front` and `list_push_back` of an element that is in no list
    (∀ elem, (∀ k, elem ∉ (lists k).nodes (F k)) →
      (∀ k u v before, F k = u ++ v → (v ++ [(lists k).tail]).head? = some before →
        wp (listInsert before elem) (fun _ s' => Leaves lists F s [k] (Function.update F k (u ++ elem :: v)) s') (fun _ => False) s) ∧
      ∀ k,
        wp (listPushFront (lists k) elem) (fun _ s' => Leaves lists F s [k] (Function.update F k (elem :: F k)) s')
          (fun _ => False) s ∧
        wp (listPushBack (lists k) elem) (fun _ s' => Leaves lists F s [k] (Function.update F k (F k ++ [elem])) s')
          (fun _ => False) s) ∧
    -- `list_remove`, `list_pop_front` and `list_pop_back`
    (∀ k u elem v, F k = u ++ elem :: v →
      wp (listRemove elem) (fun r s' => r = (v ++ [(lists k).tail]).head? ∧ Leaves lists F s [k] (Function.update F k (u ++ v)) s')
        (fun _ => False) s) ∧
    (∀ k elem v, F k = elem :: v →
      wp (listPopFront (lists k)) (fun r s' => r = elem ∧ Leaves lists F s [k] (Function.update F k v) s') (fun _ => False) s) ∧
    (∀ k u elem, F k = u ++ [elem] →
      wp (listPopBack (lists k)) (fun r s' => r = elem ∧ Leaves lists F s [k] (Function.update F k u) s') (fun _ => False) s) ∧
    -- `list_splice` of a range to another place in its list, and from another list
    (∀ k u seg v x y before first last, F k = u ++ (seg ++ v) → x ++ y = u ++ v →
      (seg ++ (v ++ [(lists k).tail])).head? = some first → (v ++ [(lists k).tail]).head? = some last →
      (y ++ [(lists k).tail]).head? = some before →
      wp (listSplice before first last) (fun _ s' => Leaves lists F s [k] (Function.update F k (x ++ (seg ++ y))) s')
        (fun _ => False) s) ∧
    (∀ j k u seg v x y before first last, j ≠ k → F k = u ++ (seg ++ v) → F j = x ++ y →
      (seg ++ (v ++ [(lists k).tail])).head? = some first → (v ++ [(lists k).tail]).head? = some last →
      (y ++ [(lists j).tail]).head? = some before →
      wp (listSplice before first last)
        (fun _ s' => Leaves lists F s [j, k] (Function.update (Function.update F k (u ++ v)) j (x ++ (seg ++ y))) s')
        (fun _ => False) s) ∧
    -- `list_reverse`
    (∀ k fuel, (F k).length < fuel →
      wp (listReverse fuel (lists k)) (fun _ s' => Leaves lists F s [k] (Function.update F k (F k).reverse) s')
        (fun _ => False) s) ∧
    -- `list_insert_ordered`: before the first element that is greater, which in a list in order is behind all that are not
    (∀ k elem fuel, (∀ k, elem ∉ (lists k).nodes (F k)) → (F k).length < fuel →
      let before := (F k).takeWhile fun b => !less elem b
      let behind := (F k).dropWhile fun b => !less elem b
      wp (listInsertOrdered less fuel (lists k) elem)
        (fun _ s' => Leaves lists F s [k] (Function.update F k (before ++ elem :: behind)) s') (fun _ => False) s ∧
      before ++ behind = F k ∧
      (IsStrictWeakOrder ι (fun a b => less a b = true) → ((F k).Pairwise fun a b => less b a = false) →
        ((before ++ elem :: behind).Pairwise fun a b => less b a = false) ∧
          (∀ b ∈ before, less elem b = false) ∧ ∀ b ∈ behind, less elem b = true)) ∧
    -- `list_unique`, without and with another list for the duplicates
    (∀ k fuel, (F k).length ≤ fuel →
      wp (listUnique less fuel (lists k) none)
        (fun _ s' => Leaves lists F s [k] (Function.update F k ((F k).destutter (Differs less))) s') (fun _ => False) s) ∧
    (∀ j k fuel, j ≠ k → (F k).length ≤ fuel →
      wp (listUnique less fuel (lists k) (some (lists j)))
        (fun _ s' => Leaves lists F s [j, k]
          (Function.update (Function.update F k ((F k).destutter (Differs less))) j (F j ++ repeated less (F k))) s')
        (fun _ => False) s) := by
  refine ⟨?_, ?_, ?_, ?_, ?_, ?_, ?_, ?_, ?_, ?_, ?_⟩
  · intro k n hn
    exact (h.whole k).traversals hn
  · intro elem hn
    constructor
    · intro k u v before hF hb
      exact h.wp_listInsert hF hb hn
    · intro k
      exact ⟨h.wp_listPushFront hn, h.wp_listPushBack hn⟩
  · intro k u elem v hF
    exact h.wp_listRemove hF
  · intro k elem v hF
    exact h.wp_listPopFront hF
  · intro k u elem hF
    exact h.wp_listPopBack hF
  · intro k u seg v x y before first last hF hxy hfirst hlast hb
    exact h.wp_listSplice hF hxy hfirst hlast hb
  · intro j k u seg v x y before first last hjk hk hj hfirst hlast hb
    exact h.wp_listSpliceFrom hjk hk hj hfirst hlast hb
  · intro k fuel hf
    exact h.wp_listReverse hf
  · intro k elem fuel hn hf
    refine ⟨h.wp_listInsertOrdered hn hf, List.takeWhile_append_dropWhile, fun hless hsorted => ?_⟩
    exact insertOrdered_pairwise hsorted
  · intro k fuel hf
    exact h.wp_listUnique hf
  · intro j k fuel hjk hf
    exact h.wp_listUniqueDuplicates hjk hf

/-- The list of the elements 5, 4 and 1, between 10 and 11, and the list of the element 7, between 20 and 21. -/
def twoLinks : Links ℕ where
  prev n := if n = 21 then some 7 else if n = 7 then some 20 else threeLinks.prev n
  next n := if n = 20 then some 7 else if n = 7 then some 21 else threeLinks.next n

/-- Their own elements. -/
def twoLists (k : Bool) : KList ℕ := if k then ⟨20, 21⟩ else ⟨10, 11⟩

theorem twoLinks_family : Family twoLists (fun k => if k then [7] else [5, 4, 1]) twoLinks := by
  constructor
  · rintro (_ | _)
    · refine ⟨?_, by decide, ?_, ?_⟩ <;> simp [Links.Linked, KList.nodes, twoLists, twoLinks, threeLinks]
    · refine ⟨?_, by decide, ?_, ?_⟩ <;> simp [Links.Linked, KList.nodes, twoLists, twoLinks, threeLinks]
  · decide

theorem list_operations_two :
    (twoLinks.forward 9 10 = [10, 5, 4, 1, 11] ∧ twoLinks.backward 9 11 = [11, 1, 4, 5, 10]) ∧
    wp (listInsert 4 9) (fun _ s' => s'.Whole [10, 5, 9, 4, 1, 11] ∧ s'.Whole [20, 7, 21]) (fun _ => False) twoLinks ∧
    wp (listRemove 4) (fun r s' => r = some 1 ∧ s'.Whole [10, 5, 1, 11]) (fun _ => False) twoLinks ∧
    wp (listSplice 4 7 21) (fun _ s' => s'.Whole [10, 5, 7, 4, 1, 11] ∧ s'.Whole [20, 21]) (fun _ => False) twoLinks ∧
    wp (listReverse 4 ⟨10, 11⟩) (fun _ s' => s'.Whole [10, 1, 4, 5, 11] ∧ s'.Whole [20, 7, 21]) (fun _ => False) twoLinks ∧
    wp (listUnique (fun a b => decide (a / 2 < b / 2)) 3 ⟨10, 11⟩ (some ⟨20, 21⟩))
      (fun _ s' => s'.Whole [10, 5, 1, 11] ∧ s'.Whole [20, 7, 4, 21]) (fun _ => False) twoLinks := by
  obtain ⟨htraverse, hfresh, hremove, -, -, -, hfrom, hreverse, -, -, hunique⟩ :=
    list_operations (fun a b => decide (a / 2 < b / 2)) twoLinks_family
  refine ⟨htraverse false 9 (by decide), ?_, ?_, ?_, ?_, ?_⟩
  · refine wp_post ((hfresh 9 (by decide)).1 false [5] [4, 1] 4 rfl rfl) fun _ s' hs => ?_
    exact ⟨hs.family.whole false, hs.family.whole true⟩
  · refine wp_post (hremove false [5] 4 [1] rfl) fun _ s' hpost => ?_
    obtain ⟨hr, hs⟩ := hpost
    exact ⟨hr, hs.family.whole false⟩
  · refine wp_post (hfrom false true [] [7] [] [5] [4, 1] 4 7 21 (by decide) rfl rfl rfl rfl rfl) fun _ s' hs => ?_
    exact ⟨hs.family.whole false, hs.family.whole true⟩
  · refine wp_post (hreverse false 4 (by decide)) fun _ s' hs => ?_
    exact ⟨hs.family.whole false, hs.family.whole true⟩
  · refine wp_post (hunique true false 3 (by decide) (by decide)) fun _ s' hs => ?_
    exact ⟨hs.family.whole false, hs.family.whole true⟩

end

end Pintos.LinkedList
