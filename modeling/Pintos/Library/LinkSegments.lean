import Pintos.Library.Links

/-!
# Segments of linked nodes

A segment is taken out of a list (`Whole.unlink`) and put into one (`Whole.link`), where it
is linked as it was; a list is turned around (`Whole.reversed`). Lists of other nodes are
not affected (`Whole.frame`).
-/

namespace Pintos.Library.Links

variable {ι : Type} {s s' : Links ι} {xs u v seg : List ι} {a b p q f l y : ι}

/-- Links of other nodes do not matter. -/
theorem Whole.frame (h : s.Whole xs) (hnext : ∀ a ∈ xs, s'.next a = s.next a) (hprev : ∀ a ∈ xs, s'.prev a = s.prev a) :
    s'.Whole xs := by
  constructor
  · exact h.linked.congr h.nodup (fun a ha _ => hnext a ha) fun a ha _ => hprev a ha
  · exact h.nodup
  · intro a ha
    rw [hprev a (List.mem_of_head? ha)]
    exact h.first a ha
  · intro a ha
    rw [hnext a (List.mem_of_getLast? ha)]
    exact h.last a ha

/-! ### Traversals -/

/-- The nodes from `a` on, as they are found by the links to the next ones; at most `n` of them. -/
def forward (s : Links ι) : ℕ → ι → List ι
  | 0, _ => []
  | n + 1, a =>
    match s.next a with
    | some b => a :: forward s n b
    | none => [a]

/-- The nodes before `a`, and `a` first, as they are found by the links to the previous ones. -/
def backward (s : Links ι) : ℕ → ι → List ι
  | 0, _ => []
  | n + 1, a =>
    match s.prev a with
    | some b => a :: backward s n b
    | none => [a]

theorem forward_eq (h : s.Linked (a :: xs)) (hlast : ∀ b ∈ (a :: xs).getLast?, s.next b = none) {n : ℕ} (hn : xs.length < n) :
    s.forward n a = a :: xs := by
  induction xs generalizing a n with
  | nil =>
    obtain ⟨n, rfl⟩ := Nat.exists_eq_succ_of_ne_zero (Nat.ne_zero_of_lt hn)
    rw [forward, hlast a rfl]
  | cons b xs ih =>
    obtain ⟨n, rfl⟩ := Nat.exists_eq_succ_of_ne_zero (Nat.ne_zero_of_lt hn)
    obtain ⟨⟨hab, -⟩, htail⟩ := List.isChain_cons_cons.1 h
    rw [forward, hab]
    dsimp only
    rw [ih htail (by simpa [List.getLast?_cons_cons] using hlast) (Nat.lt_of_succ_lt_succ hn)]

theorem backward_eq (h : s.Linked (xs ++ [a])) (hfirst : ∀ b ∈ (xs ++ [a]).head?, s.prev b = none) {n : ℕ} (hn : xs.length < n) :
    s.backward n a = a :: xs.reverse := by
  induction xs using List.reverseRecOn generalizing a n with
  | nil =>
    obtain ⟨n, rfl⟩ := Nat.exists_eq_succ_of_ne_zero (Nat.ne_zero_of_lt hn)
    rw [backward, hfirst a rfl]
    rfl
  | append_singleton xs b ih =>
    obtain ⟨n, rfl⟩ := Nat.exists_eq_succ_of_ne_zero (Nat.ne_zero_of_lt hn)
    obtain ⟨hinit, -, hlink⟩ := linked_append.1 h
    have hab := (hlink b (by simp) a rfl).2
    rw [backward, hab]
    dsimp only
    rw [ih hinit (by simpa using hfirst) (by simpa using hn), List.reverse_append, List.reverse_singleton, List.singleton_append]

/-- **The traversals** of a list, from its first node on and from its last one back, are reverses of each other. -/
theorem Whole.traversals (h : s.Whole (a :: (xs ++ [b]))) {n : ℕ} (hn : xs.length + 1 < n) :
    s.forward n a = a :: (xs ++ [b]) ∧ s.backward n b = (a :: (xs ++ [b])).reverse := by
  constructor
  · exact forward_eq h.linked h.last (by simpa using hn)
  · have hlinked : s.Linked ((a :: xs) ++ [b]) := h.linked
    have hback := backward_eq hlinked h.first (n := n) (by simpa using hn)
    rw [hback, ← List.cons_append, List.reverse_append, List.reverse_singleton, List.singleton_append]

/-! ### Taking out and putting in -/

section Updates

variable [DecidableEq ι]

/-- The nodes between `q` and `y` are left out. -/
def unlink (q y : ι) (s : Links ι) : Links ι := (s.setNext q (some y)).setPrev y (some q)

/-- The nodes from `f` to `l` are put between `p` and `b`. -/
def link (p b f l : ι) (s : Links ι) : Links ι :=
  (((s.setPrev f (some p)).setNext l (some b)).setNext p (some f)).setPrev b (some l)

theorem unlink_next {c : ι} (hq : c ≠ q) : (s.unlink q y).next c = s.next c := by
  simp [unlink, Function.update_of_ne, hq]

theorem unlink_prev {c : ι} (hy : c ≠ y) : (s.unlink q y).prev c = s.prev c := by
  simp [unlink, Function.update_of_ne, hy]

theorem link_next {c : ι} (hp : c ≠ p) (hl : c ≠ l) : (s.link p b f l).next c = s.next c := by
  simp [link, Function.update_of_ne, hp, hl]

theorem link_prev {c : ι} (hb : c ≠ b) (hf : c ≠ f) : (s.link p b f l).prev c = s.prev c := by
  simp [link, Function.update_of_ne, hb, hf]

/-- **A segment is taken out.** -/
theorem Whole.unlink (h : s.Whole (u ++ (seg ++ v))) (hq : u.getLast? = some q) (hy : v.head? = some y) :
    (s.unlink q y).Whole (u ++ v) ∧ (s.unlink q y).Linked seg := by
  obtain ⟨hlu, hlsv, -⟩ := linked_append.1 h.linked
  obtain ⟨hlseg, hlv, -⟩ := linked_append.1 hlsv
  obtain ⟨hu, hsegv, dsegv⟩ := List.nodup_append.1 h.nodup
  obtain ⟨hseg, hv, hsv⟩ := List.nodup_append.1 hsegv
  have hus : ∀ a ∈ u, ∀ c ∈ seg, a ≠ c := fun a ha c hc => dsegv a ha c (List.mem_append_left _ hc)
  have huv : ∀ a ∈ u, ∀ c ∈ v, a ≠ c := fun a ha c hc => dsegv a ha c (List.mem_append_right _ hc)
  have mq := List.mem_of_getLast? hq
  have my := List.mem_of_head? hy
  have hne : u ≠ [] := List.ne_nil_of_mem mq
  have hne' : v ≠ [] := List.ne_nil_of_mem my
  refine ⟨⟨linked_append.2 ⟨?_, ?_, ?_⟩, ?_, ?_, ?_⟩, ?_⟩
  · refine hlu.congr hu (fun a ha hlast => ?_) fun a ha _ => ?_
    · exact unlink_next fun heq => hlast (heq ▸ hq)
    · exact unlink_prev (huv a ha y my)
  · refine hlv.congr hv (fun a ha _ => ?_) fun a ha hhead => ?_
    · exact unlink_next (huv q mq a ha).symm
    · exact unlink_prev fun heq => hhead (heq ▸ hy)
  · rw [hq, hy]
    rintro _ ⟨⟩ _ ⟨⟩
    simp [Links.unlink]
  · exact List.nodup_append.2 ⟨hu, hv, huv⟩
  · intro a ha
    rw [List.head?_append_of_ne_nil _ hne] at ha
    rw [unlink_prev (huv a (List.mem_of_head? ha) y my)]
    apply h.first
    rwa [List.head?_append_of_ne_nil _ hne]
  · intro a ha
    rw [List.getLast?_append_of_ne_nil _ hne'] at ha
    rw [unlink_next (huv q mq a (List.mem_of_getLast? ha)).symm]
    apply h.last
    rwa [List.getLast?_append_of_ne_nil _ (by simp [hne']), List.getLast?_append_of_ne_nil _ hne']
  · refine hlseg.congr hseg (fun a ha _ => ?_) fun a ha _ => ?_
    · exact unlink_next (hus q mq a ha).symm
    · exact unlink_prev (hsv a ha y my)

/-- **A segment is put in.** -/
theorem Whole.link (h : s.Whole (u ++ v)) (hseg : s.Linked seg) (hnd : seg.Nodup) (hdis : ∀ a ∈ seg, a ∉ u ++ v)
    (hp : u.getLast? = some p) (hb : v.head? = some b) (hf : seg.head? = some f) (hl : seg.getLast? = some l) :
    (s.link p b f l).Whole (u ++ (seg ++ v)) := by
  obtain ⟨hlu, hlv, -⟩ := linked_append.1 h.linked
  obtain ⟨hu, hv, huv⟩ := List.nodup_append.1 h.nodup
  have hsu : ∀ a ∈ seg, ∀ c ∈ u, a ≠ c := fun a ha c hc heq => hdis a ha (List.mem_append_left _ (heq ▸ hc))
  have hsv : ∀ a ∈ seg, ∀ c ∈ v, a ≠ c := fun a ha c hc heq => hdis a ha (List.mem_append_right _ (heq ▸ hc))
  have mp := List.mem_of_getLast? hp
  have mb := List.mem_of_head? hb
  have mf := List.mem_of_head? hf
  have ml := List.mem_of_getLast? hl
  have hne : u ≠ [] := List.ne_nil_of_mem mp
  have hne' : v ≠ [] := List.ne_nil_of_mem mb
  constructor
  · refine linked_append.2 ⟨?_, linked_append.2 ⟨?_, ?_, ?_⟩, ?_⟩
    · refine hlu.congr hu (fun a ha hlast => ?_) fun a ha _ => ?_
      · exact link_next (fun heq => hlast (heq ▸ hp)) (hsu l ml a ha).symm
      · exact link_prev (huv a ha b mb) (hsu f mf a ha).symm
    · refine hseg.congr hnd (fun a ha hlast => ?_) fun a ha hhead => ?_
      · exact link_next (hsu a ha p mp) fun heq => hlast (heq ▸ hl)
      · exact link_prev (hsv a ha b mb) fun heq => hhead (heq ▸ hf)
    · refine hlv.congr hv (fun a ha _ => ?_) fun a ha hhead => ?_
      · exact link_next (huv p mp a ha).symm (hsv l ml a ha).symm
      · exact link_prev (fun heq => hhead (heq ▸ hb)) (hsv f mf a ha).symm
    · rw [hl, hb]
      rintro _ ⟨⟩ _ ⟨⟩
      simp [Links.link, Function.update_of_ne, hsu l ml p mp]
    · rw [hp, List.head?_append, hf]
      rintro _ ⟨⟩ _ ⟨⟩
      simp [Links.link, Function.update_of_ne, hsv f mf b mb]
  · refine List.nodup_append.2 ⟨hu, List.nodup_append.2 ⟨hnd, hv, hsv⟩, fun a ha c hc => ?_⟩
    rcases List.mem_append.1 hc with hc | hc
    · exact (hsu c hc a ha).symm
    · exact huv a ha c hc
  · intro a ha
    rw [List.head?_append_of_ne_nil _ hne] at ha
    have ma := List.mem_of_head? ha
    rw [link_prev (huv a ma b mb) (hsu f mf a ma).symm]
    apply h.first
    rwa [List.head?_append_of_ne_nil _ hne]
  · intro a ha
    rw [List.getLast?_append_of_ne_nil _ (by simp [hne']), List.getLast?_append_of_ne_nil _ hne'] at ha
    have ma := List.mem_of_getLast? ha
    rw [link_next (huv p mp a ma).symm (hsv l ml a ma).symm]
    apply h.last
    rwa [List.getLast?_append_of_ne_nil _ hne']

/-! ### Turning around -/

/-- The two links of a node change places. -/
def turn (a : ι) (s : Links ι) : Links ι := (s.setPrev a (s.next a)).setNext a (s.prev a)

/-- The links of the nodes `xs` have changed places. -/
def turned (xs : List ι) (s : Links ι) : Links ι where
  prev a := if a ∈ xs then s.next a else s.prev a
  next a := if a ∈ xs then s.prev a else s.next a

theorem turned_nil (s : Links ι) : s.turned [] = s := by
  unfold turned
  simp

/-- One node more. -/
theorem turn_turned (ha : a ∉ xs) : (s.turned xs).turn a = s.turned (xs ++ [a]) := by
  unfold turn turned setPrev setNext
  congr 1
  · funext c
    by_cases hc : c = a
    · subst hc
      simp [ha]
    · simp [Function.update_of_ne hc, hc]
  · funext c
    by_cases hc : c = a
    · subst hc
      simp [ha]
    · simp [Function.update_of_ne hc, hc]

/-- Nodes from `l` to `f` are linked to `a`, which is before them, and to `b` behind them. -/
def close (a b f l : ι) (s : Links ι) : Links ι :=
  (((s.setNext a (some l)).setPrev b (some f)).setPrev l (some a)).setNext f (some b)

theorem close_next {c : ι} (hf : c ≠ f) (ha : c ≠ a) : (s.close a b f l).next c = s.next c := by
  simp [close, Function.update_of_ne, hf, ha]

theorem close_prev {c : ι} (hl : c ≠ l) (hb : c ≠ b) : (s.close a b f l).prev c = s.prev c := by
  simp [close, Function.update_of_ne, hl, hb]

/-- **A list is turned around**: the links of the nodes `xs` between `a` and `b` change places, and then the ends are linked. -/
theorem Whole.reversed (h : s.Whole (a :: (xs ++ [b]))) (hf : xs.head? = some f) (hl : xs.getLast? = some l) :
    ((s.turned xs).close a b f l).Whole (a :: (xs.reverse ++ [b])) := by
  have mf := List.mem_of_head? hf
  have ml := List.mem_of_getLast? hl
  obtain ⟨ha, hnd⟩ := List.nodup_cons.1 h.nodup
  obtain ⟨hxs, -, hxb⟩ := List.nodup_append.1 hnd
  have hax : ∀ c ∈ xs, c ≠ a := by
    rintro c hc rfl
    exact ha (List.mem_append_left _ hc)
  have hbx : ∀ c ∈ xs, c ≠ b := fun c hc => hxb c hc b (List.mem_singleton.2 rfl)
  have hab : a ≠ b := by
    rintro rfl
    exact ha (List.mem_append_right _ (List.mem_singleton.2 rfl))
  have hsplit : s.Linked ([a] ++ (xs ++ [b])) := h.linked
  obtain ⟨-, hlxb, -⟩ := linked_append.1 hsplit
  obtain ⟨hlx, -, -⟩ := linked_append.1 hlxb
  -- the nodes between are linked the other way
  have hturned : (s.turned xs).Linked xs.reverse := by
    refine List.isChain_reverse.2 (hlx.imp_of_mem_imp fun c d hc hd hcd => ?_)
    unfold turned
    dsimp only
    rw [if_pos hc, if_pos hd]
    exact ⟨hcd.2, hcd.1⟩
  constructor
  · change Linked _ ([a] ++ (xs.reverse ++ [b]))
    refine linked_append.2 ⟨List.isChain_singleton a, linked_append.2 ⟨?_, List.isChain_singleton b, ?_⟩, ?_⟩
    · refine hturned.congr (List.reverse_perm xs |>.nodup_iff.2 hxs) (fun c hc hlast => ?_) fun c hc hhead => ?_
      · rw [List.getLast?_reverse, hf] at hlast
        exact close_next (fun heq => hlast (congrArg some heq.symm)) (hax c (List.mem_reverse.1 hc))
      · rw [List.head?_reverse, hl] at hhead
        exact close_prev (fun heq => hhead (congrArg some heq.symm)) (hbx c (List.mem_reverse.1 hc))
    · rw [List.getLast?_reverse, hf]
      rintro _ ⟨⟩ _ ⟨⟩
      simp [close, Function.update_of_ne, (hbx l ml).symm]
    · rw [List.head?_append, List.head?_reverse, hl]
      rintro _ ⟨⟩ _ ⟨⟩
      simp [close, Function.update_of_ne, (hax f mf).symm]
  · exact (((List.reverse_perm xs).append_right [b]).cons a).nodup_iff.2 h.nodup
  · rintro _ ⟨⟩
    rw [close_prev (hax l ml).symm hab]
    exact (if_neg fun hc => hax a hc rfl).trans (h.first a rfl)
  · intro c hc
    rw [← List.cons_append, List.getLast?_concat] at hc
    obtain rfl : b = c := Option.some.inj hc
    rw [close_next (hbx f mf).symm hab.symm]
    refine (if_neg fun hc => hbx b hc rfl).trans (h.last b ?_)
    rw [← List.cons_append, List.getLast?_concat]
    rfl

end Updates

end Pintos.Library.Links
