import Pintos.Threads.MallocSpec

/-!
# Runs of `malloc` and `free`

What `free` and `realloc` do, and what holds after any number of calls: where the
blocks in use lie, what `free_cnt` counts, which pages are given back, and that no
assertion fails.
-/

namespace Pintos.Malloc

open Library Library.Prog
open Paging (pgsize)
open Palloc (Flags Group)

section

variable {s s' : Heap} {live : List ℕ} {d : Desc} {p q i n b a : ℕ} {ar : Arena}

/-! ### `malloc` -/

/-- One more block is in use. -/
structure Grants (s s' : Heap) (live : List ℕ) (size r : ℕ) : Prop where
  ne : r ≠ 0
  inv : Inv s' (r :: live)
  busy : Busy s'
  carries : Carries s s' live
  size : size ≤ s'.extent r

/-- What a call that returns a block does: nothing, or one more block is in use. -/
def Obtains (s s' : Heap) (live : List ℕ) (size r : ℕ) : Prop := (r = 0 ∧ s' = s) ∨ Grants s s' live size r

theorem popBlock_grants {rest : List ℕ} {size : ℕ} (h : Inv s live) (hl : s.freeList d = b :: rest)
    (hbusy : ∀ q e m, s.arena q = some ⟨some e, m⟩ → q = b / pgsize * pgsize ∨ m < e.blocksPerArena)
    (hsize : size ≤ d.blockSize) :
    wp (popBlock d) (fun r s' => Grants s s' live size r) (fun _ => False) s := by
  refine wp_post (popBlock_spec h hl hbusy) ?_
  rintro r s' ⟨rfl, hinv, hbusy', hc, hext⟩
  refine ⟨?_, hinv, hbusy', hc, hext ▸ hsize⟩
  obtain ⟨p, n, i, -, -, rfl⟩ := h.free d r (hl ▸ List.mem_cons_self)
  unfold block arenaSize
  omega

/-- A big block. -/
theorem bigBlock_grants {size : ℕ} (h : Inv s live) (hbusy : Busy s) (hmax : size ≤ 2 ^ 31)
    (hf : Fresh s ⟨false, p, bigPages size⟩) :
    Grants s ((s.addPages p (bigPages size)).setArena p ⟨none, bigPages size⟩) live size (p + arenaSize) := by
  have hpage : p % pgsize = 0 := hf.page
  have hpages : size + arenaSize ≤ pgsize * bigPages size := by
    simp only [bigPages, arenaSize, pgsize]
    omega
  have hnone := h.arena_of_apart (Nat.pos_of_ne_zero hf.cnt) hf.apart
  have hnew : p + arenaSize ∉ live := by
    intro hmem
    obtain ⟨ar, har⟩ := h.live_page hmem
    rw [(big_page hpage).1, hnone] at har
    cases har
  have hself : ((s.addPages p (bigPages size)).setArena p ⟨none, bigPages size⟩).arena p = some ⟨none, bigPages size⟩ :=
    Function.update_self ..
  obtain ⟨hinv, hother⟩ : Inv ((s.addPages p (bigPages size)).setArena p ⟨none, bigPages size⟩) ((p + arenaSize) :: live) ∧
      ∀ q ≠ p, ((s.addPages p (bigPages size)).setArena p ⟨none, bigPages size⟩).arena q = s.arena q := by
    have hf' : Fresh s ⟨false, p, Arena.pages ⟨none, bigPages size⟩⟩ := hf
    refine h.addArena hf' (fun _ => rfl) rfl rfl rfl (by simp) (fun e c => (or_iff_left ?_).symm) h.nodup
      (List.nodup_cons.2 ⟨hnew, h.liveNodup⟩) fun c => ?_
    · rintro ⟨n, i, har, -⟩
      cases har
    · rw [List.mem_cons, or_comm]
      simp
  refine ⟨?_, hinv, fun q e m hq => ?_, hinv.carries (List.subset_cons_self ..) (fun b hb => ?_) fun a ha => ?_, ?_⟩
  · unfold arenaSize
    omega
  · by_cases hqp : q = p
    · subst hqp
      rw [hself] at hq
      cases hq
    · exact hbusy q e m (hother q hqp ▸ hq)
  · refine h.extent_congr (fun q ar hq => hother q ?_) hb
    rintro rfl
    rw [hnone] at hq
    cases hq
  · simp only [Heap.Spare, not_or] at ha
    exact if_neg fun hin => ha.1 ⟨p, _, hself, hin.1, hin.2⟩
  · rw [Heap.extent, (big_page hpage).1, hself]
    dsimp only
    omega

theorem Grants.of_carries {s₁ : Heap} {size r : ℕ} (h : Grants s₁ s' live size r) (hc : Carries s s₁ live) :
    Grants s s' live size r := ⟨h.ne, h.inv, h.busy, hc.trans h.carries, h.size⟩

theorem SameHeap.busy (h : SameHeap s s') (hbusy : Busy s) : Busy s' := by
  unfold Busy
  rw [h.arena]
  exact hbusy

/-- **`malloc`.** -/
theorem malloc_spec {size : ℕ} (h : Inv s live) (hbusy : Busy s) (hmax : size ≤ 2 ^ 31) :
    wp (malloc size) (fun r s' => Obtains s s' live size r) (fun _ => False) s := by
  rw [malloc.eq_def, wp_ite]
  refine ⟨fun _ => .inl ⟨rfl, rfl⟩, fun hsize => ?_⟩
  cases hfind : descs.find? fun d => size ≤ d.blockSize with
  | none =>
    refine wp_seq (pallocGet_spec h noFlags (bigPages size)) (fun _ => Bool.false_ne_true) ?_
    rintro p s₁ ⟨h₁, hc₁, hs₁, hz, hf⟩
    rw [wp_ite]
    refine ⟨fun hp => .inl ⟨rfl, hz hp⟩, fun hp => ?_⟩
    exact .inr ((bigBlock_grants h₁ (hs₁.busy hbusy) hmax (hf hp)).of_carries hc₁)
  | some d =>
    have hd := List.mem_of_find?_eq_some hfind
    have hle : size ≤ d.blockSize := by simpa using List.find?_some hfind
    dsimp only
    rw [wp_bind, wp_gets, wp_ite]
    refine ⟨fun hl => ?_, fun hl => ?_⟩
    · refine wp_seq (pallocGet_spec h noFlags 1) (fun _ => Bool.false_ne_true) ?_
      rintro p s₁ ⟨h₁, hc₁, hs₁, hz, hf⟩
      rw [wp_ite]
      refine ⟨fun hp => .inl ⟨rfl, hz hp⟩, fun hp => ?_⟩
      have hl₁ : s₁.freeList d = [] := by
        rw [hs₁.freeList]
        exact hl
      refine wp_seq (newArena_spec h₁ hd hl₁ (hf hp)) (fun _ => id) ?_
      rintro _ s₂ ⟨h₂, hc₂, hl₂, hother⟩
      -- the first block of the new arena is taken
      obtain ⟨m, hm⟩ : ∃ m, d.blocksPerArena = m + 1 := Nat.exists_eq_succ_of_ne_zero (desc_ok hd).2.1.ne'
      rw [hm, List.range_succ_eq_map, List.map_cons] at hl₂
      have hround := (block_page (i := 0) hd (hf hp).page (desc_ok hd).2.1).1
      refine wp_post (popBlock_grants h₂ hl₂ (fun q e k hq => ?_) hle) fun r s' hr => .inr (hr.of_carries (hc₁.trans hc₂))
      by_cases hqp : q = p
      · exact .inl (hqp.trans hround.symm)
      · exact .inr (hs₁.busy hbusy q e k (hother q hqp ▸ hq))
    · obtain ⟨c, rest, hl⟩ := List.exists_cons_of_ne_nil hl
      exact wp_post (popBlock_grants h hl (fun q e k hq => .inr (hbusy q e k hq)) hle) fun _ _ hr => .inr hr

/-! ### An arena is given back -/

theorem Inv.owned_nodup (h : Inv s live) : s.owned.Nodup := by
  refine h.apart.imp_of_mem fun {g g'} hg _ hap heq => ?_
  subst heq
  obtain ⟨q, ar', hq, rfl⟩ := (h.owned g).1 hg
  have hpos := (h.page q ar' hq).2.2
  apply hap q
  rw [Group.has_iff]
  simp only [pgsize]
  omega

/-- **The pages of an arena without a block in use go**, and the blocks of the arena go from the list of its
descriptor. -/
theorem Inv.dropArena {live' : List ℕ} (h : Inv s live) (hbacked : Backed s') (hp : s.arena p = some ar)
    (harena : s'.arena = Function.update s.arena p none) (howned : s'.owned = s.owned.erase ⟨false, p, ar.pages⟩)
    (hfull : ∀ d n, ar = ⟨some d, n⟩ → ∀ i < d.blocksPerArena, block p d i ∈ s.freeList d)
    (hfree : ∀ d c, c ∈ s'.freeList d ↔ c ∈ s.freeList d ∧ ¬ ∃ n i, ar = ⟨some d, n⟩ ∧ i < d.blocksPerArena ∧ c = block p d i)
    (hnodup : ∀ d, (s'.freeList d).Nodup) (hlnd : live'.Nodup)
    (hlive : ∀ c, c ∈ live' ↔ c ∈ live ∧ ¬ ∃ n, ar = ⟨none, n⟩ ∧ c = p + arenaSize) : Inv s' live' := by
  have hnone : s'.arena p = none := by rw [harena, Function.update_self]
  have hother : ∀ q ≠ p, s'.arena q = s.arena q := fun q hq => by rw [harena, Function.update_of_ne hq]
  have hold : ∀ q ar', s'.arena q = some ar' → q ≠ p ∧ s.arena q = some ar' := by
    intro q ar' hq
    have hqp : q ≠ p := by
      rintro rfl
      rw [hnone] at hq
      cases hq
    exact ⟨hqp, (hother q hqp).symm.trans hq⟩
  -- a block of another arena is none of those that go
  have hsep : ∀ q d n j, q ≠ p → s.arena q = some ⟨some d, n⟩ → j < d.blocksPerArena →
      (block q d j ∈ s'.freeList d ↔ block q d j ∈ s.freeList d) := by
    intro q d n j hqp hq hj
    rw [hfree]
    refine and_iff_left ?_
    rintro ⟨m, i, rfl, hi, heq⟩
    obtain ⟨hd, -, hround, -, -⟩ := h.small hq hj
    apply hqp
    rw [← hround, heq, (block_page hd (h.page p _ hp).1 hi).1]
  refine ⟨hbacked, ?_, fun q ar' hq => h.page q ar' (hold q ar' hq).2, fun g => ?_, fun q d n hq => ?_, hnodup, fun d c hc => ?_, hlnd,
    fun c => ?_⟩
  · rw [howned]
    exact h.apart.sublist (List.erase_sublist ..)
  · rw [howned, h.owned_nodup.mem_erase_iff, h.owned]
    constructor
    · rintro ⟨hne, q, ar', hq, rfl⟩
      have hqp : q ≠ p := by
        rintro rfl
        rw [hp] at hq
        cases hq
        exact hne rfl
      exact ⟨q, ar', (hother q hqp).trans hq, rfl⟩
    · rintro ⟨q, ar', hq, rfl⟩
      obtain ⟨hqp, hq'⟩ := hold q ar' hq
      exact ⟨fun heq => hqp (congrArg Group.addr heq), q, ar', hq', rfl⟩
  · obtain ⟨hqp, hq'⟩ := hold q _ hq
    obtain ⟨hd, hn⟩ := h.desc q d n hq'
    refine ⟨hd, hn.trans (congrArg Finset.card (Finset.filter_congr fun j hj => ?_))⟩
    exact (hsep q d n j hqp hq' (Finset.mem_range.1 hj)).symm
  · obtain ⟨hc, hno⟩ := (hfree d c).1 hc
    obtain ⟨q, n, i, hq, hi, rfl⟩ := h.free d c hc
    have hqp : q ≠ p := by
      rintro rfl
      rw [hp] at hq
      cases hq
      exact hno ⟨n, i, rfl, hi, rfl⟩
    exact ⟨q, n, i, (hother q hqp).trans hq, hi, rfl⟩
  · rw [hlive, h.live]
    constructor
    · rintro ⟨⟨q, d, n, i, hq, hi, rfl, hnot⟩ | ⟨q, n, hq, rfl⟩, hno⟩
      · have hqp : q ≠ p := by
          rintro rfl
          rw [hp] at hq
          cases hq
          exact hnot (hfull d n rfl i hi)
        exact .inl ⟨q, d, n, i, (hother q hqp).trans hq, hi, rfl, fun hc => hnot ((hsep q d n i hqp hq hi).1 hc)⟩
      · have hqp : q ≠ p := by
          rintro rfl
          rw [hp] at hq
          cases hq
          exact hno ⟨n, rfl, rfl⟩
        exact .inr ⟨q, n, (hother q hqp).trans hq, rfl⟩
    · rintro (⟨q, d, n, i, hq, hi, rfl, hnot⟩ | ⟨q, n, hq, rfl⟩)
      · obtain ⟨hqp, hq'⟩ := hold q _ hq
        refine ⟨.inl ⟨q, d, n, i, hq', hi, rfl, fun hc => hnot ((hsep q d n i hqp hq' hi).2 hc)⟩, ?_⟩
        rintro ⟨m, rfl, heq⟩
        apply hqp
        rw [← (h.small hq' hi).2.2.1, heq, (big_page (h.page p _ hp).1).1]
      · obtain ⟨hqp, hq'⟩ := hold q _ hq
        refine ⟨.inr ⟨q, n, hq', rfl⟩, ?_⟩
        rintro ⟨m, rfl, heq⟩
        exact hqp (Nat.add_right_cancel heq)

/-- The loop that takes the first `m` blocks of an arena from the list. -/
theorem removeBlocks_spec {m : ℕ} (hp : s.arena p = some ⟨some d, n⟩) (hd : d ∈ descs) (h0 : p ≠ 0)
    (hm : m ≤ d.blocksPerArena) (hnd : (s.freeList d).Nodup) (hfull : ∀ i < d.blocksPerArena, block p d i ∈ s.freeList d) :
    wp (removeBlocks d p m) (fun _ s' => s'.arena = s.arena ∧ s'.owned = s.owned ∧
      (∀ u, s'.palloc.pools.pool u = s.palloc.pools.pool u) ∧ s'.palloc.live = s.palloc.live ∧ (s'.freeList d).Nodup ∧
      (∀ e ≠ d, s'.freeList e = s.freeList e) ∧
      (∀ c, c ∈ s'.freeList d ↔ c ∈ s.freeList d ∧ ¬ ∃ i < m, c = block p d i) ∧
      ∀ a, (∀ c ∈ s.freeList d, ¬ (c ≤ a ∧ a < c + 8)) → s'.mem a = s.mem a) (fun _ => False) s := by
  induction m with
  | zero =>
    refine ⟨rfl, rfl, fun _ => rfl, rfl, hnd, fun _ _ => rfl, fun c => (and_iff_left ?_).symm, fun _ _ => rfl⟩
    rintro ⟨i, hi, -⟩
    exact Nat.not_lt_zero i hi
  | succ m ih =>
    rw [removeBlocks]
    refine wp_seq (ih (by omega)) (fun _ => id) ?_
    rintro _ s₁ ⟨harena, howned, hpool, hgroups, hnd₁, hothers, hmem, hbytes⟩
    rw [wp_bind, arenaToBlock, wp_bind, wp_gets]
    dsimp only [id]
    rw [if_neg h0, harena, hp]
    dsimp only
    rw [if_pos (by omega), wp_pure, wp_bind, wp_gets]
    -- the next block is still on the list
    have hin : block p d m ∈ s₁.freeList d := by
      rw [hmem]
      refine ⟨hfull m (by omega), ?_⟩
      rintro ⟨i, hi, heq⟩
      exact hi.ne (block_inj hd heq).symm
    dsimp only [id]
    rw [if_pos hin, wp_modify]
    refine ⟨harena, howned, hpool, hgroups, ?_, fun e he => ?_, fun c => ?_, fun a ha => ?_⟩
    · rw [Heap.setFreeList_freeList, Function.update_self]
      exact hnd₁.erase _
    · rw [Heap.setFreeList_freeList, Function.update_of_ne he]
      exact hothers e he
    · rw [Heap.setFreeList_freeList, Function.update_self, hnd₁.mem_erase_iff, hmem]
      simp only [Nat.lt_succ_iff_lt_or_eq]
      constructor
      · rintro ⟨hne, hc, hno⟩
        refine ⟨hc, ?_⟩
        rintro ⟨i, hi | rfl, heq⟩
        · exact hno ⟨i, hi, heq⟩
        · exact hne heq
      · rintro ⟨hc, hno⟩
        refine ⟨fun heq => hno ⟨m, .inr rfl, heq⟩, hc, ?_⟩
        rintro ⟨i, hi, heq⟩
        exact hno ⟨i, .inl hi, heq⟩
    · rw [Heap.setFreeList_mem, if_neg, hbytes a ha]
      rintro ⟨c, hc, hin'⟩
      exact ha c ((hmem c).1 (List.mem_of_mem_erase hc)).1 hin'

/-- The bytes of the pages that are given back are spare afterwards. -/
theorem Inv.not_has_of_not_spare (h : Inv s live) {live' : List ℕ} (h' : Inv s' live') (hp : s.arena p = some ar)
    (harena : s'.arena = Function.update s.arena p none) (ha : ¬ s'.Spare a) : ¬ Group.Has ⟨false, p, ar.pages⟩ a := by
  intro hhas
  simp only [Heap.Spare, not_or, not_forall, not_not] at ha
  obtain ⟨-, -, g, hg, hga⟩ := ha
  obtain ⟨q, ar', hq, rfl⟩ := (h'.owned g).1 hg
  have hqp : q ≠ p := by
    rintro rfl
    rw [harena, Function.update_self] at hq
    cases hq
  rw [harena, Function.update_of_ne hqp] at hq
  exact hqp (h.group_eq hq hp hga hhas)

/-- The blocks in use afterwards have the sizes that they had. -/
theorem Inv.extent_of_drop {live' : List ℕ} (h' : Inv s' live') (harena : s'.arena = Function.update s.arena p none)
    (hb : b ∈ live') : s'.extent b = s.extent b := by
  refine (h'.extent_congr (fun q ar hq => ?_) hb).symm
  by_cases hqp : q = p
  · rw [hqp, harena, Function.update_self] at hq
    cases hq
  · rw [harena, Function.update_of_ne hqp]

theorem Busy.drop (harena : s'.arena = Function.update s.arena p none)
    (hbusy : ∀ q e m, s.arena q = some ⟨some e, m⟩ → q = p ∨ m < e.blocksPerArena) : Busy s' := by
  intro q e m hq
  by_cases hqp : q = p
  · rw [hqp, harena, Function.update_self] at hq
    cases hq
  · rw [harena, Function.update_of_ne hqp] at hq
    exact (hbusy q e m hq).resolve_left hqp

/-- What a call that gives blocks back does. -/
structure Releases (s s' : Heap) (live : List ℕ) : Prop where
  inv : Inv s' live
  busy : Busy s'
  carries : Carries s s' live
  owned : s'.owned ⊆ s.owned
  returned : ∀ g ∈ s.owned, g ∉ s'.owned → g ∉ s'.palloc.live

/-- The pages of an arena are freed, once they have no header. -/
theorem dropPages_spec {s₁ : Heap} (ar' : Arena) (h : Inv s live) (hp : s.arena p = some ar') (harena : s₁.arena = s.arena)
    (howned : s₁.owned = s.owned) (hgroups : s₁.palloc.live = s.palloc.live) {live' : List ℕ}
    (hdrop : Inv (s₁.dropPages p ar'.pages) live') (hc : Carries s (s₁.dropPages p ar'.pages) live')
    (hbusy : ∀ q e m, s.arena q = some ⟨some e, m⟩ → q = p ∨ m < e.blocksPerArena) :
    wp (pallocFree ⟨false, p, ar'.pages⟩) (fun _ s' => Releases s s' live') (fun _ => False) (s₁.dropPages p ar'.pages) := by
  have hg : (⟨false, p, ar'.pages⟩ : Group) ∈ s.owned := (h.owned _).2 ⟨p, ar', hp, rfl⟩
  have hlive : (⟨false, p, ar'.pages⟩ : Group) ∈ (s₁.dropPages p ar'.pages).palloc.live := by
    change _ ∈ s₁.palloc.live
    rw [hgroups]
    exact h.backed.sub hg
  have hno : (⟨false, p, ar'.pages⟩ : Group) ∉ (s₁.dropPages p ar'.pages).owned := by
    change _ ∉ s₁.owned.erase _
    rw [howned, h.owned_nodup.mem_erase_iff]
    exact fun hc => hc.1 rfl
  refine wp_post (pallocFree_spec hdrop hlive hno) ?_
  rintro _ s' ⟨hinv, hc', hs, hgone⟩
  have howned' : s'.owned = s.owned.erase ⟨false, p, ar'.pages⟩ := by
    rw [hs.owned, ← howned]
    rfl
  refine ⟨hinv, Busy.drop ?_ hbusy, hc.trans hc', ?_, fun g' hg' hno' => ?_⟩
  · rw [hs.arena, ← harena]
    rfl
  · rw [howned']
    exact List.erase_subset
  · rw [howned', h.owned_nodup.mem_erase_iff, not_and', not_not] at hno'
    rw [hno' hg']
    exact hgone

/-- **The end of `free`**: an arena with all of its blocks on the list goes. -/
theorem giveBack_spec (h : Inv s live) (hp : s.arena p = some ⟨some d, n⟩)
    (hbusy : ∀ q e m, s.arena q = some ⟨some e, m⟩ → q = p ∨ m < e.blocksPerArena) :
    wp (giveBack d p n) (fun _ s' => Releases s s' live) (fun _ => False) s := by
  obtain ⟨hd, hn⟩ := h.desc p d n hp
  obtain ⟨hpage, h0, -⟩ := h.page p _ hp
  have hle : (s.freeIdx p d).card ≤ d.blocksPerArena := by
    have := Finset.card_filter_le (Finset.range d.blocksPerArena) fun i => block p d i ∈ s.freeList d
    rwa [Finset.card_range] at this
  rw [giveBack, wp_ite, wp_ite]
  refine ⟨fun hlt => ?_, fun hge => ⟨fun hne => hne (by omega), fun heq => ?_⟩⟩
  · refine ⟨h, fun q e m hq => ?_, fun b _ => ⟨rfl, fun _ _ _ => rfl⟩, List.Subset.refl _, fun g hg hno => absurd hg hno⟩
    rcases hbusy q e m hq with rfl | hm
    · rw [hp] at hq
      cases hq
      exact hlt
    · exact hm
  · -- `free_cnt` counts all of the blocks
    have hfull : ∀ i < d.blocksPerArena, block p d i ∈ s.freeList d := by
      have hcard : (s.freeIdx p d).card = (Finset.range d.blocksPerArena).card := by
        rw [Finset.card_range]
        omega
      intro i hi
      exact Finset.card_filter_eq_iff.1 hcard i (Finset.mem_range.2 hi)
    refine wp_seq (removeBlocks_spec hp hd h0 le_rfl (h.nodup d) hfull) (fun _ => id) ?_
    rintro _ s₁ ⟨harena, howned, hpool, hgroups, hnd, hothers, hmem, hbytes⟩
    have harena' : (s₁.dropPages p 1).arena = Function.update s.arena p none := by
      rw [← harena]
      rfl
    have howned' : (s₁.dropPages p 1).owned = s.owned.erase ⟨false, p, 1⟩ := by
      rw [← howned]
      rfl
    have hbacked : Backed (s₁.dropPages p 1) := by
      refine h.backed.congr hpool hgroups ?_
      rw [howned']
      exact List.Subset.trans List.erase_subset h.backed.sub
    have hinv : Inv (s₁.dropPages p 1) live := by
      refine h.dropArena hbacked hp harena' howned' (fun e m he => ?_) (fun e c => ?_) (fun e => ?_) h.liveNodup fun c => ?_
      · cases he
        exact hfull
      · change c ∈ s₁.freeList e ↔ _
        by_cases he : e = d
        · subst he
          rw [hmem]
          refine and_congr_right fun _ => not_congr ⟨?_, ?_⟩
          · rintro ⟨i, hi, rfl⟩
            exact ⟨n, i, rfl, hi, rfl⟩
          · rintro ⟨m, i, -, hi, rfl⟩
            exact ⟨i, hi, rfl⟩
        · rw [hothers e he]
          refine (and_iff_left ?_).symm
          rintro ⟨m, i, har, -⟩
          cases har
          exact he rfl
      · change (s₁.freeList e).Nodup
        by_cases he : e = d
        · rw [he]
          exact hnd
        · rw [hothers e he]
          exact h.nodup e
      · refine (and_iff_left ?_).symm
        rintro ⟨m, har, -⟩
        cases har
    rw [wp_bind, wp_modify]
    refine dropPages_spec ⟨some d, n⟩ h hp harena howned hgroups hinv ?_ hbusy
    refine hinv.carries (List.Subset.refl _) (fun b hb => hinv.extent_of_drop harena' hb) fun a ha => ?_
    have hnot := h.not_has_of_not_spare hinv hp harena' ha
    change s₁.mem a = s.mem a
    rw [hbytes a]
    -- a byte of a link is of a block on the list still, or of the page that goes
    rintro c hc ⟨h1, h2⟩
    have hsize := (desc_ok hd).1
    by_cases hcp : ∃ i < d.blocksPerArena, c = block p d i
    · obtain ⟨i, hi, rfl⟩ := hcp
      exact hnot ((h.small hp hi).2.2.2.2 a h1 (by omega))
    · exact ha (.inr (.inl ⟨d, c, (hmem c).2 ⟨hc, hcp⟩, h1, by omega⟩))

/-! ### `free` -/

/-- A big block. -/
theorem freeBig_spec (h : Inv s live) (hbusy : Busy s) (hp : s.arena p = some ⟨none, n⟩) :
    wp (pallocFree ⟨false, p, n⟩) (fun _ s' => Releases s s' (live.erase (p + arenaSize))) (fun _ => False)
      (s.dropPages p n) := by
  have hinv : Inv (s.dropPages p n) (live.erase (p + arenaSize)) := by
    refine h.dropArena (h.backed.congr (fun _ => rfl) rfl (List.Subset.trans List.erase_subset h.backed.sub)) hp rfl rfl nofun
      (fun e c => (and_iff_left ?_).symm) h.nodup (h.liveNodup.erase _) fun c => ?_
    · rintro ⟨m, i, har, -⟩
      cases har
    · rw [h.liveNodup.mem_erase_iff, and_comm]
      refine and_congr_right fun _ => not_congr ⟨fun hc => ⟨n, rfl, hc⟩, ?_⟩
      rintro ⟨_, -, hc⟩
      exact hc
  refine dropPages_spec ⟨none, n⟩ h hp rfl rfl rfl hinv ?_ fun q e m hq => .inr (hbusy q e m hq)
  exact hinv.carries (List.Subset.refl _) (fun b hb => hinv.extent_of_drop rfl hb) fun a _ => rfl

/-- **`free`.** -/
theorem free_spec (h : Inv s live) (hbusy : Busy s) (hb : b ∈ live) :
    wp (free b) (fun _ s' => Releases s s' (live.erase b)) (fun _ => False) s := by
  have hb0 : b ≠ 0 := by
    obtain ⟨p, ar, -, hle, -⟩ := h.live_arena hb
    unfold arenaSize at hle
    omega
  rw [free, if_neg hb0, wp_bind]
  rcases (h.live b).1 hb with ⟨p, d, n, i, hp, hi, rfl, hnot⟩ | ⟨p, n, hp, rfl⟩
  · obtain ⟨hd, hpage, -, -, -⟩ := h.small hp hi
    obtain ⟨-, h0, -⟩ := h.page p _ hp
    refine wp_blockToArena_small hd hpage h0 hp hi ?_
    dsimp only
    rw [wp_bind, wp_modify, wp_bind, wp_modify, wp_bind, wp_modify]
    -- the block is on the list, and `free_cnt` counts it
    generalize hs₁ : Heap.setArena p ⟨some d, n + 1⟩ (Heap.setFreeList d (block p d i :: (Heap.memset (block p d i) 0xcc
      d.blockSize s).freeList d) (Heap.memset (block p d i) 0xcc d.blockSize s)) = s₁
    have hfree₁ : s₁.freeList = Function.update s.freeList d (block p d i :: s.freeList d) := by
      rw [← hs₁]
      rfl
    have harena₁ : s₁.arena = Function.update s.arena p (some ⟨some d, n + 1⟩) := by
      rw [← hs₁]
      rfl
    have hidx : s₁.freeIdx p d = insert i (s.freeIdx p d) := by
      ext j
      simp only [Heap.freeIdx, hfree₁, Function.update_self, Finset.mem_filter, Finset.mem_range, Finset.mem_insert, List.mem_cons]
      constructor
      · rintro ⟨hj, heq | hmem⟩
        · exact .inl (block_inj hd heq)
        · exact .inr ⟨hj, hmem⟩
      · rintro (rfl | ⟨hj, hmem⟩)
        · exact ⟨hi, .inl rfl⟩
        · exact ⟨hj, .inr hmem⟩
    have hnotidx : i ∉ s.freeIdx p d := by
      rw [Heap.freeIdx, Finset.mem_filter]
      exact fun hc => hnot hc.2
    obtain ⟨hinv, hsame⟩ : Inv s₁ (live.erase (block p d i)) ∧ SameArenas s s₁ := by
      have hbacked : Backed s₁ := by
        rw [← hs₁]
        exact h.backed.congr (fun _ => rfl) rfl h.backed.sub
      refine h.recount hbacked hp hi harena₁ (by rw [← hs₁]; rfl) hfree₁ (List.nodup_cons.2 ⟨hnot, h.nodup d⟩) (fun c hc => ?_)
        (h.liveNodup.erase _) (fun c hc => ?_) ?_ ?_
      · rw [List.mem_cons, or_iff_right hc]
      · rw [h.liveNodup.mem_erase_iff, and_iff_right hc]
      · exact iff_of_false (fun hc => (h.liveNodup.mem_erase_iff.1 hc).1 rfl) fun hc => hc List.mem_cons_self
      · rw [hidx, Finset.card_insert_of_notMem hnotidx, ← (h.desc p d n hp).2]
    have hp₁ : s₁.arena p = some ⟨some d, n + 1⟩ := by rw [harena₁, Function.update_self]
    have hc₁ : Carries s s₁ (live.erase (block p d i)) := by
      refine hinv.carries (List.Subset.refl _) (fun c _ => hsame.extent c) fun a ha => ?_
      have hout : ¬ (block p d i ≤ a ∧ a < block p d i + d.blockSize) := by
        intro hin
        refine ha (.inr (.inl ⟨d, block p d i, ?_, hin⟩))
        rw [hfree₁, Function.update_self]
        exact List.mem_cons_self
      rw [← hs₁] at ha ⊢
      rw [mem_of_not_spare hd ha]
      exact if_neg hout
    refine wp_post (giveBack_spec hinv hp₁ fun q e m hq => ?_) ?_
    · by_cases hqp : q = p
      · exact .inl hqp
      · rw [harena₁, Function.update_of_ne hqp] at hq
        exact .inr (hbusy q e m hq)
    · rintro _ s' ⟨hinv', hbusy', hc', howned', hret⟩
      have howned₁ : s₁.owned = s.owned := by
        rw [← hs₁]
        rfl
      rw [howned₁] at howned' hret
      exact ⟨hinv', hbusy', hc₁.trans hc', howned', hret⟩
  · obtain ⟨hpage, h0, -⟩ := h.page p _ hp
    refine wp_blockToArena_big hpage h0 hp ?_
    dsimp only
    rw [wp_bind, wp_modify]
    exact freeBig_spec h hbusy hp

/-! ### `calloc` and `realloc` -/

/-- Where the header of a block in use is. -/
theorem Inv.live_header (h : Inv s live) (hb : b ∈ live) :
    ∃ ar, s.arena (b / pgsize * pgsize) = some ar ∧
      ∀ a, b ≤ a → a < b + s.extent b → Group.Has ⟨false, b / pgsize * pgsize, ar.pages⟩ a := by
  rcases (h.live b).1 hb with ⟨p, d, n, i, hp, hi, rfl, -⟩ | ⟨p, n, hp, rfl⟩
  · obtain ⟨-, -, hround, hext, hhas⟩ := h.small hp hi
    rw [hround, hext]
    exact ⟨_, hp, hhas⟩
  · have hround := (big_page (h.page p _ hp).1).1
    rw [Heap.extent, hround, hp]
    refine ⟨_, rfl, fun a h1 h2 => ?_⟩
    rw [Group.has_iff]
    simp only [Arena.pages, pgsize, arenaSize] at *
    omega

/-- Two blocks in use have no byte in common. -/
theorem Inv.live_apart (h : Inv s live) {c : ℕ} (hb : b ∈ live) (hc : c ∈ live) (hne : b ≠ c) (h1 : b ≤ a)
    (h2 : a < b + s.extent b) : ¬ (c ≤ a ∧ a < c + s.extent c) := by
  rintro ⟨h3, h4⟩
  obtain ⟨ar, har, hhas⟩ := h.live_header hb
  obtain ⟨ar', har', hhas'⟩ := h.live_header hc
  -- the two are in one arena
  have hpage := h.group_eq har har' (hhas a h1 h2) (hhas' a h3 h4)
  rcases (h.live b).1 hb with ⟨p, d, n, i, hp, hi, rfl, -⟩ | ⟨p, n, hp, rfl⟩ <;>
    rcases (h.live c).1 hc with ⟨q, e, m, j, hq, hj, rfl, -⟩ | ⟨q, m, hq, rfl⟩
  · rw [(h.small hp hi).2.2.1, (h.small hq hj).2.2.1] at hpage
    rw [hpage, hq] at hp
    cases hp
    rw [(h.small hq hj).2.2.2.1] at h4
    rw [hpage, (h.small hq hi).2.2.2.1] at h2
    rw [hpage] at h1 hne
    rcases Nat.lt_trichotomy i j with hij | rfl | hij
    · have := block_apart (p := q) (d := d) hij
      omega
    · exact hne rfl
    · have := block_apart (p := q) (d := d) hij
      omega
  · rw [(h.small hp hi).2.2.1, (big_page (h.page q _ hq).1).1] at hpage
    rw [hpage, hq] at hp
    cases hp
  · rw [(h.small hq hj).2.2.1, (big_page (h.page p _ hp).1).1] at hpage
    rw [hpage, hq] at hp
    cases hp
  · rw [(big_page (h.page p _ hp).1).1, (big_page (h.page q _ hq).1).1] at hpage
    exact hne (congrArg (· + arenaSize) hpage)

/-- Memory is written. -/
theorem Inv.setMem (h : Inv s live) (m : ℕ → UInt8) : Inv (s.setMem m) live :=
  h.congr ⟨rfl, rfl, rfl⟩ (h.backed.congr (fun _ => rfl) rfl h.backed.sub)

/-- Where only one block is written, the others have the same bytes. -/
theorem Inv.setMem_carries {m : ℕ → UInt8} (h : Inv s (b :: live))
    (hm : ∀ a, ¬ (b ≤ a ∧ a < b + s.extent b) → m a = s.mem a) : Carries s (s.setMem m) live := by
  intro c hc
  refine ⟨rfl, fun a h1 h2 => hm a ?_⟩
  have hne : c ≠ b := by
    rintro rfl
    exact (List.nodup_cons.1 h.liveNodup).1 hc
  exact h.live_apart (List.mem_cons_of_mem _ hc) List.mem_cons_self hne h1 h2

/-- **`calloc`.** -/
theorem calloc_spec {c : ℕ} (h : Inv s live) (hbusy : Busy s) (hmax : b * c % 2 ^ 32 ≤ 2 ^ 31) :
    wp (calloc b c) (fun r s' => Obtains s s' live (b * c % 2 ^ 32) r ∧
      (r ≠ 0 → ∀ i < b * c % 2 ^ 32, s'.mem (r + i) = 0)) (fun _ => False) s := by
  rw [calloc]
  generalize b * c % 2 ^ 32 = size at *
  rw [wp_ite]
  refine ⟨fun _ => ⟨.inl ⟨rfl, rfl⟩, fun hc => absurd rfl hc⟩, fun _ => ?_⟩
  refine wp_seq (malloc_spec h hbusy hmax) (fun _ => id) fun r s₁ hr => ?_
  rw [wp_bind, wp_onlyIf, wp_modify, wp_pure, wp_pure]
  refine ⟨fun hr0 => ?_, fun hr0 => ?_⟩
  · obtain ⟨hz, -⟩ | hr := hr
    · exact absurd hz hr0
    · refine ⟨.inr ⟨hr0, hr.inv.setMem _, hr.busy, hr.carries.trans (hr.inv.setMem_carries fun a ha => ?_), hr.size⟩,
        fun _ i hi => if_pos ⟨by omega, by omega⟩⟩
      have hsize := hr.size
      exact if_neg fun hin => ha ⟨hin.1, by omega⟩
  · exact ⟨hr, fun hc => absurd hc hr0⟩

/-- `block_size` is the size of the block. -/
theorem blockSize_spec (h : Inv s live) (hb : b ∈ live) :
    wp (blockSize b) (fun r s' => r = s.extent b ∧ s' = s) (fun _ => False) s := by
  rw [blockSize, wp_bind]
  rcases (h.live b).1 hb with ⟨p, d, n, i, hp, hi, rfl, -⟩ | ⟨p, n, hp, rfl⟩
  · obtain ⟨hd, hpage, -, hext, -⟩ := h.small hp hi
    exact wp_blockToArena_small hd hpage (h.page p _ hp).2.1 hp hi ⟨hext.symm, rfl⟩
  · obtain ⟨hpage, h0, -⟩ := h.page p _ hp
    obtain ⟨hround, hofs⟩ := big_page hpage
    refine wp_blockToArena_big hpage h0 hp ⟨?_, rfl⟩
    rw [Heap.extent, hround, hp, hofs]

/-- The move in `realloc`, from a block in use to a new one. -/
theorem moveBlock_spec {old new newSize : ℕ} (h : Inv s (new :: live)) (hbusy : Busy s) (hold : old ∈ live)
    (hsize : newSize ≤ s.extent new) :
    wp (moveBlock old new newSize) (fun _ s' => Inv s' (new :: live.erase old) ∧ Busy s' ∧ Carries s s' (live.erase old) ∧
      s'.extent new = s.extent new ∧ ∀ i < min newSize (s.extent old), s'.mem (new + i) = s.mem (old + i)) (fun _ => False) s := by
  have hne : new ≠ old := by
    rintro rfl
    exact (List.nodup_cons.1 h.liveNodup).1 hold
  have hold' : old ∈ new :: live := List.mem_cons_of_mem _ hold
  rw [moveBlock]
  refine wp_seq (blockSize_spec h hold') (fun _ => id) ?_
  rintro _ s₀ ⟨rfl, hs₀⟩
  rw [wp_bind, wp_modify, hs₀]
  generalize hs₁ : Heap.memcpy new old (min newSize (s.extent old)) s = s₁
  have h₁ : Inv s₁ (new :: live) := by
    subst hs₁
    exact h.setMem _
  have hc₁ : Carries s s₁ live := by
    subst hs₁
    exact h.setMem_carries fun a ha => if_neg fun hin => ha ⟨hin.1, by omega⟩
  have hext₁ : s₁.extent new = s.extent new := by
    subst hs₁
    rfl
  have hmem₁ : ∀ i < min newSize (s.extent old), s₁.mem (new + i) = s.mem (old + i) := by
    intro i hi
    rw [← hs₁, Heap.memcpy_mem, if_pos ⟨by omega, by omega⟩, Nat.add_sub_cancel_left]
  have hbusy₁ : Busy s₁ := by
    subst hs₁
    exact hbusy
  refine wp_post (free_spec h₁ hbusy₁ hold') ?_
  rintro _ s' ⟨hinv, hbusy', hc', -, -⟩
  rw [List.erase_cons_tail (by simpa using hne)] at hinv hc'
  obtain ⟨hext, hbytes⟩ := hc' new List.mem_cons_self
  refine ⟨hinv, hbusy', fun c hc => ?_, hext.trans hext₁, fun i hi => ?_⟩
  · obtain ⟨he, hm⟩ := hc₁ c (List.mem_of_mem_erase hc)
    obtain ⟨he', hm'⟩ := hc' c (List.mem_cons_of_mem _ hc)
    exact ⟨he'.trans he, fun a h1 h2 => (hm' a h1 (he ▸ h2)).trans (hm a h1 h2)⟩
  · rw [hbytes (new + i) (by omega) (by omega), hmem₁ i hi]

theorem Inv.zero_not_mem (h : Inv s live) : 0 ∉ live := by
  intro hmem
  obtain ⟨p, ar, -, hle, -⟩ := h.live_arena hmem
  unfold arenaSize at hle
  omega

/-- `free` of a block in use, or of a null pointer. -/
theorem free_spec' (h : Inv s live) (hbusy : Busy s) (hb : b = 0 ∨ b ∈ live) :
    wp (free b) (fun _ s' => Releases s s' (live.erase b)) (fun _ => False) s := by
  rcases hb with rfl | hb
  · rw [free, if_pos rfl, wp_pure, List.erase_of_not_mem h.zero_not_mem]
    exact ⟨h, hbusy, fun b _ => ⟨rfl, fun _ _ _ => rfl⟩, List.Subset.refl _, fun g hg hno => absurd hg hno⟩
  · exact free_spec h hbusy hb

/-- What `realloc` does: the block goes if no byte is wanted, nothing changes if there is no memory, and else the new block
has the bytes of the old one. -/
def Resizes (s s' : Heap) (live : List ℕ) (old newSize r : ℕ) : Prop :=
  (newSize = 0 ∧ r = 0 ∧ Releases s s' (live.erase old)) ∨ (newSize ≠ 0 ∧ r = 0 ∧ s' = s) ∨
    Grants s s' (live.erase old) newSize r ∧ ∀ i < min newSize (s.extent old), s'.mem (r + i) = s.mem (old + i)

theorem Carries.mono {l : List ℕ} (h : Carries s s' live) (hl : l ⊆ live) : Carries s s' l := fun b hb => h b (hl hb)

/-- **`realloc`.** -/
theorem realloc_spec {old newSize : ℕ} (h : Inv s live) (hbusy : Busy s) (hold : old = 0 ∨ old ∈ live) (hmax : newSize ≤ 2 ^ 31) :
    wp (realloc old newSize) (fun r s' => Resizes s s' live old newSize r) (fun _ => False) s := by
  rw [realloc, wp_ite]
  refine ⟨fun h0 => ?_, fun h0 => ?_⟩
  · exact wp_seq (free_spec' h hbusy hold) (fun _ => id) fun _ s' hs => .inl ⟨h0, rfl, hs⟩
  refine wp_seq (malloc_spec h hbusy hmax) (fun _ => id) fun r s₁ hr => ?_
  rw [wp_bind, wp_onlyIf]
  obtain ⟨rfl, rfl⟩ | hr := hr
  · exact ⟨fun hc => absurd rfl hc.2, fun _ => .inr (.inl ⟨h0, rfl, rfl⟩)⟩
  refine ⟨fun hc => ?_, fun hc => ?_⟩
  · -- the bytes are copied from the block in use
    have hmem := hold.resolve_left hc.1
    obtain ⟨hext, hbytes⟩ := hr.carries old hmem
    refine wp_post (moveBlock_spec hr.inv hr.busy hmem hr.size) ?_
    rintro _ s' ⟨hinv, hbusy', hc', hext', hcopy⟩
    refine .inr (.inr ⟨⟨hr.ne, hinv, hbusy', (hr.carries.mono List.erase_subset).trans hc', hext' ▸ hr.size⟩, fun i hi => ?_⟩)
    rw [hcopy i (hext ▸ hi), hbytes (old + i) (by omega) (by omega)]
  · have hz : old = 0 := by
      by_contra hne
      exact hc ⟨hne, hr.ne⟩
    subst hz
    have hext : s.extent 0 = 0 := by
      rw [Heap.extent, Nat.zero_div, Nat.zero_mul]
      cases harena : s.arena 0 with
      | none => rfl
      | some ar => exact absurd rfl (h.page 0 ar harena).2.1
    rw [wp_pure, Resizes, List.erase_of_not_mem h.zero_not_mem]
    refine .inr (.inr ⟨hr, fun i hi => ?_⟩)
    omega

end

/-! ### Every sequence of calls -/

/-- The heap, and the blocks that are in use. -/
structure Blocks where
  heap : Heap
  live : List ℕ

/-- A call, a byte that is written, or a call of the page allocator by others. -/
inductive Action where
  | malloc (size : ℕ)
  | calloc (a b : ℕ)
  | realloc (old newSize : ℕ)
  | free (b : ℕ)
  | write (a : ℕ) (value : UInt8)
  | get (flags : Flags) (cnt : ℕ)
  | put (g : Group)

/-- A call in the heap. -/
def inHeap {α : Type} (m : HeapM α) : Prog Blocks Fault α := Prog.within Blocks.heap (fun s t => { t with heap := s }) m

/-- The blocks in use after a call that returns `r`. -/
def granted (r : ℕ) (live : List ℕ) : List ℕ := if r = 0 then live else r :: live

/-- The blocks in use after `realloc`. -/
def resized (old newSize r : ℕ) (live : List ℕ) : List ℕ :=
  if r ≠ 0 then r :: live.erase old else if newSize = 0 then live.erase old else live

/-- One step. -/
def step : Action → Prog Blocks Fault Unit
  | .malloc size => do
    let r ← inHeap (malloc size)
    modify fun t => { t with live := granted r t.live }
  | .calloc a b => do
    let r ← inHeap (calloc a b)
    modify fun t => { t with live := granted r t.live }
  | .realloc old newSize => do
    let r ← inHeap (realloc old newSize)
    modify fun t => { t with live := resized old newSize r t.live }
  | .free b => do
    inHeap (free b)
    modify fun t => { t with live := t.live.erase b }
  | .write a value => inHeap (modify fun s => s.setMem (Function.update s.mem a value))
  | .get flags cnt => do
    let _ ← inHeap (pallocGet flags cnt)
    pure ()
  | .put g => inHeap (pallocFree g)

/-- A block is freed once, no more than `2 ^ 31` bytes are asked for, and the bytes of headers and free blocks are not
written by others, nor are pages of `malloc` freed by others. -/
def Guard (act : Action) (t : Blocks) : Prop :=
  match act with
  | .malloc size => size ≤ 2 ^ 31
  | .calloc a b => a * b % 2 ^ 32 ≤ 2 ^ 31
  | .realloc old newSize => (old = 0 ∨ old ∈ t.live) ∧ newSize ≤ 2 ^ 31
  | .free b => b = 0 ∨ b ∈ t.live
  | .write a _ => (∃ b ∈ t.live, b ≤ a ∧ a < b + t.heap.extent b) ∨ ∀ g ∈ t.heap.owned, ¬ g.Has a
  | .get _ _ => True
  | .put g => g ∈ t.heap.palloc.live ∧ g ∉ t.heap.owned

/-- The heap after `palloc_init` and `malloc_init`. -/
def mallocInit (pools : Palloc.Pools) (headerByte : Arena → ℕ → UInt8) (linkByte : List ℕ → ℕ → UInt8) : Heap where
  palloc := { pools := pools, live := [] }
  arena _ := none
  freeList _ := []
  owned := []
  headerByte := headerByte
  linkByte := linkByte

/-- **The states that are reached** from `malloc_init`. -/
def Reaches (t : Blocks) : Prop :=
  ∃ r mem pools headerByte linkByte, Palloc.pallocInit r mem = .ok pools ∧
    Run step Guard ⟨mallocInit pools headerByte linkByte, []⟩ t

variable {t : Blocks}

theorem Obtains.granted {s s' : Heap} {live : List ℕ} {size r : ℕ} (h : Inv s live) (hbusy : Busy s)
    (ho : Obtains s s' live size r) : Inv s' (granted r live) ∧ Busy s' := by
  obtain ⟨rfl, rfl⟩ | hr := ho
  · exact ⟨h, hbusy⟩
  · rw [Malloc.granted, if_neg hr.ne]
    exact ⟨hr.inv, hr.busy⟩

theorem Resizes.resized {s s' : Heap} {live : List ℕ} {old newSize r : ℕ} (h : Inv s live) (hbusy : Busy s)
    (hr : Resizes s s' live old newSize r) : Inv s' (resized old newSize r live) ∧ Busy s' := by
  unfold Malloc.resized
  obtain ⟨rfl, rfl, hr⟩ | ⟨h0, rfl, rfl⟩ | ⟨hr, -⟩ := hr
  · exact ⟨hr.inv, hr.busy⟩
  · rw [if_neg (not_not.2 rfl), if_neg h0]
    exact ⟨h, hbusy⟩
  · rw [if_pos hr.ne]
    exact ⟨hr.inv, hr.busy⟩

theorem step_spec {act : Action} (h : Inv t.heap t.live ∧ Busy t.heap) (hg : Guard act t) :
    wp (step act) (fun _ t' => Inv t'.heap t'.live ∧ Busy t'.heap) (fun _ => True) t := by
  obtain ⟨h, hbusy⟩ := h
  cases act with
  | malloc size =>
    rw [step, wp_bind, inHeap, wp_within]
    exact wp_mono (malloc_spec h hbusy hg) (fun r s' hr => hr.granted h hbusy) fun _ _ => trivial
  | calloc a b =>
    rw [step, wp_bind, inHeap, wp_within]
    exact wp_mono (calloc_spec h hbusy hg) (fun r s' hr => hr.1.granted h hbusy) fun _ _ => trivial
  | realloc old newSize =>
    rw [step, wp_bind, inHeap, wp_within]
    exact wp_mono (realloc_spec h hbusy hg.1 hg.2) (fun r s' hr => hr.resized h hbusy) fun _ _ => trivial
  | free b =>
    rw [step, wp_bind, inHeap, wp_within]
    exact wp_mono (free_spec' h hbusy hg) (fun r s' hr => ⟨hr.inv, hr.busy⟩) fun _ _ => trivial
  | write a value => exact ⟨h.setMem _, hbusy⟩
  | get flags cnt =>
    rw [step, wp_bind, inHeap, wp_within]
    refine wp_mono (pallocGet_spec h flags cnt) ?_ fun _ _ => trivial
    rintro p s' ⟨hinv, -, hs, -⟩
    exact ⟨hinv, hs.busy hbusy⟩
  | put g =>
    rw [step, inHeap, wp_within]
    refine wp_mono (pallocFree_spec h hg.1 hg.2) ?_ fun _ _ => trivial
    rintro p s' ⟨hinv, -, hs, -⟩
    exact ⟨hinv, hs.busy hbusy⟩

theorem Reaches.inv (h : Reaches t) : Inv t.heap t.live ∧ Busy t.heap := by
  obtain ⟨r, mem, pools, headerByte, linkByte, hinit, hrun⟩ := h
  apply Run.invariant hrun
  · have hpalloc := Palloc.Reaches.sound ⟨mem, pools, hinit, .refl _⟩
    refine ⟨⟨⟨⟨r, hpalloc.1⟩, hpalloc.2, List.nil_subset _⟩, List.Pairwise.nil, nofun, fun g => ?_, nofun,
      fun _ => List.nodup_nil, nofun, List.nodup_nil, fun b => ?_⟩, nofun⟩
    · exact iff_of_false nofun nofun
    · exact iff_of_false nofun nofun
  · intro act t ht hg
    exact step_spec ht hg

/-! ### What holds -/

/-- **The heap is sound.** -/
structure Sound (t : Blocks) : Prop where
  /-- Two blocks in use have no byte in common. -/
  apart : ∀ b ∈ t.live, ∀ c ∈ t.live, b ≠ c → ∀ a, b ≤ a → a < b + t.heap.extent b → ¬ (c ≤ a ∧ a < c + t.heap.extent c)
  /-- A block in use lies in pages that are allocated, and in no header. -/
  inside : ∀ b ∈ t.live, ∃ g ∈ t.heap.owned, g ∈ t.heap.palloc.live ∧ ∀ a, b ≤ a → a < b + t.heap.extent b →
    g.Has a ∧ ∀ p ar, t.heap.arena p = some ar → ¬ (p ≤ a ∧ a < p + arenaSize)
  /-- `free_cnt`. -/
  freeCnt : ∀ p d n, t.heap.arena p = some ⟨some d, n⟩ → n = (t.heap.freeIdx p d).card
  /-- A block on a list is of one arena. -/
  belongs : ∀ d, ∀ c ∈ t.heap.freeList d, ∃! p, ∃ n i, t.heap.arena p = some ⟨some d, n⟩ ∧ i < d.blocksPerArena ∧ c = block p d i
  /-- Pages have a block in use. -/
  inUse : ∀ g ∈ t.heap.owned, ∃ b ∈ t.live, g.Has b
  /-- `free` gives pages back exactly if it frees the last block in them, and takes their blocks from the lists. -/
  free : ∀ b ∈ t.live, wp (free b) (fun _ s' => ∀ g ∈ t.heap.owned,
    (g ∉ s'.palloc.live ↔ ∀ c ∈ t.live.erase b, ¬ g.Has c) ∧ (g ∉ s'.palloc.live → ∀ d, ∀ c ∈ s'.freeList d, ¬ g.Has c))
    (fun _ => False) t.heap
  /-- `malloc` returns a null pointer, or a new block that is big enough. -/
  malloc : ∀ size ≤ 2 ^ 31, wp (malloc size) (fun r s' => r ≠ 0 → r ∉ t.live ∧ size ≤ s'.extent r) (fun _ => False) t.heap
  /-- `calloc` returns zeroes. -/
  calloc : ∀ a b, a * b % 2 ^ 32 ≤ 2 ^ 31 → wp (calloc a b) (fun r s' => r ≠ 0 → r ∉ t.live ∧ a * b % 2 ^ 32 ≤ s'.extent r ∧
    ∀ i < a * b % 2 ^ 32, s'.mem (r + i) = 0) (fun _ => False) t.heap
  /-- `realloc` keeps the bytes of the block, and changes nothing when it fails. -/
  realloc : ∀ old newSize, old = 0 ∨ old ∈ t.live → newSize ≤ 2 ^ 31 → wp (realloc old newSize) (fun r s' =>
    (r ≠ 0 → ∀ i < min newSize (t.heap.extent old), s'.mem (r + i) = t.heap.mem (old + i)) ∧
      (r = 0 → newSize ≠ 0 → s' = t.heap)) (fun _ => False) t.heap

section

variable {s s' : Heap} {live : List ℕ} {b : ℕ} {g : Group}

theorem Inv.extent_pos (h : Inv s live) (hb : b ∈ live) : 0 < s.extent b := by
  rcases (h.live b).1 hb with ⟨p, d, n, i, hp, hi, rfl, -⟩ | ⟨p, n, hp, rfl⟩
  · obtain ⟨hd, -, -, hext, -⟩ := h.small hp hi
    have := (desc_ok hd).1
    omega
  · obtain ⟨hpage, -, hpos⟩ := h.page p _ hp
    rw [Heap.extent, (big_page hpage).1, hp]
    simp only [Arena.pages, pgsize, arenaSize] at *
    omega

/-- The pages of a block in use. -/
theorem Inv.group_of_live (h : Inv s live) (hb : b ∈ live) :
    ∃ g ∈ s.owned, ∀ a, b ≤ a → a < b + s.extent b → g.Has a := by
  obtain ⟨ar, har, hhas⟩ := h.live_header hb
  exact ⟨_, (h.owned _).2 ⟨_, ar, har, rfl⟩, hhas⟩

/-- Every page with a header has a block in use. -/
theorem Busy.inUse (hbusy : Busy s) (h : Inv s live) (hg : g ∈ s.owned) : ∃ b ∈ live, g.Has b := by
  obtain ⟨p, ⟨desc, n⟩, hp, rfl⟩ := (h.owned g).1 hg
  obtain ⟨hpage, -, hpos⟩ := h.page p _ hp
  cases desc with
  | none =>
    refine ⟨p + arenaSize, (h.live _).2 (.inr ⟨p, n, hp, rfl⟩), (Group.has_iff ..).2 ?_⟩
    simp only [pgsize, arenaSize] at *
    omega
  | some d =>
    -- `free_cnt` does not count all of the blocks
    have hlt := hbusy p d n hp
    obtain ⟨i, hi, hnot⟩ : ∃ i < d.blocksPerArena, block p d i ∉ s.freeList d := by
      by_contra hall
      push Not at hall
      have hcard : (s.freeIdx p d).card = d.blocksPerArena := by
        rw [Heap.freeIdx, Finset.filter_true_of_mem, Finset.card_range]
        exact fun i hi => hall i (Finset.mem_range.1 hi)
      rw [(h.desc p d n hp).2, hcard] at hlt
      exact lt_irrefl _ hlt
    have hlive : block p d i ∈ live := (h.live _).2 (.inl ⟨p, d, n, i, hp, hi, rfl, hnot⟩)
    have hext := h.extent_pos hlive
    obtain ⟨-, -, -, hsize, hhas⟩ := h.small hp hi
    exact ⟨_, hlive, hhas _ le_rfl (by omega)⟩

/-- Two groups of pages with a header that share a byte are one. -/
theorem Inv.owned_eq (h : Inv s live) {g' : Group} {a : ℕ} (hg : g ∈ s.owned) (hg' : g' ∈ s.owned) (ha : g.Has a)
    (ha' : g'.Has a) : g = g' := by
  by_contra hne
  exact h.apart.forall hg hg' hne a ⟨ha, ha'⟩

theorem Releases.last {l : List ℕ} (hr : Releases s s' l) (h : Inv s live) (hg : g ∈ s.owned) :
    (g ∉ s'.palloc.live ↔ ∀ c ∈ l, ¬ g.Has c) ∧ (g ∉ s'.palloc.live → ∀ d, ∀ c ∈ s'.freeList d, ¬ g.Has c) := by
  have hiff : g ∉ s'.palloc.live ↔ g ∉ s'.owned := ⟨fun hno hc => hno (hr.inv.backed.sub hc), hr.returned g hg⟩
  rw [hiff]
  refine ⟨⟨fun hno c hc hhas => ?_, fun hno hc => ?_⟩, fun hno d c hc hhas => ?_⟩
  · -- the block is in other pages that are still there
    obtain ⟨g', hg', hin⟩ := hr.inv.group_of_live hc
    have hpos := hr.inv.extent_pos hc
    have heq := h.owned_eq hg (hr.owned hg') hhas (hin c le_rfl (by omega))
    exact hno (heq ▸ hg')
  · obtain ⟨c, hc', hhas⟩ := hr.busy.inUse hr.inv hc
    exact hno c hc' hhas
  · obtain ⟨p, n, i, hp, hi, rfl⟩ := hr.inv.free d c hc
    obtain ⟨hd, -, -, -, hin⟩ := hr.inv.small hp hi
    have hg' := (hr.inv.owned _).2 ⟨p, _, hp, rfl⟩
    have hsize := (desc_ok hd).1
    have heq := h.owned_eq hg (hr.owned hg') hhas (hin _ le_rfl (by omega))
    exact hno (heq ▸ hg')

end

end Pintos.Malloc
