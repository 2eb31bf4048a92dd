import Mathlib.Data.Finset.Card
import Pintos.Threads.Malloc

/-!
# What `malloc` keeps

A block of an arena is on the free list of the arena's descriptor, or it is in use;
`free_cnt` counts the former. From this it follows where the blocks in use lie, that
an arena is given back with its last block, that no assertion fails, and that calls do
not touch the bytes of the other blocks.
-/

namespace Pintos.Malloc

open Library Library.Prog
open Paging (pgsize)
open Palloc (Flags Group Groups pallocGetMultiple_spec pallocFreeMultiple_spec)

/-! ### Addresses -/

/-- The blocks of an arena fit in its page, after the header. -/
theorem desc_ok {d : Desc} (h : d ∈ descs) :
    16 ≤ d.blockSize ∧ 0 < d.blocksPerArena ∧ arenaSize + d.blocksPerArena * d.blockSize ≤ pgsize := by
  revert d
  decide

variable {d d' : Desc} {p q i j : ℕ}

theorem mul_add_le_of_lt {m : ℕ} (hi : i < j) : i * m + m ≤ j * m := by
  rw [← Nat.succ_mul]
  exact Nat.mul_le_mul_right m hi

/-- A block is in the page of its arena, after the header. -/
theorem block_bounds (hd : d ∈ descs) (hi : i < d.blocksPerArena) :
    p + arenaSize ≤ block p d i ∧ block p d i + d.blockSize ≤ p + pgsize := by
  have hmul := mul_add_le_of_lt (m := d.blockSize) hi
  have hok := desc_ok hd
  unfold block
  omega

/-- The page of a block. -/
theorem block_page (hd : d ∈ descs) (hp : p % pgsize = 0) (hi : i < d.blocksPerArena) :
    block p d i / pgsize * pgsize = p ∧ block p d i % pgsize = arenaSize + i * d.blockSize := by
  have hb := block_bounds (p := p) hd hi
  have hok := desc_ok hd
  have hdef : block p d i = p + arenaSize + i * d.blockSize := rfl
  generalize block p d i = b at *
  generalize i * d.blockSize = x at *
  simp only [pgsize, arenaSize] at *
  omega

/-- Two blocks of an arena have no byte in common. -/
theorem block_apart (h : i < j) : block p d i + d.blockSize ≤ block p d j := by
  have hmul := mul_add_le_of_lt (m := d.blockSize) h
  unfold block
  omega

theorem block_inj (hd : d ∈ descs) (h : block p d i = block p d j) : i = j := by
  have hok := (desc_ok hd).1
  rcases Nat.lt_trichotomy i j with hij | hij | hij
  · have := block_apart (p := p) (d := d) hij
    omega
  · exact hij
  · have := block_apart (p := p) (d := d) hij
    omega

/-- The page of a big block. -/
theorem big_page (hp : p % pgsize = 0) : (p + arenaSize) / pgsize * pgsize = p ∧ (p + arenaSize) % pgsize = arenaSize := by
  simp only [pgsize, arenaSize] at *
  omega

/-! ### The invariant -/

/-- How many pages an arena has. -/
def Arena.pages (ar : Arena) : ℕ :=
  match ar.desc with
  | none => ar.freeCnt
  | some _ => 1

/-- The blocks of an arena that are free. -/
def Heap.freeIdx (s : Heap) (p : ℕ) (d : Desc) : Finset ℕ := {i ∈ Finset.range d.blocksPerArena | block p d i ∈ s.freeList d}

/-- The page allocator is as its own calls leave it, and the pages with a header are allocated. -/
structure Backed (s : Heap) : Prop where
  laid : ∃ r, Palloc.Laid r s.palloc.pools
  groups : Groups s.palloc.pools s.palloc.live
  sub : s.owned ⊆ s.palloc.live

/-- **The invariant**, with the blocks `live` that are in use: every page that is owned has a header, `free_cnt` counts the
blocks of an arena that are on the list of its descriptor, the lists have only such blocks, and the other blocks are in
use. -/
structure Inv (s : Heap) (live : List ℕ) : Prop where
  backed : Backed s
  apart : s.owned.Pairwise Group.Apart
  page : ∀ p ar, s.arena p = some ar → p % pgsize = 0 ∧ p ≠ 0 ∧ 0 < ar.pages
  owned : ∀ g, g ∈ s.owned ↔ ∃ p ar, s.arena p = some ar ∧ g = ⟨false, p, ar.pages⟩
  desc : ∀ p d n, s.arena p = some ⟨some d, n⟩ → d ∈ descs ∧ n = (s.freeIdx p d).card
  nodup : ∀ d, (s.freeList d).Nodup
  free : ∀ d b, b ∈ s.freeList d → ∃ p n i, s.arena p = some ⟨some d, n⟩ ∧ i < d.blocksPerArena ∧ b = block p d i
  liveNodup : live.Nodup
  live : ∀ b, b ∈ live ↔
    (∃ p d n i, s.arena p = some ⟨some d, n⟩ ∧ i < d.blocksPerArena ∧ b = block p d i ∧ b ∉ s.freeList d) ∨
      ∃ p n, s.arena p = some ⟨none, n⟩ ∧ b = p + arenaSize

/-- No arena is without a block in use. -/
def Busy (s : Heap) : Prop := ∀ p d n, s.arena p = some ⟨some d, n⟩ → n < d.blocksPerArena

/-- How many bytes a block has. -/
def Heap.extent (s : Heap) (b : ℕ) : ℕ :=
  match s.arena (b / pgsize * pgsize) with
  | some ⟨some d, _⟩ => d.blockSize
  | some ⟨none, n⟩ => pgsize * n - arenaSize
  | none => 0

/-- A byte that `malloc` may write: of a header, of a free block, or of no page that is owned. -/
def Heap.Spare (s : Heap) (a : ℕ) : Prop :=
  (∃ p ar, s.arena p = some ar ∧ p ≤ a ∧ a < p + arenaSize) ∨
    (∃ d, ∃ c ∈ s.freeList d, c ≤ a ∧ a < c + d.blockSize) ∨ ∀ g ∈ s.owned, ¬ g.Has a

/-- The blocks `live` have the same bytes as before. -/
def Carries (s s' : Heap) (live : List ℕ) : Prop :=
  ∀ b ∈ live, s'.extent b = s.extent b ∧ ∀ a, b ≤ a → a < b + s.extent b → s'.mem a = s.mem a

section

variable {s s' s'' : Heap} {live : List ℕ} {b n a : ℕ} {ar ar' : Arena}

theorem Carries.trans (h : Carries s s' live) (h' : Carries s' s'' live) : Carries s s'' live := by
  intro b hb
  obtain ⟨he, hm⟩ := h b hb
  obtain ⟨he', hm'⟩ := h' b hb
  refine ⟨he'.trans he, fun a h1 h2 => ?_⟩
  rw [hm' a h1 (he ▸ h2), hm a h1 h2]

/-- Headers, lists and blocks may be written. -/
theorem Backed.congr (h : Backed s) (hpool : ∀ u, s'.palloc.pools.pool u = s.palloc.pools.pool u)
    (hlive : s'.palloc.live = s.palloc.live) (hsub : s'.owned ⊆ s.palloc.live) : Backed s' := by
  obtain ⟨⟨r, hl⟩, hg, -⟩ := h
  refine ⟨⟨r, hl.congr fun u => ?_⟩, ?_, hlive ▸ hsub⟩
  · rw [hpool]
    exact ⟨rfl, rfl, rfl⟩
  · rw [hlive]
    exact hg.congr hpool

/-- The arena at a page is the one that owns it. -/
theorem Inv.group_eq (h : Inv s live) (hp : s.arena p = some ar) (hq : s.arena q = some ar')
    (ha : Group.Has ⟨false, p, ar.pages⟩ a) (ha' : Group.Has ⟨false, q, ar'.pages⟩ a) : p = q := by
  by_contra hne
  refine h.apart.forall ((h.owned _).2 ⟨p, ar, hp, rfl⟩) ((h.owned _).2 ⟨q, ar', hq, rfl⟩) ?_ a ⟨ha, ha'⟩
  intro heq
  exact hne (congrArg Group.addr heq)

/-- A block of an arena in use or free. -/
theorem Inv.small (h : Inv s live) (hp : s.arena p = some ⟨some d, n⟩) (hi : i < d.blocksPerArena) :
    d ∈ descs ∧ p % pgsize = 0 ∧ block p d i / pgsize * pgsize = p ∧ s.extent (block p d i) = d.blockSize ∧
      ∀ a, block p d i ≤ a → a < block p d i + d.blockSize → Group.Has ⟨false, p, 1⟩ a := by
  obtain ⟨hd, -⟩ := h.desc p d n hp
  obtain ⟨hpage, -, -⟩ := h.page p _ hp
  obtain ⟨hb, -⟩ := block_page hd hpage hi
  refine ⟨hd, hpage, hb, ?_, fun a h1 h2 => ?_⟩
  · rw [Heap.extent, hb, hp]
  · have hbounds := block_bounds (p := p) hd hi
    simp only [Group.Has, pgsize] at *
    omega

/-- A block in use lies in the pages of an arena, after the header. -/
theorem Inv.live_arena (h : Inv s live) (hb : b ∈ live) :
    ∃ p ar, s.arena p = some ar ∧ p + arenaSize ≤ b ∧ b + s.extent b ≤ p + pgsize * ar.pages := by
  rcases (h.live b).1 hb with ⟨p, d, n, i, hp, hi, rfl, -⟩ | ⟨p, n, hp, rfl⟩
  · obtain ⟨hd, -, -, hext, -⟩ := h.small hp hi
    have hbounds := block_bounds (p := p) hd hi
    refine ⟨p, _, hp, hbounds.1, ?_⟩
    rw [hext]
    exact hbounds.2
  · obtain ⟨hpage, -, hpos⟩ := h.page p _ hp
    refine ⟨p, _, hp, le_rfl, ?_⟩
    rw [Heap.extent, (big_page hpage).1, hp]
    simp only [Arena.pages, pgsize, arenaSize] at hpos ⊢
    omega

theorem Group.has_iff (p cnt a : ℕ) : Group.Has ⟨false, p, cnt⟩ a ↔ p ≤ a ∧ a < p + pgsize * cnt := Iff.rfl

/-- A free block does not overlap a block in use. -/
theorem Inv.free_apart (h : Inv s live) {c : ℕ} (hb : b ∈ live) (hc : c ∈ s.freeList d) (h1 : b ≤ a) (h2 : a < b + s.extent b) :
    ¬ (c ≤ a ∧ a < c + d.blockSize) := by
  rintro ⟨h3, h4⟩
  obtain ⟨q, m, j, hq, hj, rfl⟩ := h.free d c hc
  obtain ⟨hd, -, -, -, hhas⟩ := h.small hq hj
  obtain ⟨p, ar, hp, hle, hend⟩ := h.live_arena hb
  have hpq : p = q := h.group_eq hp hq ((Group.has_iff ..).2 ⟨by omega, by omega⟩) (hhas a h3 h4)
  subst hpq
  rcases (h.live b).1 hb with ⟨p', d', n', i, hp', hi, rfl, hnot⟩ | ⟨p', n', hp', rfl⟩
  · obtain ⟨-, -, -, hext, hhas'⟩ := h.small hp' hi
    rw [hext] at h2
    obtain rfl : p' = p := h.group_eq hp' hq (hhas' a h1 h2) (hhas a h3 h4)
    obtain ⟨rfl, rfl⟩ : d' = d ∧ n' = m := by
      rw [hq] at hp'
      cases hp'
      exact ⟨rfl, rfl⟩
    -- two blocks of one arena
    rcases Nat.lt_trichotomy i j with hij | rfl | hij
    · have := block_apart (p := p') (d := d') hij
      omega
    · exact hnot hc
    · have := block_apart (p := p') (d := d') hij
      omega
  · obtain rfl : p' = p := by
      obtain ⟨hpage, -, hpos⟩ := h.page p' _ hp'
      refine h.group_eq hp' hq ((Group.has_iff ..).2 ?_) (hhas a h3 h4)
      rw [Heap.extent, (big_page hpage).1, hp'] at h2
      simp only [Arena.pages, pgsize, arenaSize] at *
      omega
    rw [hq] at hp'
    cases hp'

/-- **The bytes of a block in use**: of no header, of no free block, and in pages that are owned. -/
theorem Inv.not_spare (h : Inv s live) (hb : b ∈ live) (h1 : b ≤ a) (h2 : a < b + s.extent b) : ¬ s.Spare a := by
  obtain ⟨p, ar, hp, hle, hend⟩ := h.live_arena hb
  have hhas : Group.Has ⟨false, p, ar.pages⟩ a := (Group.has_iff ..).2 ⟨by omega, by omega⟩
  rintro (⟨q, ar', hq, h3, h4⟩ | ⟨d, c, hc, hin⟩ | hno)
  · obtain ⟨-, -, hpos⟩ := h.page q ar' hq
    obtain rfl : p = q := by
      refine h.group_eq hp hq hhas ((Group.has_iff ..).2 ⟨h3, ?_⟩)
      simp only [pgsize, arenaSize] at *
      omega
    omega
  · exact h.free_apart hb hc h1 h2 hin
  · exact hno _ ((h.owned _).2 ⟨p, ar, hp, rfl⟩) hhas

/-- A call that writes spare bytes only. -/
theorem Inv.carries {l : List ℕ} (h : Inv s' live) (hl : l ⊆ live) (hext : ∀ b ∈ l, s'.extent b = s.extent b)
    (hmem : ∀ a, ¬ s'.Spare a → s'.mem a = s.mem a) : Carries s s' l := by
  intro b hb
  refine ⟨hext b hb, fun a h1 h2 => hmem a (h.not_spare (hl hb) h1 ?_)⟩
  rw [hext b hb]
  exact h2

/-! ### Pages -/

/-- Pages that are allocated, and have no header. -/
structure Fresh (s : Heap) (g : Group) : Prop where
  page : g.addr % pgsize = 0
  addr : g.addr ≠ 0
  cnt : g.cnt ≠ 0
  mem : g ∈ s.palloc.live
  apart : ∀ g' ∈ s.owned, Group.Apart g g'

/-- The headers and the lists are the same. -/
structure SameHeap (s s' : Heap) : Prop where
  arena : s'.arena = s.arena
  freeList : s'.freeList = s.freeList
  owned : s'.owned = s.owned

theorem SameHeap.trans (h : SameHeap s s') (h' : SameHeap s' s'') : SameHeap s s'' :=
  ⟨h'.arena.trans h.arena, h'.freeList.trans h.freeList, h'.owned.trans h.owned⟩

theorem SameHeap.extent (h : SameHeap s s') (b : ℕ) : s'.extent b = s.extent b := by
  rw [Heap.extent, Heap.extent, h.arena]

theorem Inv.congr (h : Inv s live) (hs : SameHeap s s') (hb : Backed s') : Inv s' live := by
  obtain ⟨harena, hfree, howned⟩ := hs
  have hidx : ∀ p d, s'.freeIdx p d = s.freeIdx p d := by
    intro p d
    rw [Heap.freeIdx, Heap.freeIdx, hfree]
  refine ⟨hb, ?_, ?_, ?_, ?_, ?_, ?_, h.liveNodup, ?_⟩
  · rw [howned]
    exact h.apart
  · rw [harena]
    exact h.page
  · rw [harena, howned]
    exact h.owned
  · simp only [harena, hidx]
    exact h.desc
  · rw [hfree]
    exact h.nodup
  · rw [harena, hfree]
    exact h.free
  · rw [harena, hfree]
    exact h.live

/-- Others write outside the pages that have a header. -/
theorem Inv.carries_of_owned (h : Inv s live) (hs : SameHeap s s') (hb : Backed s')
    (hmem : ∀ a, (∃ g ∈ s.owned, g.Has a) → s'.mem a = s.mem a) : Carries s s' live := by
  refine (h.congr hs hb).carries (List.Subset.refl _) (fun b _ => hs.extent b) fun a ha => hmem a ?_
  simp only [Heap.Spare, not_or, not_forall, not_not] at ha
  obtain ⟨-, -, g, hg, hga⟩ := ha
  exact ⟨g, hs.owned ▸ hg, hga⟩

/-- **Pages are obtained.** -/
theorem pallocGet_spec (h : Inv s live) (flags : Flags) (cnt : ℕ) :
    wp (pallocGet flags cnt) (fun p s' => Inv s' live ∧ Carries s s' live ∧ SameHeap s s' ∧ (p = 0 → s' = s) ∧
      (p ≠ 0 → Fresh s' ⟨flags.user, p, cnt⟩)) (fun _ => flags.assert = true) s := by
  obtain ⟨⟨r, hl⟩, hg, hsub⟩ := h.backed
  rw [pallocGet, wp_bind, wp_callPalloc]
  refine wp_mono (pallocGetMultiple_spec hg hl flags cnt) (fun p pools hp => ?_) fun e he => he.2.1
  rw [wp_bind, wp_onlyIf]
  obtain ⟨hl', ⟨rfl, rfl, -⟩ | ⟨hp0, hcnt, hg', hmem⟩⟩ := hp
  · refine ⟨fun hne => absurd rfl hne, fun _ => ?_⟩
    exact ⟨h, fun b _ => ⟨rfl, fun _ _ _ => rfl⟩, ⟨rfl, rfl, rfl⟩, fun _ => rfl, fun hne => absurd rfl hne⟩
  · refine ⟨fun _ => ?_, fun hne => absurd hp0 hne⟩
    rw [wp_modify, wp_pure]
    generalize hs' : ({ s with palloc := { pools := pools, live := ⟨flags.user, p, cnt⟩ :: s.palloc.live } } : Heap) = s'
    have hs : SameHeap s s' := by
      subst hs'
      exact ⟨rfl, rfl, rfl⟩
    have hb : Backed s' := by
      subst hs'
      exact ⟨⟨r, hl'⟩, hg', fun g hg => List.mem_cons_of_mem _ (hsub hg)⟩
    have hap : ∀ g ∈ s.owned, Group.Apart ⟨flags.user, p, cnt⟩ g := fun g hg =>
      (List.pairwise_cons.1 hg'.apart).1 g (hsub hg)
    refine ⟨h.congr hs hb, h.carries_of_owned hs hb ?_, hs, fun hc => absurd hc hp0, fun _ => ⟨?_, hp0, hcnt, ?_, ?_⟩⟩
    · rintro a ⟨g, hg, hga⟩
      subst hs'
      exact hmem a fun hc => hap g hg a ⟨hc, hga⟩
    · obtain ⟨-, idx, haddr, -⟩ := hg'.within _ List.mem_cons_self
      have halign := hl'.aligned flags.user
      simp only [pgsize] at *
      omega
    · subst hs'
      exact List.mem_cons_self
    · rw [hs.owned]
      exact hap

/-- **Pages without a header are freed.** -/
theorem pallocFree_spec {g : Group} (h : Inv s live) (hg : g ∈ s.palloc.live) (hno : g ∉ s.owned) :
    wp (pallocFree g) (fun _ s' => Inv s' live ∧ Carries s s' live ∧ SameHeap s s' ∧ g ∉ s'.palloc.live)
      (fun _ => False) s := by
  obtain ⟨⟨r, hl⟩, hgs, hsub⟩ := h.backed
  rw [pallocFree, wp_bind, wp_callPalloc]
  refine wp_post (pallocFreeMultiple_spec hgs hl hg) ?_
  rintro _ pools ⟨hl', hg', hmem⟩
  rw [wp_modify]
  generalize hs' : ({ s with palloc := { pools := pools, live := s.palloc.live.erase g } } : Heap) = s'
  have hs : SameHeap s s' := by
    subst hs'
    exact ⟨rfl, rfl, rfl⟩
  have hne : ∀ g' ∈ s.owned, g' ≠ g := by
    rintro g' hg'' rfl
    exact hno hg''
  have hb : Backed s' := by
    subst hs'
    exact ⟨⟨r, hl'⟩, hg', fun g' hg'' => (List.mem_erase_of_ne (hne g' hg'')).2 (hsub hg'')⟩
  refine ⟨h.congr hs hb, h.carries_of_owned hs hb ?_, hs, ?_⟩
  · rintro a ⟨g', hg'', hga⟩
    subst hs'
    refine hmem a fun hc => hne g' hg'' ?_
    exact hgs.eq_of_has (hsub hg'') hg hga hc
  · subst hs'
    exact fun hc => (hgs.nodup.mem_erase_iff.1 hc).1 rfl

/-! ### One block -/

/-- Only `free_cnt` of small arenas may differ. -/
def SameArenas (s s' : Heap) : Prop :=
  ∀ q, s'.arena q = s.arena q ∨ ∃ d n n', s.arena q = some ⟨some d, n⟩ ∧ s'.arena q = some ⟨some d, n'⟩

theorem SameArenas.extent (h : SameArenas s s') (c : ℕ) : s'.extent c = s.extent c := by
  unfold Heap.extent
  rcases h (c / pgsize * pgsize) with heq | ⟨d, n, n', h1, h2⟩
  · rw [heq]
  · rw [h1, h2]

/-- A block goes from the list of its descriptor, or to it. -/
theorem Inv.recount {live' : List ℕ} {l : List ℕ} {n' : ℕ} (h : Inv s live) (hbacked : Backed s')
    (hp : s.arena p = some ⟨some d, n⟩) (hi : i < d.blocksPerArena) (harena : s'.arena = Function.update s.arena p (some ⟨some d, n'⟩))
    (howned : s'.owned = s.owned) (hfree : s'.freeList = Function.update s.freeList d l) (hnd : l.Nodup)
    (hl : ∀ c ≠ block p d i, c ∈ l ↔ c ∈ s.freeList d) (hlnd : live'.Nodup)
    (hlive : ∀ c ≠ block p d i, c ∈ live' ↔ c ∈ live) (hb : block p d i ∈ live' ↔ block p d i ∉ l)
    (hn : n' = (s'.freeIdx p d).card) : Inv s' live' ∧ SameArenas s s' := by
  have hself : s'.arena p = some ⟨some d, n'⟩ := by rw [harena, Function.update_self]
  have hother : ∀ q ≠ p, s'.arena q = s.arena q := fun q hq => by rw [harena, Function.update_of_ne hq]
  have hd : s'.freeList d = l := by rw [hfree, Function.update_self]
  have hd' : ∀ e ≠ d, s'.freeList e = s.freeList e := fun e he => by rw [hfree, Function.update_of_ne he]
  obtain ⟨hdesc, hpage, hround, -, -⟩ := h.small hp hi
  -- an arena before is an arena after, with the same descriptor
  have hto : ∀ q e m, s.arena q = some ⟨some e, m⟩ → ∃ m', s'.arena q = some ⟨some e, m'⟩ := by
    intro q e m hq
    by_cases hqp : q = p
    · subst hqp
      rw [hp] at hq
      cases hq
      exact ⟨n', hself⟩
    · exact ⟨m, (hother q hqp).trans hq⟩
  have hfrom : ∀ q e m, s'.arena q = some ⟨some e, m⟩ → ∃ m', s.arena q = some ⟨some e, m'⟩ := by
    intro q e m hq
    by_cases hqp : q = p
    · subst hqp
      rw [hself] at hq
      cases hq
      exact ⟨n, hp⟩
    · exact ⟨m, (hother q hqp).symm.trans hq⟩
  have hbig : ∀ q m, s'.arena q = some ⟨none, m⟩ ↔ s.arena q = some ⟨none, m⟩ := by
    intro q m
    by_cases hqp : q = p
    · subst hqp
      rw [hself, hp]
      simp
    · rw [hother q hqp]
  -- a block of another arena is not this block
  have hne : ∀ q e m j, s.arena q = some ⟨some e, m⟩ → j < e.blocksPerArena → block q e j = block p d i → q = p ∧ e = d := by
    intro q e m j hq hj heq
    obtain ⟨-, -, hround', -, -⟩ := h.small hq hj
    have hqp : q = p := by rw [← hround', heq, hround]
    subst hqp
    rw [hp] at hq
    cases hq
    exact ⟨rfl, rfl⟩
  refine ⟨⟨hbacked, howned ▸ h.apart, fun q ar hq => ?_, fun g => ?_, fun q e m hq => ?_, fun e => ?_, fun e c hc => ?_, hlnd,
    fun c => ?_⟩, fun q => ?_⟩
  · by_cases hqp : q = p
    · subst hqp
      rw [hself] at hq
      cases hq
      exact ⟨hpage, (h.page _ _ hp).2.1, Nat.one_pos⟩
    · exact h.page q ar (hother q hqp ▸ hq)
  · rw [howned, h.owned]
    constructor
    · rintro ⟨q, ar, hq, rfl⟩
      by_cases hqp : q = p
      · subst hqp
        rw [hp] at hq
        cases hq
        exact ⟨_, _, hself, rfl⟩
      · exact ⟨q, ar, (hother q hqp).trans hq, rfl⟩
    · rintro ⟨q, ar, hq, rfl⟩
      by_cases hqp : q = p
      · subst hqp
        rw [hself] at hq
        cases hq
        exact ⟨_, _, hp, rfl⟩
      · exact ⟨q, ar, (hother q hqp).symm.trans hq, rfl⟩
  · by_cases hqp : q = p
    · subst hqp
      rw [hself] at hq
      cases hq
      exact ⟨hdesc, hn⟩
    · rw [hother q hqp] at hq
      obtain ⟨he, hm⟩ := h.desc q e m hq
      refine ⟨he, hm.trans (congrArg Finset.card ?_)⟩
      -- the blocks of another arena stay where they are
      apply Finset.filter_congr
      intro j hj
      rw [Finset.mem_range] at hj
      by_cases hed : e = d
      · subst hed
        rw [hd, hl]
        intro heq
        exact hqp (hne q e m j hq hj heq).1
      · rw [hd' e hed]
  · by_cases hed : e = d
    · rw [hed, hd]
      exact hnd
    · rw [hd' e hed]
      exact h.nodup e
  · by_cases hed : e = d
    · subst hed
      by_cases hcb : c = block p e i
      · exact ⟨p, n', i, hself, hi, hcb⟩
      · rw [hd, hl c hcb] at hc
        obtain ⟨q, m, j, hq, hj, rfl⟩ := h.free e c hc
        obtain ⟨m', hq'⟩ := hto q e m hq
        exact ⟨q, m', j, hq', hj, rfl⟩
    · rw [hd' e hed] at hc
      obtain ⟨q, m, j, hq, hj, rfl⟩ := h.free e c hc
      obtain ⟨m', hq'⟩ := hto q e m hq
      exact ⟨q, m', j, hq', hj, rfl⟩
  · by_cases hcb : c = block p d i
    · subst hcb
      rw [hb]
      constructor
      · intro hnot
        exact .inl ⟨p, d, n', i, hself, hi, rfl, hd.symm ▸ hnot⟩
      · rintro (⟨q, e, m, j, hq, hj, heq, hnot⟩ | ⟨q, m, hq, heq⟩)
        · obtain ⟨m', hq'⟩ := hfrom q e m hq
          obtain ⟨rfl, rfl⟩ := hne q e m' j hq' hj heq.symm
          rwa [hd] at hnot
        · rw [hbig] at hq
          have hqp : q = p := by rw [← hround, heq, (big_page (h.page _ _ hq).1).1]
          rw [hqp, hp] at hq
          cases hq
    · rw [hlive c hcb, h.live]
      refine or_congr ?_ (exists_congr fun q => exists_congr fun m => and_congr_left fun _ => (hbig q m).symm)
      constructor
      · rintro ⟨q, e, m, j, hq, hj, rfl, hnot⟩
        obtain ⟨m', hq'⟩ := hto q e m hq
        refine ⟨q, e, m', j, hq', hj, rfl, ?_⟩
        by_cases hed : e = d
        · subst hed
          rwa [hd, hl _ hcb]
        · rwa [hd' e hed]
      · rintro ⟨q, e, m, j, hq, hj, rfl, hnot⟩
        obtain ⟨m', hq'⟩ := hfrom q e m hq
        refine ⟨q, e, m', j, hq', hj, rfl, ?_⟩
        by_cases hed : e = d
        · subst hed
          rwa [hd, hl _ hcb] at hnot
        · rwa [hd' e hed] at hnot
  · by_cases hqp : q = p
    · subst hqp
      exact .inr ⟨d, n, n', hp, hself⟩
    · exact .inl (hother q hqp)

/-- The arena of a block is found, whatever is on the lists. -/
theorem wp_blockToArena_small {Q : ℕ × Arena → Heap → Prop} {E : Fault → Prop} (hd : d ∈ descs) (hpage : p % pgsize = 0)
    (h0 : p ≠ 0) (hp : s.arena p = some ⟨some d, n⟩) (hi : i < d.blocksPerArena) (hQ : Q (p, ⟨some d, n⟩) s) :
    wp (blockToArena (block p d i)) Q E s := by
  obtain ⟨hround, hofs⟩ := block_page hd hpage hi
  have hbounds := block_bounds (p := p) hd hi
  have hlt : i * d.blockSize < 2 ^ 32 := by
    unfold block at hbounds
    have := (desc_ok hd).2.2
    have := mul_add_le_of_lt (m := d.blockSize) hi
    simp only [pgsize] at *
    omega
  have hmod : (block p d i % pgsize + 2 ^ 32 - arenaSize) % 2 ^ 32 % d.blockSize = 0 := by
    have hsub : arenaSize + i * d.blockSize + 2 ^ 32 - arenaSize = i * d.blockSize + 2 ^ 32 := by omega
    rw [hofs, hsub, Nat.add_mod_right, Nat.mod_eq_of_lt hlt]
    exact Nat.mul_mod_left ..
  rw [blockToArena, wp_bind, wp_gets]
  dsimp only [id]
  rw [hround, if_neg h0, hp]
  dsimp only
  rw [if_pos hmod]
  exact hQ

theorem wp_blockToArena_big {Q : ℕ × Arena → Heap → Prop} {E : Fault → Prop} (hpage : p % pgsize = 0) (h0 : p ≠ 0)
    (hp : s.arena p = some ⟨none, n⟩) (hQ : Q (p, ⟨none, n⟩) s) : wp (blockToArena (p + arenaSize)) Q E s := by
  obtain ⟨hround, hofs⟩ := big_page hpage
  rw [blockToArena, wp_bind, wp_gets]
  dsimp only [id]
  rw [hround, if_neg h0, hp]
  dsimp only
  rw [if_pos hofs]
  exact hQ

/-- A header and a list are written: both are spare bytes afterwards. -/
theorem mem_of_not_spare {l : List ℕ} (hd : d ∈ descs) (hnot : ¬ ((s.setFreeList d l).setArena p ar).Spare a) :
    ((s.setFreeList d l).setArena p ar).mem a = s.mem a := by
  simp only [Heap.Spare, not_or] at hnot
  obtain ⟨hhead, hfree, -⟩ := hnot
  simp only [Heap.setArena_arena, Heap.setArena_freeList, Heap.setFreeList_freeList] at hhead hfree
  rw [Heap.setArena_mem, Heap.setFreeList_mem, if_neg, if_neg]
  · rintro ⟨c, hc, h1, h2⟩
    have := (desc_ok hd).1
    refine hfree ⟨d, c, ?_, h1, by omega⟩
    rw [Function.update_self]
    exact hc
  · rintro ⟨h1, h2⟩
    exact hhead ⟨p, ar, Function.update_self .., h1, h2⟩

/-- **A block is taken from a list that has one.** -/
theorem popBlock_spec {rest : List ℕ} (h : Inv s live) (hl : s.freeList d = b :: rest)
    (hbusy : ∀ q e m, s.arena q = some ⟨some e, m⟩ → q = b / pgsize * pgsize ∨ m < e.blocksPerArena) :
    wp (popBlock d) (fun r s' => r = b ∧ Inv s' (b :: live) ∧ Busy s' ∧ Carries s s' live ∧ s'.extent b = d.blockSize)
      (fun _ => False) s := by
  have hbl : b ∈ s.freeList d := hl ▸ List.mem_cons_self
  obtain ⟨p, n, i, hp, hi, rfl⟩ := h.free d b hbl
  obtain ⟨hd, hpage, hround, hext, -⟩ := h.small hp hi
  obtain ⟨-, h0, -⟩ := h.page p _ hp
  have hnd := h.nodup d
  rw [hl] at hnd
  obtain ⟨hnot, hrest⟩ := List.nodup_cons.1 hnd
  have hlive : block p d i ∉ live := by
    intro hmem
    rcases (h.live _).1 hmem with ⟨q, e, m, j, hq, hj, heq, hn⟩ | ⟨q, m, hq, heq⟩
    · have hqp : q = p := by rw [← (h.small hq hj).2.2.1, ← heq, hround]
      rw [hqp, hp] at hq
      cases hq
      exact hn hbl
    · have hqp : q = p := by rw [← hround, heq, (big_page (h.page _ _ hq).1).1]
      rw [hqp, hp] at hq
      cases hq
  rw [popBlock, wp_bind, wp_gets]
  dsimp only [id]
  rw [hl]
  dsimp only
  rw [wp_bind, wp_modify, wp_bind]
  refine wp_blockToArena_small hd hpage h0 hp hi ?_
  dsimp only
  rw [wp_bind, wp_modify, wp_pure]
  have hidx : ((s.setFreeList d rest).setArena p ⟨some d, n - 1⟩).freeIdx p d = (s.freeIdx p d).erase i := by
    ext j
    simp only [Heap.freeIdx, Heap.setArena_freeList, Heap.setFreeList_freeList, Function.update_self, Finset.mem_filter, Finset.mem_range,
      Finset.mem_erase, hl, List.mem_cons]
    constructor
    · rintro ⟨hj, hmem⟩
      exact ⟨fun hji => hnot (hji ▸ hmem), hj, .inr hmem⟩
    · rintro ⟨hne, hj, hmem⟩
      exact ⟨hj, hmem.resolve_left fun heq => hne (block_inj hd heq)⟩
  have hmem : i ∈ s.freeIdx p d := by
    rw [Heap.freeIdx, Finset.mem_filter, Finset.mem_range]
    exact ⟨hi, hbl⟩
  obtain ⟨hinv, hsame⟩ : Inv ((s.setFreeList d rest).setArena p ⟨some d, n - 1⟩) (block p d i :: live) ∧
      SameArenas s ((s.setFreeList d rest).setArena p ⟨some d, n - 1⟩) := by
    refine h.recount (h.backed.congr (fun _ => rfl) rfl h.backed.sub) hp hi rfl rfl rfl hrest (fun c hc => ?_) (List.nodup_cons.2 ⟨hlive, h.liveNodup⟩) (fun c hc => ?_)
      (iff_of_true List.mem_cons_self hnot) ?_
    · rw [hl, List.mem_cons, or_iff_right hc]
    · rw [List.mem_cons, or_iff_right hc]
    · rw [hidx, Finset.card_erase_of_mem hmem, ← (h.desc p d n hp).2]
  refine ⟨rfl, hinv, fun q e m hq => ?_, ?_, (hsame.extent _).trans hext⟩
  · by_cases hqp : q = p
    · subst hqp
      have hq' : ((s.setFreeList d rest).setArena q ⟨some d, n - 1⟩).arena q = some ⟨some d, n - 1⟩ := Function.update_self ..
      rw [hq'] at hq
      cases hq
      have hpos : 0 < (s.freeIdx q d).card := Finset.card_pos.2 ⟨i, hmem⟩
      have hle : (s.freeIdx q d).card ≤ d.blocksPerArena := by
        have := Finset.card_filter_le (Finset.range d.blocksPerArena) fun i => block q d i ∈ s.freeList d
        rwa [Finset.card_range] at this
      rw [← (h.desc q d n hp).2] at hpos hle
      omega
    · have hq' : s.arena q = some ⟨some e, m⟩ := by
        rw [← hq]
        exact (Function.update_of_ne hqp ..).symm
      exact (hbusy q e m hq').resolve_left fun hc => hqp (hc.trans hround)
  · exact hinv.carries (List.subset_cons_self ..) (fun c _ => hsame.extent c) fun a ha => mem_of_not_spare hd ha

/-! ### A new arena -/

/-- There is no header at the start of new pages. -/
theorem Inv.arena_of_apart {cnt : ℕ} (h : Inv s live) (hpos : 0 < cnt) (hap : ∀ g ∈ s.owned, Group.Apart ⟨false, p, cnt⟩ g) :
    s.arena p = none := by
  cases hp : s.arena p with
  | none => rfl
  | some ar =>
    have hpages := (h.page p ar hp).2.2
    refine absurd ?_ (hap _ ((h.owned _).2 ⟨p, ar, hp, rfl⟩) p)
    rw [Group.has_iff, Group.has_iff]
    simp only [pgsize]
    omega

/-- **Pages with a header are added**: their blocks go to the list of the descriptor, or the one block is in use. -/
theorem Inv.addArena {live' : List ℕ} (h : Inv s live) (hf : Fresh s ⟨false, p, ar.pages⟩)
    (hpool : ∀ u, s'.palloc.pools.pool u = s.palloc.pools.pool u) (hgroups : s'.palloc.live = s.palloc.live)
    (harena : s'.arena = Function.update s.arena p (some ar)) (howned : s'.owned = ⟨false, p, ar.pages⟩ :: s.owned)
    (hdesc : ∀ d n, ar = ⟨some d, n⟩ → d ∈ descs ∧ n = (s'.freeIdx p d).card)
    (hfree : ∀ d c, c ∈ s'.freeList d ↔ c ∈ s.freeList d ∨ ∃ n i, ar = ⟨some d, n⟩ ∧ i < d.blocksPerArena ∧ c = block p d i)
    (hnodup : ∀ d, (s'.freeList d).Nodup) (hlnd : live'.Nodup)
    (hlive : ∀ c, c ∈ live' ↔ c ∈ live ∨ ∃ n, ar = ⟨none, n⟩ ∧ c = p + arenaSize) :
    Inv s' live' ∧ ∀ q ≠ p, s'.arena q = s.arena q := by
  obtain ⟨hpage, h0, hpos, hmem, hap⟩ := hf
  have hpos := Nat.pos_of_ne_zero hpos
  have hnone := h.arena_of_apart hpos hap
  have hbacked : Backed s' := by
    refine h.backed.congr hpool hgroups ?_
    rw [howned]
    exact List.cons_subset.2 ⟨hmem, h.backed.sub⟩
  have hself : s'.arena p = some ar := by rw [harena, Function.update_self]
  have hother : ∀ q ≠ p, s'.arena q = s.arena q := fun q hq => by rw [harena, Function.update_of_ne hq]
  have hold : ∀ q ar', s.arena q = some ar' → q ≠ p ∧ s'.arena q = some ar' := by
    intro q ar' hq
    have hqp : q ≠ p := by
      rintro rfl
      rw [hnone] at hq
      cases hq
    exact ⟨hqp, (hother q hqp).trans hq⟩
  -- a block of an arena that was there is none of the new ones
  have hsep : ∀ q d n j, s.arena q = some ⟨some d, n⟩ → j < d.blocksPerArena →
      (block q d j ∈ s'.freeList d ↔ block q d j ∈ s.freeList d) := by
    intro q d n j hq hj
    rw [hfree]
    refine or_iff_left ?_
    rintro ⟨m, i, rfl, hi, heq⟩
    obtain ⟨hd, -, hround, -, -⟩ := h.small hq hj
    apply (hold q _ hq).1
    rw [← hround, heq, (block_page hd hpage hi).1]
  refine ⟨⟨hbacked, ?_, fun q ar' hq => ?_, fun g => ?_, fun q d n hq => ?_, hnodup, fun d c hc => ?_, hlnd, fun c => ?_⟩, hother⟩
  · rw [howned]
    exact List.pairwise_cons.2 ⟨hap, h.apart⟩
  · by_cases hqp : q = p
    · subst hqp
      rw [hself] at hq
      cases hq
      exact ⟨hpage, h0, hpos⟩
    · exact h.page q ar' (hother q hqp ▸ hq)
  · rw [howned, List.mem_cons, h.owned]
    constructor
    · rintro (rfl | ⟨q, ar', hq, rfl⟩)
      · exact ⟨p, ar, hself, rfl⟩
      · exact ⟨q, ar', (hold q ar' hq).2, rfl⟩
    · rintro ⟨q, ar', hq, rfl⟩
      by_cases hqp : q = p
      · subst hqp
        rw [hself] at hq
        cases hq
        exact .inl rfl
      · exact .inr ⟨q, ar', hother q hqp ▸ hq, rfl⟩
  · by_cases hqp : q = p
    · subst hqp
      rw [hself] at hq
      exact hdesc d n (Option.some.inj hq)
    · rw [hother q hqp] at hq
      obtain ⟨hd, hn⟩ := h.desc q d n hq
      refine ⟨hd, hn.trans (congrArg Finset.card (Finset.filter_congr fun j hj => ?_))⟩
      exact (hsep q d n j hq (Finset.mem_range.1 hj)).symm
  · rcases (hfree d c).1 hc with hc | ⟨n, i, har, hi, rfl⟩
    · obtain ⟨q, n, i, hq, hi, rfl⟩ := h.free d c hc
      exact ⟨q, n, i, (hold q _ hq).2, hi, rfl⟩
    · exact ⟨p, n, i, har ▸ hself, hi, rfl⟩
  · rw [hlive, h.live]
    constructor
    · rintro ((⟨q, d, n, i, hq, hi, rfl, hnot⟩ | ⟨q, n, hq, rfl⟩) | ⟨n, har, rfl⟩)
      · exact .inl ⟨q, d, n, i, (hold q _ hq).2, hi, rfl, fun hc => hnot ((hsep q d n i hq hi).1 hc)⟩
      · exact .inr ⟨q, n, (hold q _ hq).2, rfl⟩
      · exact .inr ⟨p, n, har ▸ hself, rfl⟩
    · rintro (⟨q, d, n, i, hq, hi, rfl, hnot⟩ | ⟨q, n, hq, rfl⟩)
      · by_cases hqp : q = p
        · subst hqp
          rw [hself] at hq
          exact absurd ((hfree _ _).2 (.inr ⟨n, i, Option.some.inj hq, hi, rfl⟩)) hnot
        · rw [hother q hqp] at hq
          exact .inl (.inl ⟨q, d, n, i, hq, hi, rfl, fun hc => hnot ((hsep q d n i hq hi).2 hc)⟩)
      · by_cases hqp : q = p
        · subst hqp
          rw [hself] at hq
          exact .inr ⟨n, Option.some.inj hq, rfl⟩
        · rw [hother q hqp] at hq
          exact .inl (.inr ⟨q, n, hq, rfl⟩)

/-- A block in use has a header at the start of its page. -/
theorem Inv.live_page (h : Inv s live) (hb : b ∈ live) : ∃ ar, s.arena (b / pgsize * pgsize) = some ar := by
  rcases (h.live b).1 hb with ⟨p, d, n, i, hp, hi, rfl, -⟩ | ⟨p, n, hp, rfl⟩
  · rw [(h.small hp hi).2.2.1]
    exact ⟨_, hp⟩
  · rw [(big_page (h.page _ _ hp).1).1]
    exact ⟨_, hp⟩

/-- Where the headers of the blocks in use are the same, so are their sizes. -/
theorem Inv.extent_congr (h : Inv s live) (hother : ∀ q ar, s.arena q = some ar → s'.arena q = s.arena q) (hb : b ∈ live) :
    s'.extent b = s.extent b := by
  obtain ⟨ar, har⟩ := h.live_page hb
  rw [Heap.extent, Heap.extent, hother _ ar har]

/-- The loop that puts the first `m` blocks of an arena on the list. -/
theorem addBlocks_spec {m : ℕ} (hp : s.arena p = some ⟨some d, n⟩) (h0 : p ≠ 0) (hm : m ≤ d.blocksPerArena) :
    wp (addBlocks d p m) (fun _ s' => s'.arena = s.arena ∧ s'.owned = s.owned ∧
      (∀ u, s'.palloc.pools.pool u = s.palloc.pools.pool u) ∧ s'.palloc.live = s.palloc.live ∧
      s'.freeList = Function.update s.freeList d (s.freeList d ++ (List.range m).map (block p d)) ∧
      ∀ a, (∀ c ∈ s'.freeList d, ¬ (c ≤ a ∧ a < c + 8)) → s'.mem a = s.mem a) (fun _ => False) s := by
  induction m with
  | zero =>
    refine ⟨rfl, rfl, fun _ => rfl, rfl, ?_, fun _ _ => rfl⟩
    rw [List.range_zero, List.map_nil, List.append_nil, Function.update_eq_self]
  | succ m ih =>
    rw [addBlocks]
    refine wp_seq (ih (by omega)) (fun _ => id) ?_
    rintro _ s₁ ⟨harena, howned, hpool, hgroups, hfree, hmem⟩
    rw [wp_bind, arenaToBlock, wp_bind, wp_gets]
    dsimp only [id]
    rw [if_neg h0, harena, hp]
    dsimp only
    rw [if_pos (by omega), wp_pure, wp_modify]
    have hlist : s₁.freeList d ++ [block p d m] = s.freeList d ++ (List.range (m + 1)).map (block p d) := by
      rw [hfree, Function.update_self, List.range_succ, List.map_append, List.append_assoc]
      rfl
    refine ⟨harena, howned, hpool, hgroups, ?_, fun a ha => ?_⟩
    · rw [Heap.setFreeList_freeList, hlist, hfree, Function.update_idem]
    · rw [Heap.setFreeList_freeList, Function.update_self] at ha
      rw [Heap.setFreeList_mem, if_neg, hmem a]
      · exact fun c hc => ha c (List.mem_append_left _ hc)
      · rintro ⟨c, hc, hin⟩
        exact ha c hc hin

/-- **A new arena**: all of its blocks are free. -/
theorem newArena_spec (h : Inv s live) (hd : d ∈ descs) (hl : s.freeList d = []) (hf : Fresh s ⟨false, p, 1⟩) :
    wp (newArena d p) (fun _ s' => Inv s' live ∧ Carries s s' live ∧
      s'.freeList d = (List.range d.blocksPerArena).map (block p d) ∧ ∀ q ≠ p, s'.arena q = s.arena q)
      (fun _ => False) s := by
  have h0 := hf.addr
  have hap := hf.apart
  have hinj : Function.Injective (block p d) := fun i j => block_inj hd
  rw [newArena, wp_bind, wp_modify]
  have hself : ((s.addPages p 1).setArena p ⟨some d, d.blocksPerArena⟩).arena p = some ⟨some d, d.blocksPerArena⟩ :=
    Function.update_self ..
  refine wp_post (addBlocks_spec hself h0 le_rfl) ?_
  rintro _ s' ⟨harena, howned, hpool, hgroups, hfree, hmem⟩
  have hfl : s'.freeList d = (List.range d.blocksPerArena).map (block p d) := by
    rw [hfree, Function.update_self]
    change s.freeList d ++ _ = _
    rw [hl, List.nil_append]
  have hfl' : ∀ e ≠ d, s'.freeList e = s.freeList e := fun e he => by
    rw [hfree, Function.update_of_ne he]
    rfl
  obtain ⟨hinv, hother⟩ : Inv s' live ∧ ∀ q ≠ p, s'.arena q = s.arena q := by
    have hf' : Fresh s ⟨false, p, Arena.pages ⟨some d, d.blocksPerArena⟩⟩ := hf
    refine h.addArena hf' hpool hgroups harena howned (fun e n he => ?_) (fun e c => ?_) (fun e => ?_) h.liveNodup
      fun c => ?_
    · cases he
      refine ⟨hd, ?_⟩
      rw [Heap.freeIdx, Finset.filter_true_of_mem, Finset.card_range]
      intro i hi
      rw [hfl]
      exact List.mem_map_of_mem (List.mem_range.2 (Finset.mem_range.1 hi))
    · by_cases he : e = d
      · subst he
        rw [hfl, hl, List.mem_map]
        simp only [List.mem_range, List.not_mem_nil, false_or, Arena.mk.injEq, true_and]
        constructor
        · rintro ⟨i, hi, rfl⟩
          exact ⟨_, i, rfl, hi, rfl⟩
        · rintro ⟨n, i, -, hi, rfl⟩
          exact ⟨i, hi, rfl⟩
      · rw [hfl' e he]
        refine (or_iff_left ?_).symm
        rintro ⟨n, i, har, -⟩
        cases har
        exact he rfl
    · by_cases he : e = d
      · rw [he, hfl]
        exact (List.nodup_range).map hinj
      · rw [hfl' e he]
        exact h.nodup e
    · refine (or_iff_left ?_).symm
      rintro ⟨n, har, -⟩
      cases har
  refine ⟨hinv, hinv.carries (List.Subset.refl _) (fun b hb => ?_) (fun a ha => ?_), hfl, hother⟩
  · refine h.extent_congr (fun q ar hq => hother q ?_) hb
    rintro rfl
    rw [h.arena_of_apart Nat.one_pos hap] at hq
    cases hq
  · simp only [Heap.Spare, not_or] at ha
    rw [hmem a]
    · refine if_neg fun hin => ha.1 ⟨p, ⟨some d, d.blocksPerArena⟩, ?_, hin.1, hin.2⟩
      rw [harena]
      exact hself
    · rintro c hc ⟨h1, h2⟩
      have := (desc_ok hd).1
      exact ha.2.1 ⟨d, c, hc, h1, by omega⟩

end

end Pintos.Malloc
