import Pintos.Filesys.CacheSpec
import Pintos.Vm.PagingSpec

/-!
# Eviction by the clock

`select_bce_for_evict` (`filesys/cache.c`) and `select_fte_for_evict` (`vm/frame.c`) are
one algorithm over two lists. The entries of the cache have their flag in themselves; the
flag of a frame is the accessed bit of its page's table entry, so that clearing it must
not change the flag of another frame: the frames are of different pages.
-/

namespace Pintos

open Library Library.Prog Library.Clock

/-! ### The cache -/

/-- `bce->accessed = false`. -/
def BufferCacheEntry.pass (b : BufferCacheEntry) : BufferCacheEntry := { b with accessed := false }

/-- **`select_bce_for_evict`.** -/
theorem selectBceForEvict_selects {st : Buffers} (hne : st.list ≠ []) : ∃ v st', selectBceForEvict st = .ok (some v, st') ∧
    Stops BufferCacheEntry.accessed BufferCacheEntry.pass st.list st'.list ∧
    Selects BufferCacheEntry.accessed BufferCacheEntry.pass st.list v st'.list ∧ st' = { st with list := st'.list } := by
  obtain ⟨l', hl'⟩ : ∃ l', l' = spin BufferCacheEntry.accessed BufferCacheEntry.pass st.list.length st.list := ⟨_, rfl⟩
  have hspin := spin_length BufferCacheEntry.accessed BufferCacheEntry.pass st.list
  rw [← hl'] at hspin
  obtain ⟨v, hv⟩ : ∃ v, l'.head? = some v := by
    cases hcons : l' with
    | nil =>
      have hlen := length_spin BufferCacheEntry.accessed BufferCacheEntry.pass st.list
      rw [← hl', hcons] at hlen
      exact absurd (List.length_eq_zero_iff.1 hlen.symm) hne
    | cons v r => exact ⟨v, rfl⟩
  refine ⟨v, { st with list := l' }, ?_, ?_, ?_, rfl⟩
  · rw [← hv, hl']
    rfl
  · rw [hl']
    exact stops_spin _ _ (fun _ => rfl) hne
  · change Selects _ _ _ _ l'
    rw [hspin] at hv ⊢
    exact selects_of_head _ _ hv

/-! ### Frames -/

namespace Paging

namespace Vm

/-- `pagedir_is_accessed` for the page of a frame. -/
def isAccessed (s : Vm) (f : Fte) : Bool := (s.pagedir f.owner f.uaddr).accessed

/-- The page of a frame. -/
def pageOf (f : Fte) : Pid × Page := (f.owner, f.uaddr)

/-- The accessed bits of the pages of `passed` are cleared, and the list is `l`. -/
def turned (s : Vm) (passed l : List Fte) : Vm :=
  { s with
    pagedir := fun q pg =>
      if (q, pg) ∈ passed.map pageOf then { s.pagedir q pg with accessed := false } else s.pagedir q pg
    globalFrameList := l }

variable {s : Vm} {l done : List Fte} {n : ℕ}

theorem pagedirClearAccessed_pagedir (s : Vm) (x : Fte) (q : Pid) (pg : Page) :
    (s.pagedirClearAccessed x.owner x.uaddr).pagedir q pg =
      if (q, pg) = pageOf x then { s.pagedir q pg with accessed := false } else s.pagedir q pg := by
  by_cases hq : q = x.owner ∧ pg = x.uaddr
  · obtain ⟨rfl, rfl⟩ := hq
    exact (setPte_same _).trans (if_pos rfl).symm
  · rw [if_neg fun heq => hq ⟨congrArg Prod.fst heq, congrArg Prod.snd heq⟩]
    exact setPte_of_ne _ hq

/-- The front of the list goes to the back, and its accessed bit is cleared. -/
def turn (s : Vm) (x : Fte) (l : List Fte) : Vm := { s.pagedirClearAccessed x.owner x.uaddr with globalFrameList := l ++ [x] }

theorem turn_isAccessed (s : Vm) (x : Fte) (l : List Fte) (f : Fte) :
    (s.turn x l).isAccessed f = if pageOf f = pageOf x then false else s.isAccessed f := by
  change ((s.pagedirClearAccessed x.owner x.uaddr).pagedir f.owner f.uaddr).accessed = _
  rw [pagedirClearAccessed_pagedir]
  change (if pageOf f = pageOf x then _ else _ : Pte).accessed = _
  split_ifs <;> rfl

/-- One turn, and then those of `passed`. -/
theorem turn_turned (s : Vm) (x : Fte) (passed l l' : List Fte) : (s.turn x l').turned passed l = s.turned (x :: passed) l := by
  unfold turned turn
  congr 1
  funext q pg
  dsimp only
  rw [pagedirClearAccessed_pagedir, List.map_cons]
  by_cases hx : (q, pg) = pageOf x
  · simp [hx]
  · simp [hx]

theorem takeWhile_congr {α : Type} {p q : α → Bool} {l : List α} (h : ∀ x ∈ l, p x = q x) :
    l.takeWhile p = l.takeWhile q ∧ l.dropWhile p = l.dropWhile q := by
  induction l with
  | nil => exact ⟨rfl, rfl⟩
  | cons x l ih =>
    obtain ⟨ht, hd⟩ := ih fun y hy => h y (List.mem_cons_of_mem _ hy)
    simp only [List.takeWhile_cons, List.dropWhile_cons, h x List.mem_cons_self, ht, hd, and_self]

/-- **The loop of `select_fte_for_evict`**, with the frames of `done` behind those of `l`, and passed over already. -/
theorem selectFteLoop_eq (hl : s.globalFrameList = l ++ done) (hne : l ++ done ≠ []) (hn : l.length < n)
    (hdistinct : ((l ++ done).map pageOf).Nodup) (hentry : ∀ f ∈ l ++ done, (s.spteOf f).isSome = true)
    (hdone : ∀ f ∈ done, s.isAccessed f = false) : ∃ v,
      (l.dropWhile s.isAccessed ++ done ++ l.takeWhile s.isAccessed).head? = some v ∧
      selectFteLoop n s = some (v, (s.turned (l.takeWhile s.isAccessed)
        (l.dropWhile s.isAccessed ++ done ++ l.takeWhile s.isAccessed)).pagedirClearPage v.owner v.uaddr) := by
  induction l generalizing s done n with
  | nil =>
    obtain ⟨n, rfl⟩ : ∃ m, n = m + 1 := ⟨n - 1, by simp at hn; omega⟩
    cases done with
    | nil => exact absurd rfl hne
    | cons x done =>
      obtain ⟨e, he⟩ := Option.isSome_iff_exists.1 (hentry x List.mem_cons_self)
      have hx : (s.pagedir x.owner x.uaddr).accessed = false := hdone x List.mem_cons_self
      refine ⟨x, rfl, ?_⟩
      have hsame : s.turned [] (x :: done) = s := by
        rw [List.nil_append] at hl
        simp [turned, ← hl]
      simp only [List.takeWhile_nil, List.dropWhile_nil, List.nil_append, List.append_nil, hsame]
      rw [selectFteLoop, hl, List.nil_append]
      simp [he, hx]
  | cons x l ih =>
    obtain ⟨n, rfl⟩ : ∃ m, n = m + 1 := ⟨n - 1, by simp at hn; omega⟩
    obtain ⟨e, he⟩ := Option.isSome_iff_exists.1 (hentry x (by simp))
    rw [List.cons_append, List.map_cons, List.nodup_cons] at hdistinct
    have hother : ∀ f ∈ l ++ done, pageOf f ≠ pageOf x := fun f hf heq => hdistinct.1 (heq ▸ List.mem_map_of_mem hf)
    rw [selectFteLoop, hl, List.cons_append]
    simp only [he, Option.bind_some]
    by_cases hx : s.isAccessed x = true
    · -- the front goes to the back
      have hx' : (s.pagedir x.owner x.uaddr).accessed = true := hx
      have hacc : ∀ f ∈ l ++ done, (s.turn x (l ++ done)).isAccessed f = s.isAccessed f := by
        intro f hf
        rw [turn_isAccessed, if_neg (hother f hf)]
      have hself : (s.turn x (l ++ done)).isAccessed x = false := by rw [turn_isAccessed, if_pos rfl]
      have hentry₁ : ∀ f ∈ l ++ (done ++ [x]), ((s.turn x (l ++ done)).spteOf f).isSome = true := by
        intro f hf
        refine hentry f ?_
        simp only [List.mem_append, List.cons_append, List.mem_cons] at hf ⊢
        tauto
      have hperm : (l ++ (done ++ [x])).Perm (x :: (l ++ done)) := by
        rw [← List.append_assoc]
        exact List.perm_append_singleton x (l ++ done)
      obtain ⟨htake, hdrop⟩ := takeWhile_congr (l := l) fun f hf => hacc f (List.mem_append_left _ hf)
      obtain ⟨v, hv, hrun⟩ := ih (n := n) (show (s.turn x (l ++ done)).globalFrameList = l ++ (done ++ [x]) from List.append_assoc l done [x]) (by simp)
        (by simp only [List.length_cons] at hn; omega) ((hperm.map pageOf).nodup_iff.2 (List.nodup_cons.2 hdistinct)) hentry₁
        (fun f hf => by
          rcases List.mem_append.1 hf with hf | hf
          · rw [hacc f (List.mem_append_right _ hf)]
            exact hdone f hf
          · rw [List.mem_singleton.1 hf]
            exact hself)
      rw [htake, hdrop] at hv hrun
      have hlist : l.dropWhile s.isAccessed ++ (done ++ [x]) ++ l.takeWhile s.isAccessed =
          l.dropWhile s.isAccessed ++ done ++ x :: l.takeWhile s.isAccessed := by simp
      rw [hlist] at hv hrun
      rw [turn_turned] at hrun
      rw [List.dropWhile_cons_of_pos hx, List.takeWhile_cons_of_pos hx]
      refine ⟨v, hv, ?_⟩
      rw [if_pos hx', ← hrun]
      rfl
    · refine ⟨x, by rw [List.dropWhile_cons_of_neg hx]; rfl, ?_⟩
      have hsame : s.turned [] (x :: (l ++ done)) = s := by
        rw [List.cons_append] at hl
        simp [turned, ← hl]
      have hx' : ¬ (s.pagedir x.owner x.uaddr).accessed = true := hx
      rw [if_neg hx', List.dropWhile_cons_of_neg hx, List.takeWhile_cons_of_neg hx]
      simp [hsame]

/-- **`select_fte_for_evict`**, for frames of different pages: the accessed bits of the frames that are passed over are
cleared, and the present bit of the page of the frame that is selected. -/
theorem selectFteForEvict_selects (hne : s.globalFrameList ≠ []) (hdistinct : (s.globalFrameList.map pageOf).Nodup)
    (hentry : ∀ f ∈ s.globalFrameList, (s.spteOf f).isSome = true) : ∃ v t, s.selectFteForEvict = some (v, t) ∧
      Selects s.isAccessed id s.globalFrameList v t.globalFrameList ∧
      (∀ q pg, t.pagedir q pg = { s.pagedir q pg with
        accessed := (s.pagedir q pg).accessed && !decide ((q, pg) ∈ (s.globalFrameList.takeWhile s.isAccessed).map pageOf)
        present := (s.pagedir q pg).present && !decide ((q, pg) = pageOf v) }) ∧
      t = { s with pagedir := t.pagedir, globalFrameList := t.globalFrameList } := by
  have hall : s.globalFrameList = s.globalFrameList ++ [] := (List.append_nil _).symm
  obtain ⟨v, hv, hrun⟩ := selectFteLoop_eq hall (by rwa [List.append_nil]) (Nat.lt_succ_self _) (by rwa [List.append_nil])
    (by rwa [List.append_nil]) (by simp)
  rw [List.append_nil] at hv hrun
  refine ⟨v, _, hrun, ?_, fun q pg => ?_, rfl⟩
  · have h := selects_of_head s.isAccessed id (l := s.globalFrameList) (v := v) (by rw [List.map_id]; exact hv)
    rw [List.map_id] at h
    exact h
  · have hturned : (s.turned (s.globalFrameList.takeWhile s.isAccessed)
        (s.globalFrameList.dropWhile s.isAccessed ++ s.globalFrameList.takeWhile s.isAccessed)).pagedir q pg =
        { s.pagedir q pg with accessed :=
          (s.pagedir q pg).accessed && !decide ((q, pg) ∈ (s.globalFrameList.takeWhile s.isAccessed).map pageOf) } := by
      unfold turned
      dsimp only
      split_ifs with hmem
      · simp [hmem]
      · simp [hmem]
    by_cases hq : q = v.owner ∧ pg = v.uaddr
    · obtain ⟨rfl, rfl⟩ := hq
      refine (setPte_same _).trans ?_
      rw [hturned]
      simp [pageOf]
    · refine (setPte_of_ne _ hq).trans ?_
      have hne : ¬ (q, pg) = pageOf v := fun heq => hq ⟨congrArg Prod.fst heq, congrArg Prod.snd heq⟩
      rw [hturned]
      simp [hne]

end Vm

end Paging

open Paging in
/-- **Clock eviction.** `select_bce_for_evict` ends for every list of entries that is not empty, and
`select_fte_for_evict` for every such list of frames of different pages. Both select the first entry that was not accessed, or
the first one if all were, and put those passed over to the back, in their order and with the flag cleared; of the page of the
frame that is selected the present bit is cleared, and nothing else changes. -/
theorem clock_eviction :
    (∀ st : Buffers, st.list ≠ [] → ∃ v st', selectBceForEvict st = .ok (some v, st') ∧
      Stops BufferCacheEntry.accessed BufferCacheEntry.pass st.list st'.list ∧
      Selects BufferCacheEntry.accessed BufferCacheEntry.pass st.list v st'.list ∧ st' = { st with list := st'.list }) ∧
    ∀ s : Vm, s.globalFrameList ≠ [] → (s.globalFrameList.map Vm.pageOf).Nodup →
      (∀ f ∈ s.globalFrameList, (s.spteOf f).isSome = true) → ∃ v t, s.selectFteForEvict = some (v, t) ∧
        Selects s.isAccessed id s.globalFrameList v t.globalFrameList ∧
        (∀ q pg, t.pagedir q pg = { s.pagedir q pg with
          accessed := (s.pagedir q pg).accessed &&
            !decide ((q, pg) ∈ (s.globalFrameList.takeWhile s.isAccessed).map Vm.pageOf)
          present := (s.pagedir q pg).present && !decide ((q, pg) = Vm.pageOf v) }) ∧
        t = { s with pagedir := t.pagedir, globalFrameList := t.globalFrameList } :=
  ⟨fun _ hne => selectBceForEvict_selects hne, fun _ hne hdistinct hentry => Vm.selectFteForEvict_selects hne hdistinct hentry⟩

namespace Sample

open Paging

/-- Two sectors in the cache, the first of them accessed. -/
def twoCached : Buffers := ⟨Disk.blank 4 (by decide), [⟨1, 0, Block.zero, true, false⟩, ⟨2, 1, Block.zero, false, false⟩], 3⟩

/-- One process with two pages in frames, both accessed. -/
def twoFrames : Vm :=
  { Vm.init 2 2 fun _ => [] with
    hash := fun _ pg => if pg.1 < 2 then some ⟨pg.1, 0, none, 0, 0, 4096, true, false, -1⟩ else none
    pagedir := fun _ pg => ⟨pg.1, true, true, true, false⟩
    globalFrameList := [⟨0, 0, 0, 0⟩, ⟨1, 0, 1, 1⟩] }

end Sample

open Paging in
/-- The second sector is selected; of two frames that were both accessed, the first. -/
theorem clock_eviction_two : (∃ v st', selectBceForEvict Sample.twoCached = .ok (some v, st') ∧
      Stops BufferCacheEntry.accessed BufferCacheEntry.pass Sample.twoCached.list st'.list ∧
      Selects BufferCacheEntry.accessed BufferCacheEntry.pass Sample.twoCached.list v st'.list) ∧
    ∃ v t, Sample.twoFrames.selectFteForEvict = some (v, t) ∧
      Selects Sample.twoFrames.isAccessed id Sample.twoFrames.globalFrameList v t.globalFrameList := by
  constructor
  · obtain ⟨v, st', hrun, hstops, hsel, -⟩ := clock_eviction.1 Sample.twoCached (by simp [Sample.twoCached])
    exact ⟨v, st', hrun, hstops, hsel⟩
  · obtain ⟨v, t, hrun, hsel, -⟩ := clock_eviction.2 Sample.twoFrames (by simp [Sample.twoFrames]) (by decide) (by decide)
    exact ⟨v, t, hrun, hsel⟩

end Pintos
