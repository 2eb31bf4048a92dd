import Mathlib.Data.List.Perm.Basic
import Pintos.Vm.Paging

/-!
# What the operations of paging do

One lemma for each operation, with everything it can do and under which conditions. What
holds along runs is derived from these; they are where the definitions are unfolded.
-/

namespace Pintos.Paging.Vm

open Library

variable {s s' t u : Vm} {p q : Pid} {pg pg' : Page} {mem : Memory} {fte : Fte} {e : Spte} {f : ℕ}

/-! ### Tables -/

@[simp] theorem setPte_same (g : Pte → Pte) : (s.setPte p pg g).pagedir p pg = g (s.pagedir p pg) := by
  simp [setPte]

theorem setPte_of_ne (g : Pte → Pte) (h : ¬ (q = p ∧ pg' = pg)) : (s.setPte p pg g).pagedir q pg' = s.pagedir q pg' := by
  by_cases hq : q = p
  · subst hq
    have hpg : pg' ≠ pg := fun hpg => h ⟨rfl, hpg⟩
    simp [setPte, hpg]
  · simp [setPte, hq]

@[simp] theorem setSpte_same (o : Option Spte) : (s.setSpte p pg o).hash p pg = o := by simp [setSpte]

theorem setSpte_of_ne (o : Option Spte) (h : ¬ (q = p ∧ pg' = pg)) : (s.setSpte p pg o).hash q pg' = s.hash q pg' := by
  by_cases hq : q = p
  · subst hq
    have hpg : pg' ≠ pg := fun hpg => h ⟨rfl, hpg⟩
    simp [setSpte, hpg]
  · simp [setSpte, hq]

theorem spteOf_eq_some : s.spteOf fte = some e ↔ s.hash fte.owner fte.uaddr = some e ∧ e.addr = fte.spte := by
  simp [spteOf, Option.filter_eq_some_iff]

/-! ### Pages of memory -/

theorem pallocGetPage_cases (h : s.pallocGetPage = some (f, t)) :
    f < s.usedMap.bitCnt ∧ s.usedMap.bit f = false ∧
      t = { s with usedMap := s.usedMap.mark f, memory := Function.update s.memory f fun _ => 0 } := by
  obtain ⟨g, hg, hgt⟩ := Option.map_eq_some_iff.1 h
  cases hgt
  obtain ⟨hlt, hbit, _⟩ := Bitmap.scan_one_eq_some hg
  exact ⟨hlt, hbit, rfl⟩

theorem pallocFreePage_cases (h : s.pallocFreePage f = some t) :
    s.usedMap.bit f = true ∧ t = { s with
      usedMap := s.usedMap.setMultiple f 1 false, memory := Function.update s.memory f fun _ => 0xcc } := by
  simp only [pallocFreePage, Option.ite_none_right_eq_some, Bitmap.all_one, Option.some.injEq] at h
  exact ⟨h.1, h.2.symm⟩

/-! ### Eviction -/

/-- **What `select_fte_for_evict` does**: it goes round the list and clears accessed bits, up to the frame it
takes, which it unmaps. -/
structure Selected (s : Vm) (fte : Fte) (u : Vm) : Prop where
  mem : fte ∈ s.globalFrameList
  perm : u.globalFrameList.Perm s.globalFrameList
  /-- Entries of the page tables keep all but the accessed bit. -/
  pte : ∀ q pg, (u.pagedir q pg).frame = (s.pagedir q pg).frame ∧ (u.pagedir q pg).writable = (s.pagedir q pg).writable ∧
    (u.pagedir q pg).dirty = (s.pagedir q pg).dirty
  present : ∀ q pg, (u.pagedir q pg).present = true ↔
    (s.pagedir q pg).present = true ∧ ¬ (q = fte.owner ∧ pg = fte.uaddr)
  rest : u = { s with pagedir := u.pagedir, globalFrameList := u.globalFrameList }

theorem selectFteLoop_cases {n : ℕ} (h : selectFteLoop n s = some (fte, u)) : Selected s fte u := by
  induction n generalizing s with
  | zero => cases h
  | succ n ih =>
    unfold selectFteLoop at h
    split at h
    · cases h
    · next x rest hl =>
      obtain ⟨e, _, h⟩ := Option.bind_eq_some_iff.1 h
      by_cases hacc : (s.pagedir x.owner x.uaddr).accessed = true
      · -- the front goes to the back
        rw [if_pos hacc] at h
        have hrot := ih h
        have hpte : ∀ q pg, (s.pagedirClearAccessed x.owner x.uaddr).pagedir q pg = s.pagedir q pg ∨
            (s.pagedirClearAccessed x.owner x.uaddr).pagedir q pg = { s.pagedir q pg with accessed := false } := by
          intro q pg
          by_cases hq : q = x.owner ∧ pg = x.uaddr
          · obtain ⟨rfl, rfl⟩ := hq
            exact .inr (setPte_same _)
          · exact .inl (setPte_of_ne _ hq)
        have hperm : (rest ++ [x]).Perm s.globalFrameList := hl ▸ List.perm_append_singleton x rest
        refine ⟨hperm.mem_iff.1 hrot.mem, hrot.perm.trans hperm, fun q pg => ?_, fun q pg => ?_, ?_⟩
        · obtain ⟨h₁, h₂, h₃⟩ := hrot.pte q pg
          rw [h₁, h₂, h₃]
          rcases hpte q pg with hp | hp <;> simp [hp]
        · rw [hrot.present q pg]
          rcases hpte q pg with hp | hp <;> simp [hp]
        · rw [hrot.rest]
          rfl
      · rw [if_neg hacc] at h
        cases h
        refine ⟨hl ▸ List.mem_cons_self, List.Perm.refl _, fun q pg => ?_, fun q pg => ?_, rfl⟩
        · by_cases hq : q = fte.owner ∧ pg = fte.uaddr
          · obtain ⟨rfl, rfl⟩ := hq
            simp [pagedirClearPage]
          · simp [pagedirClearPage, setPte_of_ne _ hq]
        · by_cases hq : q = fte.owner ∧ pg = fte.uaddr
          · obtain ⟨rfl, rfl⟩ := hq
            simp [pagedirClearPage]
          · simp [pagedirClearPage, setPte_of_ne _ hq, hq]

/-- **What `swap_out` does**: it selects a frame, writes it to a free slot, and frees it. -/
theorem swapOut_cases (h : s.swapOut = some s') : ∃ fte u slot e, Selected s fte u ∧
    u.swapTable.scan 0 1 false = some slot ∧ u.spteOf fte = some e ∧
    (u.evict fte e slot).pallocFreePage fte.frame = some s' := by
  simp only [swapOut, Option.bind_eq_bind, Option.bind_eq_some_iff, Prod.exists] at h
  obtain ⟨fte, u, hsel, slot, hslot, e, he, hfree⟩ := h
  exact ⟨fte, u, slot, e, selectFteLoop_cases hsel, hslot, he, hfree⟩

/-! ### A frame is installed -/

@[simp] theorem install_usedMap : (s.install mem p pg e f).usedMap = s.usedMap := by
  unfold install pagedirSetPage; split <;> rfl

@[simp] theorem install_memory : (s.install mem p pg e f).memory = s.memory := by
  unfold install pagedirSetPage; split <;> rfl

@[simp] theorem install_live : (s.install mem p pg e f).live = s.live := by
  unfold install pagedirSetPage; split <;> rfl

@[simp] theorem install_suppagetable : (s.install mem p pg e f).suppagetable = s.suppagetable := by
  unfold install pagedirSetPage; split <;> rfl

@[simp] theorem install_hash : (s.install mem p pg e f).hash = s.hash := by
  unfold install pagedirSetPage; split <;> rfl

@[simp] theorem install_entries : (s.install mem p pg e f).entries = s.entries := by
  unfold install pagedirSetPage; split <;> rfl

@[simp] theorem install_swapTable : (s.install mem p pg e f).swapTable = s.swapTable := by
  unfold install pagedirSetPage; split <;> rfl

@[simp] theorem install_swapDevice : (s.install mem p pg e f).swapDevice = s.swapDevice := by
  unfold install pagedirSetPage; split <;> rfl

@[simp] theorem install_files : (s.install mem p pg e f).files = s.files := by
  unfold install pagedirSetPage; split <;> rfl

theorem install_pagedir_of_ne (h : ¬ (q = p ∧ pg' = pg)) :
    (s.install mem p pg e f).pagedir q pg' = s.pagedir q pg' := by
  unfold install pagedirSetPage
  split
  · exact setPte_of_ne (s := s) (fun _ => ⟨f, true, e.writable, false, false⟩) h
  · rfl

theorem install_pagedir_same (h : mem.pageTable = true) :
    (s.install mem p pg e f).pagedir p pg = ⟨f, true, e.writable, false, false⟩ := by
  simp [install, pagedirSetPage, h]

theorem install_pagedir_full (h : mem.pageTable = false) : (s.install mem p pg e f).pagedir = s.pagedir := by
  simp [install, pagedirSetPage, h]

/-! ### Frames -/

/-- What `swap_out` keeps is kept until a frame is there. -/
theorem getFrame_rule {I : Vm → Prop} (hI : ∀ s s', I s → s.swapOut = some s' → I s') (hs : I s)
    (h : s.getFrame = some (f, t)) : ∃ u, I u ∧ u.pallocGetPage = some (f, t) := by
  unfold getFrame at h
  generalize s.globalFrameList.length = n at h
  induction n generalizing s with
  | zero => exact ⟨s, hs, h⟩
  | succ n ih =>
    unfold getFrameLoop at h
    split at h
    · next r hr => exact ⟨s, hs, hr.trans h⟩
    · obtain ⟨s', hs', h⟩ := Option.bind_eq_some_iff.1 h
      exact ih (hI s s' hs hs') h

/-- **What `allocate_frame` does** once it has a frame: it maps it, or frees it again. -/
theorem allocateFrame_cases {o : Option ℕ} (h : s.allocateFrame mem p pg = some (o, s')) : ∃ f t, s.getFrame = some (f, t) ∧
    (o = none ∧ t.pallocFreePage f = some s' ∧ (t.hash p pg = none ∨ (t.pagedir p pg).present = true) ∨
      ∃ e, o = some f ∧ t.hash p pg = some e ∧ (t.pagedir p pg).present = false ∧ s' = t.install mem p pg e f) := by
  simp only [allocateFrame, Option.bind_eq_bind, Option.bind_eq_some_iff, Prod.exists] at h
  obtain ⟨f, t, hget, h⟩ := h
  refine ⟨f, t, hget, ?_⟩
  split at h
  · next e he =>
    by_cases hp : (t.pagedir p pg).present = true
    · rw [if_pos hp] at h
      obtain ⟨r, hr, hrs⟩ := Option.map_eq_some_iff.1 h
      cases hrs
      exact .inl ⟨rfl, hr, .inr hp⟩
    · rw [if_neg hp] at h
      cases h
      exact .inr ⟨e, rfl, he, by simpa using hp, rfl⟩
  · next hn =>
    obtain ⟨r, hr, hrs⟩ := Option.map_eq_some_iff.1 h
    cases hrs
    exact .inl ⟨rfl, hr, .inl hn⟩

/-- **What `swap_in` does**: it installs a frame, fills it from the slot, and clears the slot. -/
theorem swapIn_cases (h : s.swapIn mem p pg = some s') : ∃ f t e, s.getFrame = some (f, t) ∧ t.hash p pg = some e ∧
    (t.pagedir p pg).present = false ∧ 0 ≤ e.swapindex ∧ e.swapindex < t.swapTable.bitCnt ∧
    s' = { (t.install mem p pg e f).setSpte p pg (some { e with swapindex := -1, inswap := false }) with
      memory := Function.update t.memory f (readFromDisk t.swapDevice e.swapindex.toNat)
      swapTable := t.swapTable.flip e.swapindex.toNat } := by
  simp only [swapIn, Option.bind_eq_bind, Option.bind_eq_some_iff, Prod.exists] at h
  obtain ⟨_, _, o, t', hal, g, rfl, e', he', h⟩ := h
  obtain ⟨f, t, hget, ⟨ho, _⟩ | ⟨e, ho, he, hp, rfl⟩⟩ := allocateFrame_cases hal
  · cases ho
  · cases ho
    rw [install_hash, he] at he'
    obtain rfl : e = e' := Option.some.inj he'
    rw [install_swapTable, install_swapDevice, install_memory, Option.ite_none_right_eq_some] at h
    obtain ⟨⟨hlo, hhi⟩, h⟩ := h
    exact ⟨g, t, e, hget, he, hp, hlo, hhi, (Option.some.inj h).symm⟩

/-- **How a load ends**: without a frame, with the page filled, or with the frame freed. -/
theorem load_cases {file : ℕ} {r : Loaded} (h : s.load mem p pg e file = some r) : ∃ o t, s.allocateFrame mem p pg = some (o, t) ∧
    (o = none ∧ r = .noFrame t ∨
      ∃ f u, o = some f ∧
        u = { t with memory := Function.update t.memory f (t.filled (t.memory f) file e.readBytes e.ofs) } ∧
        (t.fileReadAt file e.readBytes e.ofs = e.readBytes ∧
            r = .done (u.setPte p pg fun pte => { pte with writable := e.writable }) ∨
          t.fileReadAt file e.readBytes e.ofs ≠ e.readBytes ∧ ∃ s', u.pallocFreePage f = some s' ∧ r = .short s')) := by
  simp only [load, Option.bind_eq_bind, Option.bind_eq_some_iff, Prod.exists] at h
  obtain ⟨o, t, hal, h⟩ := h
  refine ⟨o, t, hal, ?_⟩
  cases o with
  | none =>
    cases h
    exact .inl ⟨rfl, rfl⟩
  | some f =>
    refine .inr ⟨f, _, rfl, rfl, ?_⟩
    by_cases hfull : t.fileReadAt file e.readBytes e.ofs = e.readBytes
    · simp only [if_pos hfull] at h
      cases h
      exact .inl ⟨hfull, rfl⟩
    · simp only [if_neg hfull] at h
      obtain ⟨s', hs', hr⟩ := Option.map_eq_some_iff.1 h
      exact .inr ⟨hfull, s', hs', hr.symm⟩

/-! ### What stays -/

/-- An entry, but for where its page is. -/
def base (e : Spte) : Spte := { e with inswap := false, swapindex := -1 }

theorem base_eq {e' : Spte} (h : base e' = base e) : e'.addr = e.addr ∧ e'.mapid = e.mapid ∧ e'.file = e.file ∧ e'.ofs = e.ofs ∧
    e'.readBytes = e.readBytes ∧ e'.writable = e.writable := by
  obtain ⟨h₁, h₂, h₃, h₄, h₅, _, h₇, _, _⟩ := Spte.mk.inj h
  exact ⟨h₁, h₂, h₃, h₄, h₅, h₇⟩

/-- The processes and their tables are the same, but for which pages are in swap. -/
structure Kept (s t : Vm) : Prop where
  hash : ∀ p pg, (t.hash p pg).map base = (s.hash p pg).map base
  files : t.files = s.files
  live : t.live = s.live
  suppagetable : t.suppagetable = s.suppagetable

theorem Kept.refl (s : Vm) : Kept s s := ⟨fun _ _ => rfl, rfl, rfl, rfl⟩

theorem Kept.trans (h : Kept s t) (h' : Kept t u) : Kept s u :=
  ⟨fun p pg => (h'.hash p pg).trans (h.hash p pg), h'.files.trans h.files, h'.live.trans h.live,
    h'.suppagetable.trans h.suppagetable⟩

theorem Kept.entry (h : Kept s t) (he : t.hash p pg = some e) : ∃ e', s.hash p pg = some e' ∧ base e' = base e := by
  have hmap := h.hash p pg
  rw [he, Option.map_some] at hmap
  exact Option.map_eq_some_iff.1 hmap.symm

theorem Kept.symm (h : Kept s t) : Kept t s :=
  ⟨fun p pg => (h.hash p pg).symm, h.files.symm, h.live.symm, h.suppagetable.symm⟩

theorem Kept.setSpte {e' : Spte} (he : s.hash p pg = some e) (hb : base e' = base e) : Kept s (s.setSpte p pg (some e')) := by
  refine ⟨fun q pg' => ?_, rfl, rfl, rfl⟩
  by_cases hq : q = p ∧ pg' = pg
  · obtain ⟨rfl, rfl⟩ := hq
    rw [setSpte_same, he, Option.map_some, Option.map_some, hb]
  · rw [setSpte_of_ne _ hq]

theorem Kept.pallocFreePage (h : s.pallocFreePage f = some t) : Kept s t := by
  obtain ⟨_, rfl⟩ := pallocFreePage_cases h
  exact ⟨fun _ _ => rfl, rfl, rfl, rfl⟩

theorem Selected.kept (h : Selected s fte u) : Kept s u := by
  rw [h.rest]
  exact ⟨fun _ _ => rfl, rfl, rfl, rfl⟩

theorem Kept.swapOut (h : s.swapOut = some s') : Kept s s' := by
  obtain ⟨fte, u, slot, e, hsel, _, he, hfree⟩ := swapOut_cases h
  have hset := Kept.setSpte (spteOf_eq_some.1 he).1 (show base { e with swapindex := slot, inswap := true } = base e from rfl)
  have hev : Kept u (u.evict fte e slot) := ⟨hset.hash, hset.files, hset.live, hset.suppagetable⟩
  exact (hsel.kept.trans hev).trans (.pallocFreePage hfree)

theorem Kept.getFrame (h : s.getFrame = some (f, t)) : Kept s t := by
  obtain ⟨u, hu, hget⟩ := getFrame_rule (fun _ _ hk ho => Kept.trans hk (.swapOut ho)) (Kept.refl s) h
  obtain ⟨_, _, rfl⟩ := pallocGetPage_cases hget
  exact ⟨hu.hash, hu.files, hu.live, hu.suppagetable⟩

theorem Kept.install : Kept s (s.install mem p pg e f) := by
  constructor
  · intro q pg'
    rw [install_hash]
  · exact install_files
  · exact install_live
  · exact install_suppagetable

theorem Kept.allocateFrame {o : Option ℕ} (h : s.allocateFrame mem p pg = some (o, t)) : Kept s t := by
  obtain ⟨f, u, hget, ⟨_, hfree, _⟩ | ⟨e, _, _, _, rfl⟩⟩ := allocateFrame_cases h
  · exact (Kept.getFrame hget).trans (.pallocFreePage hfree)
  · exact (Kept.getFrame hget).trans .install

/-- The state after a load. -/
def Loaded.state : Loaded → Vm
  | .noFrame s => s
  | .done s => s
  | .short s => s

theorem Kept.load {file : ℕ} {r : Loaded} (h : s.load mem p pg e file = some r) : Kept s r.state := by
  obtain ⟨o, t, hal, ⟨_, rfl⟩ | ⟨f, u, _, rfl, ⟨_, rfl⟩ | ⟨_, s', hfree, rfl⟩⟩⟩ := load_cases h
  · exact .allocateFrame hal
  · exact (Kept.allocateFrame hal).trans ⟨fun _ _ => rfl, rfl, rfl, rfl⟩
  · have hk := Kept.pallocFreePage hfree
    exact (Kept.allocateFrame hal).trans ⟨hk.hash, hk.files, hk.live, hk.suppagetable⟩

/-! ### Reading user memory -/

theorem touch_cases (h : s.touch mem p pg e = some t) : t = s ∨
    (s.pagedir p pg).present = false ∧ ∃ file, e.file = some file ∧ s.load mem p pg e file = some (.done t) := by
  unfold touch at h
  by_cases hp : (s.pagedir p pg).present = true
  · rw [if_pos hp] at h
    exact .inl (Option.some.inj h).symm
  · rw [if_neg hp] at h
    simp only [Option.bind_eq_bind, Option.bind_eq_some_iff] at h
    obtain ⟨file, hfile, r, hr, h⟩ := h
    cases r with
    | done u =>
      cases h
      exact .inr ⟨by simpa using hp, file, hfile, hr⟩
    | noFrame u => cases h
    | short u => cases h

theorem Kept.touch (h : s.touch mem p pg e = some t) : Kept s t := by
  rcases touch_cases h with rfl | ⟨_, file, _, hl⟩
  · exact .refl _
  · exact Kept.load hl

theorem beforeMunmap_cases (h : s.beforeMunmap mem p pg = some t) : t = s ∨ ∃ e file u, s.hash p pg = some e ∧ e.mapid ≠ 0 ∧
    (s.pagedir p pg).dirty = true ∧ e.file = some file ∧ s.touch mem p pg e = some u ∧ ∃ c,
      t = { u with files := Function.update u.files file (overwrite (u.files file) e.ofs c) }.setPte p pg
        fun pte => { pte with dirty := false } := by
  unfold beforeMunmap at h
  split at h
  · exact .inl (Option.some.inj h).symm
  · next e he =>
    split_ifs at h with hd
    · simp only [Option.bind_eq_bind, Option.bind_eq_some_iff] at h
      obtain ⟨file, hfile, u, hu, h⟩ := h
      exact .inr ⟨e, file, u, he, hd.1, hd.2, hfile, hu, _, (Option.some.inj h).symm⟩
    · exact .inl (Option.some.inj h).symm

/-- A file that is written to does not get shorter. -/
theorem le_length_overwrite (l : List UInt8) (ofs : ℕ) (c : List UInt8) : l.length ≤ (overwrite l ofs c).length := by
  simp only [overwrite, List.length_append, List.length_take, List.length_replicate, List.length_drop]
  omega

/-! ### Exit -/

/-- **What `process_exit` does**: entries are written back, the frames leave the lists, the frames that are mapped
are freed. -/
theorem processExit_cases {visited : List Page} (h : s.processExit mem p visited = some s') : ∃ s₁ u t,
    (s.suppagetable p = true ∧ s.destroySpt mem p visited = some s₁ ∧ u = s₁.dropFrames p ∨
      s.suppagetable p = false ∧ s₁ = s ∧ u = s) ∧ u.pagedirDestroy p = some t ∧ s' = t.bury p := by
  obtain ⟨u, hu, h⟩ := Option.bind_eq_some_iff.1 h
  obtain ⟨t, ht, rfl⟩ := Option.map_eq_some_iff.1 h
  by_cases hs : s.suppagetable p = true
  · rw [if_pos hs] at hu
    obtain ⟨s₁, hs₁, rfl⟩ := Option.map_eq_some_iff.1 hu
    exact ⟨s₁, _, t, .inl ⟨hs, hs₁, rfl⟩, ht, rfl⟩
  · rw [if_neg hs] at hu
    cases hu
    exact ⟨s, s, t, .inr ⟨by simpa using hs, rfl, rfl⟩, ht, rfl⟩

/-- **What `pagedir_destroy` does**: the frames that are mapped are freed, and no other. -/
theorem pagedirDestroy_cases (h : s.pagedirDestroy p = some t) :
    t = { s with usedMap := t.usedMap, memory := t.memory } ∧ t.usedMap.bitCnt = s.usedMap.bitCnt ∧
      ∀ i, (∀ pg, (s.pagedir p pg).present = true → (s.pagedir p pg).frame ≠ i) →
        t.usedMap.bit i = s.usedMap.bit i ∧ t.memory i = s.memory i := by
  unfold pagedirDestroy at h
  generalize List.finRange 0xc0000 = pages at h
  refine foldlM_invariant (I := fun t => t = { s with usedMap := t.usedMap, memory := t.memory } ∧
    t.usedMap.bitCnt = s.usedMap.bitCnt ∧ ∀ i, (∀ pg, (s.pagedir p pg).present = true → (s.pagedir p pg).frame ≠ i) →
      t.usedMap.bit i = s.usedMap.bit i ∧ t.memory i = s.memory i) (fun pg _ t u ht hu => ?_)
    ⟨rfl, rfl, fun _ _ => ⟨rfl, rfl⟩⟩ h
  obtain ⟨hrest, hcnt, hbit⟩ := ht
  split_ifs at hu with hp
  · obtain ⟨_, rfl⟩ := pallocFreePage_cases hu
    refine ⟨by rw [hrest], hcnt, fun i hi => ?_⟩
    have hne : i ≠ (s.pagedir p pg).frame := (hi pg hp).symm
    obtain ⟨hb, hm⟩ := hbit i hi
    constructor
    · exact (Bitmap.bit_setMultiple_one ..).trans ((if_neg hne).trans hb)
    · exact (Function.update_of_ne hne _ _).trans hm
  · cases hu
    exact ⟨hrest, hcnt, hbit⟩

/-! ### Faults -/

/-- **What `page_fault` does** in user mode (`user`) or in kernel mode. -/
inductive Handled (mem : Memory) (p : Pid) (user : Bool) (addr stack : ℕ) (visited : List Page) (s : Vm) : Vm → Prop
  | exit {s' : Vm} : s.kills p user addr stack = true → s.processExit mem p visited = some s' →
      Handled mem p user addr stack visited s s'
  /-- Only in user mode, with a stack pointer in the code. -/
  | ignored : user = true → isCodeVaddr stack = true → s.kills p user addr stack = false →
      Handled mem p user addr stack visited s s
  | grow {pg : Page} {s' : Vm} : (user && isCodeVaddr stack) = false → s.kills p user addr stack = false →
      pageOf addr = some pg → (user = false → (s.pagedir p pg).present = false) → s.hash p pg = none →
      s.growStack mem p pg = some s' → Handled mem p user addr stack visited s s'
  | swapIn {pg : Page} {e : Spte} {s' : Vm} : (user && isCodeVaddr stack) = false → s.kills p user addr stack = false →
      pageOf addr = some pg → s.hash p pg = some e → e.inswap = true → s.swapIn mem p pg = some s' →
      Handled mem p user addr stack visited s s'
  /-- A page is loaded; without a frame the process ends. -/
  | load {pg : Page} {e : Spte} {file : ℕ} {r : Loaded} {s' : Vm} : (user && isCodeVaddr stack) = false →
      s.kills p user addr stack = (s.pagedir p pg).present → pageOf addr = some pg → s.hash p pg = some e →
      (user = true → e.inswap = false) → (user = false → (s.pagedir p pg).present = false) → e.file = some file →
      s.load mem p pg e file = some r →
      (match r with
        | .noFrame t => t.processExit mem p visited = some s'
        | .done t => s' = t
        | .short t => s' = t) →
      Handled mem p user addr stack visited s s'

theorem pageFaultUser_cases {addr esp : ℕ} {visited : List Page} (h : s.pageFaultUser mem p addr esp visited = some s') :
    Handled mem p true addr esp visited s s' := by
  unfold pageFaultUser at h
  split at h
  · next hpg => exact .exit (by simp [kills, hpg]) h
  · next pg hpg =>
    by_cases h0 : addr = 0
    · rw [if_pos h0] at h
      subst h0
      exact .exit (by simp [kills, hpg]) h
    rw [if_neg h0] at h
    by_cases hesp : isCodeVaddr esp = true
    · rw [if_pos hesp] at h
      cases h
      exact .ignored rfl hesp (by simp [kills, hpg, hesp, h0])
    rw [if_neg hesp] at h
    have hcalled : (true && isCodeVaddr esp) = false := by simpa using hesp
    cases he : s.hash p pg with
    | none =>
      simp only [he] at h
      split_ifs at h with hcode hstack
      · exact .exit (by simp [kills, hpg, hesp, he, hcode]) h
      · refine .grow hcalled ?_ hpg (fun hf => absurd hf (by decide)) he h
        simp only [kills, hpg, he]
        simp [h0, hesp, hcode]
        omega
      · simp only [not_or] at hstack
        exact .exit (by simp [kills, hpg, hesp, he, hstack]) h
    | some e =>
      simp only [he] at h
      split_ifs at h with hin
      · exact .swapIn hcalled (by simp [kills, hpg, hesp, he, hin, h0]) hpg he hin h
      · simp only [Option.bind_eq_bind, Option.bind_eq_some_iff] at h
        obtain ⟨file, hfile, r, hr, h⟩ := h
        refine .load hcalled ?_ hpg he (fun _ => by simpa using hin) (fun hf => absurd hf (by decide)) hfile hr ?_
        · simp [kills, hpg, hesp, he, hin, h0]
        · cases r with
          | noFrame t => exact h
          | done t => exact (Option.some.inj h).symm
          | short t => exact (Option.some.inj h).symm

theorem pageFaultKernel_cases {addr stack : ℕ} {visited : List Page}
    (h : s.pageFaultKernel mem p addr stack visited = some s') : Handled mem p false addr stack visited s s' := by
  simp only [pageFaultKernel, Option.bind_eq_bind, Option.bind_eq_some_iff] at h
  obtain ⟨pg, hpg, h⟩ := h
  by_cases hp : (s.pagedir p pg).present = true
  · rw [if_pos hp] at h
    exact .exit (by simp [kills, hpg, hp]) h
  rw [if_neg hp] at h
  have hout : (s.pagedir p pg).present = false := by simpa using hp
  by_cases hbad : ((s.hash p pg).isNone = true ∧ addr ≤ stack) ∨ isCodeSection stack = true
  · rw [if_pos hbad] at h
    refine .exit ?_ h
    rcases hbad with ⟨hn, hle⟩ | hcode
    · simp only [Option.isNone_iff_eq_none] at hn
      simp [kills, hpg, hn, hle]
    · simp [kills, hpg, hcode]
  rw [if_neg hbad] at h
  have hlives : s.kills p false addr stack = false := by
    simp only [not_or, not_and, Bool.not_eq_true] at hbad
    cases he : s.hash p pg with
    | none => simpa [kills, hpg, hout, he, hbad.2] using hbad.1 (by simp [he])
    | some e => simp [kills, hpg, hout, he, hbad.2]
  cases he : s.hash p pg with
  | none =>
    simp only [he] at h
    exact .grow rfl hlives hpg (fun _ => hout) he h
  | some e =>
    simp only [he, Option.bind_eq_some_iff] at h
    obtain ⟨file, hfile, r, hr, h⟩ := h
    refine .load rfl (hlives.trans hout.symm) hpg he (fun hf => absurd hf (by decide)) (fun _ => hout) hfile hr ?_
    cases r with
    | noFrame t => exact h
    | done t => exact (Option.some.inj h).symm
    | short t => exact (Option.some.inj h).symm

/-! ### Unmapping -/

theorem munmapPage_cases {mapid : ℕ} (h : s.munmapPage mem p mapid pg = some t) : t = s ∨ ∃ e u, s.hash p pg = some e ∧
    e.mapid = mapid ∧ (u = s ∨ (s.pagedir p pg).dirty = true ∧ s.touch mem p pg e = some u) ∧ t = u.setSpte p pg none := by
  unfold munmapPage at h
  split at h
  · exact .inl (Option.some.inj h).symm
  · next e he =>
    by_cases hm : e.mapid = mapid
    · rw [if_pos hm] at h
      by_cases hd : (s.pagedir p pg).dirty = true
      · simp only [if_pos hd, Option.bind_eq_bind, Option.bind_eq_some_iff] at h
        obtain ⟨u, hu, h⟩ := h
        exact .inr ⟨e, u, he, hm, .inr ⟨hd, hu⟩, (Option.some.inj h).symm⟩
      · simp only [if_neg hd, Option.bind_eq_bind, Option.bind_some] at h
        exact .inr ⟨e, s, he, hm, .inl rfl, (Option.some.inj h).symm⟩
    · rw [if_neg hm] at h
      exact .inl (Option.some.inj h).symm

end Pintos.Paging.Vm
