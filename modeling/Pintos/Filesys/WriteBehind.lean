import Pintos.Filesys.SharedCache

/-!
# Write-behind and lost updates

The write-behind thread copies an entry's buffer out, waits for the disk and then
clears `dirty`, holding `buffersem`; a writer changes the buffer and sets `dirty`
holding the `entry_lock`. A writer that already has the entry and runs between the two
steps of the disk write has its `dirty` bit cleared, and its data never reaches the
disk. Without such a step, and without evictions of entries in use, every clean entry
holds what the disk holds, and the cache is one array of sectors that only
`buffer_cache_write` changes (`no_lost_update`).
-/

namespace Pintos.Sharing

open Library

namespace Pc

/-- The thread has copied `data` out of the entry at `a` for the disk. -/
def copies : Pc → ℕ → Block → Prop
  | .evicting v d _ _ _ _, a, data => v = a ∧ d = data
  | .flushCopy b d _, a, data => b = a ∧ d = data
  | _, _, _ => False

/-- The write-behind thread is yet to look at the entry. -/
def walks : Pc → ℕ → Prop
  | .flushing rest, a | .flushCopy _ _ rest, a => a ∈ rest
  | _, _ => False

/-- The thread loads `sec` into the entry at `a`. -/
def loadsFrom : Pc → ℕ → ℕ → Prop
  | .loading b n _ _ _, a, sec => b = a ∧ n = sec
  | _, _, _ => False

/-- The thread has nothing under way between the cache and the disk. -/
def Calm : Pc → Prop
  | .evicting _ _ _ _ _ _ | .loading _ _ _ _ _ | .flushing _ | .flushCopy _ _ _ => False
  | _ => True

theorem Calm.not_loadsFrom {p : Pc} (h : p.Calm) (a sec : ℕ) : ¬ p.loadsFrom a sec := by
  cases p with
  | loading => exact h.elim
  | _ => exact id

theorem Calm.not_copies {p : Pc} (h : p.Calm) (a : ℕ) (d : Block) : ¬ p.copies a d := by
  cases p with
  | evicting | flushCopy => exact h.elim
  | _ => exact id

theorem Calm.not_evicts {p : Pc} (h : p.Calm) (v : ℕ) : ¬ p.evicts v := by
  cases p with
  | evicting => exact h.elim
  | _ => exact id

theorem Calm.not_walks {p : Pc} (h : p.Calm) (a : ℕ) : ¬ p.walks a := by
  cases p with
  | flushing | flushCopy => exact h.elim
  | _ => exact id

theorem locks_of_copies {p : Pc} {a : ℕ} {d : Block} (h : p.copies a d) : p.locks := by
  cases p with
  | evicting | flushCopy => trivial
  | _ => exact h.elim

theorem locks_of_walks {p : Pc} {a : ℕ} (h : p.walks a) : p.locks := by
  cases p with
  | flushing | flushCopy => trivial
  | _ => exact h.elim

theorem loads_of_loadsFrom {p : Pc} {a sec : ℕ} (h : p.loadsFrom a sec) : p.loads a := by
  cases p with
  | loading => exact h.1
  | _ => exact h.elim

theorem exists_loadsFrom {p : Pc} {a : ℕ} (h : p.loads a) : ∃ sec, p.loadsFrom a sec := by
  cases p with
  | loading b n w o u => exact ⟨n, h, rfl⟩
  | _ => exact h.elim

end Pc

namespace Shared

variable {s s' : Shared} {t : ℕ}

/-! ### Contents -/

/-- **The content of a sector**: the buffer of its entry once it is loaded, else what the disk holds. -/
def content (s : Shared) (sec : ℕ) : Block :=
  match s.list.find? fun a => (s.entry a).secNo == sec with
  | some a => if (s.entry a).entryLock = none then (s.entry a).buffer else s.disk.sectors sec
  | none => s.disk.sectors sec

/-- What the content of a sector is, said of any entry. -/
def Holds (s : Shared) (sec : ℕ) (b : Block) : Prop :=
  (∃ a ∈ s.list, (s.entry a).secNo = sec ∧ (s.entry a).entryLock = none ∧ (s.entry a).buffer = b) ∨
    ((∀ a ∈ s.list, (s.entry a).secNo = sec → (s.entry a).entryLock ≠ none) ∧ s.disk.sectors sec = b)

theorem content_holds (s : Shared) (hs : ∀ a ∈ s.list, ∀ b ∈ s.list, (s.entry a).secNo = (s.entry b).secNo → a = b)
    (sec : ℕ) : s.Holds sec (s.content sec) := by
  unfold content
  split
  · rename_i a ha
    have hmem := List.mem_of_find?_eq_some ha
    have hsec : (s.entry a).secNo = sec := by simpa using List.find?_some ha
    split_ifs with hlock
    · exact .inl ⟨a, hmem, hsec, hlock, rfl⟩
    · refine .inr ⟨fun b hb hbs => ?_, rfl⟩
      rw [hs b hb a hmem (hbs.trans hsec.symm)]
      exact hlock
  · rename_i hnone
    refine .inr ⟨fun a ha hsec => ?_, rfl⟩
    exact absurd hsec (by simpa using List.find?_eq_none.1 hnone a ha)

theorem Holds.eq (hs : ∀ a ∈ s.list, ∀ b ∈ s.list, (s.entry a).secNo = (s.entry b).secNo → a = b) {sec : ℕ} {b c : Block}
    (hb : s.Holds sec b) (hc : s.Holds sec c) : b = c := by
  rcases hb with ⟨x, hx, hxs, hxl, rfl⟩ | ⟨hno, rfl⟩
  · rcases hc with ⟨y, hy, hys, -, rfl⟩ | ⟨hno, -⟩
    · rw [hs x hx y hy (hxs.trans hys.symm)]
    · exact absurd hxl (hno x hx hxs)
  · rcases hc with ⟨y, hy, hys, hyl, -⟩ | ⟨-, rfl⟩
    · exact absurd hyl (hno y hy hys)
    · rfl

/-- The content is what holds of it. -/
theorem Inv.content_eq (h : Inv s) {sec : ℕ} {b : Block} (hb : s.Holds sec b) : s.content sec = b :=
  Holds.eq h.secs (content_holds s h.secs sec) hb

/-! ### What keeps the contents -/

/-- Every loaded entry that is not dirty holds what the disk holds. -/
def Clean (s : Shared) : Prop :=
  ∀ a ∈ s.list, (s.entry a).entryLock = none → (s.entry a).dirty = false → (s.entry a).buffer = s.disk.sectors (s.entry a).secNo

/-- **The contents stay**, and clean entries stay clean. -/
structure Keeps (s s' : Shared) : Prop where
  clean : Clean s → Clean s'
  holds : ∀ sec b, s.Holds sec b → s'.Holds sec b

theorem Keeps.refl (s : Shared) : Keeps s s := ⟨id, fun _ _ => id⟩

theorem Keeps.trans {u : Shared} (h : Keeps s s') (h' : Keeps s' u) : Keeps s u :=
  ⟨fun hc => h'.clean (h.clean hc), fun sec b hb => h'.holds sec b (h.holds sec b hb)⟩

theorem Keeps.content (h : Keeps s s') (hi : Inv s) (hi' : Inv s') (sec : ℕ) : s'.content sec = s.content sec :=
  hi'.content_eq (h.holds sec _ (content_holds s hi.secs sec))

section Keeping

/-- Two entries with the same data; they may differ in `accessed` and `readers`. -/
structure SameData (b b' : Entry) : Prop where
  secNo : b'.secNo = b.secNo
  entryLock : b'.entryLock = b.entryLock
  buffer : b'.buffer = b.buffer
  dirty : b'.dirty = b.dirty

theorem SameData.refl (b : Entry) : SameData b b := ⟨rfl, rfl, rfl, rfl⟩

theorem Cleared.sameData (h : Cleared s s') (a : ℕ) : SameData (s.entry a) (s'.entry a) := by
  have h1 := congrArg Entry.secNo (h.entry a)
  have h2 := congrArg Entry.entryLock (h.entry a)
  have h3 := congrArg Entry.buffer (h.entry a)
  have h4 := congrArg Entry.dirty (h.entry a)
  exact ⟨h1, h2, h3, h4⟩

theorem setEntry_sameData {a : ℕ} {f : Entry → Entry} (hf : ∀ e, SameData e (f e)) (b : ℕ) :
    SameData (s.entry b) ((s.setEntry a f).entry b) :=
  ⟨setEntry_field Entry.secNo (fun e => (hf e).secNo) b, setEntry_field Entry.entryLock (fun e => (hf e).entryLock) b,
    setEntry_field Entry.buffer (fun e => (hf e).buffer) b, setEntry_field Entry.dirty (fun e => (hf e).dirty) b⟩

/-- The entries keep their data, in whatever order. -/
theorem Keeps.of_same (hd : s'.disk = s.disk) (hl : ∀ a, a ∈ s'.list ↔ a ∈ s.list)
    (he : ∀ a, SameData (s.entry a) (s'.entry a)) : Keeps s s' := by
  refine ⟨fun hc a ha hlock hdirty => ?_, fun sec b hb => ?_⟩
  · rw [hl] at ha
    rw [(he a).buffer, (he a).secNo, hd]
    exact hc a ha ((he a).entryLock.symm.trans hlock) ((he a).dirty.symm.trans hdirty)
  · rcases hb with ⟨a, ha, hsec, hlock, hbuf⟩ | ⟨hno, hdisk⟩
    · exact .inl ⟨a, (hl a).2 ha, (he a).secNo.trans hsec, (he a).entryLock.trans hlock, (he a).buffer.trans hbuf⟩
    · refine .inr ⟨fun a ha hsec => ?_, by rw [hd]; exact hdisk⟩
      rw [hl] at ha
      rw [(he a).entryLock]
      exact hno a ha ((he a).secNo.symm.trans hsec)

/-- An entry that holds what the disk holds is removed. -/
theorem Keeps.remove {v : ℕ} (h : Inv s) (hv : v ∈ s.list) (hbuf : (s.entry v).buffer = s.disk.sectors (s.entry v).secNo) :
    Keeps s (s.remove v) := by
  have hmem : ∀ a, a ∈ s.list.erase v ↔ a ≠ v ∧ a ∈ s.list := fun a => h.nodup.mem_erase_iff
  refine ⟨fun hc a ha => hc a ((hmem a).1 ha).2, fun sec b hb => ?_⟩
  rcases hb with ⟨a, ha, hsec, hlock, rfl⟩ | ⟨hno, rfl⟩
  · by_cases hav : a = v
    · subst hav
      refine .inr ⟨fun c hc hcs => ?_, by rw [← hsec]; exact hbuf.symm⟩
      obtain ⟨hne, hc'⟩ := (hmem c).1 hc
      exact absurd (h.secs c hc' a ha (hcs.trans hsec.symm)) hne
    · exact .inl ⟨a, (hmem a).2 ⟨hav, ha⟩, hsec, hlock, rfl⟩
  · exact .inr ⟨fun a ha => hno a ((hmem a).1 ha).2, rfl⟩

/-- A new entry, which is yet to be loaded, is appended. -/
theorem Keeps.append {a sec : ℕ} {p : Pc} {b : Option ℕ} (ha : a ∉ s.list) :
    Keeps s { (s.setEntry a fun _ => newEntry t sec).setPc t p with list := s.list ++ [a], buffersem := b } := by
  have hold : ∀ c ∈ s.list, (s.setEntry a fun _ => newEntry t sec).entry c = s.entry c := fun c hc =>
    setEntry_of_ne _ s (by rintro rfl; exact ha hc)
  have hnew : ((s.setEntry a fun _ => newEntry t sec).entry a).entryLock = some t := by rw [setEntry_self]; rfl
  refine ⟨fun hc c hc' hlock hdirty => ?_, fun n d hd => ?_⟩
  · change ((s.setEntry a fun _ => newEntry t sec).entry c).entryLock = none at hlock
    change ((s.setEntry a fun _ => newEntry t sec).entry c).dirty = false at hdirty
    change ((s.setEntry a fun _ => newEntry t sec).entry c).buffer =
      s.disk.sectors ((s.setEntry a fun _ => newEntry t sec).entry c).secNo
    rcases List.mem_append.1 hc' with hmem | hmem
    · rw [hold c hmem] at hlock hdirty ⊢
      exact hc c hmem hlock hdirty
    · rw [List.mem_singleton.1 hmem, hnew] at hlock
      cases hlock
  · rcases hd with ⟨c, hc, hsec, hlock, hbuf⟩ | ⟨hno, hdisk⟩
    · refine .inl ⟨c, List.mem_append_left _ hc, ?_⟩
      change ((s.setEntry a fun _ => newEntry t sec).entry c).secNo = n ∧
        ((s.setEntry a fun _ => newEntry t sec).entry c).entryLock = none ∧
        ((s.setEntry a fun _ => newEntry t sec).entry c).buffer = d
      rw [hold c hc]
      exact ⟨hsec, hlock, hbuf⟩
    · refine .inr ⟨fun c hc hcs => ?_, hdisk⟩
      change ((s.setEntry a fun _ => newEntry t sec).entry c).secNo = n at hcs
      change ((s.setEntry a fun _ => newEntry t sec).entry c).entryLock ≠ none
      rcases List.mem_append.1 hc with hmem | hmem
      · rw [hold c hmem] at hcs ⊢
        exact hno c hmem hcs
      · rw [List.mem_singleton.1 hmem, hnew]
        rintro ⟨⟩

/-- A buffer reaches the disk. -/
theorem Keeps.store {v : ℕ} (h : Inv s) (hv : v ∈ s.list) (hlock : (s.entry v).entryLock = none) :
    Keeps s { s with disk := s.disk.store (s.entry v).secNo (s.entry v).buffer } := by
  refine ⟨fun hc a ha hla hdirty => ?_, fun sec b hb => ?_⟩
  · by_cases hsec : (s.entry a).secNo = (s.entry v).secNo
    · rw [h.secs a ha v hv hsec]
      exact (Disk.sectors_store_self _ _ _).symm
    · exact (hc a ha hla hdirty).trans (Disk.sectors_store_of_ne _ _ hsec).symm
  · rcases hb with hin | ⟨hno, rfl⟩
    · exact .inl hin
    · refine .inr ⟨hno, Disk.sectors_store_of_ne _ _ ?_⟩
      rintro rfl
      exact hno v hv rfl hlock

/-- An entry is loaded. -/
theorem Keeps.loaded {a : ℕ} {f : Entry → Entry} (ha : a ∈ s.list) (hlock : (s.entry a).entryLock ≠ none)
    (hsec : (f (s.entry a)).secNo = (s.entry a).secNo) (hbuf : (f (s.entry a)).buffer = s.disk.sectors (s.entry a).secNo)
    (hfree : (f (s.entry a)).entryLock = none) : Keeps s (s.setEntry a f) := by
  have hold : ∀ c, c ≠ a → (s.setEntry a f).entry c = s.entry c := fun c hc => setEntry_of_ne f s hc
  refine ⟨fun hc c hmem hlc hdirty => ?_, fun sec b hb => ?_⟩
  · by_cases hca : c = a
    · subst hca
      rw [setEntry_self, hsec]
      exact hbuf
    · rw [hold c hca] at hlc hdirty ⊢
      exact hc c hmem hlc hdirty
  · rcases hb with ⟨c, hc, hcs, hcl, hcb⟩ | ⟨hno, rfl⟩
    · have hca : c ≠ a := by
        rintro rfl
        exact hlock hcl
      refine .inl ⟨c, hc, ?_⟩
      rw [hold c hca]
      exact ⟨hcs, hcl, hcb⟩
    · by_cases hsa : (s.entry a).secNo = sec
      · refine .inl ⟨a, ha, ?_⟩
        rw [setEntry_self]
        exact ⟨hsec.trans hsa, hfree, by rw [hbuf, hsa]⟩
      · refine .inr ⟨fun c hc hcs => ?_, rfl⟩
        by_cases hca : c = a
        · subst hca
          rw [setEntry_self, hsec] at hcs
          exact absurd hcs hsa
        · rw [hold c hca] at hcs ⊢
          exact hno c hc hcs

end Keeping

/-! ### The invariant -/

/-- **The cache is coherent**: clean entries hold what the disk holds, and what the threads have
copied out is what the entries still hold. -/
structure Coherent (s : Shared) : Prop where
  inv : Inv s
  clean : Clean s
  load : ∀ t a sec, (s.pc t).loadsFrom a sec → (s.entry a).secNo = sec ∧ (s.entry a).dirty = false
  copy : ∀ t a d, (s.pc t).copies a d → a ∈ s.list ∧ (s.entry a).entryLock = none ∧ (s.entry a).buffer = d
  walk : ∀ t a, (s.pc t).walks a → a ∈ s.list

theorem Coherent.start (d : Disk) : Coherent (start d) where
  inv := Inv.start d
  clean _ h := by cases h
  load _ _ _ h := h.elim
  copy _ _ _ h := h.elim
  walk _ _ h := h.elim

/-- An entry that is dirty is loaded. -/
theorem Coherent.lock_of_dirty (h : Coherent s) {a : ℕ} (ha : a ∈ s.list) (hd : (s.entry a).dirty = true) :
    (s.entry a).entryLock = none := by
  rw [Option.eq_none_iff_forall_ne_some]
  intro t ht
  have hl := (h.inv.lock a ha t).1 ht
  obtain ⟨sec, hsec⟩ := Pc.exists_loadsFrom hl
  rw [(h.load t a sec hsec).2] at hd
  cases hd

/-- What a step of thread `t` leaves to the others. -/
structure Spares (t : ℕ) (s s' : Shared) : Prop where
  pc : ∀ u, u ≠ t → s'.pc u = s.pc u
  list : ∀ u, u ≠ t → (s.pc u).locks → s'.list = s.list
  load : ∀ u, u ≠ t → ∀ a, (s.pc u).loads a →
    (s'.entry a).secNo = (s.entry a).secNo ∧ (s'.entry a).dirty = (s.entry a).dirty
  copy : ∀ u, u ≠ t → ∀ a d, (s.pc u).copies a d →
    (s'.entry a).entryLock = (s.entry a).entryLock ∧ (s'.entry a).buffer = (s.entry a).buffer

/-- **One step keeps the cache coherent**, if it spares the other threads and leaves its own as it
should be. -/
theorem Coherent.step_of (h : Coherent s) (hi : Inv s') (hc : Clean s') (hs : Spares t s s')
    (hload : ∀ a sec, (s'.pc t).loadsFrom a sec → (s'.entry a).secNo = sec ∧ (s'.entry a).dirty = false)
    (hcopy : ∀ a d, (s'.pc t).copies a d → a ∈ s'.list ∧ (s'.entry a).entryLock = none ∧ (s'.entry a).buffer = d)
    (hwalk : ∀ a, (s'.pc t).walks a → a ∈ s'.list) : Coherent s' := by
  refine ⟨hi, hc, fun u a sec hu => ?_, fun u a d hu => ?_, fun u a hu => ?_⟩
  · by_cases hut : u = t
    · subst hut
      exact hload a sec hu
    · rw [hs.pc u hut] at hu
      obtain ⟨h1, h2⟩ := hs.load u hut a (Pc.loads_of_loadsFrom hu)
      obtain ⟨h3, h4⟩ := h.load u a sec hu
      exact ⟨h1.trans h3, h2.trans h4⟩
  · by_cases hut : u = t
    · subst hut
      exact hcopy a d hu
    · rw [hs.pc u hut] at hu
      obtain ⟨h1, h2⟩ := hs.copy u hut a d hu
      obtain ⟨h3, h4, h5⟩ := h.copy u a d hu
      exact ⟨by rwa [hs.list u hut (Pc.locks_of_copies hu)], h1.trans h4, h2.trans h5⟩
  · by_cases hut : u = t
    · subst hut
      exact hwalk a hu
    · rw [hs.pc u hut] at hu
      rw [hs.list u hut (Pc.locks_of_walks hu)]
      exact h.walk u a hu

/-- A thread that holds `buffersem` spares the copies of the others, who have none. -/
theorem Coherent.spares_of_locks (h : Coherent s) (hl : (s.pc t).locks) (hpc : ∀ u, u ≠ t → s'.pc u = s.pc u)
    (hload : ∀ u, u ≠ t → ∀ a, (s.pc u).loads a →
      (s'.entry a).secNo = (s.entry a).secNo ∧ (s'.entry a).dirty = (s.entry a).dirty) : Spares t s s' :=
  ⟨hpc, fun _ hut hlu => absurd hlu (h.inv.others hl hut), hload, fun _ hut _ _ hd =>
    absurd (Pc.locks_of_copies hd) (h.inv.others hl hut)⟩

/-- A step that changes no data. -/
theorem Coherent.of_sameData (h : Coherent s) (hi : Inv s') (hd : s'.disk = s.disk) (hl : s'.list = s.list)
    (he : ∀ a, SameData (s.entry a) (s'.entry a)) (hpc : ∀ u, u ≠ t → s'.pc u = s.pc u)
    (hload : ∀ a sec, ¬ (s'.pc t).loadsFrom a sec)
    (hcopy : ∀ a d, (s'.pc t).copies a d → a ∈ s.list ∧ (s.entry a).entryLock = none ∧ (s.entry a).buffer = d)
    (hwalk : ∀ a, (s'.pc t).walks a → a ∈ s.list) : Coherent s' ∧ Keeps s s' := by
  have hk : Keeps s s' := Keeps.of_same hd (fun a => by rw [hl]) he
  refine ⟨h.step_of hi (hk.clean h.clean) ⟨hpc, fun _ _ _ => hl, fun _ _ a _ => ⟨(he a).secNo, (he a).dirty⟩,
    fun _ _ a _ _ => ⟨(he a).entryLock, (he a).buffer⟩⟩ (fun a sec hls => absurd hls (hload a sec)) (fun a d hcd => ?_)
    fun a hw => by rw [hl]; exact hwalk a hw, hk⟩
  obtain ⟨h1, h2, h3⟩ := hcopy a d hcd
  exact ⟨by rwa [hl], (he a).entryLock.trans h2, (he a).buffer.trans h3⟩

/-- A step that changes no data, to a place where nothing is under way. -/
theorem Coherent.calm (h : Coherent s) (hi : Inv s') (hd : s'.disk = s.disk) (hl : s'.list = s.list)
    (he : ∀ a, SameData (s.entry a) (s'.entry a)) (hpc : ∀ u, u ≠ t → s'.pc u = s.pc u) (hcalm : (s'.pc t).Calm) :
    Coherent s' ∧ Keeps s s' :=
  h.of_sameData hi hd hl he hpc hcalm.not_loadsFrom (fun a d hc => absurd hc (hcalm.not_copies a d)) fun a hw =>
    absurd hw (hcalm.not_walks a)

/-! ### The steps -/

section Steps

variable {new : Option ℕ} {sec : ℕ} {write : Bool} {outer : Option ℕ} {use : Use}

/-- A new entry is appended, by the thread that holds `buffersem`. -/
theorem Coherent.insert (h : Coherent s) (hl : (s.pc t).locks) (hi : Inv s')
    (hn : s.insert t new sec write outer use = some s') : Coherent s' ∧ Keeps s s' := by
  unfold Shared.insert at hn
  split at hn
  · cases hn
    refine h.calm (t := t) hi rfl rfl (fun _ => .refl _) (fun u hu => setPc_of_ne _ _ hu) ?_
    rw [show ({ s.setPc t _ with buffersem := none } : Shared).pc t = _ from setPc_self _ _ _]
    cases outer <;> trivial
  · rename_i a
    split_ifs at hn with ha
    cases hn
    have hk : Keeps s { (s.setEntry a fun _ => newEntry t sec).setPc t (.loading a sec write outer use) with
      list := s.list ++ [a], buffersem := none } := Keeps.append ha
    have hself : ((s.setEntry a fun _ => newEntry t sec).setPc t (.loading a sec write outer use)).pc t =
      .loading a sec write outer use := setPc_self _ _ _
    refine ⟨h.step_of (t := t) hi (hk.clean h.clean) ?_ ?_ ?_ ?_, hk⟩
    · refine h.spares_of_locks hl (fun u hu => setPc_of_ne _ _ hu) fun u _ b hb => ?_
      have hne : b ≠ a := by
        rintro rfl
        exact ha (h.inv.held u b (Pc.holds_of_loads hb))
      have hold : (s.setEntry a fun _ => newEntry t sec).entry b = s.entry b := setEntry_of_ne _ s hne
      exact ⟨congrArg Entry.secNo hold, congrArg Entry.dirty hold⟩
    · intro b n hb
      have hb' : (Pc.loading a sec write outer use).loadsFrom b n := hself ▸ hb
      obtain ⟨rfl, rfl⟩ : a = b ∧ sec = n := hb'
      have hnew : (s.setEntry a fun _ => newEntry t sec).entry a = newEntry t sec := setEntry_self _ _ _
      exact ⟨congrArg Entry.secNo hnew, congrArg Entry.dirty hnew⟩
    · intro b d hb
      exact (hself ▸ hb : Pc.copies (.loading a sec write outer use) b d).elim
    · intro b hb
      exact (hself ▸ hb : Pc.walks (.loading a sec write outer use) b).elim

/-- The clock leaves the cache coherent. -/
theorem Coherent.cleared (h : Coherent s) (hc : Cleared s s') : Coherent s' ∧ Keeps s s' := by
  have hmem : ∀ a, a ∈ s'.list ↔ a ∈ s.list := fun a => hc.list.mem_iff
  have hk : Keeps s s' := Keeps.of_same hc.disk hmem hc.sameData
  refine ⟨⟨h.inv.congr hc.list (fun a _ => hc.same a) hc.pc hc.buffersem, hk.clean h.clean, fun u a n hu => ?_,
    fun u a d hu => ?_, fun u a hu => ?_⟩, hk⟩
  · rw [hc.pc] at hu
    rw [(hc.sameData a).secNo, (hc.sameData a).dirty]
    exact h.load u a n hu
  · rw [hc.pc] at hu
    rw [hmem, (hc.sameData a).entryLock, (hc.sameData a).buffer]
    exact h.copy u a d hu
  · rw [hc.pc] at hu
    rw [hmem]
    exact h.walk u a hu

/-- The thread that holds `buffersem` frees an entry that holds what the disk holds. -/
theorem Coherent.remove {v : ℕ} (h : Coherent s) (hl : (s.pc t).locks) (hcalm : (s.pc t).Calm) (hv : v ∈ s.list)
    (hu : ¬ s.InUse v) (hbuf : (s.entry v).buffer = s.disk.sectors (s.entry v).secNo) :
    Coherent (s.remove v) ∧ Keeps s (s.remove v) := by
  have hk : Keeps s (s.remove v) := Keeps.remove h.inv hv hbuf
  have hi : Inv (s.remove v) := h.inv.remove hu fun u he => by
    by_cases hut : u = t
    · subst hut
      exact hcalm.not_evicts v he
    · exact h.inv.others hl hut (Pc.locks_of_evicts he)
  refine ⟨h.step_of (t := t) hi (hk.clean h.clean) (h.spares_of_locks hl (fun _ _ => rfl) fun _ _ _ _ => ⟨rfl, rfl⟩)
    ?_ ?_ ?_, hk⟩
  · exact fun a n hn => absurd hn (hcalm.not_loadsFrom a n)
  · exact fun a d hd => absurd hd (hcalm.not_copies a d)
  · exact fun a hw => absurd hw (hcalm.not_walks a)

/-- **The search of the list** keeps the cache coherent and the contents as they are. -/
theorem Coherent.lookup (h : Coherent s) (hp : s.pc t = .locked sec write outer use) (hs : s.Evicts t → s.Spared)
    (hn : s.lookup t new sec write outer use = some s') : Coherent s' ∧ Keeps s s' := by
  have hi : Inv s' := h.inv.lookup hp hs hn
  have hl : (s.pc t).locks := by rw [hp]; trivial
  unfold Shared.lookup at hn
  split at hn
  · rename_i a ha
    cases hn
    have he : ∀ b, SameData (s.entry b) ((s.setEntry a fun e => { e with accessed := true }).entry b) := by
      refine setEntry_sameData fun _ => ?_
      exact ⟨rfl, rfl, rfl, rfl⟩
    refine h.calm (t := t) hi rfl rfl he (fun u hu => setPc_of_ne _ _ hu) ?_
    rw [show ({ (s.setEntry a _).setPc t _ with buffersem := none } : Shared).pc t = _ from setPc_self _ _ _]
    trivial
  · rename_i hfind
    have hmiss : ∀ a ∈ s.list, (s.entry a).secNo ≠ sec := fun a ha => by
      simpa using List.find?_eq_none.1 hfind a ha
    split_ifs at hn with hlen
    · exact h.insert hl hi hn
    · obtain ⟨v, l, hv, -, hu, hi₁⟩ := h.inv.selectBce hs ⟨sec, write, outer, use, hp, hmiss, not_lt.1 hlen⟩
      have hc := selectBce_cleared s.list.length s
      obtain ⟨h₁, hk₁⟩ := h.cleared hc
      have hmem : v ∈ (Shared.selectBce s.list.length s).list := by rw [hv]; exact List.mem_cons_self
      have hu₁ : ¬ (Shared.selectBce s.list.length s).InUse v := fun ⟨u, hh⟩ => hu ⟨u, by rwa [hc.pc] at hh⟩
      have hfree := (hi₁.unpinned hmem hu₁).entryLock
      have hp₁ : (Shared.selectBce s.list.length s).pc t = .locked sec write outer use := by rw [hc.pc, hp]
      simp only [hv] at hn
      split_ifs at hn with hdirty
      · -- the victim is dirty: its data is copied out
        cases hn
        have hself : ((Shared.selectBce s.list.length s).setPc t (.evicting v
          ((Shared.selectBce s.list.length s).entry v).buffer sec write outer use)).pc t = .evicting v
          ((Shared.selectBce s.list.length s).entry v).buffer sec write outer use := setPc_self _ _ _
        obtain ⟨h₂, hk₂⟩ := h₁.of_sameData (t := t) hi rfl rfl (fun _ => .refl _) (fun u hu => setPc_of_ne _ _ hu)
          (fun a n hn => (hself ▸ hn : Pc.loadsFrom (.evicting v _ sec write outer use) a n).elim)
          (fun a d hd => by
            rw [hself] at hd
            obtain ⟨rfl, rfl⟩ := hd
            exact ⟨hmem, hfree, rfl⟩)
          fun a ha => (hself ▸ ha : Pc.walks (.evicting v _ sec write outer use) a).elim
        exact ⟨h₂, hk₁.trans hk₂⟩
      · -- the victim is clean
        have hclean := h₁.clean v hmem hfree (Bool.eq_false_iff.2 hdirty)
        obtain ⟨h₂, hk₂⟩ := h₁.remove (t := t) (by rw [hp₁]; trivial) (by rw [hp₁]; trivial) hmem hu₁ hclean
        have hp₂ : ((Shared.selectBce s.list.length s).remove v).pc t = .locked sec write outer use := hp₁
        obtain ⟨h₃, hk₃⟩ := h₂.insert (t := t) (by rw [hp₂]; trivial) hi hn
        exact ⟨h₃, hk₁.trans (hk₂.trans hk₃)⟩

/-- A buffer that was copied out reaches the disk, and is still the same. -/
theorem Coherent.store {a : ℕ} {d : Block} (h : Coherent s) (hc : (s.pc t).copies a d) :
    Coherent { s with disk := s.disk.store (s.entry a).secNo d } ∧ Keeps s { s with disk := s.disk.store (s.entry a).secNo d } ∧
      (s.entry a).buffer = (s.disk.store (s.entry a).secNo d).sectors (s.entry a).secNo := by
  obtain ⟨ha, hlock, rfl⟩ := h.copy t a d hc
  have hk := Keeps.store h.inv ha hlock
  exact ⟨⟨h.inv.congr (.refl _) (fun _ _ => .refl _) rfl rfl, hk.clean h.clean, h.load, h.copy, h.walk⟩, hk,
    (Disk.sectors_store_self _ _ _).symm⟩

/-- The victim is written back: it is removed, and a new entry appended. -/
theorem Coherent.evicted {v : ℕ} {data : Block} (h : Coherent s) (hp : s.pc t = .evicting v data sec write outer use)
    (hbuf : (s.entry v).buffer = s.disk.sectors (s.entry v).secNo) (hi : Inv s')
    (hn : (s.remove v).insert t new sec write outer use = some s') : Coherent s' ∧ Keeps s s' := by
  have hself : (s.setPc t (.locked sec write outer use)).pc t = .locked sec write outer use := setPc_self _ _ _
  obtain ⟨hv, hu⟩ := h.inv.victim t v (by rw [hp]; rfl)
  -- the thread is as if it had not begun the eviction
  obtain ⟨h₁, hk₁⟩ : Coherent (s.setPc t (.locked sec write outer use)) ∧ Keeps s (s.setPc t (.locked sec write outer use)) :=
    h.calm (t := t) (h.inv.goOn _ (by rw [hp]; trivial) trivial (fun c hc => by rw [hp]; exact hc) fun _ => by rw [hp]; trivial) rfl rfl
    (fun _ => .refl _) (fun u hu => setPc_of_ne _ _ hu) (by rw [hself]; trivial)
  have hu₁ : ¬ (s.setPc t (.locked sec write outer use)).InUse v := by
    rintro ⟨u, hh⟩
    by_cases hut : u = t
    · subst hut
      rw [hself] at hh
      exact hu ⟨u, by rw [hp]; exact hh⟩
    · rw [setPc_of_ne _ _ hut] at hh
      exact hu ⟨u, hh⟩
  obtain ⟨h₂, hk₂⟩ := h₁.remove (t := t) (by rw [hself]; trivial) (by rw [hself]; trivial) hv hu₁ hbuf
  have hself₂ : ((s.setPc t (.locked sec write outer use)).remove v).pc t = .locked sec write outer use := hself
  obtain ⟨h₃, hk₃⟩ := h₂.insert (t := t) (by rw [hself₂]; trivial) hi
    ((insert_setPc (s := s.remove v) _ new sec write outer use).trans hn)
  exact ⟨h₃, hk₁.trans (hk₂.trans hk₃)⟩

/-- An entry is loaded. -/
theorem Coherent.loaded {a : ℕ} {f : Entry → Entry} {p : Pc} (h : Coherent s)
    (hp : s.pc t = .loading a sec write outer use) (hsec : ∀ e, (f e).secNo = e.secNo)
    (hbuf : (f (s.entry a)).buffer = s.disk.sectors sec) (hfree : (f (s.entry a)).entryLock = none) (hcalm : p.Calm)
    (hi : Inv ((s.setEntry a f).setPc t p)) :
    Coherent ((s.setEntry a f).setPc t p) ∧ Keeps s ((s.setEntry a f).setPc t p) := by
  have hloads : (s.pc t).loads a := by rw [hp]; rfl
  have ha : a ∈ s.list := h.inv.held t a (Pc.holds_of_loads hloads)
  have hlock : (s.entry a).entryLock = some t := (h.inv.lock a ha t).2 hloads
  obtain ⟨hs, -⟩ := h.load t a sec (by rw [hp]; exact ⟨rfl, rfl⟩)
  have hk : Keeps s ((s.setEntry a f).setPc t p) := by
    have hk₁ : Keeps s (s.setEntry a f) :=
      Keeps.loaded ha (by rw [hlock]; rintro ⟨⟩) (hsec _) (by rw [hs]; exact hbuf) hfree
    exact hk₁.trans (Keeps.of_same rfl (fun _ => Iff.rfl) fun _ => .refl _)
  have hself : ((s.setEntry a f).setPc t p).pc t = p := setPc_self _ _ _
  refine ⟨h.step_of (t := t) hi (hk.clean h.clean) ⟨fun u hu => setPc_of_ne _ _ hu, fun _ _ _ => rfl, fun u hut b hb => ?_,
    fun u hut b d hd => ?_⟩ ?_ ?_ ?_, hk⟩
  · -- another thread loads another entry
    have hne : b ≠ a := by
      rintro rfl
      have := (h.inv.lock b ha u).2 hb
      rw [hlock] at this
      exact hut (Option.some.inj this).symm
    rw [setPc_entry, setEntry_of_ne f s hne]
    exact ⟨rfl, rfl⟩
  · -- what is copied out is not being loaded
    have hne : b ≠ a := by
      rintro rfl
      have := (h.copy u b d hd).2.1
      rw [hlock] at this
      cases this
    rw [setPc_entry, setEntry_of_ne f s hne]
    exact ⟨rfl, rfl⟩
  · rw [hself]
    exact fun b n hb => absurd hb (hcalm.not_loadsFrom b n)
  · rw [hself]
    exact fun b d hb => absurd hb (hcalm.not_copies b d)
  · rw [hself]
    exact fun b hb => absurd hb (hcalm.not_walks b)

/-- An entry that holds what the disk holds is marked clean. -/
theorem Coherent.cleaned {a : ℕ} {rest : List ℕ} (h : Coherent s) (ha : a ∈ s.list)
    (hbuf : (s.entry a).buffer = s.disk.sectors (s.entry a).secNo) (hl : (s.pc t).locks) (hrest : ∀ b ∈ rest, b ∈ s.list)
    (hi : Inv ((s.setEntry a fun e => { e with dirty := false }).setPc t (.flushing rest))) :
    Coherent ((s.setEntry a fun e => { e with dirty := false }).setPc t (.flushing rest)) ∧
      Keeps s ((s.setEntry a fun e => { e with dirty := false }).setPc t (.flushing rest)) := by
  have hsec : ∀ b, ((s.setEntry a fun e => { e with dirty := false }).entry b).secNo = (s.entry b).secNo := fun b =>
    setEntry_field Entry.secNo (by intro; rfl) b
  have hlock : ∀ b, ((s.setEntry a fun e => { e with dirty := false }).entry b).entryLock = (s.entry b).entryLock := fun b =>
    setEntry_field Entry.entryLock (by intro; rfl) b
  have hdata : ∀ b, ((s.setEntry a fun e => { e with dirty := false }).entry b).buffer = (s.entry b).buffer := fun b =>
    setEntry_field Entry.buffer (by intro; rfl) b
  have hself : ((s.setEntry a fun e => { e with dirty := false }).setPc t (.flushing rest)).pc t = .flushing rest :=
    setPc_self _ _ _
  have hk : Keeps s ((s.setEntry a fun e => { e with dirty := false }).setPc t (.flushing rest)) := by
    refine ⟨fun hc b hb hlb hdb => ?_, fun sec d hd => ?_⟩
    · rw [setPc_entry] at hlb hdb ⊢
      rw [hdata, hsec]
      by_cases hba : b = a
      · subst hba
        exact hbuf
      · rw [setEntry_of_ne _ s hba] at hdb
        exact hc b hb ((hlock b).symm.trans hlb) hdb
    · rcases hd with ⟨b, hb, h1, h2, h3⟩ | ⟨hno, hd⟩
      · exact .inl ⟨b, hb, (hsec b).trans h1, (hlock b).trans h2, (hdata b).trans h3⟩
      · refine .inr ⟨fun b hb hbs => ?_, hd⟩
        rw [setPc_entry] at hbs ⊢
        rw [hlock]
        exact hno b hb ((hsec b).symm.trans hbs)
  refine ⟨h.step_of (t := t) hi (hk.clean h.clean) ?_ ?_ ?_ ?_, hk⟩
  · refine h.spares_of_locks hl (fun u hu => setPc_of_ne _ _ hu) fun u _ b hb => ⟨hsec b, ?_⟩
    rw [setPc_entry]
    by_cases hba : b = a
    · subst hba
      rw [setEntry_self]
      obtain ⟨n, hn⟩ := Pc.exists_loadsFrom hb
      exact (h.load u b n hn).2.symm
    · rw [setEntry_of_ne _ s hba]
  · rw [hself]
    exact fun _ _ => False.elim
  · rw [hself]
    exact fun _ _ => False.elim
  · rw [hself]
    exact hrest

/-- **A write** that comes while no copy of the entry is on its way to the disk changes the content
of its sector, and nothing else. -/
theorem Coherent.written {a ofs n : ℕ} {src : ℕ → UInt8} (h : Coherent s) (hp : s.pc t = .got a (.writes ofs n src))
    (hlock : (s.entry a).entryLock = none) (hfree : ∀ u d, ¬ (s.pc u).copies a d)
    (hi : Inv ((s.setEntry a fun e => { e with buffer := e.buffer.write ofs n src, dirty := true }).setPc t .idle)) :
    Coherent ((s.setEntry a fun e => { e with buffer := e.buffer.write ofs n src, dirty := true }).setPc t .idle) ∧
      ∀ sec b, s.Holds sec b →
        ((s.setEntry a fun e => { e with buffer := e.buffer.write ofs n src, dirty := true }).setPc t .idle).Holds sec
          (if (s.entry a).secNo = sec then b.write ofs n src else b) := by
  have ha : a ∈ s.list := h.inv.held t a (by rw [hp]; rfl)
  have hself : ((s.setEntry a fun e => { e with buffer := e.buffer.write ofs n src, dirty := true }).setPc t .idle).pc t =
    .idle := setPc_self _ _ _
  have hnew : (s.setEntry a fun e => { e with buffer := e.buffer.write ofs n src, dirty := true }).entry a =
    { s.entry a with buffer := (s.entry a).buffer.write ofs n src, dirty := true } := setEntry_self _ _ _
  have hold : ∀ b, b ≠ a →
      (s.setEntry a fun e => { e with buffer := e.buffer.write ofs n src, dirty := true }).entry b = s.entry b :=
    fun b hb => setEntry_of_ne _ s hb
  constructor
  · refine h.step_of (t := t) hi (fun b hb hlb hdb => ?_) ⟨fun u hu => setPc_of_ne _ _ hu, fun _ _ _ => rfl,
      fun u hut b hb => ?_, fun u hut b d hd => ?_⟩ ?_ ?_ ?_
    · rw [setPc_entry] at hlb hdb ⊢
      by_cases hba : b = a
      · subst hba
        rw [hnew] at hdb
        cases hdb
      · rw [hold b hba] at hlb hdb ⊢
        exact h.clean b hb hlb hdb
    · have hne : b ≠ a := by
        rintro rfl
        have := (h.inv.lock b ha u).2 hb
        rw [hlock] at this
        cases this
      rw [setPc_entry, hold b hne]
      exact ⟨rfl, rfl⟩
    · have hne : b ≠ a := by
        rintro rfl
        exact hfree u d hd
      rw [setPc_entry, hold b hne]
      exact ⟨rfl, rfl⟩
    · rw [hself]
      exact fun _ _ => False.elim
    · rw [hself]
      exact fun _ _ => False.elim
    · rw [hself]
      exact fun _ => False.elim
  · intro sec b hb
    rcases hb with ⟨c, hc, hcs, hcl, rfl⟩ | ⟨hno, rfl⟩
    · refine .inl ⟨c, hc, ?_⟩
      rw [setPc_entry]
      by_cases hca : c = a
      · subst hca
        rw [hnew, if_pos hcs]
        exact ⟨hcs, hcl, rfl⟩
      · have hne : (s.entry a).secNo ≠ sec := fun has => hca (h.inv.secs c hc a ha (hcs.trans has.symm))
        rw [hold c hca, if_neg hne]
        exact ⟨hcs, hcl, rfl⟩
    · -- the sector has no loaded entry, so it is not the one written
      have hne : (s.entry a).secNo ≠ sec := fun has => hno a ha has hlock
      rw [if_neg hne]
      refine .inr ⟨fun c hc hcs => ?_, rfl⟩
      rw [setPc_entry] at hcs ⊢
      by_cases hca : c = a
      · subst hca
        rw [hnew] at hcs
        exact absurd hcs hne
      · rw [hold c hca] at hcs ⊢
        exact hno c hc hcs

end Steps

/-! ### Runs -/

/-- What an event does to the content `b` of a sector: a completed `buffer_cache_write` writes to it. -/
def effect (e : Event) (s : Shared) (sec : ℕ) (b : Block) : Block :=
  match e with
  | .step t _ =>
    match s.pc t with
    | .got a (.writes ofs n src) => if (s.entry a).secNo = sec then b.write ofs n src else b
    | _ => b
  | _ => b

/-- **No write comes between** the two steps in which the write-behind thread writes the entry to the
disk, and evictions spare the entries in use. -/
structure Undisturbed (e : Event) (s : Shared) : Prop where
  sparing : Sparing e s
  apart : ∀ t new a ofs n src, e = .step t new → s.pc t = .got a (.writes ofs n src) →
    ∀ u data rest, s.pc u ≠ .flushCopy a data rest

/-- A step that keeps the contents. -/
theorem Keeps.effect {t : ℕ} {new : Option ℕ} (h : Keeps s s') (hp : ∀ a ofs n src, s.pc t ≠ .got a (.writes ofs n src))
    (sec : ℕ) (b : Block) (hb : s.Holds sec b) : s'.Holds sec (effect (.step t new) s sec b) := by
  have he : Shared.effect (.step t new) s sec b = b := by
    simp only [Shared.effect]
  rw [he]
  exact h.holds sec b hb

/-- **Every step of a thread keeps the cache coherent**, and changes the contents as it should. -/
theorem Coherent.step {new : Option ℕ} (h : Coherent s) (hu : Undisturbed (.step t new) s) (hn : s.step t new = some s') :
    Coherent s' ∧ ∀ sec b, s.Holds sec b → s'.Holds sec (effect (.step t new) s sec b) := by
  have hi : Inv s' := h.inv.step (hu.sparing t new rfl) hn
  -- the steps other than a write
  have hkeep : Coherent s' ∧ Keeps s s' → (∀ a ofs n src, s.pc t ≠ .got a (.writes ofs n src)) →
      Coherent s' ∧ ∀ sec b, s.Holds sec b → s'.Holds sec (Shared.effect (.step t new) s sec b) :=
    fun hk hp => ⟨hk.1, fun sec b hb => hk.2.effect hp sec b hb⟩
  unfold Shared.step at hn
  split at hn
  · cases hn
  · rename_i sec write outer use hp
    split_ifs at hn
    cases hn
    refine hkeep (h.calm (t := t) hi rfl rfl (fun _ => .refl _) (fun u hu => setPc_of_ne _ _ hu) ?_) (by simp [hp])
    rw [show ({ s.setPc t _ with buffersem := some t } : Shared).pc t = _ from setPc_self _ _ _]
    trivial
  · rename_i sec write outer use hp
    exact hkeep (h.lookup hp (hu.sparing t new rfl) hn) (by simp [hp])
  · rename_i v data sec write outer use hp
    obtain ⟨h₁, hk₁, hbuf⟩ := h.store (t := t) (a := v) (d := data) (by rw [hp]; exact ⟨rfl, rfl⟩)
    obtain ⟨h₂, hk₂⟩ := h₁.evicted hp hbuf hi hn
    exact hkeep ⟨h₂, hk₁.trans hk₂⟩ (by simp [hp])
  · rename_i a sec write outer use hp
    split_ifs at hn
    · cases hn
      exact hkeep (h.loaded hp (fun _ => rfl) rfl rfl trivial hi) (by simp [hp])
    · cases hn
      exact hkeep (h.loaded hp (fun _ => rfl) rfl rfl trivial hi) (by simp [hp])
  · rename_i a hp
    split_ifs at hn
    cases hn
    have he : ∀ b, SameData (s.entry b) ((s.setEntry a fun e => { e with readers := e.readers + 1 }).entry b) := by
      refine setEntry_sameData fun _ => ?_
      exact ⟨rfl, rfl, rfl, rfl⟩
    exact hkeep (h.calm (t := t) hi rfl rfl he (fun u hu => setPc_of_ne _ _ hu) (by rw [setPc_self]; trivial)) (by simp [hp])
  · -- a write
    rename_i a ofs n src hp
    split_ifs at hn with hfree
    cases hn
    have hcopies : ∀ u d, ¬ (s.pc u).copies a d := by
      intro u d hd
      have hev : ¬ (s.pc u).evicts a := h.inv.not_evicts (t := t) (by rw [hp]; rfl) u
      have hfl := hu.apart t new a ofs n src rfl hp u
      revert hd hev hfl
      cases s.pc u with
      | evicting w d' n' wr o us => exact fun hd hev _ => hev hd.1
      | flushCopy b d' rest => exact fun hd _ hfl => hfl d' rest (by rw [hd.1])
      | _ => exact fun hd _ _ => hd
    obtain ⟨h₁, hw⟩ := h.written hp hfree.1 hcopies hi
    refine ⟨h₁, fun sec b hb => ?_⟩
    simp only [Shared.effect, hp]
    exact hw sec b hb
  · rename_i a hp
    split_ifs at hn
    cases hn
    have he : ∀ b, SameData (s.entry b) ((s.setEntry a fun e => { e with readers := e.readers - 1 }).entry b) := by
      refine setEntry_sameData fun _ => ?_
      exact ⟨rfl, rfl, rfl, rfl⟩
    exact hkeep (h.calm (t := t) hi rfl rfl he (fun u hu => setPc_of_ne _ _ hu) (by rw [setPc_self]; trivial)) (by simp [hp])
  · rename_i hp
    split_ifs at hn
    cases hn
    have hself : ({ s.setPc t (.flushing s.list) with buffersem := some t } : Shared).pc t = .flushing s.list := setPc_self _ _ _
    refine hkeep (h.of_sameData (t := t) hi rfl rfl (fun _ => .refl _) (fun u hu => setPc_of_ne _ _ hu) ?_ ?_ ?_) (by simp [hp])
    all_goals rw [hself]
    · exact fun _ _ => id
    · exact fun _ _ => False.elim
    · exact fun _ ha => ha
  · rename_i hp
    cases hn
    refine hkeep (h.calm (t := t) hi rfl rfl (fun _ => .refl _) (fun u hu => setPc_of_ne _ _ hu) ?_) (by simp [hp])
    rw [show ({ s.setPc t _ with buffersem := none } : Shared).pc t = _ from setPc_self _ _ _]
    trivial
  · -- the write-behind thread looks at an entry
    rename_i a rest hp
    have hwalk : ∀ b ∈ a :: rest, b ∈ s.list := fun b hb => h.walk t b (by rw [hp]; exact hb)
    cases hn
    refine hkeep ?_ (by simp [hp])
    split_ifs at hi ⊢ with hdirty
    · have hlock := h.lock_of_dirty (hwalk a List.mem_cons_self) hdirty
      refine h.of_sameData (t := t) hi rfl rfl (fun _ => .refl _) (fun u hu => setPc_of_ne _ _ hu) ?_ ?_ ?_
      all_goals rw [setPc_self]
      · exact fun _ _ => id
      · rintro b d ⟨rfl, rfl⟩
        exact ⟨hwalk a List.mem_cons_self, hlock, rfl⟩
      · exact fun b hb => hwalk b (List.mem_cons_of_mem a hb)
    · refine h.of_sameData (t := t) hi rfl rfl (fun _ => .refl _) (fun u hu => setPc_of_ne _ _ hu) ?_ ?_ ?_
      all_goals rw [setPc_self]
      · exact fun _ _ => id
      · exact fun _ _ => False.elim
      · exact fun b hb => hwalk b (List.mem_cons_of_mem a hb)
  · -- the disk has the data, which is what the entry holds
    rename_i a data rest hp
    have hcopy : (s.pc t).copies a data := by rw [hp]; exact ⟨rfl, rfl⟩
    obtain ⟨h₁, hk₁, hbuf⟩ := h.store hcopy
    cases hn
    obtain ⟨h₂, hk₂⟩ := h₁.cleaned (h.copy t a data hcopy).1 hbuf (by change (s.pc t).locks; rw [hp]; trivial)
      (show ∀ b ∈ rest, b ∈ s.list from fun b hb => h.walk t b (by rw [hp]; exact hb)) hi
    exact hkeep ⟨h₂, hk₁.trans hk₂⟩ (by simp [hp])

/-- **Every event keeps the cache coherent**, and changes the contents as it should. -/
theorem Coherent.next {e : Event} (h : Coherent s) (hu : Undisturbed e s) (hn : next e s = some s') :
    Coherent s' ∧ ∀ sec b, s.Holds sec b → s'.Holds sec (effect e s sec b) := by
  have hi : Inv s' := h.inv.next hu.sparing hn
  cases e with
  | call t sec write use =>
    simp only [Shared.next] at hn
    split at hn <;> cases hn
    obtain ⟨h', hk⟩ := h.calm (t := t) hi rfl rfl (fun _ => .refl _) (fun u hu => setPc_of_ne _ _ hu)
      (by rw [setPc_self]; trivial)
    exact ⟨h', hk.holds⟩
  | flush t =>
    simp only [Shared.next] at hn
    split at hn <;> cases hn
    obtain ⟨h', hk⟩ := h.calm (t := t) hi rfl rfl (fun _ => .refl _) (fun u hu => setPc_of_ne _ _ hu)
      (by rw [setPc_self]; trivial)
    exact ⟨h', hk.holds⟩
  | step t new => exact h.step hu hn

/-- **No lost update through write-behind**: in every interleaving in which no write to an entry
comes between the two steps of a write-behind of it and evictions spare the entries in use, every
entry that is loaded and not dirty holds what the disk holds; and each step changes the content of
a sector only if it completes a `buffer_cache_write` to it, and then by just those bytes. -/
theorem no_lost_update {d : Disk} {s : Shared} (h : Reach Shared.next Undisturbed (Shared.start d) s) :
    (∀ a ∈ s.list, (s.entry a).entryLock = none → (s.entry a).dirty = false →
      (s.entry a).buffer = s.disk.sectors (s.entry a).secNo) ∧
    ∀ e s', Undisturbed e s → Shared.next e s = some s' → ∀ sec, s'.content sec = effect e s sec (s.content sec) := by
  have hc : Coherent s := h.invariant (Coherent.start d) fun _ _ _ hi hu hn => (hi.next hu hn).1
  refine ⟨hc.clean, fun e s' hu hn sec => ?_⟩
  obtain ⟨hc', hh⟩ := hc.next hu hn
  exact hc'.inv.content_eq (hh sec _ (content_holds s hc.inv.secs sec))

/-- Thread 0 writes a byte 7 to sector 0, of which thread 1 obtains the entry to write a byte 8; the
write-behind thread 9 has copied the entry out. -/
def race : List Event :=
  [.call 0 0 true (.writes 0 1 fun _ => 7), .step 0 none, .step 0 (some 5), .step 0 none, .step 0 none,
    .step 0 (some 6), .step 0 none, .step 0 none,
    .call 1 0 true (.writes 0 1 fun _ => 8), .step 1 none, .step 1 none,
    .flush 9, .step 9 none, .step 9 none]

/-- Thread 1 writes before the disk has the data, and then `dirty` is cleared: the entry is clean,
but holds 8 where the disk holds 7. -/
theorem write_behind_loses_update : ∃ s, Reach Shared.next (fun _ _ => True) (Shared.start smallDisk) s ∧
    5 ∈ s.list ∧ (s.entry 5).entryLock = none ∧ (s.entry 5).dirty = false ∧
    (s.entry 5).buffer ≠ s.disk.sectors (s.entry 5).secNo := by
  have hrun : (follow Shared.next (fun _ _ => true) (race ++ [.step 1 none, .step 9 none]) (Shared.start smallDisk)).map
      (fun s => (decide (5 ∈ s.list), (s.entry 5).entryLock, (s.entry 5).dirty, (s.entry 5).buffer 0,
        s.disk.sectors (s.entry 5).secNo 0)) = some (true, none, false, 8, 7) := by decide +kernel
  obtain ⟨s, hs, hend⟩ := Option.map_eq_some_iff.1 hrun
  simp only [Prod.mk.injEq, decide_eq_true_eq] at hend
  obtain ⟨hin, hlock, hdirty, h8, h7⟩ := hend
  refine ⟨s, Reach.of_follow hs (fun _ _ _ _ => trivial) .refl, hin, hlock, hdirty, fun heq => ?_⟩
  rw [heq, h7] at h8
  exact absurd h8 (by decide)

/-- A check that an event is undisturbed: the cache is not full, and a write comes while nobody
holds `buffersem`. -/
def lone (e : Event) (s : Shared) : Bool :=
  roomy e s && match e with
    | .step t _ =>
      match s.pc t with
      | .got _ (.writes _ _ _) => decide (s.buffersem = none)
      | _ => true
    | _ => true

theorem Undisturbed.of_lone {e : Event} {s : Shared} (hi : Inv s) (h : lone e s = true) : Undisturbed e s := by
  obtain ⟨hr, hl⟩ := Bool.and_eq_true_iff.1 h
  refine ⟨Sparing.of_roomy hr, ?_⟩
  rintro t new a ofs n src rfl hp u data rest hu
  simp only [hp, decide_eq_true_eq] at hl
  have := hi.sem u (by rw [hu]; trivial)
  rw [hl] at this
  cases this

/-- In the other order, with the write after the write-behind, nothing is lost. -/
theorem no_lost_update_after : ∃ s s', Reach Shared.next Undisturbed (Shared.start smallDisk) s ∧
    Undisturbed (.step 1 none) s ∧ Shared.next (.step 1 none) s = some s' ∧
    s'.content 0 = effect (.step 1 none) s 0 (s.content 0) ∧ s'.content 0 0 = 8 := by
  have hrun : ((follow Shared.next lone (race ++ [.step 9 none, .step 9 none, .step 9 none]) (Shared.start smallDisk)).bind
      fun s => (Shared.next (.step 1 none) s).map fun s' => (lone (.step 1 none) s, s'.content 0 0)) =
      some (true, 8) := by decide +kernel
  obtain ⟨s, hs, hnext⟩ := Option.bind_eq_some_iff.1 hrun
  obtain ⟨s', hs', hend⟩ := Option.map_eq_some_iff.1 hnext
  obtain ⟨hlone, h8⟩ := Prod.mk.inj hend
  have hreach : Reach Shared.next Undisturbed (Shared.start smallDisk) s := by
    refine Reach.of_follow hs (fun _ _ ht hc => ?_) .refl
    exact Undisturbed.of_lone (Inv.of_reach (ht.mono fun _ _ hu => hu.sparing)) hc
  have hu := Undisturbed.of_lone (Inv.of_reach (hreach.mono fun _ _ hu => hu.sparing)) hlone
  exact ⟨s, s', hreach, hu, hs', (no_lost_update hreach).2 _ s' hu hs' 0, h8⟩

end Shared

end Pintos.Sharing
