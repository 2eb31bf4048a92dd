import Mathlib.Data.List.Nodup
import Mathlib.Data.Set.Card
import Pintos.Devices.Disk
import Pintos.Library.Clock
import Pintos.Library.Steps

/-!
# The buffer cache between threads

`filesys/cache.c` with several threads: those that read and write through the cache
(`inode_read_at`, `inode_open`, `buffer_cache_write`) and the write-behind thread. A
step is a section that a lock protects; a `disk_write` is two steps, between which the
lock stays held and other threads may run: the data is copied out, and later the disk
has it. `buffersem` protects the list and is held during an eviction and during the
whole of `buffer_cache_write_dirties_once`; the `entry_lock` of an entry is held while
it is loaded and for each change of its buffer or of its count of readers.

An entry is known by its address, and memory is kept for every address: a thread that
uses an entry after it was freed uses whatever lies there by then, since `calloc` may
give the address to another entry.
-/

namespace Pintos.Sharing

open Library

/-- A `struct buffer_cache_entry`, with the thread that holds its `entry_lock`. -/
structure Entry where
  secNo : ℕ
  buffer : Block
  accessed : Bool
  dirty : Bool
  readers : ℕ
  entryLock : Option ℕ

/-- What the caller of `buffer_cache_check` does with the entry. -/
inductive Use
  /-- Copy out of it, counted among its readers. -/
  | reads
  /-- Copy `n` bytes of `src` into it (`buffer_cache_write`). -/
  | writes (ofs n : ℕ) (src : ℕ → UInt8)

/-- Where a thread is. In `buffer_cache_check (sec, write)`, `outer` is the entry that an
enclosing call has loaded and returns after the read-ahead, and `use` what is done in the end. -/
inductive Pc
  | idle
  /-- At `lock_acquire (&buffersem)`. -/
  | check (sec : ℕ) (write : Bool) (outer : Option ℕ) (use : Use)
  /-- Holding `buffersem`, before the search of the list. -/
  | locked (sec : ℕ) (write : Bool) (outer : Option ℕ) (use : Use)
  /-- Holding `buffersem`, with the victim's data copied out and the write under way. -/
  | evicting (victim : ℕ) (data : Block) (sec : ℕ) (write : Bool) (outer : Option ℕ) (use : Use)
  /-- The new entry is on the list, its `entry_lock` held, its `disk_read` under way. -/
  | loading (entry : ℕ) (sec : ℕ) (write : Bool) (outer : Option ℕ) (use : Use)
  /-- `buffer_cache_check` has returned the entry. -/
  | got (entry : ℕ) (use : Use)
  /-- Counted among the readers, copying. -/
  | reading (entry : ℕ)
  /-- The write-behind thread at `lock_acquire (&buffersem)`. -/
  | flush
  /-- Holding `buffersem`, with the entries still to look at. -/
  | flushing (rest : List ℕ)
  /-- Holding `buffersem`, with an entry's data copied out and the write under way. -/
  | flushCopy (entry : ℕ) (data : Block) (rest : List ℕ)

/-- The disk, the cache and its threads. -/
structure Shared where
  disk : Disk
  /-- `buffer_cache_list`, by addresses. -/
  list : List ℕ
  /-- What lies at an address. -/
  entry : ℕ → Entry
  /-- The thread that holds `buffersem`. -/
  buffersem : Option ℕ
  pc : ℕ → Pc

/-- What happens next. -/
inductive Event
  /-- Thread `t` calls `buffer_cache_check`. -/
  | call (t : ℕ) (sec : ℕ) (write : Bool) (use : Use)
  /-- Thread `t` calls `buffer_cache_write_dirties_once`. -/
  | flush (t : ℕ)
  /-- The next step of thread `t`; `calloc`, if it is called, returns `new`. -/
  | step (t : ℕ) (new : Option ℕ)

namespace Shared

/-- Move a thread on. -/
def setPc (t : ℕ) (p : Pc) (s : Shared) : Shared := { s with pc := Function.update s.pc t p }

/-- Change the entry at an address. -/
def setEntry (a : ℕ) (f : Entry → Entry) (s : Shared) : Shared :=
  { s with entry := Function.update s.entry a (f (s.entry a)) }

/-- At most `n` turns of the loop in `select_bce_for_evict`; the victim ends at the front. -/
def selectBce : ℕ → Shared → Shared
  | 0, s => s
  | n + 1, s =>
    match s.list with
    | [] => s
    | a :: l =>
      if (s.entry a).accessed then
        selectBce n { s.setEntry a fun b => { b with accessed := false } with list := l ++ [a] }
      else s

/-- The victim is written back or clean: it is removed and freed. -/
def remove (v : ℕ) (s : Shared) : Shared := { s with list := s.list.erase v }

/-- What `calloc` and the assignments after it leave at the address. -/
def newEntry (t sec : ℕ) : Entry :=
  { secNo := sec, buffer := Block.zero, accessed := false, dirty := false, readers := 0, entryLock := some t }

/-- The rest of `buffer_cache_check` under `buffersem`: allocate an entry and append it. Where
`calloc` fails a null pointer is returned, which a reader passes over and a writer does not survive. -/
def insert (t : ℕ) (new : Option ℕ) (sec : ℕ) (write : Bool) (outer : Option ℕ) (use : Use) (s : Shared) :
    Option Shared :=
  match new with
  | none =>
    some { s.setPc t (match outer with
      | some a => .got a use
      | none => .idle) with buffersem := none }
  | some a =>
    if a ∈ s.list then none
    else some { (s.setEntry a fun _ => newEntry t sec).setPc t (.loading a sec write outer use) with
      list := s.list ++ [a], buffersem := none }

/-- `buffer_cache_check` under `buffersem`, up to the first `disk_write`. -/
def lookup (t : ℕ) (new : Option ℕ) (sec : ℕ) (write : Bool) (outer : Option ℕ) (use : Use) (s : Shared) :
    Option Shared :=
  match s.list.find? fun a => (s.entry a).secNo == sec with
  | some a =>
    some { (s.setEntry a fun b => { b with accessed := true }).setPc t (.got (outer.getD a) use) with buffersem := none }
  | none =>
    if s.list.length < 64 then s.insert t new sec write outer use
    else
      let s' := selectBce s.list.length s
      match s'.list with
      | [] => none
      | v :: _ =>
        if (s'.entry v).dirty then some (s'.setPc t (.evicting v (s'.entry v).buffer sec write outer use))
        else (s'.remove v).insert t new sec write outer use

/-- One step of thread `t`. -/
def step (t : ℕ) (new : Option ℕ) (s : Shared) : Option Shared :=
  match s.pc t with
  | .idle => none
  | .check sec write outer use =>
    if s.buffersem = none then some { s.setPc t (.locked sec write outer use) with buffersem := some t } else none
  | .locked sec write outer use => s.lookup t new sec write outer use
  | .evicting v data sec write outer use =>
    ({ s with disk := s.disk.store (s.entry v).secNo data }.remove v).insert t new sec write outer use
  | .loading a sec write outer use =>
    if s.disk.InRange sec then
      let s' := s.setEntry a fun b => { b with buffer := s.disk.sectors sec, accessed := true, entryLock := none }
      some (s'.setPc t (if write then .check (sec + 1) false (some a) use else .got (outer.getD a) use))
    else none
  | .got a .reads =>
    if (s.entry a).entryLock = none then
      some ((s.setEntry a fun b => { b with readers := b.readers + 1 }).setPc t (.reading a))
    else none
  | .got a (.writes ofs n src) =>
    if (s.entry a).entryLock = none ∧ (s.entry a).readers = 0 then
      some ((s.setEntry a fun b => { b with buffer := b.buffer.write ofs n src, dirty := true }).setPc t .idle)
    else none
  | .reading a =>
    if (s.entry a).entryLock = none then
      some ((s.setEntry a fun b => { b with readers := b.readers - 1 }).setPc t .idle)
    else none
  | .flush => if s.buffersem = none then some { s.setPc t (.flushing s.list) with buffersem := some t } else none
  | .flushing [] => some { s.setPc t .idle with buffersem := none }
  | .flushing (a :: rest) =>
    some (if (s.entry a).dirty then s.setPc t (.flushCopy a (s.entry a).buffer rest) else s.setPc t (.flushing rest))
  | .flushCopy a data rest =>
    some (({ s with disk := s.disk.store (s.entry a).secNo data }.setEntry a fun b => { b with dirty := false }).setPc t
      (.flushing rest))

/-- The step an event names. -/
def next (e : Event) (s : Shared) : Option Shared :=
  match e with
  | .call t sec write use =>
    match s.pc t with
    | .idle => some (s.setPc t (.check sec write none use))
    | _ => none
  | .flush t =>
    match s.pc t with
    | .idle => some (s.setPc t .flush)
    | _ => none
  | .step t new => s.step t new

/-- `buffer_cache_init`: an empty cache in front of a disk. -/
def start (d : Disk) : Shared :=
  { disk := d, list := [], buffersem := none, pc := fun _ => .idle,
    entry := fun _ => ⟨0, Block.zero, false, false, 0, none⟩ }

end Shared

/-! ### Who uses what -/

namespace Pc

/-- The thread has loaded or obtained the entry at `a` and is not done with it. -/
def holds : Pc → ℕ → Prop
  | .check _ _ o _, a | .locked _ _ o _, a | .evicting _ _ _ _ o _, a => o = some a
  | .loading b _ _ o _, a => b = a ∨ o = some a
  | .got b _, a | .reading b, a => b = a
  | _, _ => False

/-- The thread is loading the entry. -/
def loads : Pc → ℕ → Prop
  | .loading b _ _ _ _, a => b = a
  | _, _ => False

/-- The thread is counted among the entry's readers. -/
def reads : Pc → ℕ → Prop
  | .reading b, a => b = a
  | _, _ => False

/-- The thread writes the entry back to evict it. -/
def evicts : Pc → ℕ → Prop
  | .evicting v _ _ _ _ _, a => v = a
  | _, _ => False

/-- The thread has found that `sec` is not in the cache. -/
def misses : Pc → ℕ → Prop
  | .evicting _ _ sec _ _ _, n => sec = n
  | _, _ => False

/-- The thread holds `buffersem`. -/
def locks : Pc → Prop
  | .locked _ _ _ _ | .evicting _ _ _ _ _ _ | .flushing _ | .flushCopy _ _ _ => True
  | _ => False

/-- The thread neither loads nor reads. -/
def Quiet : Pc → Prop
  | .loading _ _ _ _ _ | .reading _ => False
  | _ => True

/-- The thread neither loads, reads nor evicts. -/
def Plain : Pc → Prop
  | .loading _ _ _ _ _ | .reading _ | .evicting _ _ _ _ _ _ => False
  | _ => True

theorem Quiet.not_loads {p : Pc} (h : p.Quiet) (a : ℕ) : ¬ p.loads a := by
  cases p with
  | loading => exact h.elim
  | _ => exact id

theorem Quiet.not_reads {p : Pc} (h : p.Quiet) (a : ℕ) : ¬ p.reads a := by
  cases p with
  | reading => exact h.elim
  | _ => exact id

theorem Plain.quiet {p : Pc} (h : p.Plain) : p.Quiet := by
  cases p with
  | loading | reading => exact h.elim
  | _ => trivial

theorem Plain.not_evicts {p : Pc} (h : p.Plain) (v : ℕ) : ¬ p.evicts v := by
  cases p with
  | evicting => exact h.elim
  | _ => exact id

theorem Plain.not_misses {p : Pc} (h : p.Plain) (n : ℕ) : ¬ p.misses n := by
  cases p with
  | evicting => exact h.elim
  | _ => exact id

theorem holds_of_loads {p : Pc} {a : ℕ} (h : p.loads a) : p.holds a := by
  cases p with
  | loading b sec w o u => exact .inl h
  | _ => exact h.elim

theorem holds_of_reads {p : Pc} {a : ℕ} (h : p.reads a) : p.holds a := by
  cases p with
  | reading b => exact h
  | _ => exact h.elim

theorem locks_of_evicts {p : Pc} {a : ℕ} (h : p.evicts a) : p.locks := by
  cases p with
  | evicting => trivial
  | _ => exact h.elim

theorem locks_of_misses {p : Pc} {n : ℕ} (h : p.misses n) : p.locks := by
  cases p with
  | evicting => trivial
  | _ => exact h.elim

end Pc

namespace Shared

variable {s s' : Shared} {t : ℕ}

/-- Some thread has loaded or obtained the entry and is not done with it. -/
def InUse (s : Shared) (a : ℕ) : Prop := ∃ t, (s.pc t).holds a

/-- **An entry nobody uses**: it has no readers, its lock is free, and no thread has obtained it. -/
structure Unpinned (s : Shared) (a : ℕ) : Prop where
  readers : (s.entry a).readers = 0
  entryLock : (s.entry a).entryLock = none
  unused : ¬ s.InUse a

/-- **The cache and its threads fit together.** -/
structure Inv (s : Shared) : Prop where
  nodup : s.list.Nodup
  secs : ∀ a ∈ s.list, ∀ b ∈ s.list, (s.entry a).secNo = (s.entry b).secNo → a = b
  held : ∀ t a, (s.pc t).holds a → a ∈ s.list
  sem : ∀ t, (s.pc t).locks → s.buffersem = some t
  lock : ∀ a ∈ s.list, ∀ t, (s.entry a).entryLock = some t ↔ (s.pc t).loads a
  readers : ∀ a ∈ s.list, ((s.entry a).readers : ℕ∞) = {t | (s.pc t).reads a}.encard
  victim : ∀ t v, (s.pc t).evicts v → v ∈ s.list ∧ ¬ s.InUse v
  missing : ∀ t sec, (s.pc t).misses sec → ∀ a ∈ s.list, (s.entry a).secNo ≠ sec

theorem Inv.start (d : Disk) : Inv (start d) where
  nodup := List.nodup_nil
  secs _ h := by cases h
  held _ _ h := h.elim
  sem _ h := h.elim
  lock _ h := by cases h
  readers _ h := by cases h
  victim _ _ h := h.elim
  missing _ _ h := h.elim

/-- An entry of the list that no thread uses has no readers, and its lock is free. -/
theorem Inv.unpinned (h : Inv s) {a : ℕ} (ha : a ∈ s.list) (hu : ¬ s.InUse a) : Unpinned s a := by
  refine ⟨?_, ?_, hu⟩
  · have hempty : {t | (s.pc t).reads a} = ∅ := by
      ext t
      exact ⟨fun ht => hu ⟨t, Pc.holds_of_reads ht⟩, fun ht => ht.elim⟩
    have hr := h.readers a ha
    rw [hempty, Set.encard_empty] at hr
    exact_mod_cast hr
  · rw [Option.eq_none_iff_forall_ne_some]
    intro t ht
    exact hu ⟨t, Pc.holds_of_loads ((h.lock a ha t).1 ht)⟩

/-! ### The clock -/

/-- **Where the clock stops**: at the first entry whose `accessed` bit is clear, or at the first
entry of all when every bit is set. -/
def ClockStops (s : Shared) (a : ℕ) : Prop :=
  ∃ l₁ l₂, s.list = l₁ ++ a :: l₂ ∧
    ((s.entry a).accessed = false ∧ (∀ b ∈ l₁, (s.entry b).accessed = true) ∨
      l₁ = [] ∧ ∀ b ∈ s.list, (s.entry b).accessed = true)

/-- The entries and their `accessed` bits, in the order of the list. -/
def bits (s : Shared) : List (ℕ × Bool) := s.list.map fun a => (a, (s.entry a).accessed)

/-- Only `accessed` bits differ. -/
structure Cleared (s s' : Shared) : Prop where
  disk : s'.disk = s.disk
  buffersem : s'.buffersem = s.buffersem
  pc : s'.pc = s.pc
  list : s'.list.Perm s.list
  entry : ∀ a, { s'.entry a with accessed := (s.entry a).accessed } = s.entry a

theorem Cleared.refl (s : Shared) : Cleared s s := ⟨rfl, rfl, rfl, .refl _, fun _ => rfl⟩

theorem Cleared.trans {u : Shared} (h : Cleared s s') (h' : Cleared s' u) : Cleared s u :=
  ⟨h'.disk.trans h.disk, h'.buffersem.trans h.buffersem, h'.pc.trans h.pc, h'.list.trans h.list, fun a => by
    have h1 := h.entry a
    have h2 := h'.entry a
    rw [← h2] at h1
    exact h1⟩

theorem selectBce_cleared (n : ℕ) (s : Shared) : Cleared s (selectBce n s) := by
  induction n generalizing s with
  | zero => exact .refl s
  | succ n ih =>
    simp only [selectBce]
    split
    · exact .refl s
    · rename_i a l hl
      split_ifs
      · refine Cleared.trans ?_ (ih _)
        refine ⟨rfl, rfl, rfl, ?_, fun b => ?_⟩
        · rw [hl]
          exact List.perm_append_singleton a l
        · by_cases hb : b = a
          · subst hb
            simp [setEntry]
          · simp [setEntry, hb]
      · exact .refl s

/-- The loop is the clock over the `accessed` bits. -/
theorem bits_selectBce (n : ℕ) (s : Shared) (hn : s.list.Nodup) :
    (selectBce n s).bits = Clock.spin Prod.snd (fun x => (x.1, false)) n s.bits := by
  induction n generalizing s with
  | zero => rfl
  | succ n ih =>
    simp only [selectBce]
    split
    · rename_i hl
      simp [bits, hl, Clock.spin]
    · rename_i a l hl
      have hbits : s.bits = (a, (s.entry a).accessed) :: l.map fun b => (b, (s.entry b).accessed) := by
        simp [bits, hl]
      rw [hbits]
      rw [hl, List.nodup_cons] at hn
      simp only [Clock.spin]
      split_ifs with hacc
      · rw [ih _ (by
          simp only [List.nodup_append, List.nodup_singleton, hn.2, true_and]
          exact fun b hb c hc => by rw [List.mem_singleton.1 hc]; rintro rfl; exact hn.1 hb)]
        congr 1
        simp only [bits, List.map_append, List.map_cons, List.map_nil, setEntry, Function.update_self]
        congr 1
        refine List.map_congr_left fun b hb => ?_
        have hne : b ≠ a := fun hba => hn.1 (hba ▸ hb)
        rw [Function.update_of_ne hne]
      · exact hbits

theorem list_eq_bits (s : Shared) : s.list = s.bits.map Prod.fst := by
  simp [bits, Function.comp_def]

/-- The clock stops at the one entry that `ClockStops` describes. -/
theorem ClockStops.unique {a b : ℕ} (ha : ClockStops s a) (hb : ClockStops s b) : a = b := by
  obtain ⟨l₁, l₂, hl, hcase⟩ := ha
  obtain ⟨m₁, m₂, hm, hcase'⟩ := hb
  have hmem : ∀ {c x y}, s.list = x ++ c :: y → c ∈ s.list := fun h => by rw [h]; simp
  rcases hcase with ⟨hclear, hset⟩ | ⟨rfl, hall⟩
  · rcases hcase' with ⟨hclear', hset'⟩ | ⟨rfl, hall'⟩
    · -- neither is strictly before the other
      rw [hl] at hm
      rcases List.append_eq_append_iff.1 hm with ⟨r, hr, hr'⟩ | ⟨r, hr, hr'⟩
      · cases r with
        | nil => exact (List.cons.inj hr').1
        | cons c r =>
          have hac : a = c := (List.cons.inj hr').1
          have := hset' a (by rw [hr, hac]; simp)
          rw [hclear] at this
          cases this
      · cases r with
        | nil => exact (List.cons.inj hr').1.symm
        | cons c r =>
          have hbc : b = c := (List.cons.inj hr').1
          have := hset b (by rw [hr, hbc]; simp)
          rw [hclear'] at this
          cases this
    · have := hall' a (hmem hl)
      rw [hclear] at this
      cases this
  · rcases hcase' with ⟨hclear', -⟩ | ⟨rfl, -⟩
    · have := hall b (hmem hm)
      rw [hclear'] at this
      cases this
    · exact (List.cons.inj (hl.symm.trans hm)).1

/-- **`select_bce_for_evict` stops where the clock stops.** -/
theorem selectBce_stops (hn : s.list.Nodup) (hne : s.list ≠ []) :
    ∃ v l, (selectBce s.list.length s).list = v :: l ∧ ClockStops s v := by
  have hspin := bits_selectBce s.list.length s hn
  have hlen : s.list.length = s.bits.length := by simp [bits]
  rw [hlen, Clock.spin_length] at hspin
  have hlist := list_eq_bits (selectBce s.bits.length s)
  rw [hspin] at hlist
  rw [hlen]
  cases hdrop : s.bits.dropWhile Prod.snd with
  | nil =>
    -- every bit is set: the first entry is the victim
    have hall := List.dropWhile_eq_nil_iff.1 hdrop
    have hset : ∀ b ∈ s.list, (s.entry b).accessed = true := fun b hb =>
      hall (b, (s.entry b).accessed) (List.mem_map.2 ⟨b, hb, rfl⟩)
    cases hl : s.list with
    | nil => exact absurd hl hne
    | cons v l =>
      rw [hdrop, List.nil_append, List.takeWhile_eq_self_iff.2 hall] at hlist
      refine ⟨v, l, ?_, [], l, hl, .inr ⟨rfl, hset⟩⟩
      rw [hlist]
      simp [bits, hl, List.map_map, Function.comp_def]
  | cons x r =>
    -- the first clear bit is that of `x`
    have hsplit := List.takeWhile_append_dropWhile (p := Prod.snd) (l := s.bits)
    have hx : x.2 = false := by
      have := List.head_dropWhile_not (p := Prod.snd) (l := s.bits) (by rw [hdrop]; simp)
      simpa [hdrop] using this
    have hxs : x ∈ s.bits := by rw [← hsplit, hdrop]; simp
    obtain ⟨v, hv, hvx⟩ := List.mem_map.1 hxs
    have hv1 : x.1 = v := by rw [← hvx]
    have hv2 : (s.entry v).accessed = false := by rw [← hx, ← hvx]
    refine ⟨v, _, by rw [hlist, hdrop, List.cons_append, List.map_cons, hv1], ?_⟩
    refine ⟨(s.bits.takeWhile Prod.snd).map Prod.fst, r.map Prod.fst, ?_, .inl ⟨hv2, fun b hb => ?_⟩⟩
    · rw [list_eq_bits, ← hv1, ← List.map_cons, ← hdrop, ← List.map_append, hsplit]
    · obtain ⟨y, hy, rfl⟩ := List.mem_map.1 hb
      have hset := List.mem_takeWhile_imp hy
      obtain ⟨c, -, hc⟩ := List.mem_map.1 ((List.takeWhile_sublist _).subset hy)
      rw [← hc] at hset ⊢
      exact hset

/-! ### What keeps the invariant -/

/-- Thread `t` is about to evict an entry: its sector is not in the cache, which is full. -/
def Evicts (s : Shared) (t : ℕ) : Prop :=
  ∃ sec write outer use, s.pc t = .locked sec write outer use ∧ (∀ a ∈ s.list, (s.entry a).secNo ≠ sec) ∧
    64 ≤ s.list.length

/-- **The clock stops at an entry that no thread uses.** -/
def Spared (s : Shared) : Prop := ∀ a, s.ClockStops a → ¬ s.InUse a

/-- Every eviction spares the entries in use. -/
def Sparing (e : Event) (s : Shared) : Prop := ∀ t new, e = .step t new → s.Evicts t → s.Spared

section Keep

/-- The entries have kept what the threads rely on. -/
structure Same (b b' : Entry) : Prop where
  secNo : b'.secNo = b.secNo
  readers : b'.readers = b.readers
  entryLock : b'.entryLock = b.entryLock

theorem Same.refl (b : Entry) : Same b b := ⟨rfl, rfl, rfl⟩

theorem Cleared.same (h : Cleared s s') (a : ℕ) : Same (s.entry a) (s'.entry a) :=
  ⟨(congrArg Entry.secNo (h.entry a)).symm ▸ rfl, (congrArg Entry.readers (h.entry a)).symm ▸ rfl,
    (congrArg Entry.entryLock (h.entry a)).symm ▸ rfl⟩

theorem setEntry_same {a : ℕ} {f : Entry → Entry} (hf : ∀ b, Same b (f b)) (b : ℕ) :
    Same (s.entry b) ((s.setEntry a f).entry b) := by
  by_cases hb : b = a
  · subst hb
    simp only [setEntry, Function.update_self]
    exact hf _
  · simp only [setEntry, Function.update_of_ne hb]
    exact .refl _

/-- Nothing that matters to the threads changes; the list may be in another order. -/
theorem Inv.congr (h : Inv s) (hl : s'.list.Perm s.list) (he : ∀ a ∈ s.list, Same (s.entry a) (s'.entry a))
    (hpc : s'.pc = s.pc) (hb : s'.buffersem = s.buffersem) : Inv s' := by
  have hmem : ∀ a, a ∈ s'.list ↔ a ∈ s.list := fun a => hl.mem_iff
  refine ⟨hl.nodup_iff.2 h.nodup, fun a ha b hb' hab => ?_, fun t a ht => ?_, fun t ht => ?_, fun a ha t => ?_,
    fun a ha => ?_, fun t v ht => ?_, fun t sec ht a ha => ?_⟩
  · rw [hmem] at ha hb'
    rw [(he a ha).secNo, (he b hb').secNo] at hab
    exact h.secs a ha b hb' hab
  · rw [hpc] at ht
    exact (hmem a).2 (h.held t a ht)
  · rw [hpc] at ht
    exact hb.trans (h.sem t ht)
  · rw [hmem] at ha
    rw [(he a ha).entryLock, hpc]
    exact h.lock a ha t
  · rw [hmem] at ha
    rw [(he a ha).readers, hpc]
    exact h.readers a ha
  · rw [hpc] at ht
    obtain ⟨hv, hu⟩ := h.victim t v ht
    exact ⟨(hmem v).2 hv, fun ⟨u, hw⟩ => hu ⟨u, by rwa [hpc] at hw⟩⟩
  · rw [hpc] at ht
    rw [hmem] at ha
    rw [(he a ha).secNo]
    exact h.missing t sec ht a ha

/-- Only one thread holds `buffersem`. -/
theorem Inv.others (h : Inv s) (ht : (s.pc t).locks) {u : ℕ} (hu : u ≠ t) : ¬ (s.pc u).locks := by
  intro hl
  have := (h.sem u hl).symm.trans (h.sem t ht)
  exact hu (Option.some.inj this)

/-- An entry in use is not being evicted. -/
theorem Inv.not_evicts (h : Inv s) {a : ℕ} (ha : (s.pc t).holds a) (u : ℕ) : ¬ (s.pc u).evicts a := fun hu =>
  (h.victim u a hu).2 ⟨t, ha⟩

/-- What a thread does that leaves the list alone and does not begin an eviction. -/
structure Moves (t : ℕ) (s s' : Shared) : Prop where
  list : s'.list = s.list
  secNo : ∀ a ∈ s.list, (s'.entry a).secNo = (s.entry a).secNo
  pc : ∀ u, u ≠ t → s'.pc u = s.pc u
  held : ∀ a, (s'.pc t).holds a → a ∈ s.list ∧ ∀ u, u ≠ t → ¬ (s.pc u).evicts a
  evicts : ∀ v, ¬ (s'.pc t).evicts v
  misses : ∀ n, ¬ (s'.pc t).misses n
  sem : ∀ u, u ≠ t → (s.pc u).locks → s'.buffersem = some u
  semSelf : (s'.pc t).locks → s'.buffersem = some t

/-- **A thread moves on**, the locks and the counts of readers following. -/
theorem Inv.moves (h : Inv s) (hm : Moves t s s')
    (hlock : ∀ a ∈ s.list, ∀ u, (s'.entry a).entryLock = some u ↔ (s'.pc u).loads a)
    (hread : ∀ a ∈ s.list, ((s'.entry a).readers : ℕ∞) = {u | (s'.pc u).reads a}.encard) : Inv s' := by
  have hl := hm.list
  refine ⟨hl ▸ h.nodup, fun a ha b hb hab => ?_, fun u a hu => ?_, fun u hu => ?_, fun a ha => hlock a (hl ▸ ha),
    fun a ha => hread a (hl ▸ ha), fun u v hu => ?_, fun u n hu a ha => ?_⟩
  · rw [hl] at ha hb
    rw [hm.secNo a ha, hm.secNo b hb] at hab
    exact h.secs a ha b hb hab
  · rw [hl]
    by_cases hut : u = t
    · subst hut
      exact (hm.held a hu).1
    · exact h.held u a (hm.pc u hut ▸ hu)
  · by_cases hut : u = t
    · subst hut
      exact hm.semSelf hu
    · exact hm.sem u hut (hm.pc u hut ▸ hu)
  · by_cases hut : u = t
    · subst hut
      exact absurd hu (hm.evicts v)
    · rw [hm.pc u hut] at hu
      obtain ⟨hv, hno⟩ := h.victim u v hu
      refine ⟨hl ▸ hv, ?_⟩
      rintro ⟨w, hw⟩
      by_cases hwt : w = t
      · subst hwt
        exact (hm.held v hw).2 u hut hu
      · exact hno ⟨w, hm.pc w hwt ▸ hw⟩
  · rw [hl] at ha
    by_cases hut : u = t
    · subst hut
      exact absurd hu (hm.misses n)
    · rw [hm.secNo a ha]
      exact h.missing u n (hm.pc u hut ▸ hu) a ha

/-- The locks follow when the thread loads nothing before or after. -/
theorem Inv.lock_of_moves (h : Inv s) (hm : Moves t s s') (hload : ∀ a, ¬ (s.pc t).loads a ∧ ¬ (s'.pc t).loads a)
    {a : ℕ} (ha : a ∈ s.list) (he : (s'.entry a).entryLock = (s.entry a).entryLock) (u : ℕ) :
    (s'.entry a).entryLock = some u ↔ (s'.pc u).loads a := by
  rw [he]
  refine (h.lock a ha u).trans ?_
  by_cases hut : u = t
  · subst hut
    exact ⟨fun hl => absurd hl (hload a).1, fun hl => absurd hl (hload a).2⟩
  · rw [hm.pc u hut]

/-- The readers of an entry that the thread reads neither before nor after. -/
theorem Inv.readers_of_moves (h : Inv s) (hm : Moves t s s') {a : ℕ} (hread : ¬ (s.pc t).reads a ∧ ¬ (s'.pc t).reads a)
    (ha : a ∈ s.list) (he : (s'.entry a).readers = (s.entry a).readers) :
    ((s'.entry a).readers : ℕ∞) = {u | (s'.pc u).reads a}.encard := by
  rw [he, h.readers a ha]
  congr 1
  ext u
  by_cases hut : u = t
  · subst hut
    exact ⟨fun hl => absurd hl hread.1, fun hl => absurd hl hread.2⟩
  · change (s.pc u).reads a ↔ (s'.pc u).reads a
    rw [hm.pc u hut]

/-- A thread moves on that neither loads nor reads, before or after. -/
theorem Inv.moves_plain (h : Inv s) (hm : Moves t s s') (hload : ∀ a, ¬ (s.pc t).loads a ∧ ¬ (s'.pc t).loads a)
    (hread : ∀ a, ¬ (s.pc t).reads a ∧ ¬ (s'.pc t).reads a) (he : ∀ a ∈ s.list, Same (s.entry a) (s'.entry a)) :
    Inv s' :=
  h.moves hm (fun a ha u => h.lock_of_moves hm hload ha (he a ha).entryLock u) fun a ha =>
    h.readers_of_moves hm (hread a) ha (he a ha).readers

@[simp] theorem setPc_self (t : ℕ) (p : Pc) (s : Shared) : (s.setPc t p).pc t = p := Function.update_self _ _ _

theorem setPc_of_ne {u : ℕ} (p : Pc) (s : Shared) (hu : u ≠ t) : (s.setPc t p).pc u = s.pc u :=
  Function.update_of_ne hu _ _

@[simp] theorem setEntry_self (a : ℕ) (f : Entry → Entry) (s : Shared) : (s.setEntry a f).entry a = f (s.entry a) :=
  Function.update_self _ _ _

theorem setEntry_of_ne {a b : ℕ} (f : Entry → Entry) (s : Shared) (hb : b ≠ a) : (s.setEntry a f).entry b = s.entry b :=
  Function.update_of_ne hb _ _

@[simp] theorem setPc_entry (t : ℕ) (p : Pc) (s : Shared) : (s.setPc t p).entry = s.entry := rfl

/-- A field that the change leaves alone. -/
theorem setEntry_field {γ : Type} (g : Entry → γ) {a : ℕ} {f : Entry → Entry} (hf : ∀ e, g (f e) = g e) (b : ℕ) :
    g ((s.setEntry a f).entry b) = g (s.entry b) := by
  by_cases hb : b = a
  · subst hb
    rw [setEntry_self, hf]
  · rw [setEntry_of_ne f s hb]

theorem setEntry_id (a : ℕ) (s : Shared) : s.setEntry a id = s := by
  simp [setEntry]

/-- One entry changes, but not its sector, and the thread goes to `p`. -/
theorem Moves.of_set (a : ℕ) (f : Entry → Entry) (p : Pc) (b : Option ℕ) (hf : ∀ e, (f e).secNo = e.secNo)
    (hheld : ∀ c, p.holds c → c ∈ s.list ∧ ∀ u, u ≠ t → ¬ (s.pc u).evicts c) (hev : ∀ v, ¬ p.evicts v)
    (hmiss : ∀ n, ¬ p.misses n) (hsem : ∀ u, u ≠ t → (s.pc u).locks → b = some u) (hself : p.locks → b = some t) :
    Moves t s { (s.setEntry a f).setPc t p with buffersem := b } := by
  have hp : ({ (s.setEntry a f).setPc t p with buffersem := b } : Shared).pc t = p := setPc_self _ _ _
  refine ⟨rfl, fun c _ => ?_, fun u hu => setPc_of_ne p (s.setEntry a f) hu, ?_, ?_, ?_, hsem, ?_⟩
  · exact setEntry_field Entry.secNo hf c
  all_goals rw [hp]
  · exact hheld
  · exact hev
  · exact hmiss
  · exact hself

theorem Moves.of_setPc (p : Pc) (b : Option ℕ)
    (hheld : ∀ c, p.holds c → c ∈ s.list ∧ ∀ u, u ≠ t → ¬ (s.pc u).evicts c) (hev : ∀ v, ¬ p.evicts v)
    (hmiss : ∀ n, ¬ p.misses n) (hsem : ∀ u, u ≠ t → (s.pc u).locks → b = some u) (hself : p.locks → b = some t) :
    Moves t s { s.setPc t p with buffersem := b } := by
  have h := Moves.of_set 0 id p b (fun _ => rfl) hheld hev hmiss hsem hself
  rwa [setEntry_id] at h

/-- **A thread goes to a plain place** from a quiet one, the entries staying as they are. -/
theorem Inv.goes {p : Pc} {b : Option ℕ} (h : Inv s) (hq : (s.pc t).Quiet) (hp : p.Plain)
    (hheld : ∀ c, p.holds c → c ∈ s.list ∧ ∀ u, u ≠ t → ¬ (s.pc u).evicts c)
    (hsem : ∀ u, u ≠ t → (s.pc u).locks → b = some u) (hself : p.locks → b = some t) :
    Inv { s.setPc t p with buffersem := b } := by
  have hm : Moves t s { s.setPc t p with buffersem := b } :=
    Moves.of_setPc p b hheld hp.not_evicts hp.not_misses hsem hself
  have ht : ({ s.setPc t p with buffersem := b } : Shared).pc t = p := setPc_self _ _ _
  refine h.moves_plain hm (fun a => ⟨hq.not_loads a, ?_⟩) (fun a => ⟨hq.not_reads a, ?_⟩) fun _ _ => .refl _
  · rw [ht]
    exact hp.quiet.not_loads a
  · rw [ht]
    exact hp.quiet.not_reads a

/-- What a thread goes on holding may be held. -/
theorem Inv.mayHold (h : Inv s) {a : ℕ} (ha : (s.pc t).holds a) : a ∈ s.list ∧ ∀ u, u ≠ t → ¬ (s.pc u).evicts a :=
  ⟨h.held t a ha, fun u _ => h.not_evicts ha u⟩

/-- One entry changes, and a thread that is not to hold `buffersem` goes to `p`. -/
theorem Inv.moves_set (h : Inv s) (a : ℕ) (f : Entry → Entry) (p : Pc) (hf : ∀ e, (f e).secNo = e.secNo)
    (hheld : ∀ c, p.holds c → (s.pc t).holds c) (hev : ∀ v, ¬ p.evicts v) (hmiss : ∀ n, ¬ p.misses n) (hp : ¬ p.locks) :
    Moves t s ((s.setEntry a f).setPc t p) :=
  Moves.of_set a f p s.buffersem hf (fun c hc => h.mayHold (hheld c hc)) hev hmiss (fun u _ hu => h.sem u hu)
    fun hl => absurd hl hp

/-- A thread goes on with what it holds. -/
theorem Inv.goOn (p : Pc) (h : Inv s) (hq : (s.pc t).Quiet) (hp : p.Plain) (hheld : ∀ c, p.holds c → (s.pc t).holds c)
    (hl : p.locks → (s.pc t).locks) : Inv (s.setPc t p) :=
  h.goes (b := s.buffersem) hq hp (fun c hc => h.mayHold (hheld c hc)) (fun u _ hlu => h.sem u hlu) fun h' => h.sem t (hl h')

/-- A reader is counted. -/
theorem Inv.pin {a : ℕ} (h : Inv s) (hp : s.pc t = .got a .reads) :
    Inv ((s.setEntry a fun b => { b with readers := b.readers + 1 }).setPc t (.reading a)) := by
  have hm : Moves t s ((s.setEntry a fun b => { b with readers := b.readers + 1 }).setPc t (.reading a)) :=
    h.moves_set a _ _ (fun _ => rfl) (fun c hc => by rw [hp]; exact hc) (fun _ => id) (fun _ => id) id
  refine h.moves hm (fun b hb u => h.lock_of_moves hm (fun c => ⟨by rw [hp]; exact id, by rw [setPc_self]; exact id⟩) hb ?_ u)
    fun b hb => ?_
  · rw [setPc_entry]
    refine setEntry_field Entry.entryLock (fun _ => ?_) b
    rfl
  · by_cases hba : b = a
    · subst hba
      have hset : {u | (((s.setEntry b fun c => { c with readers := c.readers + 1 }).setPc t (.reading b)).pc u).reads b} =
          Insert.insert t {u | (s.pc u).reads b} := by
        ext u
        by_cases hut : u = t
        · subst hut
          simp [Pc.reads]
        · simp [setPc_of_ne _ _ hut, hut]
          rfl
      rw [hset, Set.encard_insert_of_notMem (by simp [hp, Pc.reads]), ← h.readers b hb]
      change (((s.setEntry b fun c => { c with readers := c.readers + 1 }).entry b).readers : ℕ∞) = _
      rw [setEntry_self]
      simp
    · refine h.readers_of_moves hm ⟨by rw [hp]; exact id, ?_⟩ hb (by rw [setPc_entry, setEntry_of_ne _ s hba])
      rw [setPc_self]
      exact fun hr => hba (show a = b from hr).symm

/-- A reader is done. -/
theorem Inv.unpin {a : ℕ} (h : Inv s) (hp : s.pc t = .reading a) :
    Inv ((s.setEntry a fun b => { b with readers := b.readers - 1 }).setPc t .idle) := by
  have hm : Moves t s ((s.setEntry a fun b => { b with readers := b.readers - 1 }).setPc t .idle) :=
    h.moves_set a _ _ (fun _ => rfl) (fun _ => False.elim) (fun _ => id) (fun _ => id) id
  refine h.moves hm (fun b hb u => h.lock_of_moves hm (fun c => ⟨by rw [hp]; exact id, by rw [setPc_self]; exact id⟩) hb ?_ u)
    fun b hb => ?_
  · rw [setPc_entry]
    refine setEntry_field Entry.entryLock (fun _ => ?_) b
    rfl
  · by_cases hba : b = a
    · subst hba
      have hset : {u | (s.pc u).reads b} = Insert.insert t
          {u | (((s.setEntry b fun c => { c with readers := c.readers - 1 }).setPc t .idle).pc u).reads b} := by
        ext u
        by_cases hut : u = t
        · subst hut
          simp [hp, Pc.reads]
        · simp [setPc_of_ne _ _ hut, hut]
          rfl
      have hr := h.readers b hb
      rw [hset, Set.encard_insert_of_notMem (by simp [Pc.reads])] at hr
      change (((s.setEntry b fun c => { c with readers := c.readers - 1 }).entry b).readers : ℕ∞) = _
      rw [setEntry_self]
      -- the set of the others is finite, and one smaller
      have hne : {u | (((s.setEntry b fun c => { c with readers := c.readers - 1 }).setPc t .idle).pc u).reads b}.encard ≠ ⊤ := by
        intro htop
        rw [htop] at hr
        exact ENat.natCast_ne_top _ hr
      obtain ⟨n, hn⟩ := ENat.ne_top_iff_exists.1 hne
      rw [← hn] at hr ⊢
      have hr' : (s.entry b).readers = n + 1 := by exact_mod_cast hr
      simp [hr']
    · refine h.readers_of_moves hm ⟨?_, by rw [setPc_self]; exact id⟩ hb (by rw [setPc_entry, setEntry_of_ne _ s hba])
      rw [hp]
      exact fun hr => hba (show a = b from hr).symm

/-- An entry is loaded: its lock is free again. -/
theorem Inv.loaded {a sec : ℕ} {write : Bool} {outer : Option ℕ} {use : Use} {f : Entry → Entry} {p : Pc} (h : Inv s)
    (hp : s.pc t = .loading a sec write outer use) (hf : ∀ e, (f e).secNo = e.secNo ∧ (f e).readers = e.readers)
    (hlock : (f (s.entry a)).entryLock = none) (hheld : ∀ c, p.holds c → (s.pc t).holds c) (hload : ∀ c, ¬ p.loads c)
    (hread : ∀ c, ¬ p.reads c) (hev : ∀ v, ¬ p.evicts v) (hmiss : ∀ n, ¬ p.misses n) (hl : ¬ p.locks) :
    Inv ((s.setEntry a f).setPc t p) := by
  have hm : Moves t s ((s.setEntry a f).setPc t p) := h.moves_set a f p (fun e => (hf e).1) hheld hev hmiss hl
  have ha : a ∈ s.list := h.held t a (by rw [hp]; exact .inl rfl)
  refine h.moves hm (fun b hb u => ?_) fun b hb => ?_
  · rw [setPc_entry]
    by_cases hba : b = a
    · subst hba
      rw [setEntry_self, hlock]
      refine ⟨fun hn => (by cases hn), fun hu => ?_⟩
      -- nobody else loads the entry
      by_cases hut : u = t
      · subst hut
        rw [setPc_self] at hu
        exact absurd hu (hload b)
      · rw [hm.pc u hut] at hu
        have ht : (s.pc t).loads b := by rw [hp]; rfl
        have := ((h.lock b hb u).2 hu).symm.trans ((h.lock b hb t).2 ht)
        exact absurd (Option.some.inj this) hut
    · rw [setEntry_of_ne f s hba]
      refine (h.lock b hb u).trans ?_
      by_cases hut : u = t
      · subst hut
        rw [setPc_self, hp]
        exact ⟨fun hl => absurd (show a = b from hl).symm hba, fun hl => absurd hl (hload b)⟩
      · rw [hm.pc u hut]
  · refine h.readers_of_moves hm ⟨by rw [hp]; exact id, by rw [setPc_self]; exact hread b⟩ hb ?_
    rw [setPc_entry]
    exact setEntry_field Entry.readers (fun e => (hf e).2) b

/-- An entry that no thread uses or evicts is freed. -/
theorem Inv.remove {v : ℕ} (h : Inv s) (hu : ¬ s.InUse v) (hev : ∀ u, ¬ (s.pc u).evicts v) : Inv (s.remove v) := by
  have hmem : ∀ a, a ∈ s.list.erase v → a ∈ s.list := fun a ha => List.mem_of_mem_erase ha
  refine ⟨h.nodup.erase v, fun a ha b hb hab => h.secs a (hmem a ha) b (hmem b hb) hab, fun u a hh => ?_, h.sem,
    fun a ha => h.lock a (hmem a ha), fun a ha => h.readers a (hmem a ha), fun u w hw => ?_,
    fun u n hn a ha => h.missing u n hn a (hmem a ha)⟩
  · have hav : a ≠ v := by
      rintro rfl
      exact hu ⟨u, hh⟩
    exact (List.mem_erase_of_ne hav).2 (h.held u a hh)
  · have hwv : w ≠ v := by
      rintro rfl
      exact hev u hw
    obtain ⟨hw', hno⟩ := h.victim u w hw
    exact ⟨(List.mem_erase_of_ne hwv).2 hw', hno⟩

theorem Inv.append {a sec : ℕ} {write : Bool} {outer : Option ℕ} {use : Use} (h : Inv s) (ha : a ∉ s.list)
    (hl : (s.pc t).locks) (hq : (s.pc t).Quiet) (houter : ∀ c, outer = some c → (s.pc t).holds c)
    (hmiss : ∀ a ∈ s.list, (s.entry a).secNo ≠ sec) :
    Inv { (s.setEntry a fun _ => newEntry t sec).setPc t (.loading a sec write outer use) with
      list := s.list ++ [a], buffersem := none } := by
  have hothers : ∀ u, u ≠ t → ¬ (s.pc u).locks := fun u hu => h.others hl hu
  -- the new entry, the old ones, the thread and the other threads
  have hnew : (s.setEntry a fun _ => newEntry t sec).entry a = newEntry t sec := setEntry_self _ _ _
  have hold : ∀ b ∈ s.list, (s.setEntry a fun _ => newEntry t sec).entry b = s.entry b := fun b hb =>
    setEntry_of_ne _ s (by rintro rfl; exact ha hb)
  have hself : ((s.setEntry a fun _ => newEntry t sec).setPc t (.loading a sec write outer use)).pc t =
      .loading a sec write outer use := setPc_self _ _ _
  have hpc : ∀ u, u ≠ t → ((s.setEntry a fun _ => newEntry t sec).setPc t (.loading a sec write outer use)).pc u = s.pc u :=
    fun u hu => setPc_of_ne _ _ hu
  have hunused : ∀ u, ¬ (s.pc u).holds a := fun u hu => ha (h.held u a hu)
  refine ⟨?_, fun b hb c hc hbc => ?_, fun u b hu => ?_, fun u hu => ?_, fun b hb u => ?_, fun b hb => ?_,
    fun u v hu => ?_, fun u n hu => ?_⟩
  · refine List.nodup_append.2 ⟨h.nodup, List.nodup_singleton a, fun b hb c hc => ?_⟩
    rw [List.mem_singleton.1 hc]
    rintro rfl
    exact ha hb
  · -- no old entry is for the new sector
    have hne : ∀ d ∈ s.list, ((s.setEntry a fun _ => newEntry t sec).entry d).secNo ≠
        ((s.setEntry a fun _ => newEntry t sec).entry a).secNo := fun d hd => by
      rw [hold d hd, hnew]
      exact hmiss d hd
    rcases List.mem_append.1 hb with hb | hb <;> rcases List.mem_append.1 hc with hc | hc
    · refine h.secs b hb c hc ?_
      have hbc' : ((s.setEntry a fun _ => newEntry t sec).entry b).secNo =
        ((s.setEntry a fun _ => newEntry t sec).entry c).secNo := hbc
      rwa [hold b hb, hold c hc] at hbc'
    · rw [List.mem_singleton.1 hc] at hbc
      exact absurd hbc (hne b hb)
    · rw [List.mem_singleton.1 hb] at hbc
      exact absurd hbc.symm (hne c hc)
    · rw [List.mem_singleton.1 hb, List.mem_singleton.1 hc]
  · refine List.mem_append.2 ?_
    by_cases hut : u = t
    · subst hut
      have hu' : (Pc.loading a sec write outer use).holds b := hself ▸ hu
      rcases hu' with rfl | ho
      · exact .inr List.mem_cons_self
      · exact .inl (h.held u b (houter b ho))
    · exact .inl (h.held u b (hpc u hut ▸ hu))
  · by_cases hut : u = t
    · subst hut
      exact (hself ▸ hu : (Pc.loading a sec write outer use).locks).elim
    · exact absurd (hpc u hut ▸ hu) (hothers u hut)
  · change ((s.setEntry a fun _ => newEntry t sec).entry b).entryLock = some u ↔ _
    rcases List.mem_append.1 hb with hmem | hb
    · rw [hold b hmem]
      refine (h.lock b hmem u).trans ?_
      by_cases hut : u = t
      · subst hut
        refine ⟨fun hlo => absurd hlo (hq.not_loads b), fun hlo => ?_⟩
        obtain rfl : a = b := (hself ▸ hlo : (Pc.loading a sec write outer use).loads b)
        exact absurd hmem ha
      · exact iff_of_eq (congrArg (fun q => Pc.loads q b) (hpc u hut).symm)
    · rw [List.mem_singleton.1 hb, hnew]
      by_cases hut : u = t
      · subst hut
        exact ⟨fun _ => (hself.symm ▸ rfl : Pc.loads _ a), fun _ => rfl⟩
      · refine ⟨fun hlo => absurd (Option.some.inj hlo).symm hut, fun hlo => ?_⟩
        exact absurd (Pc.holds_of_loads (hpc u hut ▸ hlo)) (hunused u)
  · have hreads : ∀ c u, (((s.setEntry a fun _ => newEntry t sec).setPc t (.loading a sec write outer use)).pc u).reads c ↔
        (s.pc u).reads c := by
      intro c u
      by_cases hut : u = t
      · subst hut
        rw [hself]
        exact ⟨False.elim, fun hr => absurd hr (hq.not_reads c)⟩
      · rw [hpc u hut]
    change ((((s.setEntry a fun _ => newEntry t sec).entry b).readers : ℕ) : ℕ∞) = _
    rcases List.mem_append.1 hb with hb | hb
    · rw [hold b hb, h.readers b hb]
      exact congrArg Set.encard (Set.ext fun u => (hreads b u).symm)
    · rw [List.mem_singleton.1 hb, hnew]
      refine Eq.symm (Set.encard_eq_zero.2 (Set.eq_empty_iff_forall_notMem.2 fun u hu => ?_))
      exact hunused u (Pc.holds_of_reads ((hreads a u).1 hu))
  · by_cases hut : u = t
    · subst hut
      exact (hself ▸ hu : (Pc.loading a sec write outer use).evicts v).elim
    · exact absurd (Pc.locks_of_evicts (hpc u hut ▸ hu)) (hothers u hut)
  · by_cases hut : u = t
    · subst hut
      exact (hself ▸ hu : (Pc.loading a sec write outer use).misses n).elim
    · exact absurd (Pc.locks_of_misses (hpc u hut ▸ hu)) (hothers u hut)

/-- A new entry is appended, for a sector that is not in the cache. -/
theorem Inv.insert {new : Option ℕ} {sec : ℕ} {write : Bool} {outer : Option ℕ} {use : Use} (h : Inv s)
    (hl : (s.pc t).locks) (hq : (s.pc t).Quiet) (houter : ∀ c, outer = some c → (s.pc t).holds c)
    (hmiss : ∀ a ∈ s.list, (s.entry a).secNo ≠ sec) (hn : s.insert t new sec write outer use = some s') : Inv s' := by
  have hothers : ∀ u, u ≠ t → (s.pc u).locks → (none : Option ℕ) = some u := fun u hu hlu =>
    absurd hlu (h.others hl hu)
  unfold Shared.insert at hn
  split at hn
  · -- `calloc` failed
    cases hn
    cases outer with
    | none => exact h.goes hq trivial (fun _ => False.elim) hothers False.elim
    | some b =>
      refine h.goes hq trivial (fun c hc => ?_) hothers False.elim
      obtain rfl : b = c := hc
      exact h.mayHold (houter b rfl)
  · split_ifs at hn with ha
    cases hn
    exact h.append ha hl hq houter hmiss

/-- Before an insertion, where the thread is does not matter. -/
theorem insert_setPc (p : Pc) (new : Option ℕ) (sec : ℕ) (write : Bool) (outer : Option ℕ) (use : Use) :
    (s.setPc t p).insert t new sec write outer use = s.insert t new sec write outer use := by
  unfold Shared.insert
  cases new with
  | none => cases outer <;> simp [setPc]
  | some a => simp [setPc, setEntry]

/-- An entry changes in what the threads do not depend on. -/
theorem Inv.setEntry {a : ℕ} {f : Entry → Entry} (h : Inv s) (hf : ∀ e, Same e (f e)) : Inv (s.setEntry a f) :=
  h.congr (.refl _) (fun b _ => setEntry_same hf b) rfl rfl

/-- The write-back of a victim begins. -/
theorem Inv.beginEvict {v sec : ℕ} {data : Block} {write : Bool} {outer : Option ℕ} {use : Use} (h : Inv s)
    (hp : s.pc t = .locked sec write outer use) (hv : v ∈ s.list) (hu : ¬ s.InUse v)
    (hmiss : ∀ a ∈ s.list, (s.entry a).secNo ≠ sec) : Inv (s.setPc t (.evicting v data sec write outer use)) := by
  have hself : (s.setPc t (.evicting v data sec write outer use)).pc t = .evicting v data sec write outer use :=
    setPc_self _ _ _
  have hpc : ∀ u, u ≠ t → (s.setPc t (.evicting v data sec write outer use)).pc u = s.pc u := fun u hut =>
    setPc_of_ne _ _ hut
  have hl : (s.pc t).locks := by rw [hp]; trivial
  -- what the threads hold, load and read is the same
  have hholds : ∀ u b, ((s.setPc t (.evicting v data sec write outer use)).pc u).holds b ↔ (s.pc u).holds b := by
    intro u b
    by_cases hut : u = t
    · subst hut
      rw [hself, hp]
      exact Iff.rfl
    · rw [hpc u hut]
  refine ⟨h.nodup, h.secs, fun u b hb => h.held u b ((hholds u b).1 hb), fun u hu' => ?_, fun b hb u => ?_, fun b hb => ?_,
    fun u w hw => ?_, fun u n hn' => ?_⟩
  · by_cases hut : u = t
    · subst hut
      exact h.sem u hl
    · rw [hpc u hut] at hu'
      exact h.sem u hu'
  · refine (h.lock b hb u).trans ?_
    by_cases hut : u = t
    · subst hut
      rw [hself, hp]
      exact Iff.rfl
    · rw [hpc u hut]
  · refine (h.readers b hb).trans (congrArg Set.encard (Set.ext fun u => ?_))
    change (s.pc u).reads b ↔ ((s.setPc t _).pc u).reads b
    by_cases hut : u = t
    · subst hut
      rw [hself, hp]
      exact Iff.rfl
    · rw [hpc u hut]
  · by_cases hut : u = t
    · subst hut
      rw [hself] at hw
      obtain rfl : v = w := hw
      exact ⟨hv, fun ⟨x, hx⟩ => hu ⟨x, (hholds x v).1 hx⟩⟩
    · rw [hpc u hut] at hw
      exact absurd (Pc.locks_of_evicts hw) (h.others hl hut)
  · by_cases hut : u = t
    · subst hut
      rw [hself] at hn'
      obtain rfl : sec = n := hn'
      exact hmiss
    · rw [hpc u hut] at hn'
      exact absurd (Pc.locks_of_misses hn') (h.others hl hut)

/-- What an eviction starts from: the clock has stopped at an entry that no thread uses. -/
theorem Inv.selectBce (h : Inv s) (hs : s.Evicts t → s.Spared) (he : s.Evicts t) :
    ∃ v l, (selectBce s.list.length s).list = v :: l ∧ s.ClockStops v ∧ ¬ s.InUse v ∧ Inv (selectBce s.list.length s) := by
  have hc := selectBce_cleared s.list.length s
  have hne : s.list ≠ [] := by
    obtain ⟨_, _, _, _, _, _, hlen⟩ := he
    rintro hnil
    rw [hnil] at hlen
    exact absurd hlen (by decide)
  obtain ⟨v, l, hl, hstop⟩ := selectBce_stops h.nodup hne
  exact ⟨v, l, hl, hstop, hs he v hstop, h.congr hc.list (fun a _ => hc.same a) hc.pc hc.buffersem⟩

/-- **The search of the list** keeps the invariant, if an eviction spares the entries in use. -/
theorem Inv.lookup {new : Option ℕ} {sec : ℕ} {write : Bool} {outer : Option ℕ} {use : Use} (h : Inv s)
    (hp : s.pc t = .locked sec write outer use) (hs : s.Evicts t → s.Spared)
    (hn : s.lookup t new sec write outer use = some s') : Inv s' := by
  have hl : (s.pc t).locks := by rw [hp]; trivial
  have hq : (s.pc t).Quiet := by rw [hp]; trivial
  have houter : ∀ c, outer = some c → (s.pc t).holds c := fun c hc => by rw [hp]; exact hc
  unfold Shared.lookup at hn
  split at hn
  · -- the sector is in the cache
    rename_i a ha
    cases hn
    have hset : Inv (s.setEntry a fun b => { b with accessed := true }) := h.setEntry fun _ => ⟨rfl, rfl, rfl⟩
    refine hset.goes hq trivial (fun c hc => ?_) (fun u hu hlu => absurd hlu (h.others hl hu)) False.elim
    cases outer with
    | none =>
      obtain rfl : a = c := hc
      exact ⟨List.mem_of_find?_eq_some ha, fun u hu he => h.others hl hu (Pc.locks_of_evicts he)⟩
    | some b =>
      obtain rfl : b = c := hc
      exact h.mayHold (houter b rfl)
  · rename_i hfind
    have hmiss : ∀ a ∈ s.list, (s.entry a).secNo ≠ sec := fun a ha => by
      simpa using List.find?_eq_none.1 hfind a ha
    split_ifs at hn with hlen
    · exact h.insert hl hq houter hmiss hn
    · obtain ⟨v, l, hv, -, hu, hi⟩ := h.selectBce hs ⟨sec, write, outer, use, hp, hmiss, not_lt.1 hlen⟩
      have hc := selectBce_cleared s.list.length s
      have hp' : (Shared.selectBce s.list.length s).pc t = .locked sec write outer use := by rw [hc.pc, hp]
      have hu' : ¬ (Shared.selectBce s.list.length s).InUse v := fun ⟨u, hh⟩ => hu ⟨u, by rwa [hc.pc] at hh⟩
      have hmiss' : ∀ a ∈ (Shared.selectBce s.list.length s).list,
          ((Shared.selectBce s.list.length s).entry a).secNo ≠ sec := fun a ha => by
        rw [(hc.same a).secNo]
        exact hmiss a (hc.list.mem_iff.1 ha)
      simp only [hv] at hn
      split_ifs at hn with hdirty
      · cases hn
        exact hi.beginEvict hp' (by rw [hv]; exact List.mem_cons_self) hu' hmiss'
      · have hl' : ((Shared.selectBce s.list.length s).pc t).locks := by rw [hp']; trivial
        have hfree := hi.remove hu' fun u he => by
          by_cases hut : u = t
          · subst hut
            rw [hp'] at he
            exact he
          · exact hi.others hl' hut (Pc.locks_of_evicts he)
        have hp'' : ((Shared.selectBce s.list.length s).remove v).pc t = .locked sec write outer use := hp'
        exact hfree.insert (t := t) (by rw [hp'']; trivial) (by rw [hp'']; trivial) (fun c hc => by rw [hp'']; exact hc)
          (fun a ha => hmiss' a (List.mem_of_mem_erase ha)) hn

/-- The victim is written back: it is removed, and a new entry appended. -/
theorem Inv.evicted {new : Option ℕ} {v sec : ℕ} {data : Block} {write : Bool} {outer : Option ℕ} {use : Use} (h : Inv s)
    (hp : s.pc t = .evicting v data sec write outer use) (hn : (s.remove v).insert t new sec write outer use = some s') :
    Inv s' := by
  have hl : (s.pc t).locks := by rw [hp]; trivial
  obtain ⟨hv, hu⟩ := h.victim t v (by rw [hp]; rfl)
  have hmiss := h.missing t sec (by rw [hp]; rfl)
  -- the thread is as if it had not begun the eviction
  have hback : Inv (s.setPc t (.locked sec write outer use)) :=
    h.goOn _ (by rw [hp]; trivial) trivial (fun c hc => by rw [hp]; exact hc) fun _ => hl
  have hself : (s.setPc t (.locked sec write outer use)).pc t = .locked sec write outer use := setPc_self _ _ _
  have hpc : ∀ u, u ≠ t → (s.setPc t (.locked sec write outer use)).pc u = s.pc u := fun u hut => setPc_of_ne _ _ hut
  have hfree : Inv ((s.setPc t (.locked sec write outer use)).remove v) := by
    refine hback.remove (fun ⟨u, hh⟩ => ?_) fun u he => ?_
    · by_cases hut : u = t
      · subst hut
        rw [hself] at hh
        exact hu ⟨u, by rw [hp]; exact hh⟩
      · rw [hpc u hut] at hh
        exact hu ⟨u, hh⟩
    · by_cases hut : u = t
      · subst hut
        rw [hself] at he
        exact he
      · rw [hpc u hut] at he
        exact h.others hl hut (Pc.locks_of_evicts he)
  have hself' : ((s.setPc t (.locked sec write outer use)).remove v).pc t = .locked sec write outer use := hself
  refine hfree.insert (t := t) (by rw [hself']; trivial) (by rw [hself']; trivial) (fun c hc => by rw [hself']; exact hc)
    (fun a ha => hmiss a (List.mem_of_mem_erase ha)) ((insert_setPc (s := s.remove v) _ new sec write outer use).trans hn)

/-- **Every step of a thread keeps the invariant**, if an eviction spares the entries in use. -/
theorem Inv.step {new : Option ℕ} (h : Inv s) (hs : s.Evicts t → s.Spared) (hn : s.step t new = some s') : Inv s' := by
  unfold Shared.step at hn
  split at hn
  · cases hn
  · -- `lock_acquire (&buffersem)`
    rename_i sec write outer use hp
    split_ifs at hn with hsem
    cases hn
    refine h.goes (by rw [hp]; trivial) trivial (fun c hc => h.mayHold (by rw [hp]; exact hc)) (fun u _ hlu => ?_) fun _ => rfl
    rw [h.sem u hlu] at hsem
    cases hsem
  · rename_i sec write outer use hp
    exact h.lookup hp hs hn
  · rename_i v data sec write outer use hp
    have hdisk : Inv { s with disk := s.disk.store (s.entry v).secNo data } :=
      h.congr (.refl _) (fun _ _ => .refl _) rfl rfl
    exact hdisk.evicted hp hn
  · -- the entry is loaded
    rename_i a sec write outer use hp
    split_ifs at hn
    · cases hn
      exact h.loaded hp (fun _ => ⟨rfl, rfl⟩) rfl (fun c hc => by rw [hp]; exact .inl (Option.some.inj hc)) (fun _ => id)
        (fun _ => id) (fun _ => id) (fun _ => id) id
    · cases hn
      refine h.loaded hp (fun _ => ⟨rfl, rfl⟩) rfl (fun c hc => ?_) (fun _ => id) (fun _ => id) (fun _ => id) (fun _ => id) id
      rw [hp]
      cases outer with
      | none => exact .inl hc
      | some b => exact .inr (congrArg some hc)
  · rename_i a hp
    split_ifs at hn
    cases hn
    exact h.pin hp
  · -- `buffer_cache_write` changes the buffer
    rename_i a ofs n src hp
    split_ifs at hn
    cases hn
    have hbuf : Inv (s.setEntry a fun b => { b with buffer := b.buffer.write ofs n src, dirty := true }) :=
      h.setEntry fun _ => ⟨rfl, rfl, rfl⟩
    exact hbuf.goOn _ (by change (s.pc t).Quiet; rw [hp]; trivial) trivial (fun _ => False.elim) False.elim
  · rename_i a hp
    split_ifs at hn
    cases hn
    exact h.unpin hp
  · -- the write-behind thread takes `buffersem`
    rename_i hp
    split_ifs at hn with hsem
    cases hn
    refine h.goes (by rw [hp]; trivial) trivial (fun _ => False.elim) (fun u _ hlu => ?_) fun _ => rfl
    rw [h.sem u hlu] at hsem
    cases hsem
  · rename_i hp
    cases hn
    refine h.goes (by rw [hp]; trivial) trivial (fun _ => False.elim) (fun u hu hlu => ?_) False.elim
    exact absurd hlu (h.others (by rw [hp]; trivial) hu)
  · rename_i a rest hp
    cases hn
    split_ifs
    · exact h.goOn _ (by rw [hp]; trivial) trivial (fun _ => False.elim) fun _ => by rw [hp]; trivial
    · exact h.goOn _ (by rw [hp]; trivial) trivial (fun _ => False.elim) fun _ => by rw [hp]; trivial
  · -- the entry is clean again
    rename_i a data rest hp
    cases hn
    have hdisk : Inv { s with disk := s.disk.store (s.entry a).secNo data } :=
      h.congr (.refl _) (fun _ _ => .refl _) rfl rfl
    have hclean : Inv ({ s with disk := s.disk.store (s.entry a).secNo data }.setEntry a fun b => { b with dirty := false }) :=
      hdisk.setEntry fun _ => ⟨rfl, rfl, rfl⟩
    exact hclean.goOn _ (by change (s.pc t).Quiet; rw [hp]; trivial) trivial (fun _ => False.elim) fun _ => by
      change (s.pc t).locks
      rw [hp]
      trivial

/-- **Every event keeps the invariant**, if evictions spare the entries in use. -/
theorem Inv.next {e : Event} (h : Inv s) (hs : Sparing e s) (hn : next e s = some s') : Inv s' := by
  cases e with
  | call t sec write use =>
    simp only [Shared.next] at hn
    split at hn
    · rename_i hp
      cases hn
      exact h.goOn _ (by rw [hp]; trivial) trivial (fun c hc => by cases hc) False.elim
    · cases hn
  | flush t =>
    simp only [Shared.next] at hn
    split at hn
    · rename_i hp
      cases hn
      exact h.goOn _ (by rw [hp]; trivial) trivial (fun _ => False.elim) False.elim
    · cases hn
  | step t new => exact h.step (hs t new rfl) hn

end Keep

theorem Inv.of_reach {d : Disk} (h : Reach Shared.next Sparing (Shared.start d) s) : Inv s :=
  h.invariant (Inv.start d) fun _ _ _ hi hs hn => hi.next hs hn

/-! ### Evictions -/

section Evictions

end Evictions

/-- Thread `t` reads sector `i` into the cache, into a new entry at `i`. -/
def loads (t i : ℕ) : List Event := [.call t i false .reads, .step t none, .step t (some i), .step t none]

/-- A search of the list in a cache that is not full evicts nothing. -/
def roomy (e : Event) (s : Shared) : Bool :=
  match e with
  | .step t _ =>
    match s.pc t with
    | .locked _ _ _ _ => decide (s.list.length < 64)
    | _ => true
  | _ => true

theorem Sparing.of_roomy {e : Event} {s : Shared} (h : roomy e s = true) : Sparing e s := by
  rintro t new rfl ⟨sec, write, outer, use, hp, -, hlen⟩
  simp only [roomy, hp] at h
  exact absurd (of_decide_eq_true h) (not_lt.2 hlen)

/-- A disk of 100 sectors. -/
def smallDisk : Disk := ⟨100, fun _ => Block.zero, by decide⟩

end Shared

end Pintos.Sharing
