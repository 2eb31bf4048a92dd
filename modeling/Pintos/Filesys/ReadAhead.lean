import Pintos.Filesys.CacheSpec

/-!
# Read-ahead past the end of the disk

`buffer_cache_check` with `write` set, and so `buffer_cache_write`, fetches the sector
after the one it was asked for whenever that was not in the cache. There is no check
that such a sector exists: at the last sector of the disk a miss reads past the end,
and the assertion of `select_sector` fails. This is the only case
(`cache_in_range_iff`), also when one sector is read after another
(`Buffers.Admits`).
-/

namespace Pintos

open Library Library.Prog Library.Clock Buffers

/-- Sector `sec` is in the cache. -/
def Buffers.Cached (st : Buffers) (sec : ℕ) : Prop := ∃ b ∈ st.list, b.secNo = sec

/-- The program issues no transfer of a sector past the end of the disk. -/
def StaysInRange {α : Type} (m : CacheM α) (st : Buffers) : Prop := m st ≠ .error .sectorOutOfRange

variable {st : Buffers} {sec : ℕ} {α : Type} {m : CacheM α}

theorem StaysInRange.of_wp {Q : α → Buffers → Prop} {E : Halt → Prop} (h : wp m Q E st) (hE : ¬ E .sectorOutOfRange) :
    StaysInRange m st := fun herr => hE (wp_of_error h herr)

theorem not_staysInRange (h : wp m (fun _ _ => False) (fun e => e = .sectorOutOfRange) st) : ¬ StaysInRange m st := by
  intro hin
  cases hrun : m st with
  | ok r => exact wp_of_ok h hrun
  | error e => exact hin (by rw [hrun, wp_of_error h hrun])

theorem Buffers.find?_eq_none (h : ¬ st.Cached sec) : (st.list.find? fun b => b.secNo == sec) = none := by
  refine List.find?_eq_none.2 fun b hb => ?_
  have hne : b.secNo ≠ sec := fun heq => h ⟨b, hb, heq⟩
  simpa using hne

/-- A sector past the end is not in the cache, so that it is read from the disk. -/
theorem load_past_end (hw : st.Wf) (hsec : ¬ sec < st.disk.capacity) :
    wp (fetch (pure ()) sec) (fun _ _ => False) (fun e => e = .sectorOutOfRange) st :=
  wp_post (fetch_spec hw fun _ => rfl) fun _ _ h => hsec h.1.range

/-- **A miss on the last sector** reads past the end. -/
theorem check_past_end (hw : st.Wf) (hmiss : ¬ st.Cached sec) (hsec : ¬ sec + 1 < st.disk.capacity) :
    wp (bufferCacheCheck sec true) (fun _ _ => False) (fun e => e = .sectorOutOfRange) st := by
  have hne : ∀ b ∈ st.list, b.secNo ≠ sec := fun b hb heq => hmiss ⟨b, hb, heq⟩
  rw [bufferCacheCheck]
  simp only [fetch.eq_def _ sec, wp_bind, wp_gets, find?_eq_none hmiss, wp_pure]
  refine wp_post (load_spec hw hne fun _ => rfl) ?_
  rintro a st₁ h
  refine wp_post (load_past_end h.keeps.wf ?_) fun _ _ hf => hf.elim
  rw [h.keeps.capacity]
  exact hsec

/-- A hit transfers nothing. -/
theorem check_cached (hw : st.Wf) (hhit : st.Cached sec) (write : Bool) :
    wp (bufferCacheCheck sec write) (fun a st' => Fetched st sec a st') (fun _ => False) st := by
  obtain ⟨b, hb, hs⟩ := hhit
  obtain ⟨c, hc⟩ : ∃ c, (st.list.find? fun b => b.secNo == sec) = some c := by
    cases hf : st.list.find? fun b => b.secNo == sec with
    | some c => exact ⟨c, rfl⟩
    | none => exact absurd hs (by simpa using List.find?_eq_none.1 hf b hb)
  cases write with
  | false => exact wp_post (fetch_hit hw hc) fun _ _ h => h.1
  | true => exact wp_post (fetch_hit hw hc) fun _ _ h => h.1

/-- When `buffer_cache_check` stays on the disk. -/
theorem check_in_range_iff (hw : st.Wf) (hsec : sec < st.disk.capacity) (write : Bool) :
    StaysInRange (bufferCacheCheck sec write) st ↔ write = false ∨ st.Cached sec ∨ sec + 1 < st.disk.capacity := by
  constructor
  · intro h
    cases write with
    | false => exact .inl rfl
    | true =>
      refine .inr ?_
      by_contra hnot
      rw [not_or] at hnot
      exact not_staysInRange (check_past_end hw hnot.1 hnot.2) h
  · rintro (rfl | hhit | hnext)
    · exact .of_wp (bufferCacheCheck_spec (E := fun _ => False) hw fun hn => hn hsec) id
    · exact .of_wp (check_cached hw hhit write) id
    · refine .of_wp (bufferCacheCheck_spec (E := fun _ => False) hw fun hn => hn ?_) id
      have := write.toNat_le
      omega

/-- When `buffer_cache_write` stays on the disk. -/
theorem write_in_range_iff (hw : st.Wf) (hsec : sec < st.disk.capacity) (src : ℕ → UInt8) (ofs n : ℕ) :
    StaysInRange (bufferCacheWrite sec src ofs n) st ↔ st.Cached sec ∨ sec + 1 < st.disk.capacity := by
  have hcheck := check_in_range_iff hw hsec true
  rw [or_iff_right (by decide)] at hcheck
  rw [← hcheck]
  constructor
  · intro h herr
    have hstop : wp (bufferCacheCheck sec true) (fun _ _ => False) (fun e => e = .sectorOutOfRange) st := by
      unfold wp
      rw [herr]
    exact not_staysInRange (wp_seq hstop (fun _ he => he) fun _ _ hf => hf.elim) h
  · -- once the entry is there, nothing is transferred
    intro h
    have hrest : ∀ a st', Fetched st sec a st' → wp (do
        let _ ← entryAt a
        if ofs + n ≤ sectorSize then
          updateEntry a fun b => { b with buffer := b.buffer.write ofs n src, dirty := true }
        else stop .badPointer) (fun _ _ => True) (fun e => e ≠ .sectorOutOfRange) st' := by
      intro a st' hf
      obtain ⟨b, hb, rfl, -⟩ := hf.entry
      rw [wp_bind]
      refine wp_post (entryAt_spec hf.keeps.wf hb) fun _ _ _ => ?_
      rw [wp_ite]
      exact ⟨fun _ => trivial, fun _ => nofun⟩
    have hwp : wp (bufferCacheCheck sec true) (fun a st' => Fetched st sec a st') (fun e => e ≠ .sectorOutOfRange) st := by
      rw [wp_iff]
      refine ⟨fun a st' hrun => ?_, fun e hrun he => h (he ▸ hrun)⟩
      exact wp_of_ok (bufferCacheCheck_spec (E := fun _ => True) hw fun _ => trivial) hrun
    exact .of_wp (wp_seq hwp (fun _ he => he) hrest) fun hne => hne rfl

/-- **The cache stays on the disk** exactly if the sector asked for is in the cache, or is not the last one, or
`buffer_cache_check` is not to read ahead. -/
theorem cache_in_range_iff (hw : st.Wf) (hsec : sec < st.disk.capacity) (write : Bool) (src : ℕ → UInt8) (ofs n : ℕ) :
    (StaysInRange (bufferCacheCheck sec write) st ↔ write = false ∨ st.Cached sec ∨ sec + 1 < st.disk.capacity) ∧
      (StaysInRange (bufferCacheWrite sec src ofs n) st ↔ st.Cached sec ∨ sec + 1 < st.disk.capacity) :=
  ⟨check_in_range_iff hw hsec write, write_in_range_iff hw hsec src ofs n⟩

/-- The first sector of a disk of four, with an empty cache. -/
theorem cache_in_range_first : StaysInRange (bufferCacheCheck 0 true) (Buffers.init (Disk.blank 4 (by decide))) ∧
    StaysInRange (bufferCacheWrite 0 (fun _ => 7) 0 1) (Buffers.init (Disk.blank 4 (by decide))) := by
  have h := cache_in_range_iff (wf_init (Disk.blank 4 (by decide))) (show 0 < 4 by decide) true (fun _ => 7) 0 1
  exact ⟨h.1.2 (.inr (.inr (by decide))), h.2.2 (.inr (by decide))⟩

/-- **The last sector of a disk**, with an empty cache: the sector after it is read. -/
theorem readAhead_past_end : (Buffers.init (Disk.blank 4 (by decide))).Wf ∧ 3 < (Disk.blank 4 (by decide)).capacity ∧
    ¬ StaysInRange (bufferCacheCheck 3 true) (Buffers.init (Disk.blank 4 (by decide))) ∧
    ¬ StaysInRange (bufferCacheWrite 3 (fun _ => 7) 0 1) (Buffers.init (Disk.blank 4 (by decide))) := by
  refine ⟨wf_init _, by decide, ?_, ?_⟩
  · rw [check_in_range_iff (wf_init _) (by decide)]
    simp [Buffers.Cached, Buffers.init, Disk.blank]
  · rw [write_in_range_iff (wf_init _) (by decide)]
    simp [Buffers.Cached, Buffers.init, Disk.blank]

/-! ### One sector after another -/

/-- The sectors of a list can be brought into the cache one after another: each is in the cache when its turn comes,
or is not the last one of the disk. -/
def Buffers.Admits : List ℕ → Buffers → Prop
  | [], _ => True
  | sec :: l, st => (st.Cached sec ∨ sec + 1 < st.disk.capacity) ∧
      ∀ a st', bufferCacheCheck sec true st = .ok (a, st') → Admits l st'

/-- This is so if the last sector of the disk is not in the list. -/
theorem Buffers.Admits.of_lt {l : List ℕ} (hw : st.Wf) (h : ∀ sec ∈ l, sec + 1 < st.disk.capacity) : Admits l st := by
  induction l generalizing st with
  | nil => trivial
  | cons sec l ih =>
    have hsec := h sec (List.mem_cons_self ..)
    refine ⟨.inr hsec, fun a st' hrun => ?_⟩
    have hf := wp_of_ok (bufferCacheCheck_spec (E := fun _ => True) hw fun _ => trivial) hrun
    refine ih hf.keeps.wf fun s hs => ?_
    rw [hf.keeps.capacity]
    exact h s (List.mem_cons_of_mem _ hs)

/-- `buffer_cache_check` as a whole, by whether it may read ahead. -/
theorem bufferCacheCheck_exact (hw : st.Wf) :
    wp (bufferCacheCheck sec true)
      (fun a st' => Fetched st sec a st' ∧ (st.Cached sec ∨ sec + 1 < st.disk.capacity) ∧
        bufferCacheCheck sec true st = .ok (a, st'))
      (fun e => e = .sectorOutOfRange ∧ ¬ (st.Cached sec ∨ sec + 1 < st.disk.capacity)) st := by
  by_cases hin : st.Cached sec ∨ sec + 1 < st.disk.capacity
  · have hspec : wp (bufferCacheCheck sec true) (fun a st' => Fetched st sec a st') (fun _ => False) st := by
      rcases hin with hhit | hnext
      · exact check_cached hw hhit true
      · exact bufferCacheCheck_spec hw fun hn => hn hnext
    rw [wp_iff]
    exact ⟨fun a st' hrun => ⟨wp_of_ok hspec hrun, hin, hrun⟩, fun e hrun => (wp_of_error hspec hrun).elim⟩
  · rw [not_or] at hin
    refine wp_mono (check_past_end hw hin.1 hin.2) (fun _ _ hf => hf.elim) ?_
    exact fun _ he => ⟨he, not_or.2 hin⟩

/-- Reading the first sector of a list, and what is left of the list then. -/
theorem bufferCacheRead_admits {l : List ℕ} (hw : st.Wf) :
    wp (bufferCacheRead sec true)
      (fun b st' => b = st.content sec ∧ Keeps st st' ∧ (Admits (sec :: l) st ↔ Admits l st'))
      (fun e => e = .sectorOutOfRange ∧ ¬ Admits (sec :: l) st) st := by
  refine wp_seq (bufferCacheCheck_exact hw) (fun e he => ⟨he.1, fun h => he.2 h.1⟩) ?_
  rintro a st₁ ⟨hf, hin, hrun⟩
  obtain ⟨b, hb, rfl, -, hbuf⟩ := hf.content
  rw [wp_bind]
  refine wp_post (entryAt_spec hf.keeps.wf hb) ?_
  rintro _ _ ⟨rfl, rfl⟩
  refine ⟨hbuf, hf.keeps, fun h => h.2 _ _ hrun, fun h => ⟨hin, fun a st' hrun' => ?_⟩⟩
  rw [hrun] at hrun'
  cases hrun'
  exact h

end Pintos
