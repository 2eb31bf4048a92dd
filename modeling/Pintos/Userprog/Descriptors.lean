import Mathlib.Algebra.Order.Group.Int
import Mathlib.Tactic.Common
import Pintos.Library.Prog

/-!
# File descriptors

The `fdtable` of a process and its `nextfd` (`userprog/syscall.c`, `SYS_OPEN` and
`SYS_CLOSE`). `SYS_OPEN` hands out descriptors in two modes: while `nextfd` is below
`FILES_MAX` it takes the slot `nextfd` without looking at it, and from then on it
takes the first empty slot from 3 on and sets `nextfd` to the slot after it. The
second mode so leads back into the first, in which the slot need not be empty any
more. The path walk of `SYS_OPEN` comes before and yields a `struct file *`, which
is the argument here; 0 is the null pointer.
-/

namespace Pintos

open Library

/-- `FILES_MAX`. -/
abbrev filesMax : ℕ := 128

/-- The part of `struct thread` that concerns descriptors. -/
structure Descriptors where
  /-- `fdtable[FILES_MAX]`: pointers to `struct file`. -/
  fdtable : ℕ → ℕ
  /-- `nextfd`, the field right after the table. -/
  nextfd : ℕ

/-- Why a process is terminated in `SYS_CLOSE`. -/
inductive Killed
  /-- The descriptor is negative or above `FILES_MAX`. -/
  | outOfRange
  /-- The slot is null. -/
  | notOpen
  /-- `fdtable[FILES_MAX]` is `nextfd`, and `file_close` faults on that address. -/
  | badFile
deriving DecidableEq

namespace Descriptors

/-- `fdtable[fd] = p`. -/
def store (fd p : ℕ) (s : Descriptors) : Descriptors := { s with fdtable := Function.update s.fdtable fd p }

@[simp] theorem store_nextfd (fd p : ℕ) (s : Descriptors) : (s.store fd p).nextfd = s.nextfd := rfl

@[simp] theorem store_same (fd p : ℕ) (s : Descriptors) : (s.store fd p).fdtable fd = p :=
  Function.update_self _ _ _

theorem store_of_ne {fd fd' p : ℕ} (s : Descriptors) (h : fd' ≠ fd) : (s.store fd p).fdtable fd' = s.fdtable fd' :=
  Function.update_of_ne h _ _

/-- The loop `for (; i < FILES_MAX; i++) if (fdtable[i] == NULL) break;`, with `n` turns left;
the final value of `i`. -/
def scan (t : ℕ → ℕ) : ℕ → ℕ → ℕ
  | 0, i => i
  | n + 1, i => if t i = 0 then i else scan t n (i + 1)

/-- The thread as `start_process` leaves it. -/
def start : Descriptors := { fdtable := fun _ => 0, nextfd := 2 }

/-- `SYS_OPEN` once `filesys_open` has returned `openedfile`. -/
def sysOpen (openedfile : ℕ) : Prog Descriptors Killed ℤ := do
  if openedfile = 0 then
    return -1
  let fd ← Prog.gets Descriptors.nextfd
  if filesMax ≤ fd then
    let i ← Prog.gets fun s => scan s.fdtable (filesMax - 3) 3
    if filesMax ≤ i then
      return -1
    Prog.modify fun s => { s.store i openedfile with nextfd := i + 1 }
    return i
  Prog.modify fun s => { s.store fd openedfile with nextfd := s.nextfd + 1 }
  return fd

/-- `SYS_CLOSE`. The range check lets `FILES_MAX` itself pass. -/
def sysClose (fd : ℤ) : Prog Descriptors Killed ℤ := do
  if fd < 0 ∨ fd > filesMax then
    Prog.stop .outOfRange
  if fd = filesMax then
    let filetoclose ← Prog.gets Descriptors.nextfd
    -- the null pointer is stored in `nextfd`, but the process does not survive to see it
    if filetoclose = 0 then Prog.stop .notOpen else Prog.stop .badFile
  else
    let filetoclose ← Prog.gets fun s => s.fdtable fd.toNat
    if filetoclose = 0 then
      Prog.stop .notOpen
    Prog.modify (store fd.toNat 0)
    return 0

/-- The calls a process makes. -/
inductive Call
  /-- `SYS_OPEN`, with the file `filesys_open` returns. -/
  | opens (openedfile : ℕ)
  /-- `SYS_CLOSE`. -/
  | closes (fd : ℤ)

/-- One call. -/
def Call.run : Call → Prog Descriptors Killed ℤ
  | .opens p => sysOpen p
  | .closes fd => sysClose fd

/-- **The states a process reaches** by any sequence of calls it survives. -/
def Reaches (s : Descriptors) : Prop := Run Call.run (fun _ _ => True) start s

/-! ### The scan -/

theorem scan_le (t : ℕ → ℕ) (n i : ℕ) : i ≤ scan t n i ∧ scan t n i ≤ i + n := by
  induction n generalizing i with
  | zero => exact ⟨le_rfl, le_rfl⟩
  | succ n ih =>
    simp only [scan]
    split_ifs
    · exact ⟨le_rfl, by omega⟩
    · have := ih (i + 1)
      omega

/-- The slots the scan goes past are in use. -/
theorem scan_used (t : ℕ → ℕ) (n i j : ℕ) (hij : i ≤ j) (hj : j < scan t n i) : t j ≠ 0 := by
  induction n generalizing i with
  | zero => exact absurd (lt_of_le_of_lt hij hj) (lt_irrefl _)
  | succ n ih =>
    simp only [scan] at hj
    split_ifs at hj with ht
    · exact absurd (lt_of_le_of_lt hij hj) (lt_irrefl _)
    · rcases eq_or_lt_of_le hij with rfl | hlt
      · exact ht
      · exact ih (i + 1) hlt hj

/-- If the scan stops early it stops at an empty slot. -/
theorem scan_free (t : ℕ → ℕ) (n i : ℕ) (h : scan t n i < i + n) : t (scan t n i) = 0 := by
  induction n generalizing i with
  | zero => exact absurd h (lt_irrefl _)
  | succ n ih =>
    simp only [scan] at h ⊢
    split_ifs at h ⊢ with ht
    · exact ht
    · exact ih (i + 1) (by omega)

/-- The slot `SYS_OPEN` looks for from 3 on. -/
def firstFree (s : Descriptors) : ℕ := scan s.fdtable (filesMax - 3) 3

theorem firstFree_eq_max_iff (s : Descriptors) :
    filesMax ≤ s.firstFree ↔ ∀ i, 3 ≤ i → i < filesMax → s.fdtable i ≠ 0 := by
  constructor
  · intro h i hi hlt
    exact scan_used s.fdtable (filesMax - 3) 3 i hi (lt_of_lt_of_le hlt h)
  · intro h
    by_contra hlt
    rw [not_le] at hlt
    exact h s.firstFree (scan_le _ _ _).1 hlt (scan_free s.fdtable (filesMax - 3) 3 hlt)

/-! ### What one call does -/

section Calls

variable {s : Descriptors} {p : ℕ}

theorem sysOpen_null : sysOpen 0 s = .ok (-1, s) := rfl

theorem sysOpen_next (hp : p ≠ 0) (hn : s.nextfd < filesMax) :
    sysOpen p s = .ok ((s.nextfd : ℤ), { s.store s.nextfd p with nextfd := s.nextfd + 1 }) := by
  simp only [sysOpen, if_neg hp]
  change (if filesMax ≤ s.nextfd then _ else _ : Prog Descriptors Killed ℤ) s = _
  rw [if_neg (not_le.2 hn)]
  rfl

theorem sysOpen_full (hp : p ≠ 0) (hn : filesMax ≤ s.nextfd) (hf : filesMax ≤ s.firstFree) :
    sysOpen p s = .ok (-1, s) := by
  simp only [sysOpen, if_neg hp]
  change (if filesMax ≤ s.nextfd then _ else _ : Prog Descriptors Killed ℤ) s = _
  rw [if_pos hn]
  change (if filesMax ≤ s.firstFree then _ else _ : Prog Descriptors Killed ℤ) s = _
  rw [if_pos hf]
  rfl

theorem sysOpen_scan (hp : p ≠ 0) (hn : filesMax ≤ s.nextfd) (hf : s.firstFree < filesMax) :
    sysOpen p s = .ok ((s.firstFree : ℤ), { s.store s.firstFree p with nextfd := s.firstFree + 1 }) := by
  simp only [sysOpen, if_neg hp]
  change (if filesMax ≤ s.nextfd then _ else _ : Prog Descriptors Killed ℤ) s = _
  rw [if_pos hn]
  change (if filesMax ≤ s.firstFree then _ else _ : Prog Descriptors Killed ℤ) s = _
  rw [if_neg (not_le.2 hf)]
  rfl

/-- A `SYS_CLOSE` that returns empties the slot it names and nothing else. -/
theorem sysClose_ok {fd r : ℤ} {s' : Descriptors} (h : sysClose fd s = .ok (r, s')) :
    0 ≤ fd ∧ fd < filesMax ∧ s.fdtable fd.toNat ≠ 0 ∧ s' = s.store fd.toNat 0 := by
  by_cases hr : fd < 0 ∨ fd > filesMax
  · simp only [sysClose, if_pos hr] at h
    cases h
  by_cases hm : fd = filesMax
  · simp only [sysClose, if_neg hr, if_pos hm] at h
    change (if s.nextfd = 0 then _ else _ : Prog Descriptors Killed ℤ) s = _ at h
    split_ifs at h <;> cases h
  simp only [sysClose, if_neg hr, if_neg hm] at h
  change (if s.fdtable fd.toNat = 0 then _ else _ : Prog Descriptors Killed ℤ) s = _ at h
  split_ifs at h with h0
  · cases h
  · cases h
    rw [not_or] at hr
    exact ⟨not_lt.1 hr.1, lt_of_le_of_ne (not_lt.1 hr.2) hm, h0, rfl⟩

end Calls

/-! ### Runs -/

/-- `nextfd` stays between 2 and `FILES_MAX`. -/
theorem Reaches.nextfd {s : Descriptors} (h : Reaches s) : 2 ≤ s.nextfd ∧ s.nextfd ≤ filesMax := by
  refine Run.invariant (I := fun t => 2 ≤ t.nextfd ∧ t.nextfd ≤ filesMax) h ⟨le_rfl, by decide⟩ ?_
  intro c t ht _
  cases c with
  | opens p =>
    change Prog.wp (sysOpen p) _ _ t
    by_cases hp : p = 0
    · subst hp
      exact ht
    by_cases hn : t.nextfd < filesMax
    · unfold Prog.wp
      rw [sysOpen_next hp hn]
      exact ⟨ht.1.trans (Nat.le_succ _), hn⟩
    rw [not_lt] at hn
    unfold Prog.wp
    by_cases hf : filesMax ≤ t.firstFree
    · rw [sysOpen_full hp hn hf]
      exact ht
    · have h3 : 3 ≤ t.firstFree := (scan_le _ _ _).1
      rw [sysOpen_scan hp hn (not_le.1 hf)]
      exact ⟨by change 2 ≤ t.firstFree + 1; omega, not_le.1 hf⟩
  | closes fd =>
    refine Prog.wp_iff.2 ⟨fun r t' hr => ?_, fun _ _ => trivial⟩
    obtain ⟨-, -, -, rfl⟩ := sysClose_ok hr
    exact ht

/-- **What is asked of a `SYS_OPEN`** of the file `p`, from `s` to `s'` with the answer `r`: the
descriptor was free, what is open stays as it is, and it fails only for want of a free slot. -/
structure Assigns (s : Descriptors) (p : ℕ) (r : ℤ) (s' : Descriptors) : Prop where
  fresh : r ≠ -1 → ∃ fd : ℕ, r = fd ∧ 2 ≤ fd ∧ fd < filesMax ∧ s.fdtable fd = 0 ∧ s'.fdtable fd = p
  kept : ∀ fd, s.fdtable fd ≠ 0 → s'.fdtable fd = s.fdtable fd
  full : p ≠ 0 → r = -1 → ∀ fd, 2 ≤ fd → fd < filesMax → s.fdtable fd ≠ 0

/-- **When the next descriptor can be handed out safely**: the slot `nextfd` is empty while the
counter is in use, and afterwards slot 2, which the scan does not visit, is not the only empty one. -/
structure SlotReady (s : Descriptors) : Prop where
  counter : s.nextfd < filesMax → s.fdtable s.nextfd = 0
  search : filesMax ≤ s.nextfd → s.fdtable 2 = 0 → ∃ fd, 3 ≤ fd ∧ fd < filesMax ∧ s.fdtable fd = 0

section Assigning

variable {s : Descriptors} {p : ℕ}

theorem Assigns.null (s : Descriptors) : Assigns s 0 (-1) s :=
  ⟨fun h => absurd rfl h, fun _ _ => rfl, fun h => absurd rfl h⟩

/-- A free slot that is filled, with the counter wherever. -/
theorem Assigns.of_free {fd n : ℕ} (h2 : 2 ≤ fd) (hlt : fd < filesMax) (h0 : s.fdtable fd = 0) :
    Assigns s p fd { s.store fd p with nextfd := n } := by
  refine ⟨fun _ => ⟨fd, rfl, h2, hlt, h0, store_same fd p s⟩, fun fd' hused => ?_, fun _ hr => ?_⟩
  · refine store_of_ne s ?_
    rintro rfl
    exact hused h0
  · omega

/-- The counter's slot: the answer is right just when it is free. -/
theorem assigns_next_iff (h2 : 2 ≤ s.nextfd) (hn : s.nextfd < filesMax) :
    Assigns s p s.nextfd { s.store s.nextfd p with nextfd := s.nextfd + 1 } ↔ SlotReady s := by
  constructor
  · intro h
    obtain ⟨fd, hfd, -, -, hfree, -⟩ := h.fresh (by omega)
    have hfd' : s.nextfd = fd := by exact_mod_cast hfd
    rw [← hfd'] at hfree
    exact ⟨fun _ => hfree, fun hle => absurd hle (not_le.2 hn)⟩
  · intro h
    exact Assigns.of_free h2 hn (h.counter hn)

/-- The scan finds no slot: the answer is right just when slot 2 is in use too. -/
theorem assigns_full_iff (hp : p ≠ 0) (hn : filesMax ≤ s.nextfd) (hf : filesMax ≤ s.firstFree) :
    Assigns s p (-1) s ↔ SlotReady s := by
  have hused := (firstFree_eq_max_iff s).1 hf
  constructor
  · intro h
    exact ⟨fun hlt => absurd hn (not_le.2 hlt), fun _ h2 => absurd h2 (h.full hp rfl 2 le_rfl (by decide))⟩
  · intro h
    refine ⟨fun hr => absurd rfl hr, fun _ _ => rfl, fun _ _ fd h2 hlt => ?_⟩
    rcases eq_or_lt_of_le h2 with rfl | h3
    · intro h0
      obtain ⟨fd, h3, hlt', hfree⟩ := h.search hn h0
      exact hused fd h3 hlt' hfree
    · exact hused fd h3 hlt

/-- The scan finds a slot. -/
theorem assigns_scan (hn : filesMax ≤ s.nextfd) (hf : s.firstFree < filesMax) :
    Assigns s p s.firstFree { s.store s.firstFree p with nextfd := s.firstFree + 1 } ∧ SlotReady s := by
  have h3 : 3 ≤ s.firstFree := (scan_le _ _ _).1
  have h0 : s.fdtable s.firstFree = 0 := scan_free s.fdtable (filesMax - 3) 3 hf
  exact ⟨Assigns.of_free (by omega) hf h0, fun hlt => absurd hn (not_le.2 hlt), fun _ _ => ⟨s.firstFree, h3, hf, h0⟩⟩

end Assigning

/-- **The file descriptor table**: in every state a process reaches, `SYS_OPEN` hands out a free
descriptor, leaves the open ones alone and fails only when no slot is free, if and only if the
slot it is about to use is ready; and `SYS_CLOSE` empties the slot it names and no other. -/
theorem sys_open_assigns_iff {s : Descriptors} (h : Reaches s) :
    (∀ p, ∃ r s', sysOpen p s = .ok (r, s') ∧ (Assigns s p r s' ↔ p = 0 ∨ SlotReady s)) ∧
      ∀ fd r s', sysClose fd s = .ok (r, s') →
        s'.fdtable fd.toNat = 0 ∧ ∀ fd', fd' ≠ fd.toNat → s'.fdtable fd' = s.fdtable fd' := by
  refine ⟨fun p => ?_, fun fd r s' hr => ?_⟩
  · by_cases hp : p = 0
    · subst hp
      exact ⟨-1, s, sysOpen_null, fun _ => .inl rfl, fun _ => Assigns.null s⟩
    by_cases hn : s.nextfd < filesMax
    · refine ⟨_, _, sysOpen_next hp hn, ?_⟩
      rw [assigns_next_iff h.nextfd.1 hn, or_iff_right hp]
    rw [not_lt] at hn
    by_cases hf : filesMax ≤ s.firstFree
    · refine ⟨_, _, sysOpen_full hp hn hf, ?_⟩
      rw [assigns_full_iff hp hn hf, or_iff_right hp]
    · obtain ⟨ha, hs⟩ := assigns_scan (p := p) hn (not_le.1 hf)
      exact ⟨_, _, sysOpen_scan hp hn (not_le.1 hf), fun _ => .inr hs, fun _ => ha⟩
  · obtain ⟨-, -, -, rfl⟩ := sysClose_ok hr
    exact ⟨store_same _ _ s, fun fd' hne => store_of_ne s hne⟩

/-- Make the calls one after the other. -/
def runCalls : List Call → Prog Descriptors Killed Unit
  | [] => pure ()
  | c :: l => do
    let _ ← c.run
    runCalls l

theorem Run.of_runCalls {l : List Call} {s t u : Descriptors} (h : Run Call.run (fun _ _ => True) s t)
    (hl : runCalls l t = .ok ((), u)) : Run Call.run (fun _ _ => True) s u := by
  induction l generalizing t with
  | nil => cases hl; exact h
  | cons c l ih =>
    cases hc : c.run t with
    | ok r =>
      simp only [runCalls, bind, hc] at hl
      exact ih (h.tail trivial hc) hl
    | error e =>
      simp only [runCalls, bind, hc] at hl
      cases hl

/-- `FILES_MAX - 2` files are opened, descriptor 3 is closed, and one more file is opened. -/
def wrap : List Call := (List.range 126).map (fun i => Call.opens (i + 1)) ++ [.closes 3, .opens 200]

/-- The counter points at slot 4, which has the third file. -/
def wrapCheck : Except Killed (Unit × Descriptors) → Bool
  | .ok (_, s) => s.nextfd == 4 && s.fdtable 4 == 3
  | .error _ => false

/-- After `wrap` the counter points at a slot in use. -/
theorem wrap_end : ∃ s, Reaches s ∧ s.nextfd = 4 ∧ s.fdtable 4 = 3 := by
  have hrun : wrapCheck (runCalls wrap start) = true := by decide +kernel
  generalize hw : runCalls wrap start = o at hrun
  cases o with
  | ok r =>
    simp only [wrapCheck, Bool.and_eq_true, beq_iff_eq] at hrun
    exact ⟨r.2, Run.of_runCalls (.refl _) hw, hrun⟩
  | error e => cases hrun

/-- After `wrap`, `SYS_OPEN` returns descriptor 4, which is in use, and drops its file. -/
theorem sys_open_overwrites : ∃ s r s', Reaches s ∧ sysOpen 201 s = .ok (r, s') ∧ r = 4 ∧ s.fdtable 4 = 3 ∧
    s'.fdtable 4 = 201 ∧ ¬ Assigns s 201 r s' := by
  obtain ⟨s, hs, hn, h4⟩ := wrap_end
  have hready : ¬ SlotReady s := fun h => by
    have := h.counter (by rw [hn]; decide)
    rw [hn, h4] at this
    cases this
  have hopen := sysOpen_next (s := s) (p := 201) (by decide) (by rw [hn]; decide)
  refine ⟨s, _, _, hs, hopen, by rw [hn]; rfl, h4, by rw [← hn]; exact store_same _ _ _, ?_⟩
  rwa [assigns_next_iff hs.nextfd.1 (by rw [hn]; decide)]

/-- The first `SYS_OPEN` of a process. -/
theorem sys_open_assigns_start : Reaches start ∧ ∃ r s', sysOpen 1 start = .ok (r, s') ∧ Assigns start 1 r s' := by
  obtain ⟨r, s', hr, ha⟩ := (sys_open_assigns_iff (.refl start)).1 1
  exact ⟨.refl start, r, s', hr, ha.2 (.inr ⟨fun _ => rfl, fun h => absurd h (by decide)⟩)⟩

end Descriptors

end Pintos
