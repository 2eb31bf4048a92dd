import Mathlib.Data.Set.Card
import Pintos.Library.Steps
import Pintos.Threads.Synch

/-!
# Readers and writers of a cache entry

The threads that read and write one resident `struct buffer_cache_entry`: the reader's
part of `inode_read_at` and the writer's part of `buffer_cache_write`, with the lock
`entry_lock` and the condition variable `entry_cond` (`threads/synch.c`) between them. A
reader copies outside the lock and is counted in `readers` meanwhile; a writer copies
under the lock, when there are no readers.

A step is a statement. Interrupts are off in a turn of the loop in `sema_down` and in
`sema_up`, and everything else may be interrupted: a copy is under way from the step
that reaches it to the step that leaves it, and a thread that has released the lock in
`cond_wait` is not asleep yet. `waiter`, the semaphore in `cond_wait`, is known by its
thread.
-/

namespace Pintos.Monitor

open Library

/-- What a thread does while it has the lock. -/
inductive Inside
  /-- A reader at `readers++`. -/
  | enter
  /-- A reader at `readers--`. -/
  | leave
  /-- A reader at `if (readers == 0)`. -/
  | test
  /-- A reader in the loop of `cond_broadcast`. -/
  | broadcast
  /-- A writer at `while (readers > 0)`. -/
  | loop
  /-- A writer in `cond_wait`, at `list_push_back`. -/
  | push
  /-- A writer in its `memcpy`. -/
  | copyIn
  /-- A writer at `dirty = true`. -/
  | mark
deriving DecidableEq

/-- What a thread does when it has released the lock. -/
inductive Outside
  /-- A reader in its `memcpy`. -/
  | copyOut
  /-- A writer in `cond_wait`, at `sema_down (&waiter.semaphore)`. -/
  | sleep
  /-- At the end. -/
  | done
deriving DecidableEq

/-- Where a thread is. `lock_acquire` is a `sema_down` and then the holder, `lock_release` the holder
and then a `sema_up`. -/
inductive Pc
  | idle
  /-- In `lock_acquire`, at the `sema_down`. -/
  | acquire (then_ : Inside)
  /-- In `lock_acquire`, at `holder = thread_current ()`. -/
  | own (then_ : Inside)
  | inside (here : Inside)
  /-- In `lock_release`, at `holder = NULL`. -/
  | release (then_ : Outside)
  /-- In `lock_release`, at the `sema_up`. -/
  | up (then_ : Outside)
  | outside (here : Outside)
deriving DecidableEq

/-- The entry and its threads. -/
structure Entry where
  readers : ℤ
  dirty : Bool
  /-- `entry_lock.semaphore`. -/
  sema : Semaphore ℕ
  /-- `entry_lock.holder`. -/
  holder : Option ℕ
  /-- `entry_cond.waiters`, by their threads. -/
  waiters : List ℕ
  /-- `waiter.semaphore` of a thread in `cond_wait`. -/
  waiter : ℕ → Semaphore ℕ
  pc : ℕ → Pc
  /-- `THREAD_BLOCKED`. -/
  blocked : ℕ → Bool

/-- What happens next. -/
inductive Event
  /-- Thread `t` starts to read. -/
  | read (t : ℕ)
  /-- Thread `t` starts to write. -/
  | write (t : ℕ)
  /-- The next step of thread `t`. -/
  | step (t : ℕ)

namespace Entry

/-- Move a thread on. -/
def setPc (t : ℕ) (p : Pc) (s : Entry) : Entry := { s with pc := Function.update s.pc t p }

/-- `thread_block`. -/
def block (t : ℕ) (s : Entry) : Entry := { s with blocked := Function.update s.blocked t true }

/-- `thread_unblock`, for the thread at the front of a semaphore's waiters. -/
def unblock (who : Option ℕ) (s : Entry) : Entry :=
  match who with
  | none => s
  | some t => { s with blocked := Function.update s.blocked t false }

/-- The step of thread `t` with the lock. -/
def insideStep (t : ℕ) (s : Entry) : Inside → Option Entry
  | .enter => some ({ s with readers := s.readers + 1 }.setPc t (.release .copyOut))
  | .leave => some ({ s with readers := s.readers - 1 }.setPc t (.inside .test))
  | .test => some (s.setPc t (if s.readers = 0 then .inside .broadcast else .release .done))
  | .broadcast =>
    match s.waiters with
    | [] => some (s.setPc t (.release .done))
    | w :: rest =>
      -- `cond_signal` asserts that the lock is held
      if s.holder = some t then
        let (who, sema) := (s.waiter w).up
        some ({ s with waiters := rest, waiter := Function.update s.waiter w sema }.unblock who)
      else none
  | .loop => some (s.setPc t (if 0 < s.readers then .inside .push else .inside .copyIn))
  | .push =>
    -- `cond_wait` asserts that the lock is held
    if s.holder = some t then
      some ({ s with waiter := Function.update s.waiter t (.init 0), waiters := s.waiters ++ [t] }.setPc t (.release .sleep))
    else none
  | .copyIn => some (s.setPc t (.inside .mark))
  | .mark => some ({ s with dirty := true }.setPc t (.release .done))

/-- The step of thread `t` without the lock. -/
def outsideStep (t : ℕ) (s : Entry) : Outside → Entry
  | .copyOut => s.setPc t (.acquire .leave)
  | .sleep =>
    let (through, sema) := (s.waiter t).down t
    let s' := { s with waiter := Function.update s.waiter t sema }
    if through then s'.setPc t (.acquire .loop) else s'.block t
  | .done => s.setPc t .idle

/-- One step of thread `t`. There is none where an assertion of `lock_acquire`, `lock_release`,
`cond_wait` or `cond_signal` fails. -/
def step (t : ℕ) (s : Entry) : Option Entry :=
  match s.pc t with
  | .idle => none
  | .acquire i =>
    if s.holder = some t then none
    else
      let (through, sema) := s.sema.down t
      let s' := { s with sema := sema }
      some (if through then s'.setPc t (.own i) else s'.block t)
  | .own i => some ({ s with holder := some t }.setPc t (.inside i))
  | .inside i => s.insideStep t i
  | .release o => if s.holder = some t then some ({ s with holder := none }.setPc t (.up o)) else none
  | .up o =>
    let (who, sema) := s.sema.up
    some (({ s with sema := sema }.unblock who).setPc t (.outside o))
  | .outside o => some (s.outsideStep t o)

/-- The step an event names. -/
def next (e : Event) (s : Entry) : Option Entry :=
  match e with
  | .read t => if s.blocked t = false ∧ s.pc t = .idle then some (s.setPc t (.acquire .enter)) else none
  | .write t => if s.blocked t = false ∧ s.pc t = .idle then some (s.setPc t (.acquire .loop)) else none
  | .step t => if s.blocked t = false then s.step t else none

/-- A resident entry that no one uses. -/
def start (dirty : Bool) : Entry :=
  { readers := 0, dirty := dirty, sema := .init 1, holder := none, waiters := [], waiter := fun _ => .init 0,
    pc := fun _ => .idle, blocked := fun _ => false }

end Entry

/-! ### Where threads are -/

namespace Pc

/-- The thread has downed the lock's semaphore. -/
def locked : Pc → Bool
  | .own _ | .inside _ | .release _ | .up _ => true
  | _ => false

/-- The thread is the lock's holder. -/
def holds : Pc → Bool
  | .inside _ | .release _ => true
  | _ => false

/-- The thread is between its `readers++` and its `readers--`. -/
def counted : Pc → Bool
  | .release .copyOut | .up .copyOut | .outside .copyOut => true
  | .acquire .leave | .own .leave | .inside .leave => true
  | _ => false

/-- The thread waits for `entry_cond`: it is in `cond_wait`, past the `list_push_back`. -/
def waits : Pc → Bool
  | .release .sleep | .up .sleep | .outside .sleep => true
  | _ => false

/-- The thread is copying into the buffer. -/
def copiesIn (p : Pc) : Prop := p = .inside .copyIn

/-- The thread is copying out of the buffer. -/
def copiesOut (p : Pc) : Prop := p = .outside .copyOut

/-- What a thread acquires the lock for. -/
def Entering (i : Inside) : Prop := i = .enter ∨ i = .leave ∨ i = .loop

/-- A thread acquires the lock only for what comes first under it. -/
def Regular : Pc → Prop
  | .acquire i | .own i => Entering i
  | _ => True

end Pc

/-! ### The steps -/

/-- **What thread `t` does in one step.** -/
inductive Moves (t : ℕ) (s : Entry) : Entry → Prop
  /-- The lock is taken: the thread blocks. -/
  | waitLock {i : Inside} : s.pc t = .acquire i → s.sema.value = 0 →
      Moves t s ({ s with sema := { s.sema with waiters := s.sema.waiters ++ [t] } }.block t)
  | takeLock {i : Inside} : s.pc t = .acquire i → 0 < s.sema.value →
      Moves t s ({ s with sema := { s.sema with value := s.sema.value - 1 } }.setPc t (.own i))
  | own {i : Inside} : s.pc t = .own i → Moves t s ({ s with holder := some t }.setPc t (.inside i))
  | enter : s.pc t = .inside .enter → Moves t s ({ s with readers := s.readers + 1 }.setPc t (.release .copyOut))
  | leave : s.pc t = .inside .leave → Moves t s ({ s with readers := s.readers - 1 }.setPc t (.inside .test))
  | last : s.pc t = .inside .test → s.readers = 0 → Moves t s (s.setPc t (.inside .broadcast))
  | others : s.pc t = .inside .test → s.readers ≠ 0 → Moves t s (s.setPc t (.release .done))
  | signal {w : ℕ} {rest : List ℕ} : s.pc t = .inside .broadcast → s.waiters = w :: rest →
      Moves t s ({ s with waiters := rest, waiter := Function.update s.waiter w (s.waiter w).up.2 }.unblock (s.waiter w).up.1)
  | silence : s.pc t = .inside .broadcast → s.waiters = [] → Moves t s (s.setPc t (.release .done))
  | mustWait : s.pc t = .inside .loop → 0 < s.readers → Moves t s (s.setPc t (.inside .push))
  | mayCopy : s.pc t = .inside .loop → s.readers ≤ 0 → Moves t s (s.setPc t (.inside .copyIn))
  | push : s.pc t = .inside .push →
      Moves t s ({ s with waiter := Function.update s.waiter t (.init 0), waiters := s.waiters ++ [t] }.setPc t (.release .sleep))
  | copied : s.pc t = .inside .copyIn → Moves t s (s.setPc t (.inside .mark))
  | mark : s.pc t = .inside .mark → Moves t s ({ s with dirty := true }.setPc t (.release .done))
  | release {o : Outside} : s.pc t = .release o → Moves t s ({ s with holder := none }.setPc t (.up o))
  | up {o : Outside} : s.pc t = .up o → Moves t s (({ s with sema := s.sema.up.2 }.unblock s.sema.up.1).setPc t (.outside o))
  | read : s.pc t = .outside .copyOut → Moves t s (s.setPc t (.acquire .leave))
  | sleep : s.pc t = .outside .sleep → (s.waiter t).value = 0 →
      Moves t s ({ s with waiter := Function.update s.waiter t { s.waiter t with waiters := (s.waiter t).waiters ++ [t] } }.block t)
  | wake : s.pc t = .outside .sleep → 0 < (s.waiter t).value →
      Moves t s ({ s with waiter := Function.update s.waiter t { s.waiter t with value := (s.waiter t).value - 1 } }.setPc t
        (.acquire .loop))
  | done : s.pc t = .outside .done → Moves t s (s.setPc t .idle)

variable {s s' : Entry} {t : ℕ}

theorem Moves.of_step (hs : s.step t = some s') : Moves t s s' := by
  unfold Entry.step at hs
  cases hpc : s.pc t with
  | idle => simp [hpc] at hs
  | acquire i =>
    rcases Nat.eq_zero_or_pos s.sema.value with h0 | h0
    · simp only [hpc, Semaphore.down_of_zero t h0, Bool.false_eq_true, if_false] at hs
      split_ifs at hs
      cases hs
      exact .waitLock hpc h0
    · simp only [hpc, Semaphore.down_of_pos t h0, if_true] at hs
      split_ifs at hs
      cases hs
      exact .takeLock hpc h0
  | own i =>
    simp only [hpc, Option.some.injEq] at hs
    subst hs
    exact .own hpc
  | inside i =>
    simp only [hpc] at hs
    cases i with
    | enter => cases hs; exact .enter hpc
    | leave => cases hs; exact .leave hpc
    | test =>
      simp only [Entry.insideStep, Option.some.injEq] at hs
      subst hs
      split_ifs with h0
      · exact .last hpc h0
      · exact .others hpc h0
    | broadcast =>
      simp only [Entry.insideStep] at hs
      cases hw : s.waiters with
      | nil => simp only [hw, Option.some.injEq] at hs; subst hs; exact .silence hpc hw
      | cons w rest =>
        simp only [hw] at hs
        split_ifs at hs
        cases hs
        exact .signal hpc hw
    | loop =>
      simp only [Entry.insideStep, Option.some.injEq] at hs
      subst hs
      split_ifs with h0
      · exact .mustWait hpc h0
      · exact .mayCopy hpc (not_lt.1 h0)
    | push =>
      simp only [Entry.insideStep] at hs
      split_ifs at hs
      cases hs
      exact .push hpc
    | copyIn => cases hs; exact .copied hpc
    | mark => cases hs; exact .mark hpc
  | release o =>
    simp only [hpc] at hs
    split_ifs at hs
    cases hs
    exact .release hpc
  | up o =>
    simp only [hpc, Option.some.injEq] at hs
    subst hs
    exact .up hpc
  | outside o =>
    simp only [hpc, Option.some.injEq] at hs
    subst hs
    cases o with
    | copyOut => exact .read hpc
    | sleep =>
      rcases Nat.eq_zero_or_pos (s.waiter t).value with h0 | h0
      · simp only [Entry.outsideStep, Semaphore.down_of_zero t h0]
        exact .sleep hpc h0
      · simp only [Entry.outsideStep, Semaphore.down_of_pos t h0]
        exact .wake hpc h0
    | done => exact .done hpc

/-- Whoever holds the lock has downed its semaphore. -/
theorem Pc.locked_of_holds {p : Pc} (h : p.holds = true) : p.locked = true := by
  cases p <;> first | rfl | cases h

/-- A step leaves the other threads where they are. -/
theorem Moves.pc_of_ne (hm : Moves t s s') {u : ℕ} (hu : u ≠ t) : s'.pc u = s.pc u := by
  cases hm with
  | waitLock | sleep => rfl
  | signal _ _ =>
    unfold Entry.unblock
    split <;> rfl
  | up _ =>
    refine (Function.update_of_ne hu _ _).trans ?_
    unfold Entry.unblock
    split <;> rfl
  | _ => exact Function.update_of_ne hu _ _

/-! ### The lock -/

/-- **The lock**: at most one thread has it, and its holder is the one inside. -/
structure LockOk (s : Entry) : Prop where
  regular : ∀ t, (s.pc t).Regular
  mutex : ∀ t u, (s.pc t).locked = true → (s.pc u).locked = true → t = u
  free : 0 < s.sema.value → ∀ t, (s.pc t).locked = false
  value : s.sema.value ≤ 1
  holder : ∀ t, s.holder = some t ↔ (s.pc t).holds = true

/-- A step that leaves the lock alone. -/
theorem LockOk.same (h : LockOk s) (hpc : ∀ u, u ≠ t → s'.pc u = s.pc u) (hr : (s'.pc t).Regular)
    (hl : (s'.pc t).locked = (s.pc t).locked) (hh : (s'.pc t).holds = (s.pc t).holds)
    (hv : s'.sema.value = s.sema.value) (ho : s'.holder = s.holder) : LockOk s' := by
  have hlocked : ∀ u, (s'.pc u).locked = (s.pc u).locked := by
    intro u
    by_cases hu : u = t
    · rw [hu, hl]
    · rw [hpc u hu]
  refine ⟨fun u => ?_, fun u v hu hv => ?_, fun h0 u => ?_, hv ▸ h.value, fun u => ?_⟩
  · by_cases hu : u = t
    · rw [hu]
      exact hr
    · rw [hpc u hu]
      exact h.regular u
  · exact h.mutex u v (by rwa [← hlocked]) (by rwa [← hlocked])
  · rw [hlocked]
    exact h.free (by rwa [← hv]) u
  · rw [ho, h.holder]
    by_cases hu : u = t
    · rw [hu, hh]
    · rw [hpc u hu]


/-- A thread that only moves on under the lock, or only outside it. -/
theorem LockOk.goto {p : Pc} (h : LockOk s) (hpc : s'.pc = Function.update s.pc t p) (hr : p.Regular)
    (hl : p.locked = (s.pc t).locked) (hh : p.holds = (s.pc t).holds) (hv : s'.sema.value = s.sema.value)
    (ho : s'.holder = s.holder) : LockOk s' := by
  have hself : s'.pc t = p := by rw [hpc, Function.update_self]
  refine h.same (t := t) (fun u hu => ?_) (by rwa [hself]) (by rwa [hself]) (by rwa [hself]) hv ho
  rw [hpc, Function.update_of_ne hu]

/-- Only the thread that has the lock has it. -/
theorem LockOk.locked_iff (h : LockOk s) (hl : (s.pc t).locked = true) (u : ℕ) : (s.pc u).locked = true ↔ u = t :=
  ⟨fun hu => h.mutex u t hu hl, fun hu => hu ▸ hl⟩

theorem unblock_pc (who : Option ℕ) (s : Entry) : (s.unblock who).pc = s.pc := by
  cases who <;> rfl

theorem unblock_readers (who : Option ℕ) (s : Entry) : (s.unblock who).readers = s.readers := by
  cases who <;> rfl

theorem unblock_sema (who : Option ℕ) (s : Entry) : (s.unblock who).sema = s.sema := by
  cases who <;> rfl

theorem unblock_holder (who : Option ℕ) (s : Entry) : (s.unblock who).holder = s.holder := by
  cases who <;> rfl

theorem LockOk.moves (h : LockOk s) (hm : Moves t s s') : LockOk s' := by
  have hregular := h.regular t
  cases hm with
  | waitLock hpc h0 => exact h.same (t := t) (fun _ _ => rfl) hregular rfl rfl rfl rfl
  | takeLock hpc h0 =>
    -- the lock was free, and only `t` has it now
    have hfree := h.free h0
    have hone := h.value
    rw [hpc] at hregular
    refine ⟨fun u => ?_, fun u v hu hv => ?_, fun hpos => ?_, ?_, fun u => ?_⟩
    all_goals simp only [Entry.setPc, Function.update_apply] at *
    · split_ifs
      · exact hregular
      · exact h.regular u
    · grind
    · omega
    · omega
    · grind [LockOk.holder, Pc.locked_of_holds, Pc.holds]
  | own hpc =>
    have hlocked := h.locked_iff (t := t) (by rw [hpc]; rfl)
    refine ⟨fun u => ?_, fun u v hu hv => ?_, fun hpos u => ?_, h.value, fun u => ?_⟩
    all_goals simp only [Entry.setPc, Function.update_apply] at *
    · split_ifs
      · trivial
      · exact h.regular u
    · grind
    · have := h.free hpos t
      rw [hpc] at this
      cases this
    · grind [Pc.locked_of_holds, Pc.holds]
  | release hpc =>
    have hlocked := h.locked_iff (t := t) (by rw [hpc]; rfl)
    refine ⟨fun u => ?_, fun u v hu hv => ?_, fun hpos u => ?_, h.value, fun u => ?_⟩
    all_goals simp only [Entry.setPc, Function.update_apply] at *
    · split_ifs
      · trivial
      · exact h.regular u
    · grind
    · have := h.free hpos t
      rw [hpc] at this
      cases this
    · grind [Pc.locked_of_holds, Pc.holds]
  | up hpc =>
    have hlocked := h.locked_iff (t := t) (by rw [hpc]; rfl)
    have hzero : s.sema.value = 0 := by
      by_contra h0
      have := h.free (Nat.pos_of_ne_zero h0) t
      rw [hpc] at this
      cases this
    have hholder := h.holder
    refine ⟨fun u => ?_, fun u v hu hv => ?_, fun hpos u => ?_, ?_, fun u => ?_⟩
    all_goals simp only [Entry.setPc, unblock_pc, unblock_sema, unblock_holder, Semaphore.up, Function.update_apply] at *
    · split_ifs
      · trivial
      · exact h.regular u
    · grind [Pc.locked]
    · grind [Pc.locked]
    · omega
    · grind [Pc.locked_of_holds, Pc.holds]
  | signal hpc hw =>
    exact h.same (t := t) (fun u _ => by rw [unblock_pc]) (by rw [unblock_pc]; exact hregular) (by rw [unblock_pc])
      (by rw [unblock_pc]) (by rw [unblock_sema]) (by rw [unblock_holder])
  | sleep hpc h0 => exact h.same (t := t) (fun _ _ => rfl) hregular rfl rfl rfl rfl
  | read hpc => exact h.goto rfl (.inr (.inl rfl)) (by rw [hpc]; rfl) (by rw [hpc]; rfl) rfl rfl
  | wake hpc h0 => exact h.goto rfl (.inr (.inr rfl)) (by rw [hpc]; rfl) (by rw [hpc]; rfl) rfl rfl
  | enter hpc | leave hpc | last hpc _ | others hpc _ | silence hpc _ | mustWait hpc _ | mayCopy hpc _ | push hpc | copied hpc
  | mark hpc | done hpc =>
    exact h.goto rfl trivial (by rw [hpc]; rfl) (by rw [hpc]; rfl) rfl rfl

/-! ### Blocked threads -/

/-- **The threads that are blocked**: on the lock, or in `cond_wait`. -/
structure BlockOk (s : Entry) : Prop where
  queue : ∀ t ∈ s.sema.waiters, s.blocked t = true ∧ ∃ i, s.pc t = .acquire i
  nodup : s.sema.waiters.Nodup
  asleep : ∀ t, (s.waiter t).waiters = if s.blocked t = true ∧ s.pc t = .outside .sleep then [t] else []

/-- A thread that runs moves on; no thread blocks or is unblocked. -/
theorem BlockOk.goto {p : Pc} (h : BlockOk s) (hrun : s.blocked t = false) (hpc : s'.pc = Function.update s.pc t p)
    (hs : s'.sema.waiters = s.sema.waiters) (hb : s'.blocked = s.blocked) (hw : ∀ u, (s'.waiter u).waiters = (s.waiter u).waiters) :
    BlockOk s' := by
  have hne : ∀ u, s.blocked u = true → s'.pc u = s.pc u := by
    intro u hu
    rw [hpc, Function.update_of_ne]
    rintro rfl
    rw [hrun] at hu
    cases hu
  refine ⟨fun u hu => ?_, hs ▸ h.nodup, fun u => ?_⟩
  · rw [hs] at hu
    obtain ⟨hblocked, i, hi⟩ := h.queue u hu
    exact ⟨by rw [hb]; exact hblocked, i, by rw [hne u hblocked]; exact hi⟩
  · rw [hw, h.asleep, hb]
    by_cases hu : s.blocked u = true
    · rw [hne u hu]
    · simp [hu]

theorem BlockOk.moves (h : BlockOk s) (hrun : s.blocked t = false) (hm : Moves t s s') : BlockOk s' := by
  obtain ⟨hqueue, hnodup, hasleep⟩ := id h
  have hnot : t ∉ s.sema.waiters := fun ht => by
    have := (hqueue t ht).1
    rw [hrun] at this
    cases this
  cases hm with
  | waitLock hpc h0 =>
    refine ⟨fun u hu => ?_, List.nodup_append.2 ⟨hnodup, List.nodup_singleton t, ?_⟩, fun u => ?_⟩
    · simp only [Entry.block, Function.update_apply] at hu ⊢
      grind
    · rintro a ha _ hb rfl
      rw [List.mem_singleton.1 hb] at ha
      exact hnot ha
    · have := hasleep u
      simp only [Entry.block, Function.update_apply]
      grind
  | sleep hpc h0 =>
    refine ⟨fun u hu => ?_, hnodup, fun u => ?_⟩
    · have := hqueue u hu
      simp only [Entry.block, Function.update_apply]
      grind
    · have := hasleep u
      simp only [Entry.block, Function.update_apply]
      grind
  | up hpc =>
    -- the thread that is woken waited for the lock, and nowhere else
    cases hq : s.sema.waiters with
    | nil =>
      simp only [Semaphore.up, hq, List.head?_nil, List.tail_nil, Entry.unblock]
      exact h.goto hrun rfl hq.symm rfl fun _ => rfl
    | cons w rest =>
      rw [hq] at hqueue hnodup
      refine ⟨fun u hu => ?_, ?_, fun u => ?_⟩
      all_goals simp only [Entry.setPc, Entry.unblock, Semaphore.up, hq, List.head?_cons, List.tail_cons, Function.update_apply] at *
      · grind
      · grind
      · grind
  | @signal w rest hpc hw =>
    have hcase := hasleep w
    by_cases hs : s.blocked w = true ∧ s.pc w = .outside .sleep
    · rw [if_pos hs] at hcase
      refine ⟨fun u hu => ?_, ?_, fun u => ?_⟩
      all_goals simp only [Entry.unblock, Semaphore.up, hcase, List.head?_cons, List.tail_cons, Function.update_apply] at *
      · grind
      · exact hnodup
      · grind
    · rw [if_neg hs] at hcase
      refine ⟨fun u hu => ?_, ?_, fun u => ?_⟩
      all_goals simp only [Entry.unblock, Semaphore.up, hcase, List.head?_nil, List.tail_nil, Function.update_apply] at *
      · exact hqueue u hu
      · exact hnodup
      · grind
  | push hpc =>
    refine h.goto hrun rfl rfl rfl fun u => ?_
    simp only [Entry.setPc, Function.update_apply]
    split_ifs with hu
    · subst hu
      rw [hasleep, if_neg (by simp [hrun])]
      rfl
    · rfl
  | wake hpc h0 =>
    refine h.goto hrun rfl rfl rfl fun u => ?_
    simp only [Entry.setPc, Function.update_apply]
    split_ifs with hu
    · rw [hu]
    · rfl
  | takeLock hpc _ | own hpc | enter hpc | leave hpc | last hpc _ | others hpc _ | silence hpc _ | mustWait hpc _ | mayCopy hpc _
  | copied hpc | mark hpc | release hpc | read hpc | done hpc => exact h.goto hrun rfl rfl rfl fun _ => rfl

/-! ### The readers -/

/-- **The readers are counted**, and where a writer copies there are none. -/
structure CountOk (s : Entry) : Prop where
  finite : {t | (s.pc t).counted = true}.Finite
  count : s.readers = {t | (s.pc t).counted = true}.ncard
  copy : ∀ t, s.pc t = .inside .copyIn ∨ s.pc t = .inside .mark → s.readers = 0
  push : ∀ t, s.pc t = .inside .push → 0 < s.readers

/-- The counted threads stay the same. -/
theorem CountOk.same (h : CountOk s) (hpc : ∀ u, u ≠ t → s'.pc u = s.pc u) (hc : (s'.pc t).counted = (s.pc t).counted)
    (hr : s'.readers = s.readers) (hcopy : s'.pc t = .inside .copyIn ∨ s'.pc t = .inside .mark → s.readers = 0)
    (hpush : s'.pc t = .inside .push → 0 < s.readers) : CountOk s' := by
  have hset : {u | (s'.pc u).counted = true} = {u | (s.pc u).counted = true} := by
    ext u
    by_cases hu : u = t
    · simp [hu, hc]
    · simp [hpc u hu]
  refine ⟨hset ▸ h.finite, by rw [hr, hset]; exact h.count, fun u hu => ?_, fun u hu => ?_⟩
  · rw [hr]
    by_cases hut : u = t
    · rw [hut] at hu
      exact hcopy hu
    · rw [hpc u hut] at hu
      exact h.copy u hu
  · rw [hr]
    by_cases hut : u = t
    · rw [hut] at hu
      exact hpush hu
    · rw [hpc u hut] at hu
      exact h.push u hu

/-- While a reader counts itself in or out under the lock, no other thread is under it. -/
theorem CountOk.recount {p : Pc} {n : ℤ} (hl : LockOk s) (hin : (s.pc t).locked = true) (hp : ∀ i, p = .inside i → i = .test)
    (hfin : {u | (Function.update s.pc t p u).counted = true}.Finite)
    (hcount : n = {u | (Function.update s.pc t p u).counted = true}.ncard) : CountOk ({ s with readers := n }.setPc t p) := by
  have hnone : ∀ u i, Function.update s.pc t p u = .inside i → i = .test := by
    intro u i hu
    by_cases hut : u = t
    · rw [hut, Function.update_self] at hu
      exact hp i hu
    · rw [Function.update_of_ne hut] at hu
      exact absurd (hl.mutex u t (by rw [hu]; rfl) hin) hut
  refine ⟨hfin, hcount, fun u hu => ?_, fun u hu => ?_⟩
  · rcases hu with hu | hu <;> cases hnone u _ hu
  · cases hnone u _ hu

theorem CountOk.goto {p : Pc} (h : CountOk s) (hpc : s'.pc = Function.update s.pc t p) (hr : s'.readers = s.readers)
    (hc : p.counted = (s.pc t).counted) (hcopy : p = .inside .copyIn ∨ p = .inside .mark → s.readers = 0)
    (hpush : p = .inside .push → 0 < s.readers) : CountOk s' := by
  have hself : s'.pc t = p := by rw [hpc, Function.update_self]
  refine h.same (t := t) (fun u hu => ?_) (by rwa [hself]) hr (by rwa [hself]) (by rwa [hself])
  rw [hpc, Function.update_of_ne hu]

theorem CountOk.nonneg (h : CountOk s) : 0 ≤ s.readers := by
  rw [h.count]
  exact Int.natCast_nonneg _

theorem CountOk.moves (h : CountOk s) (hl : LockOk s) (hm : Moves t s s') : CountOk s' := by
  have hreg := hl.regular t
  cases hm with
  | enter hpc =>
    have hset : {u | (Function.update s.pc t (.release .copyOut) u).counted = true} = insert t {u | (s.pc u).counted = true} := by
      ext u
      by_cases hu : u = t <;> simp [hu, Pc.counted]
    refine CountOk.recount hl (by rw [hpc]; rfl) nofun (hset ▸ h.finite.insert t) ?_
    rw [hset, Set.ncard_insert_of_notMem (by simp [hpc, Pc.counted]) h.finite, h.count]
    push_cast
    rfl
  | leave hpc =>
    have hset : {u | (Function.update s.pc t (.inside .test) u).counted = true} = {u | (s.pc u).counted = true} \ {t} := by
      ext u
      by_cases hu : u = t <;> simp [hu, Pc.counted]
    have hin : t ∈ {u | (s.pc u).counted = true} := by simp [hpc, Pc.counted]
    refine CountOk.recount hl (by rw [hpc]; rfl) (by rintro i ⟨⟩; rfl) (hset ▸ h.finite.sdiff) ?_
    have := Set.ncard_sdiff_singleton_add_one hin h.finite
    rw [hset, h.count]
    omega
  | waitLock hpc h0 => exact h.same (t := t) (fun _ _ => rfl) rfl rfl (h.copy t) (h.push t)
  | sleep hpc h0 => exact h.same (t := t) (fun _ _ => rfl) rfl rfl (h.copy t) (h.push t)
  | signal hpc hw =>
    exact h.same (t := t) (fun u _ => by rw [unblock_pc]) (by rw [unblock_pc]) (unblock_readers _ _)
      (by rw [unblock_pc]; exact h.copy t) (by rw [unblock_pc]; exact h.push t)
  | @up o hpc =>
    refine h.goto (t := t) (p := .outside o) (by simp only [Entry.setPc, unblock_pc]) (unblock_readers _ _) ?_ nofun nofun
    rw [hpc]
    cases o <;> rfl
  | @takeLock i hpc h0 => exact h.goto rfl rfl (by rw [hpc]; cases i <;> rfl) nofun nofun
  | @own i hpc =>
    -- what comes first under the lock is not a copy
    rw [hpc] at hreg
    rcases hreg with rfl | rfl | rfl <;> exact h.goto rfl rfl (by rw [hpc]; rfl) nofun nofun
  | @release o hpc => exact h.goto rfl rfl (by rw [hpc]; cases o <;> rfl) nofun nofun
  | mayCopy hpc h0 => exact h.goto rfl rfl (by rw [hpc]; rfl) (fun _ => le_antisymm h0 h.nonneg) nofun
  | mustWait hpc h0 => exact h.goto rfl rfl (by rw [hpc]; rfl) nofun fun _ => h0
  | copied hpc => exact h.goto rfl rfl (by rw [hpc]; rfl) (fun _ => h.copy t (.inl hpc)) nofun
  | last hpc _ | others hpc _ | silence hpc _ | push hpc | mark hpc | read hpc | wake hpc _ | done hpc =>
    exact h.goto rfl rfl (by rw [hpc]; rfl) nofun nofun

/-! ### The condition variable -/

/-- The last reader has its broadcast before it. -/
def Leaving (s : Entry) (t : ℕ) : Prop := s.pc t = .inside .test ∨ s.pc t = .inside .broadcast

/-- **The condition variable**: who waits and was not signalled is on the list, and while there is someone on it there are
readers, or the last one has its broadcast before it. -/
structure CondOk (s : Entry) : Prop where
  nodup : s.waiters.Nodup
  listed : ∀ t ∈ s.waiters, (s.pc t).waits = true
  silent : ∀ t ∈ s.waiters, (s.waiter t).value = 0
  signalled : ∀ t, (s.pc t).waits = true → t ∉ s.waiters → 0 < (s.waiter t).value
  asleep : ∀ t, s.blocked t = true → s.pc t = .outside .sleep → t ∈ s.waiters
  due : s.waiters ≠ [] → 0 < s.readers ∨ ∃ t, Leaving s t

/-- A thread moves on, inside or outside `cond_wait`. -/
theorem CondOk.goto {p : Pc} (h : CondOk s) (hrun : s.blocked t = false) (hpc : s'.pc = Function.update s.pc t p)
    (hp : p.waits = (s.pc t).waits) (hl : s'.waiters = s.waiters) (hw : s'.waiter = s.waiter) (hb : ∀ u, s'.blocked u = true → s.blocked u = true)
    (hdue : s.waiters ≠ [] → 0 < s'.readers ∨ ∃ u, Leaving s' u) : CondOk s' := by
  have hwaits : ∀ u, (s'.pc u).waits = (s.pc u).waits := by
    intro u
    rw [hpc]
    by_cases hu : u = t
    · rw [hu, Function.update_self, hp]
    · rw [Function.update_of_ne hu]
  refine ⟨hl ▸ h.nodup, fun u hu => ?_, fun u hu => ?_, fun u hu hn => ?_, fun u hu hs => ?_, fun hne => hdue (hl ▸ hne)⟩
  · rw [hwaits]
    exact h.listed u (hl ▸ hu)
  · rw [hw]
    exact h.silent u (hl ▸ hu)
  · rw [hw]
    exact h.signalled u (hwaits u ▸ hu) (hl ▸ hn)
  · have hut : u ≠ t := by
      rintro rfl
      have := hb u hu
      rw [hrun] at this
      cases this
    rw [hpc, Function.update_of_ne hut] at hs
    rw [hl]
    exact h.asleep u (hb u hu) hs

/-- Another thread than the last reader moves. -/
theorem CondOk.due_of (h : CondOk s) (hpc : ∀ u, u ≠ t → s'.pc u = s.pc u) (ht : ¬ Leaving s t) (hr : s'.readers = s.readers)
    (hne : s.waiters ≠ []) : 0 < s'.readers ∨ ∃ u, Leaving s' u := by
  rcases h.due hne with h0 | ⟨u, hu⟩
  · exact .inl (hr ▸ h0)
  · refine .inr ⟨u, ?_⟩
    have hut : u ≠ t := fun heq => ht (heq ▸ hu)
    rwa [Leaving, hpc u hut]

theorem unblock_blocked {who : Option ℕ} {e : Entry} {u : ℕ} (h : (e.unblock who).blocked u = true) : e.blocked u = true := by
  cases who with
  | none => exact h
  | some w =>
    simp only [Entry.unblock, Function.update_apply] at h
    split_ifs at h
    exact h

theorem CondOk.moves (h : CondOk s) (hc : CountOk s) (hb : BlockOk s) (hrun : s.blocked t = false) (hm : Moves t s s') : CondOk s' := by
  have hne := fun u (hu : u ≠ t) => hm.pc_of_ne hu
  have hnot : ∀ {p : Pc}, s.pc t = p → p ≠ .inside .test → p ≠ .inside .broadcast → ¬ Leaving s t := by
    rintro p hp h1 h2 (heq | heq)
    · exact h1 (hp.symm.trans heq)
    · exact h2 (hp.symm.trans heq)
  have hpos := hc.nonneg
  cases hm with
  | push hpc =>
    -- the lock is held and there are readers, so that their broadcast is still to come
    have hmem : t ∉ s.waiters := fun ht => by
      have := h.listed t ht
      rw [hpc] at this
      cases this
    refine ⟨?_, fun u hu => ?_, fun u hu => ?_, fun u hu hn => ?_, fun u hu hs => ?_, fun _ => .inl (hc.push t hpc)⟩
    all_goals simp only [Entry.setPc, Function.update_apply, List.mem_append, List.mem_singleton] at *
    · exact List.nodup_append.2 ⟨h.nodup, List.nodup_singleton t, by grind⟩
    · grind [CondOk.listed, Pc.waits]
    · grind [CondOk.silent, Semaphore.init]
    · grind [CondOk.signalled]
    · grind [CondOk.asleep]
  | @signal w rest hpc hw =>
    obtain ⟨hnodup, hlisted, hsilent, hsignalled, hasleep, hdue⟩ := h
    have hself := hb.asleep w
    rw [hw] at hnodup hlisted hsilent hsignalled hasleep
    have hfields : ∀ (who : Option ℕ) (e : Entry), (e.unblock who).waiters = e.waiters ∧ (e.unblock who).waiter = e.waiter := by
      intro who e
      cases who <;> exact ⟨rfl, rfl⟩
    refine ⟨?_, fun u hu => ?_, fun u hu => ?_, fun u hu hn => ?_, fun u hu hs => ?_, fun _ => .inr ⟨t, .inr ?_⟩⟩
    · rw [(hfields _ _).1]
      exact (List.nodup_cons.1 hnodup).2
    · rw [(hfields _ _).1] at hu
      rw [unblock_pc]
      exact hlisted u (List.mem_cons_of_mem w hu)
    · rw [(hfields _ _).1] at hu
      have huw : u ≠ w := fun heq => (List.nodup_cons.1 hnodup).1 (heq ▸ hu)
      simp only [(hfields _ _).2, Function.update_of_ne huw]
      exact hsilent u (List.mem_cons_of_mem w hu)
    · simp only [(hfields _ _).1, (hfields _ _).2, unblock_pc] at hu hn ⊢
      by_cases huw : u = w
      · rw [huw, Function.update_self]
        exact Nat.succ_pos _
      · rw [Function.update_of_ne huw]
        exact hsignalled u hu fun hmem => (List.mem_cons.1 hmem).elim huw hn
    · -- the thread that is signalled is unblocked, if it is asleep already
      rw [unblock_pc] at hs
      have hblocked := unblock_blocked hu
      rw [(hfields _ _).1]
      refine (List.mem_cons.1 (hasleep u hblocked hs)).resolve_left fun huw => ?_
      subst huw
      rw [if_pos ⟨hblocked, hs⟩] at hself
      simp [Entry.unblock, Semaphore.up, hself] at hu
    · rw [unblock_pc]
      exact hpc
  | wake hpc h0 =>
    have hmem : t ∉ s.waiters := fun ht => absurd (h.silent t ht) (Nat.ne_of_gt h0)
    refine ⟨h.nodup, fun u hu => ?_, fun u hu => ?_, fun u hu hn => ?_, fun u hu hs => ?_,
      h.due_of hne (hnot hpc nofun nofun) rfl⟩
    all_goals simp only [Entry.setPc, Function.update_apply] at *
    · grind [CondOk.listed]
    · grind [CondOk.silent]
    · grind [CondOk.signalled, Pc.waits]
    · grind [CondOk.asleep]
  | sleep hpc h0 =>
    -- a waiter that finds its semaphore down is still on the list
    have hmem : t ∈ s.waiters := by
      by_contra hn
      exact absurd (h.signalled t (by rw [hpc]; rfl) hn) (by omega)
    refine ⟨h.nodup, h.listed, fun u hu => ?_, fun u hu hn => ?_, fun u hu hs => ?_, h.due_of hne (hnot hpc nofun nofun) rfl⟩
    all_goals simp only [Entry.block, Function.update_apply] at *
    · grind [CondOk.silent]
    · grind [CondOk.signalled]
    · grind [CondOk.asleep]
  | waitLock hpc h0 =>
    refine ⟨h.nodup, h.listed, h.silent, h.signalled, fun u hu hs => ?_, h.due_of hne (hnot hpc nofun nofun) rfl⟩
    simp only [Entry.block, Function.update_apply] at hu hs
    split_ifs at hu with hut
    · rw [hut, hpc] at hs
      cases hs
    · exact h.asleep u hu hs
  | @up o hpc =>
    refine h.goto (t := t) (p := .outside o) hrun (by simp only [Entry.setPc, unblock_pc]) (by rw [hpc]; cases o <;> rfl) ?_ ?_
      (fun u hu => ?_) (h.due_of hne (hnot hpc nofun nofun) (unblock_readers _ _))
    · cases s.sema.up.1 <;> rfl
    · cases s.sema.up.1 <;> rfl
    · have hblocked := unblock_blocked hu
      exact hblocked
  | @takeLock i hpc h0 =>
    exact h.goto hrun rfl (by rw [hpc]; cases i <;> rfl) rfl rfl (fun _ hu => hu) (h.due_of hne (hnot hpc nofun nofun) rfl)
  | @own i hpc =>
    exact h.goto hrun rfl (by rw [hpc]; cases i <;> rfl) rfl rfl (fun _ hu => hu) (h.due_of hne (hnot hpc nofun nofun) rfl)
  | @release o hpc =>
    exact h.goto hrun rfl (by rw [hpc]; cases o <;> rfl) rfl rfl (fun _ hu => hu) (h.due_of hne (hnot hpc nofun nofun) rfl)
  | enter hpc =>
    exact h.goto hrun rfl (by rw [hpc]; rfl) rfl rfl (fun _ hu => hu) fun _ => .inl (Int.lt_add_one_of_le hpos)
  | leave hpc =>
    exact h.goto hrun rfl (by rw [hpc]; rfl) rfl rfl (fun _ hu => hu) fun _ => .inr ⟨t, .inl (Function.update_self _ _ _)⟩
  | last hpc h0 =>
    exact h.goto hrun rfl (by rw [hpc]; rfl) rfl rfl (fun _ hu => hu) fun _ => .inr ⟨t, .inr (Function.update_self _ _ _)⟩
  | others hpc h0 =>
    exact h.goto hrun rfl (by rw [hpc]; rfl) rfl rfl (fun _ hu => hu) fun _ => .inl (lt_of_le_of_ne hpos (Ne.symm h0))
  | silence hpc hw => exact h.goto hrun rfl (by rw [hpc]; rfl) rfl rfl (fun _ hu => hu) fun hn => absurd hw hn
  | mustWait hpc _ | mayCopy hpc _ | copied hpc | mark hpc | read hpc | done hpc =>
    exact h.goto hrun rfl (by rw [hpc]; rfl) rfl rfl (fun _ hu => hu) (h.due_of hne (hnot hpc nofun nofun) rfl)

/-! ### Every interleaving -/

/-- **The invariant.** -/
structure Ok (s : Entry) : Prop where
  lock : LockOk s
  block : BlockOk s
  count : CountOk s
  cond : CondOk s

theorem Ok.moves (h : Ok s) (hrun : s.blocked t = false) (hm : Moves t s s') : Ok s' :=
  ⟨h.lock.moves hm, h.block.moves hrun hm, h.count.moves h.lock hm, h.cond.moves h.count h.block hrun hm⟩

/-- A thread starts to read or to write. -/
theorem Ok.begin {i : Inside} (h : Ok s) (hrun : s.blocked t = false) (hpc : s.pc t = .idle) (hi : i = .enter ∨ i = .loop) :
    Ok (s.setPc t (.acquire i)) := by
  have hreg : (Pc.acquire i).Regular := by rcases hi with rfl | rfl <;> simp [Pc.Regular, Pc.Entering]
  have hcount : (Pc.acquire i).counted = (s.pc t).counted := by rw [hpc]; rcases hi with rfl | rfl <;> rfl
  have hnot : ¬ Leaving s t := by
    rintro (heq | heq)
    · rw [hpc] at heq
      cases heq
    · rw [hpc] at heq
      cases heq
  refine ⟨h.lock.goto rfl hreg (by rw [hpc]; rfl) (by rw [hpc]; rfl) rfl rfl, h.block.goto hrun rfl rfl rfl fun _ => rfl,
    h.count.goto rfl rfl hcount nofun nofun, h.cond.goto hrun rfl (by rw [hpc]; rfl) rfl rfl (fun _ hu => hu) ?_⟩
  exact h.cond.due_of (t := t) (fun u hu => Function.update_of_ne hu _ _) hnot rfl

theorem Ok.next {e : Event} (h : Ok s) (hs : s.next e = some s') : Ok s' := by
  cases e with
  | read t =>
    simp only [Entry.next] at hs
    split_ifs at hs with hc
    cases hs
    exact h.begin hc.1 hc.2 (.inl rfl)
  | write t =>
    simp only [Entry.next] at hs
    split_ifs at hs with hc
    cases hs
    exact h.begin hc.1 hc.2 (.inr rfl)
  | step t =>
    simp only [Entry.next] at hs
    split_ifs at hs with hc
    exact h.moves hc (.of_step hs)

theorem Ok.start (dirty : Bool) : Ok (.start dirty) := by
  refine ⟨⟨fun _ => trivial, nofun, fun _ _ => rfl, le_rfl, fun t => ⟨nofun, nofun⟩⟩, ⟨nofun, List.nodup_nil, fun t => ?_⟩,
    ⟨?_, ?_, fun t ht => ?_, nofun⟩, ⟨List.nodup_nil, nofun, nofun, nofun, nofun, fun hn => absurd rfl hn⟩⟩
  · simp [Entry.start, Semaphore.init]
  · simp [Entry.start, Pc.counted]
  · simp [Entry.start, Pc.counted]
  · rfl

/-- No assertion of the lock or of the condition variable fails: a thread that runs, and is not idle, has its step. -/
theorem Ok.step_isSome (h : Ok s) (hpc : s.pc t ≠ .idle) : (s.step t).isSome = true := by
  have hholder := h.lock.holder t
  unfold Entry.step
  cases hp : s.pc t with
  | idle => exact absurd hp hpc
  | acquire i =>
    rw [hp] at hholder
    simp only
    rw [if_neg fun heq => Bool.noConfusion (hholder.1 heq)]
    rfl
  | own i | up o | outside o => rfl
  | release o =>
    rw [hp] at hholder
    simp only
    rw [if_pos (hholder.2 rfl)]
    rfl
  | inside i =>
    rw [hp] at hholder
    have hh := hholder.2 rfl
    cases i with
    | broadcast =>
      simp only [Entry.insideStep]
      cases s.waiters with
      | nil => rfl
      | cons w rest =>
        simp only [if_pos hh]
        rfl
    | push =>
      simp only [Entry.insideStep, if_pos hh]
      rfl
    | _ => rfl

/-- **The states that any number of readers and writers reach**, in any interleaving. -/
def Reaches (s : Entry) : Prop := ∃ dirty, Reach Entry.next (fun _ _ => True) (.start dirty) s

theorem Reaches.ok (h : Reaches s) : Ok s := by
  obtain ⟨dirty, h⟩ := h
  exact h.invariant (Ok.start dirty) fun _ _ _ ht _ hn => ht.next hn

/-- A signal for thread `t` is pending: its semaphore is up, or it is on the list of a broadcast that the last reader is about
to make or is making, with the lock held. -/
def Pending (s : Entry) (t : ℕ) : Prop :=
  0 < (s.waiter t).value ∨ t ∈ s.waiters ∧ ∃ u, Leaving s u ∧ s.holder = some u

/-- **Readers and writers of a cache entry**: in every interleaving, no thread copies into the buffer while another copies
into or out of it, `readers` is the number of threads between their increment and their decrement, and no writer waits for
readers that have gone: a signal is pending for it, and where its semaphore is up it is not left blocked. -/
theorem entry_readers_writers (h : Reaches s) :
    (∀ t u, t ≠ u → (s.pc t).copiesIn → ¬ (s.pc u).copiesIn ∧ ¬ (s.pc u).copiesOut) ∧
      ({t | (s.pc t).counted = true}.Finite ∧ s.readers = {t | (s.pc t).counted = true}.ncard) ∧
      ∀ t, (s.pc t).waits = true → s.readers = 0 →
        Pending s t ∧ (s.sema.value = 1 → 0 < (s.waiter t).value) ∧
          (0 < (s.waiter t).value → s.pc t = .outside .sleep → s.blocked t = false) := by
  obtain ⟨hl, -, hc, hv⟩ := h.ok
  refine ⟨fun t u hne ht => ⟨fun hu => ?_, fun hu => ?_⟩, ⟨hc.finite, hc.count⟩, fun t ht h0 => ?_⟩
  · exact hne (hl.mutex t u (by rw [ht]; rfl) (by rw [hu]; rfl))
  · -- a reader that copies is counted, and a writer copies when there are none
    have hzero := hc.copy t (.inl ht)
    have hmem : u ∈ {t | (s.pc t).counted = true} := by
      change (s.pc u).counted = true
      rw [hu]
      rfl
    have hpos := (Set.ncard_pos hc.finite).2 ⟨u, hmem⟩
    have := hc.count
    omega
  · have hlast : t ∈ s.waiters → ∃ u, Leaving s u ∧ s.holder = some u ∧ (s.pc u).locked = true := by
      intro hmem
      rcases hv.due (List.ne_nil_of_mem hmem) with hpos | ⟨u, hu⟩
      · omega
      · refine ⟨u, hu, (hl.holder u).2 ?_, ?_⟩
        all_goals rcases hu with hu | hu <;> rw [hu] <;> rfl
    refine ⟨?_, fun hfree => ?_, fun hup hpc => ?_⟩
    · by_cases hmem : t ∈ s.waiters
      · obtain ⟨u, hu, hh, -⟩ := hlast hmem
        exact .inr ⟨hmem, u, hu, hh⟩
      · exact .inl (hv.signalled t ht hmem)
    · refine hv.signalled t ht fun hmem => ?_
      obtain ⟨u, -, -, hu⟩ := hlast hmem
      rw [hl.free (by omega) u] at hu
      cases hu
    · cases hb : s.blocked t with
      | false => rfl
      | true => exact absurd (hv.silent t (hv.asleep t hb hpc)) (Nat.ne_of_gt hup)

/-- A reader comes, a writer waits for it, and the reader leaves and signals the writer. -/
def handover : List Event :=
  [.read 0] ++ List.replicate 5 (.step 0) ++ [.write 1] ++ List.replicate 7 (.step 1) ++ List.replicate 6 (.step 0)

/-- The writer that waited for the last reader is signalled. -/
theorem entry_readers_writers_handover : ∃ s, Reaches s ∧ s.pc 0 = .inside .broadcast ∧ (s.pc 1).waits = true ∧
    s.readers = 0 ∧ Pending s 1 := by
  have hcheck : (follow Entry.next (fun _ _ => true) handover (.start false)).any (fun s => decide (s.pc 0 = .inside .broadcast) &&
      (s.pc 1).waits && decide (s.readers = 0)) = true := by decide
  obtain ⟨s, hs, hcheck⟩ := (Option.any_eq_true _ _).1 hcheck
  simp only [Bool.and_eq_true, decide_eq_true_eq] at hcheck
  obtain ⟨⟨h0, h1⟩, hr⟩ := hcheck
  have hreach : Reaches s := ⟨false, Reach.of_follow hs (fun _ _ _ _ => trivial) .refl⟩
  exact ⟨s, hreach, h0, h1, hr, ((entry_readers_writers hreach).2.2 1 h1 hr).1⟩

end Pintos.Monitor
