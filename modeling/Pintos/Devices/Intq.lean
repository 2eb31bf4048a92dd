import Mathlib.Logic.Function.Basic
import Mathlib.Data.List.Nodup
import Pintos.Library.Prog
import Pintos.Threads.Synch

/-!
# Interrupt queues

`devices/intq.c`: a circular buffer that kernel threads share with interrupt
handlers. A thread that finds the buffer empty, or full, takes the queue's lock,
writes itself down as the one that waits, and blocks; the other side wakes it and
clears the pointer. Interrupts are off in all of this, so a thread runs without a
break from one blocking point to the next, and in between the other threads and the
handlers may do anything.

There are two blocking points: in `wait`, and before it in `lock_acquire`. A thread
that slept on the lock goes on to `wait` without another look at the buffer.
-/

namespace Pintos

open Library Library.Prog

namespace Intq

/-- `INTQ_BUFSIZE`. -/
def intqBufsize : ℕ := 64

/-- What a thread waits for: `not_full` or `not_empty`. -/
inductive Cond where
  | notFull
  | notEmpty
  deriving DecidableEq

/-- The call that is made. -/
inductive Op where
  /-- `intq_getc`. -/
  | getc
  /-- `intq_putc` with the byte. -/
  | putc (byte : UInt8)
  deriving DecidableEq

/-- What the loop of the call waits for. -/
def Op.cond : Op → Cond
  | .getc => .notEmpty
  | .putc _ => .notFull

/-- Where a thread is between two stretches. -/
inductive Stage where
  /-- Not in a call. -/
  | out
  /-- Asleep in `lock_acquire`. -/
  | asleep (op : Op)
  /-- Woken there. -/
  | woken (op : Op)
  /-- Blocked in `wait`. -/
  | waiting (op : Op)
  /-- Woken there. -/
  | signalled (op : Op)
  deriving DecidableEq

/-- A failed assertion. -/
inductive Fault where
  /-- In `wait`, that the awaited condition is still false. -/
  | wait
  /-- In `signal`, that the condition is true. -/
  | signal
  /-- In `thread_unblock`. -/
  | notBlocked
  /-- In `lock_acquire`. -/
  | held
  /-- In `lock_release`. -/
  | notHeld
  /-- `ASSERT (!intr_context ())`. -/
  | intrContext
  deriving DecidableEq

end Intq

/-- `struct intq`, with the threads `θ` that use it. -/
structure Intq (θ : Type) where
  /-- The semaphore of `lock`. -/
  lock : Semaphore θ
  /-- Its holder. -/
  holder : Option θ
  notFull : Option θ
  notEmpty : Option θ
  buf : ℕ → UInt8
  head : ℕ
  tail : ℕ
  /-- Where the threads are. -/
  stage : θ → Intq.Stage

namespace Intq

variable {θ : Type} [DecidableEq θ]

/-- `intq_init`. -/
def intqInit (buf : ℕ → UInt8) : Intq θ where
  lock := .init 1
  holder := none
  notFull := none
  notEmpty := none
  buf := buf
  head := 0
  tail := 0
  stage _ := .out

/-- `next`. -/
def next (pos : ℕ) : ℕ := (pos + 1) % intqBufsize

/-- `intq_empty`. -/
def intqEmpty (q : Intq θ) : Prop := q.head = q.tail

/-- `intq_full`. -/
def intqFull (q : Intq θ) : Prop := next q.head = q.tail

instance (q : Intq θ) : Decidable (intqEmpty q) := inferInstanceAs (Decidable (q.head = q.tail))

instance (q : Intq θ) : Decidable (intqFull q) := inferInstanceAs (Decidable (next q.head = q.tail))

/-- The awaited condition is false: the buffer is full, or empty. -/
def Blocked (q : Intq θ) : Cond → Prop
  | .notFull => intqFull q
  | .notEmpty => intqEmpty q

instance (q : Intq θ) : (c : Cond) → Decidable (Blocked q c)
  | .notFull => inferInstanceAs (Decidable (intqFull q))
  | .notEmpty => inferInstanceAs (Decidable (intqEmpty q))

/-- The thread that is written down for a condition. -/
def waiter (q : Intq θ) : Cond → Option θ
  | .notFull => q.notFull
  | .notEmpty => q.notEmpty

/-- Write it down. -/
def setWaiter (c : Cond) (w : Option θ) (q : Intq θ) : Intq θ :=
  match c with
  | .notFull => { q with notFull := w }
  | .notEmpty => { q with notEmpty := w }

/-- Move a thread. -/
def setStage (t : θ) (st : Stage) (q : Intq θ) : Intq θ := { q with stage := Function.update q.stage t st }

/-- Programs over a queue. -/
abbrev IntqM (θ : Type) := Prog (Intq θ) Fault

/-! ### Waiting and signalling -/

/-- `wait`, in the thread `t`. -/
def wait (t : θ) (op : Op) : IntqM θ Unit := do
  let q ← gets id
  if Blocked q op.cond then modify fun q => (q.setWaiter op.cond (some t)).setStage t (.waiting op) else stop .wait

/-- `thread_unblock` of a thread that blocked in `wait`. -/
def unblockWaiting (u : θ) : IntqM θ Unit := do
  let stage ← gets Intq.stage
  match stage u with
  | .waiting op => modify (setStage u (.signalled op))
  | _ => stop .notBlocked

/-- `signal`. -/
def signal (c : Cond) : IntqM θ Unit := do
  let q ← gets id
  if Blocked q c then stop .signal
  else match q.waiter c with
    | none => pure ()
    | some u => do
      unblockWaiting u
      modify (setWaiter c none)

/-! ### The lock -/

/-- A turn of the `sema_down` of `lock_acquire (&q->lock)`, and, once through, `wait`. -/
def lockTurn (t : θ) (op : Op) : IntqM θ Unit := do
  let lock ← gets Intq.lock
  let (through, x) := lock.down t
  modify fun q => { q with lock := x }
  if through then do
    modify fun q => { q with holder := some t }
    wait t op
  else modify (setStage t (.asleep op))

/-- `lock_acquire (&q->lock)` and `wait`. -/
def lockAcquire (t : θ) (op : Op) : IntqM θ Unit := do
  let holder ← gets Intq.holder
  if holder = some t then stop .held else lockTurn t op

/-- The wakeup in `sema_up`. -/
def lockWake : IntqM θ Unit := do
  let lock ← gets Intq.lock
  match lock.up.1 with
  | none => pure ()
  | some u => do
    let stage ← gets Intq.stage
    match stage u with
    | .asleep op => modify (setStage u (.woken op))
    | _ => stop .notBlocked

/-- `lock_release (&q->lock)`. -/
def lockRelease (t : θ) : IntqM θ Unit := do
  let holder ← gets Intq.holder
  if holder = some t then do
    modify fun q => { q with holder := none }
    lockWake
    modify fun q => { q with lock := q.lock.up.2 }
  else stop .notHeld

/-! ### The two calls -/

/-- What follows the loop: a byte is taken from the buffer, or put into it. -/
def transfer : Op → IntqM θ (Option UInt8)
  | .getc => do
    let q ← gets id
    modify fun q => { q with tail := next q.tail }
    signal .notFull
    pure (some (q.buf q.tail))
  | .putc byte => do
    modify fun q => { q with buf := Function.update q.buf q.head byte, head := next q.head }
    signal .notEmpty
    pure none

/-- `intq_getc` or `intq_putc` in the thread `t`, from the test of the loop to the next blocking point. -/
def loop (t : θ) (op : Op) : IntqM θ (Option UInt8) := do
  let q ← gets id
  if Blocked q op.cond then do
    lockAcquire t op
    pure none
  else transfer op

/-- A thread goes on after it was woken. -/
def resume (t : θ) : IntqM θ (Option UInt8) := do
  let stage ← gets Intq.stage
  match stage t with
  | .woken op => do
    lockTurn t op
    pure none
  | .signalled op => do
    lockRelease t
    modify (setStage t .out)
    loop t op
  | _ => stop .notBlocked

/-- The stretches. -/
inductive Action (θ : Type) where
  /-- A thread makes a call. -/
  | call (t : θ) (op : Op)
  /-- A thread goes on. -/
  | resume (t : θ)
  /-- An interrupt handler makes a call. -/
  | handler (op : Op)

/-- One stretch. -/
def step : Action θ → IntqM θ (Option UInt8)
  | .call t op => loop t op
  | .resume t => resume t
  | .handler op => do
    let q ← gets id
    if Blocked q op.cond then stop .intrContext else transfer op

/-- A thread is in one call at a time and goes on when it has been woken; a handler takes no byte from an empty buffer
and puts none into a full one. -/
def Guard (a : Action θ) (q : Intq θ) : Prop :=
  match a with
  | .call t _ => q.stage t = .out
  | .resume t => ∃ op, q.stage t = .woken op ∨ q.stage t = .signalled op
  | .handler op => ¬ Blocked q op.cond

/-- **The states that a queue reaches**, whatever the threads, the handlers and the scheduler do. -/
def Reaches (q : Intq θ) : Prop := ∃ buf, Run step Guard (intqInit buf) q

/-! ### The invariant -/

section Fields

variable (q : Intq θ) (c d : Cond) (t u : θ) (w : Option θ) (st : Stage)

omit [DecidableEq θ] in
@[simp] theorem setWaiter_waiter : (q.setWaiter c w).waiter d = if d = c then w else q.waiter d := by
  cases c <;> cases d <;> rfl

omit [DecidableEq θ] in
@[simp] theorem setWaiter_lock : (q.setWaiter c w).lock = q.lock := by cases c <;> rfl

omit [DecidableEq θ] in
@[simp] theorem setWaiter_holder : (q.setWaiter c w).holder = q.holder := by cases c <;> rfl

omit [DecidableEq θ] in
@[simp] theorem setWaiter_stage : (q.setWaiter c w).stage = q.stage := by cases c <;> rfl

omit [DecidableEq θ] in
@[simp] theorem setWaiter_head : (q.setWaiter c w).head = q.head := by cases c <;> rfl

omit [DecidableEq θ] in
@[simp] theorem setWaiter_tail : (q.setWaiter c w).tail = q.tail := by cases c <;> rfl

@[simp] theorem setStage_stage : (q.setStage t st).stage u = if u = t then st else q.stage u := Function.update_apply ..

@[simp] theorem setStage_waiter : (q.setStage t st).waiter c = q.waiter c := by cases c <;> rfl

end Fields

/-- **The invariant**: the lock is held from `lock_acquire` to `lock_release`, so by a thread that waits or has been
signalled, the pointers name the threads that wait, and the lock's list those asleep on it. -/
structure Inv (q : Intq θ) : Prop where
  value : q.lock.value = if q.holder = none then 1 else 0
  holder : ∀ t, q.holder = some t ↔ ∃ op, q.stage t = .waiting op ∨ q.stage t = .signalled op
  waiter : ∀ c t, q.waiter c = some t ↔ ∃ op, op.cond = c ∧ q.stage t = .waiting op
  nodup : q.lock.waiters.Nodup
  waiters : ∀ t, t ∈ q.lock.waiters ↔ ∃ op, q.stage t = .asleep op
  head : q.head < intqBufsize
  tail : q.tail < intqBufsize

/-- A waiter that is written down stays so until it is cleared. -/
def Kept (q q' : Intq θ) : Prop := ∀ c u, q.waiter c = some u → q'.waiter c = some u ∨ q'.waiter c = none

variable {q q' : Intq θ} {t : θ} {op : Op} {c : Cond}

omit [DecidableEq θ] in
theorem Inv.init (buf : ℕ → UInt8) : Inv (intqInit buf : Intq θ) where
  value := rfl
  holder t := ⟨nofun, fun ⟨_, h⟩ => by cases h <;> contradiction⟩
  waiter c t := by
    cases c
    · exact ⟨nofun, fun ⟨_, _, h⟩ => by cases h⟩
    · exact ⟨nofun, fun ⟨_, _, h⟩ => by cases h⟩
  nodup := List.nodup_nil
  waiters t := ⟨nofun, fun ⟨_, h⟩ => by cases h⟩
  head := Nat.zero_lt_succ 63
  tail := Nat.zero_lt_succ 63

/-- The thread `t` asleep on the lock. -/
def sleeping (t : θ) (op : Op) (q : Intq θ) : Intq θ :=
  { q with lock := { q.lock with waiters := q.lock.waiters ++ [t] } }.setStage t (.asleep op)

/-- The thread `t` with the lock, waiting. -/
def waitingFor (t : θ) (op : Op) (q : Intq θ) : Intq θ :=
  ({ q with lock := { q.lock with value := q.lock.value - 1 }, holder := some t }.setWaiter op.cond (some t)).setStage t
    (.waiting op)

/-- **What a turn on the lock does**: the thread sleeps, or it waits, or the assertion in `wait` fails. -/
theorem wp_lockTurn {Q : Unit → Intq θ → Prop} {E : Fault → Prop} : wp (lockTurn t op) Q E q ↔
    (q.lock.value = 0 → Q () (q.sleeping t op)) ∧ (q.lock.value ≠ 0 → Blocked q op.cond → Q () (q.waitingFor t op)) ∧
      (q.lock.value ≠ 0 → ¬ Blocked q op.cond → E .wait) := by
  rw [lockTurn, wp_bind, wp_gets]
  by_cases h0 : q.lock.value = 0
  · rw [Semaphore.down_of_zero _ h0]
    dsimp only
    rw [wp_bind, wp_modify, if_neg (by decide), wp_modify]
    exact ⟨fun h => ⟨fun _ => h, fun h' => absurd h0 h', fun h' => absurd h0 h'⟩, fun h => h.1 h0⟩
  · rw [Semaphore.down_of_pos _ (Nat.pos_of_ne_zero h0)]
    dsimp only
    rw [wp_bind, wp_modify, if_pos rfl, wp_bind, wp_modify, wait, wp_bind, wp_gets, wp_ite]
    have hb : Blocked { q with lock := { q.lock with value := q.lock.value - 1 }, holder := some t } op.cond ↔
        Blocked q op.cond := by cases op.cond <;> rfl
    rw [id, hb]
    exact ⟨fun h => ⟨fun h' => absurd h' h0, fun _ => h.1, fun _ => h.2⟩, fun h => ⟨h.2.1 h0, h.2.2 h0⟩⟩

/-- A thread that is in no call, or was woken, goes to sleep on the lock. -/
theorem Inv.sleeping (h : Inv q) (hs : q.stage t = .out ∨ ∃ op, q.stage t = .woken op) : Inv (q.sleeping t op) := by
  have hstage : ∀ u, (q.sleeping t op).stage u = if u = t then .asleep op else q.stage u := fun u => setStage_stage ..
  have hwaiter : ∀ c, (q.sleeping t op).waiter c = q.waiter c := fun c => by cases c <;> rfl
  obtain ⟨hv, hh, hw, hn, hm, hhead, htail⟩ := h
  have hnot : t ∉ q.lock.waiters := by grind
  refine ⟨hv, fun u => ?_, fun c u => ?_, ?_, fun u => ?_, hhead, htail⟩
  · refine (hh u).trans ?_
    rw [hstage]
    grind
  · rw [hwaiter, hw, hstage]
    grind
  · exact hn.append (List.nodup_singleton t) (by simpa using hnot)
  · rw [hstage]
    change u ∈ q.lock.waiters ++ [t] ↔ _
    grind

omit [DecidableEq θ] in
theorem Inv.holder_none (h : Inv q) (hv : q.lock.value ≠ 0) : q.holder = none := by
  by_contra hn
  rw [h.value, if_neg hn] at hv
  exact hv rfl

omit [DecidableEq θ] in
/-- While the lock is free, no thread is written down. -/
theorem Inv.waiter_none (h : Inv q) (hv : q.lock.value ≠ 0) (c : Cond) : q.waiter c = none := by
  cases hw : q.waiter c with
  | none => rfl
  | some u =>
    obtain ⟨op, -, hs⟩ := (h.waiter c u).1 hw
    have hu := (h.holder u).2 ⟨op, .inl hs⟩
    rw [h.holder_none hv] at hu
    cases hu

/-- A thread that is in no call, or was woken, gets the lock and waits. -/
theorem Inv.waitingFor (h : Inv q) (hs : q.stage t = .out ∨ ∃ op, q.stage t = .woken op) (hv : q.lock.value ≠ 0) :
    Inv (q.waitingFor t op) := by
  have hstage : ∀ u, (q.waitingFor t op).stage u = if u = t then .waiting op else q.stage u := fun u => by
    rw [Intq.waitingFor, setStage_stage, setWaiter_stage]
  have hwaiter : ∀ c, (q.waitingFor t op).waiter c = if c = op.cond then some t else q.waiter c := fun c => by
    rw [Intq.waitingFor, setStage_waiter, setWaiter_waiter]
    cases c <;> rfl
  have hholder : (q.waitingFor t op).holder = some t := setWaiter_holder ..
  have hlock : (q.waitingFor t op).lock = { q.lock with value := q.lock.value - 1 } := setWaiter_lock ..
  have hnone := h.holder_none hv
  have hno := h.waiter_none hv
  obtain ⟨hval, hh, hw, hn, hm, hhead, htail⟩ := h
  refine ⟨?_, fun u => ?_, fun c u => ?_, ?_, fun u => ?_, ?_, ?_⟩
  · rw [hlock, hholder, if_neg nofun, hval, if_pos hnone]
  · have := hh u
    rw [hholder, hstage]
    grind
  · have := hw c u
    have := hno c
    rw [hwaiter, hstage]
    grind
  · rw [hlock]
    exact hn
  · have := hm u
    rw [hlock, hstage]
    grind
  · rw [Intq.waitingFor, setStage, setWaiter_head]
    exact hhead
  · rw [Intq.waitingFor, setStage, setWaiter_tail]
    exact htail

/-- **A turn on the lock keeps the invariant, and no waiter that is written down is lost.** -/
theorem lockTurn_spec (h : Inv q) (hs : q.stage t = .out ∨ ∃ op, q.stage t = .woken op) :
    wp (lockTurn t op) (fun _ q' => Inv q' ∧ Kept q q')
      (fun _ => q.lock.value ≠ 0 ∧ ¬ Blocked q op.cond) q := by
  rw [wp_lockTurn]
  refine ⟨fun _ => ⟨h.sleeping hs, fun c u hc => .inl ?_⟩, fun hv _ => ⟨h.waitingFor hs hv, fun c u hc => ?_⟩,
    fun hv hb => ⟨hv, hb⟩⟩
  · cases c <;> exact hc
  · rw [h.waiter_none hv c] at hc
    cases hc

/-! ### The stretches -/

/-- The thread that is written down is woken, and the pointer cleared. -/
theorem Inv.signalled {u : θ} (h : Inv q) (hc : q.waiter c = some u) (hs : q.stage u = .waiting op) :
    Inv ((q.setStage u (.signalled op)).setWaiter c none) := by
  have hstage : ∀ v, ((q.setStage u (.signalled op)).setWaiter c none).stage v =
      if v = u then .signalled op else q.stage v := fun v => by rw [setWaiter_stage, setStage_stage]
  have hwaiter : ∀ d, ((q.setStage u (.signalled op)).setWaiter c none).waiter d = if d = c then none else q.waiter d :=
    fun d => by rw [setWaiter_waiter, setStage_waiter]
  obtain ⟨hv, hh, hw, hn, hm, hhead, htail⟩ := h
  refine ⟨?_, fun v => ?_, fun d v => ?_, ?_, fun v => ?_, ?_, ?_⟩
  · rw [setWaiter_lock, setWaiter_holder]
    exact hv
  · have := hh v
    rw [setWaiter_holder, hstage]
    change q.holder = some v ↔ _
    grind
  · have := hw d v
    have := hw c v
    rw [hwaiter, hstage]
    grind
  · rw [setWaiter_lock]
    exact hn
  · have := hm v
    rw [setWaiter_lock, hstage]
    change v ∈ q.lock.waiters ↔ _
    grind
  · rw [setWaiter_head]
    exact hhead
  · rw [setWaiter_tail]
    exact htail

/-- A thread that is written down is blocked in `wait`, so `signal` wakes it. -/
theorem signal_spec (h : Inv q) (hb : ¬ Blocked q c) : wp (signal c) (fun _ q' => Inv q' ∧ Kept q q') (fun _ => False) q := by
  rw [signal, wp_bind, wp_gets, wp_ite]
  refine ⟨fun h' => hb h', fun _ => ?_⟩
  dsimp only [id]
  cases hc : q.waiter c with
  | none => exact ⟨h, fun d u hd => .inl hd⟩
  | some u =>
    obtain ⟨op, -, hs⟩ := (h.waiter c u).1 hc
    rw [wp_bind, unblockWaiting, wp_bind, wp_gets, hs]
    dsimp only
    rw [wp_modify, wp_modify]
    refine ⟨h.signalled hc hs, fun d v hd => ?_⟩
    rw [setWaiter_waiter, setStage_waiter]
    split_ifs
    · exact .inr rfl
    · exact .inl hd

theorem next_lt (pos : ℕ) : next pos < intqBufsize := Nat.mod_lt _ (by decide)

/-- The buffer that was not empty is not full once a byte is taken, and the one that was not full is not empty once a
byte is put. -/
theorem transfer_spec (h : Inv q) (hb : ¬ Blocked q op.cond) :
    wp (transfer op) (fun _ q' => Inv q' ∧ Kept q q') (fun _ => False) q := by
  have hhead := h.head
  have htail := h.tail
  cases op with
  | getc =>
    rw [transfer, wp_bind, wp_gets, wp_bind, wp_modify, wp_bind]
    have h' : Inv { q with tail := next q.tail } := ⟨h.value, h.holder, h.waiter, h.nodup, h.waiters, h.head, next_lt _⟩
    have hb' : ¬ Blocked { q with tail := next q.tail } .notFull := by
      intro he
      apply hb
      change q.head = q.tail
      change next q.head = next q.tail at he
      unfold next at he
      unfold intqBufsize at he hhead htail
      omega
    exact signal_spec h' hb'
  | putc byte =>
    rw [transfer, wp_bind, wp_modify, wp_bind]
    have h' : Inv { q with buf := Function.update q.buf q.head byte, head := next q.head } :=
      ⟨h.value, h.holder, h.waiter, h.nodup, h.waiters, next_lt _, h.tail⟩
    exact signal_spec h' hb

/-- A call runs to its end or to a blocking point: the assertion in `wait` holds, since the buffer has just been looked
at. -/
theorem loop_spec (h : Inv q) (hs : q.stage t = .out) :
    wp (loop t op) (fun _ q' => Inv q' ∧ Kept q q') (fun _ => False) q := by
  rw [loop, wp_bind, wp_gets, wp_ite]
  refine ⟨fun hb => ?_, fun hb => transfer_spec h hb⟩
  rw [wp_bind, lockAcquire, wp_bind, wp_gets, wp_ite]
  refine ⟨fun hh => ?_, fun _ => ?_⟩
  · obtain ⟨op', hop⟩ := (h.holder t).1 hh
    rw [hs] at hop
    rcases hop with hop | hop <;> cases hop
  · exact wp_mono (lockTurn_spec h (.inl hs)) (fun _ _ hq => hq) fun _ he => he.2 hb

omit [DecidableEq θ] in
/-- The lock is free again, and the first of those asleep on it, if any, is woken. -/
theorem Inv.released (h : Inv q) (hs : q.stage t = .signalled op) (hlock : q'.lock = q.lock.up.2) (hholder : q'.holder = none)
    (hwaiter : ∀ c, q'.waiter c = q.waiter c) (hhead : q'.head = q.head) (htail : q'.tail = q.tail)
    (hout : q'.stage t = .out) (hwoken : ∀ u, q.lock.waiters.head? = some u → ∃ op, q'.stage u = .woken op)
    (hstage : ∀ u ≠ t, q.lock.waiters.head? ≠ some u → q'.stage u = q.stage u) : Inv q' := by
  have hheld : q.holder = some t := (h.holder t).2 ⟨op, .inr hs⟩
  obtain ⟨hv, hh, hw, hn, hm, hhead', htail'⟩ := h
  rw [hheld, if_neg nofun] at hv
  -- the thread itself, the one that is woken, and the others
  have hcases : ∀ u, (u = t ∧ q'.stage u = .out ∧ q.stage u = .signalled op) ∨
      (q.lock.waiters.head? = some u ∧ (∃ op, q'.stage u = .woken op) ∧ ∃ op, q.stage u = .asleep op) ∨
      (u ≠ t ∧ q.lock.waiters.head? ≠ some u ∧ q'.stage u = q.stage u) := by
    intro u
    by_cases hu : u = t
    · subst hu
      exact .inl ⟨rfl, hout, hs⟩
    · by_cases hhd : q.lock.waiters.head? = some u
      · exact .inr (.inl ⟨hhd, hwoken u hhd, (hm u).1 (List.mem_of_mem_head? hhd)⟩)
      · exact .inr (.inr ⟨hu, hhd, hstage u hu hhd⟩)
  have htl : q'.lock.waiters = q.lock.waiters.tail := by rw [hlock]; rfl
  refine ⟨?_, fun u => ?_, fun c u => ?_, ?_, fun u => ?_, hhead ▸ hhead', htail ▸ htail'⟩
  · rw [hholder, if_pos rfl, hlock]
    exact congrArg (· + 1) hv
  · have hhu := hh u
    rw [hholder]
    rcases hcases u with hu | hu | hu
    all_goals grind
  · rw [hwaiter, hw]
    rcases hcases u with hu | hu | hu
    all_goals grind
  · rw [htl]
    exact hn.sublist (List.tail_sublist _)
  · have hmu := hm u
    rw [htl]
    cases hl : q.lock.waiters with
    | nil =>
      rw [hl] at hmu hcases
      rcases hcases u with hu | hu | hu
      all_goals grind
    | cons v rest =>
      rw [hl] at hn hmu hcases
      rcases hcases u with hu | hu | hu
      all_goals grind

/-- A thread that `signal` woke holds the lock, and gives it to nobody. -/
theorem lockRelease_spec (h : Inv q) (hs : q.stage t = .signalled op) :
    wp (lockRelease t) (fun _ q' => Inv (q'.setStage t .out) ∧ ∀ c, q'.waiter c = q.waiter c) (fun _ => False) q := by
  have hheld : q.holder = some t := (h.holder t).2 ⟨op, .inr hs⟩
  rw [lockRelease, wp_bind, wp_gets, if_pos hheld, wp_bind, wp_modify, wp_bind, lockWake, wp_bind, wp_gets]
  dsimp only [Semaphore.up]
  cases hl : q.lock.waiters.head? with
  | none =>
    dsimp only
    rw [wp_pure, wp_modify]
    refine ⟨h.released hs rfl rfl (fun c => by cases c <;> rfl) rfl rfl ?_ (fun u hu => ?_) (fun u hu _ => ?_),
      fun c => by cases c <;> rfl⟩
    · rw [setStage_stage, if_pos rfl]
    · rw [hl] at hu
      cases hu
    · rw [setStage_stage, if_neg hu]
  | some u =>
    obtain ⟨op', hu⟩ := (h.waiters u).1 (List.mem_of_mem_head? hl)
    have hne : u ≠ t := by
      rintro rfl
      rw [hs] at hu
      cases hu
    dsimp only
    rw [wp_bind, wp_gets, hu]
    dsimp only
    rw [wp_modify, wp_modify]
    refine ⟨h.released hs rfl rfl (fun c => by cases c <;> rfl) rfl rfl ?_ (fun v hv => ⟨op', ?_⟩) (fun v hv hne => ?_),
      fun c => by cases c <;> rfl⟩
    · rw [setStage_stage, if_pos rfl]
    · obtain rfl := Option.some.inj (hl.symm.trans hv)
      rw [setStage_stage, if_neg hne]
      exact Function.update_self ..
    · rw [setStage_stage, if_neg hv]
      refine Function.update_of_ne (fun hvu => hne ?_) ..
      rw [hvu]
      exact hl

/-- When a stretch is as it should be: a thread that slept on the lock gets it only while the condition that it tested
is still false. -/
def Timely (a : Action θ) (q : Intq θ) : Prop :=
  match a with
  | .resume t => ∀ op, q.stage t = .woken op → q.lock.value ≠ 0 → Blocked q op.cond
  | _ => True

/-- **One stretch.** -/
theorem step_spec (h : Inv q) {a : Action θ} (hg : Guard a q) :
    wp (step a) (fun _ q' => Inv q' ∧ Kept q q') (fun _ => ¬ Timely a q) q := by
  cases a with
  | call t op => exact wp_mono (loop_spec h hg) (fun _ _ hq => hq) fun _ => False.elim
  | handler op =>
    rw [step, wp_bind, wp_gets, wp_ite]
    exact ⟨fun hb => absurd hb hg, fun hb => wp_mono (transfer_spec h hb) (fun _ _ hq => hq) fun _ => False.elim⟩
  | resume t =>
    obtain ⟨op, hs | hs⟩ := hg
    · rw [step, resume, wp_bind, wp_gets, hs]
      dsimp only
      rw [wp_bind]
      exact wp_mono (lockTurn_spec h (.inr ⟨op, hs⟩)) (fun _ _ hq => hq) fun _ he ht => he.2 (ht op hs he.1)
    · rw [step, resume, wp_bind, wp_gets, hs]
      dsimp only
      refine wp_seq (lockRelease_spec h hs) (fun _ => False.elim) fun _ q₁ ⟨h₁, hw⟩ => ?_
      rw [wp_bind, wp_modify]
      refine wp_mono (loop_spec h₁ ?_) (fun _ q' hq => ⟨hq.1, fun c u hc => hq.2 c u ?_⟩) fun _ => False.elim
      · rw [setStage_stage, if_pos rfl]
      · rw [setStage_waiter, hw, hc]

theorem Reaches.step (h : Reaches q) (a : Action θ) (hg : Guard a q) {byte : Option UInt8}
    (hs : Intq.step a q = .ok (byte, q')) : Reaches q' := by
  obtain ⟨buf, hrun⟩ := h
  exact ⟨buf, hrun.tail hg hs⟩

theorem Inv.reaches (h : Reaches q) : Inv q := by
  obtain ⟨buf, hrun⟩ := h
  apply Run.invariant hrun (.init buf)
  intro a t ht hg
  exact wp_mono (step_spec ht hg) (fun _ _ hq => hq.1) fun _ _ => trivial

end Intq

end Pintos
