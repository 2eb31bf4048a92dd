import Mathlib.Data.List.Nodup
import Mathlib.Data.Fin.Basic
import Mathlib.Logic.Function.Basic
import Mathlib.Data.List.Count
import Pintos.Library.Prog
import Pintos.Threads.Synch

/-!
# Threads, semaphores and locks

`threads/thread.c` with `threads/synch.c`. One processor runs one thread at a time;
a section of code with interrupts off is one step, and a step may end in
`schedule`, after which another thread is the current one. Interrupt handlers run
on the stack of the current thread: they may up a semaphore, and on their return
the thread may yield.

A `struct thread` is known by the address of its page. `struct list_elem elem` of a
thread is its only link for `ready_list` and for the waiters of every semaphore, so
that a thread must be on one of these lists at most.

Besides `status` a thread has a place, which says in which of these functions it is
between two steps. The numbers of completed ups and downs and the threads that were
woken and have not tested the value again are kept beside the semaphores; no step
depends on them.
-/

namespace Pintos

open Library Library.Prog

/-- `enum thread_status`. -/
inductive Status where
  | running
  | ready
  | blocked
  | dying
  deriving DecidableEq

/-- Where a thread is between two steps. -/
inductive Place (σ : Type) where
  /-- In none of the functions below. -/
  | free
  /-- In the loop of `sema_down`. -/
  | down (s : σ)
  /-- In the loop of the `sema_down` that `lock_acquire` calls. -/
  | acquire (l : σ)
  /-- In `lock_acquire` or `lock_try_acquire`, past the down. -/
  | acquired (l : σ)
  /-- In `lock_release`, before the up. -/
  | release (l : σ)
  /-- In a `thread_block` that it called itself. -/
  | parked
  deriving DecidableEq

/-- A failed assertion. -/
inductive Fault where
  /-- `ASSERT (t->status == THREAD_BLOCKED)` in `thread_unblock`. -/
  | notBlocked
  /-- `ASSERT (curr->status != THREAD_RUNNING)` in `schedule`. -/
  | stillRunning
  /-- `ASSERT (is_thread (next))` in `schedule`. -/
  | notThread
  /-- `ASSERT (!lock_held_by_current_thread (lock))`. -/
  | held
  /-- `ASSERT (lock_held_by_current_thread (lock))`. -/
  | notHeld
  deriving DecidableEq

/-- The threads `θ` and the semaphores `σ`. -/
structure Kernel (θ σ : Type) where
  /-- The status of the thread at an address, if there is one. -/
  status : θ → Option Status
  /-- `running_thread ()`. -/
  current : θ
  /-- `ready_list`. -/
  readyList : List θ
  /-- `idle_thread`. -/
  idleThread : Option θ
  /-- `initial_thread`. -/
  initialThread : θ
  /-- The semaphores. -/
  sema : σ → Semaphore θ
  /-- The `holder` of the lock that a semaphore belongs to. -/
  holder : σ → Option θ
  /-- Where the threads are. -/
  place : θ → Place σ
  /-- The thread that is about to unblock a new one at the end of `thread_create`. -/
  maker : θ → Option θ
  /-- How many ups of a semaphore are complete. -/
  ups : σ → ℕ
  /-- How many downs are complete. -/
  downs : σ → ℕ
  /-- The threads that `sema_up` has woken and that have not tested the value again. -/
  woken : σ → List θ

namespace Kernel

variable {θ σ : Type} [DecidableEq θ] [DecidableEq σ]

/-- Programs over the kernel. -/
abbrev KernelM (θ σ : Type) := Prog (Kernel θ σ) Fault

/-- Set a thread's status. -/
def setStatus (t : θ) (st : Option Status) (k : Kernel θ σ) : Kernel θ σ := { k with status := Function.update k.status t st }

/-- Set a thread's place. -/
def setPlace (t : θ) (p : Place σ) (k : Kernel θ σ) : Kernel θ σ := { k with place := Function.update k.place t p }

/-- Set a semaphore. -/
def setSema (s : σ) (x : Semaphore θ) (k : Kernel θ σ) : Kernel θ σ := { k with sema := Function.update k.sema s x }

/-! ### Threads -/

/-- `next_thread_to_run`. -/
def nextThreadToRun : KernelM θ σ θ := do
  let ready ← gets readyList
  match ready with
  | [] => do
    let idle ← gets idleThread
    orStop idle .notThread
  | t :: rest => do
    modify fun k => { k with readyList := rest }
    pure t

/-- `schedule_tail (prev)` in the thread `curr`, which has just been switched to. -/
def scheduleTail (prev curr : θ) (k : Kernel θ σ) : Kernel θ σ :=
  let k := { k with current := curr }.setStatus curr (some .running)
  if prev ≠ curr ∧ k.status prev = some .dying ∧ prev ≠ k.initialThread then k.setStatus prev none else k

/-- `schedule`. -/
def schedule : KernelM θ σ Unit := do
  let curr ← gets current
  let next ← nextThreadToRun
  let status ← gets Kernel.status
  if status curr = some .running then stop .stillRunning
  else if status next = none then stop .notThread
  else modify (scheduleTail curr next)

/-- `thread_block`. -/
def threadBlock : KernelM θ σ Unit := do
  modify fun k => k.setStatus k.current (some .blocked)
  schedule

/-- `thread_unblock`. -/
def threadUnblock (t : θ) : KernelM θ σ Unit := do
  let status ← gets Kernel.status
  if status t = some .blocked then
    modify fun k => { k with readyList := k.readyList ++ [t] }.setStatus t (some .ready)
  else stop .notBlocked

/-- `thread_yield`. -/
def threadYield : KernelM θ σ Unit := do
  modify fun k => if k.idleThread ≠ some k.current then { k with readyList := k.readyList ++ [k.current] } else k
  modify fun k => k.setStatus k.current (some .ready)
  schedule

/-- `thread_exit`, after `process_exit`. -/
def threadExit : KernelM θ σ Unit := do
  modify fun k => k.setStatus k.current (some .dying)
  schedule

/-- `thread_create`, with a page at `t`, up to its `thread_unblock`. -/
def threadCreate (t : θ) : KernelM θ σ Unit :=
  modify fun k => { k.setStatus t (some .blocked) with maker := Function.update k.maker t (some k.current) }

/-! ### Semaphores -/

/-- A turn of the loop in `sema_down`: a thread that does not get through sleeps, and is then at `waiting`; one that
does is at `past`. -/
def semaTurn (s : σ) (waiting past : Place σ) : KernelM θ σ Unit := do
  let curr ← gets current
  let sema ← gets Kernel.sema
  let (through, x) := (sema s).down curr
  modify fun k => { k.setSema s x with woken := Function.update k.woken s ((k.woken s).erase curr) }
  if through then modify fun k => { k.setPlace curr past with downs := Function.update k.downs s (k.downs s + 1) }
  else do
    modify (setPlace curr waiting)
    threadBlock

/-- `sema_try_down`. -/
def semaTryDown (s : σ) : KernelM θ σ Bool := do
  let sema ← gets Kernel.sema
  if 0 < (sema s).value then do
    modify fun k => { k.setSema s { sema s with value := (sema s).value - 1 } with
      downs := Function.update k.downs s (k.downs s + 1) }
    pure true
  else pure false

/-- The wakeup in `sema_up`. -/
def semaWake (s : σ) : KernelM θ σ Unit := do
  let sema ← gets Kernel.sema
  match (sema s).waiters with
  | [] => pure ()
  | t :: rest => do
    modify fun k => { k.setSema s { sema s with waiters := rest } with woken := Function.update k.woken s (t :: k.woken s) }
    threadUnblock t

/-- `sema_up`; the value is an `unsigned`. -/
def semaUp (s : σ) : KernelM θ σ Unit := do
  semaWake s
  modify fun k => { k.setSema s { k.sema s with value := ((k.sema s).value + 1) % 2 ^ 32 } with
    ups := Function.update k.ups s (k.ups s + 1) }

/-! ### Steps -/

/-- The steps. -/
inductive Action (θ σ : Type) where
  /-- `thread_create` with a page at `t`. -/
  | create (t : θ)
  /-- The `thread_unblock` at the end of `thread_create`. -/
  | start (t : θ)
  /-- `thread_yield`. -/
  | yield
  /-- `thread_exit`. -/
  | exit
  /-- A `thread_block` outside of `sema_down`. -/
  | block
  /-- A `thread_unblock` of a thread that called `thread_block` itself. -/
  | wake (t : θ)
  /-- `idle_thread = thread_current ()`. -/
  | idle
  /-- A turn of `sema_down`. -/
  | down (s : σ)
  /-- `sema_try_down`. -/
  | tryDown (s : σ)
  /-- `sema_up`. -/
  | up (s : σ)
  /-- A turn of the `sema_down` of `lock_acquire`. -/
  | acquire (l : σ)
  /-- The `sema_try_down` of `lock_try_acquire`. -/
  | tryAcquire (l : σ)
  /-- `lock->holder = thread_current ()`. -/
  | hold (l : σ)
  /-- `lock->holder = NULL` in `lock_release`. -/
  | release (l : σ)
  /-- The `sema_up` of `lock_release`. -/
  | raise (l : σ)

/-- One step. -/
def step : Action θ σ → KernelM θ σ Unit
  | .create t => threadCreate t
  | .start t => do
    threadUnblock t
    modify fun k => { k with maker := Function.update k.maker t none }
  | .yield => threadYield
  | .exit => threadExit
  | .block => do
    modify fun k => if k.idleThread ≠ some k.current then k.setPlace k.current .parked else k
    threadBlock
  | .wake t => do
    threadUnblock t
    modify (setPlace t .free)
  | .idle => modify fun k => { k with idleThread := some k.current }
  | .down s => semaTurn s (.down s) .free
  | .tryDown s => do
    let _ ← semaTryDown s
    pure ()
  | .up s => semaUp s
  | .acquire l => do
    let k ← gets id
    if k.place k.current = .free ∧ k.holder l = some k.current then stop .held
    else semaTurn l (.acquire l) (.acquired l)
  | .tryAcquire l => do
    let k ← gets id
    if k.holder l = some k.current then stop .held
    else do
      let success ← semaTryDown l
      onlyIf success (modify (setPlace k.current (.acquired l)))
  | .hold l => modify fun k => { k.setPlace k.current .free with holder := Function.update k.holder l (some k.current) }
  | .release l => do
    let k ← gets id
    if k.holder l = some k.current then
      modify fun k => { k.setPlace k.current (.release l) with holder := Function.update k.holder l none }
    else stop .notHeld
  | .raise l => do
    semaUp l
    modify fun k => k.setPlace k.current .free

/-- When a step can come: a new thread gets a page of its own, a thread goes on where it is, the idle thread does
not sleep on a semaphore, take or release a lock, exit or create threads, and the semaphore of a lock (`isLock`) is used by the lock's functions
only. -/
def Guard (isLock : σ → Prop) (k : Kernel θ σ) : Action θ σ → Prop
  | .create t => k.status t = none ∧ k.idleThread ≠ some k.current
  | .start t => k.maker t = some k.current
  | .yield => True
  | .exit => k.place k.current = .free ∧ k.idleThread ≠ some k.current
  | .block => k.place k.current = .free
  | .wake t => k.place t = .parked
  | .idle => k.idleThread = none ∧ k.place k.current = .free
  | .down s => ¬ isLock s ∧ k.idleThread ≠ some k.current ∧ (k.place k.current = .free ∨ k.place k.current = .down s)
  | .tryDown s => ¬ isLock s
  | .up s => ¬ isLock s
  | .acquire l =>
    isLock l ∧ k.idleThread ≠ some k.current ∧ (k.place k.current = .free ∨ k.place k.current = .acquire l)
  | .tryAcquire l => isLock l ∧ k.idleThread ≠ some k.current ∧ k.place k.current = .free
  | .hold l => k.place k.current = .acquired l
  | .release l => isLock l ∧ k.idleThread ≠ some k.current ∧ k.place k.current = .free
  | .raise l => k.place k.current = .release l

/-- The kernel after `thread_init` in the thread `main`, with the semaphores' initial values. -/
def boot (main : θ) (value : σ → Fin (2 ^ 32)) : Kernel θ σ where
  status := Function.update (fun _ => none) main (some .running)
  current := main
  readyList := []
  idleThread := none
  initialThread := main
  sema s := .init (value s).1
  holder _ := none
  place _ := .free
  maker _ := none
  ups _ := 0
  downs _ := 0
  woken _ := []

/-- **The states that the kernel reaches**, whatever the order of the steps. -/
def Reaches (isLock : σ → Prop) (main : θ) (value : σ → Fin (2 ^ 32)) (k : Kernel θ σ) : Prop :=
  Run step (fun a k => Guard isLock k a) (boot main value) k

end Kernel

end Pintos
