import Mathlib.Data.Fintype.Basic
import Mathlib.Data.Finset.Insert
import Pintos.Library.LockOrder
import Pintos.Library.Steps

/-!
# Locks around page faults

The locks `handlesem`, `framesem` and `swap_lock` as `page_fault` (`userprog/exception.c`),
`swap_in` (`vm/swap.c`), `SYS_READ` and `SYS_WRITE` (`userprog/syscall.c`) and
`process_exit` (`userprog/process.c`) take them. What a thread has still to do is a list
of actions in program order; threads take their actions in any order, and a kernel-mode
access to user memory may fault, which puts what the fault handler does in front of the
access that is tried again.

In order, the locks are `swap_lock`, `framesem`, `handlesem`: a user-mode fault loads a
page with `framesem` and then `handlesem`, and `process_exit` writes mapped pages back in
the same order. A fault inside `SYS_READ` or `SYS_WRITE` happens under `handlesem`. There
the kernel-mode branch that loads a page takes no lock, and the one for a write to a
read-only page releases `handlesem` first; the branches that grow the stack and that end
the process take `framesem` while `handlesem` is held.
-/

namespace Pintos.Locking

open Library

/-- The locks. -/
inductive Lock
  /-- `handlesem`, around the file system. -/
  | handlesem
  /-- `framesem`, around the frame lists. -/
  | framesem
  /-- `swap_lock`, around `swap_in`. -/
  | swapLock
deriving DecidableEq

instance : Fintype Lock := ⟨{.handlesem, .framesem, .swapLock}, fun l => by cases l <;> decide⟩

/-- The order in which the locks are meant to be taken. -/
def Lock.rank : Lock → ℕ
  | .swapLock => 0
  | .framesem => 1
  | .handlesem => 2

/-- An action of a thread. -/
inductive Act
  /-- `lock_acquire`. -/
  | acquire (l : Lock)
  /-- `lock_release`. -/
  | release (l : Lock)
  /-- `if (lock_held_by_current_thread (l)) lock_release (l)`. -/
  | releaseHeld (l : Lock)
  /-- The kernel reads, or writes, a byte of user memory. -/
  | touch (write : Bool)
  /-- The thread is gone. -/
  | die
deriving DecidableEq

open Lock Act

/-! ### What the activities do -/

/-- `before_munmap` of a dirty mapped page: `file_write_at` reads `n` bytes of it. -/
def beforeMunmap (n : ℕ) : List Act :=
  acquire handlesem :: (List.replicate n (touch false) ++ [release handlesem])

/-- `file_close` of one open file. -/
def closeFile : List Act :=
  [acquire handlesem, release handlesem]

/-- `process_exit`, with the dirty mapped pages and how many bytes of each are written back, and the
number of open files. -/
def processExit (pages : List ℕ) (files : ℕ) : List Act :=
  acquire framesem :: (pages.flatMap beforeMunmap ++ release framesem ::
    ((List.replicate files closeFile).flatten ++ [die]))

/-- `swap_in`. -/
def swapIn : List Act :=
  [acquire swapLock, acquire framesem, release framesem, release swapLock]

/-- What `page_fault` finds in user mode. -/
inductive UserFault
  /-- An address that is not the process's: `thread_exit`. -/
  | exit (pages : List ℕ) (files : ℕ)
  /-- A stack pointer in the code: only `returnstatus` is set. -/
  | code
  /-- No entry, and an address on the stack: the stack grows. -/
  | grow
  /-- The page is in swap. -/
  | inswap
  /-- The page is loaded from its file. -/
  | load
  /-- The page is loaded from its file, which is too short. -/
  | loadShort
  /-- `allocate_frame` fails: the page is present, and was written to though it is read-only. -/
  | loadPresent (pages : List ℕ) (files : ℕ)

/-- `page_fault`, user mode. -/
def pageFaultUser : UserFault → List Act
  | .exit pages files => processExit pages files
  | .code => []
  | .grow => [acquire framesem, release framesem]
  | .inswap => swapIn
  | .load => [acquire framesem, acquire handlesem, release handlesem, release framesem]
  | .loadShort => [acquire framesem, acquire handlesem, release framesem, release handlesem]
  | .loadPresent pages files => acquire framesem :: release framesem :: processExit pages files

/-- What `page_fault` finds in kernel mode. A fault that panics ends the run, and is left out. -/
inductive KernelFault
  /-- The page has an entry with a file, and is loaded: no lock is taken. -/
  | load
  /-- No entry, and an address above `process_stack`: the stack grows. -/
  | grow
  /-- No entry, and an address that is not on the stack: `thread_exit`. -/
  | exit (pages : List ℕ) (files : ℕ)
  /-- The page is present: a write to a read-only page. -/
  | rights (pages : List ℕ) (files : ℕ)

/-- `page_fault`, kernel mode, at an access to user memory that heads `rest`: what the thread does from
there on. An access that only reads finds no present page in its way. -/
def pageFaultKernel (write : Bool) (rest : List Act) : KernelFault → Option (List Act)
  | .load => some (touch write :: rest)
  | .grow => some (acquire framesem :: release framesem :: touch write :: rest)
  | .exit pages files => some (processExit pages files)
  | .rights pages files => if write then some (releaseHeld handlesem :: processExit pages files) else none

/-- What a thread begins to do when it enters the kernel. The system calls first read `args` bytes of user
memory: the arguments, and what `get_user` checks. -/
inductive Activity
  | fault (o : UserFault)
  /-- `SYS_READ` from a file, `size` bytes into the buffer. -/
  | read (args size : ℕ)
  /-- `SYS_READ` from the keyboard. -/
  | readConsole (args size : ℕ)
  /-- `SYS_WRITE` to a file. -/
  | write (args size : ℕ)
  /-- `SYS_WRITE` to the console. -/
  | writeConsole (args size : ℕ)
  /-- `SYS_EXIT`, or a system call that ends the process because of its arguments. -/
  | exit (args : ℕ) (pages : List ℕ) (files : ℕ)

/-- The actions of an activity. -/
def Activity.acts : Activity → List Act
  | .fault o => pageFaultUser o
  | .read args size => List.replicate args (touch false) ++
      acquire handlesem :: (List.replicate size (touch true) ++ [release handlesem])
  | .readConsole args size => List.replicate args (touch false) ++ (List.replicate size (touch true) ++ [])
  | .write args size => List.replicate args (touch false) ++
      acquire handlesem :: (List.replicate size (touch false) ++ [release handlesem])
  | .writeConsole args size => List.replicate args (touch false) ++ (List.replicate size (touch false) ++ [])
  | .exit args pages files => List.replicate args (touch false) ++ processExit pages files

/-! ### Threads -/

/-- The threads and the locks. -/
structure State where
  /-- What each thread has still to do; nothing in user mode. -/
  todo : ℕ → List Act
  /-- `l->holder`. -/
  holder : Lock → Option ℕ
  dead : ℕ → Bool

/-- No thread is in the kernel. -/
def State.init : State := ⟨fun _ => [], fun _ => none, fun _ => false⟩

namespace State

variable (s : State) (t : ℕ)

/-- The lock that a thread's next action acquires. -/
def wants : Option Lock :=
  match s.todo t with
  | acquire l :: _ => some l
  | _ => none

/-- The locks a thread holds. -/
def held : Finset Lock := Finset.univ.filter fun l => s.holder l = some t

/-- The thread goes on with `l`. -/
def goOn (l : List Act) : State := { s with todo := Function.update s.todo t l }

/-- The lock changes hands. -/
def hand (l : Lock) (o : Option ℕ) : State := { s with holder := Function.update s.holder l o }

/-- One action of a thread, with what remains after it; nothing where the thread blocks or an assertion
fails. -/
def perform (rest : List Act) : Act → Option State
  | acquire l => if s.holder l = none then some ((s.hand l (some t)).goOn t rest) else none
  | release l => if s.holder l = some t then some ((s.hand l none).goOn t rest) else none
  | releaseHeld l => if s.holder l = some t then some ((s.hand l none).goOn t rest) else some (s.goOn t rest)
  | touch _ => some (s.goOn t rest)
  | die => some { s.goOn t rest with dead := Function.update s.dead t true }

end State

/-- What happens next. -/
inductive Event
  /-- A thread enters the kernel. -/
  | enter (t : ℕ) (a : Activity)
  /-- A thread takes its next action. -/
  | step (t : ℕ)
  /-- A thread's next action, an access to user memory, faults. -/
  | fault (t : ℕ) (k : KernelFault)

/-- The state after an event; nothing where the event cannot happen. -/
def next : Event → State → Option State
  | .enter t a, s => if s.dead t = false ∧ s.todo t = [] then some (s.goOn t a.acts) else none
  | .step t, s =>
    match s.todo t with
    | [] => none
    | a :: rest => s.perform t rest a
  | .fault t k, s =>
    match s.todo t with
    | touch w :: rest => (pageFaultKernel w rest k).map (s.goOn t)
    | _ => none

/-- `Orderly held l`: a thread that holds `held` takes locks in order through all of `l`, releases only what
it holds, and ends without a lock. It touches user memory either without a lock or under `handlesem`, and
writes to it under no other. -/
def Orderly : Finset Lock → List Act → Prop
  | held, [] => held = ∅
  | held, acquire l :: rest => (∀ m ∈ held, m.rank < l.rank) ∧ Orderly (insert l held) rest
  | held, release l :: rest => l ∈ held ∧ Orderly (held.erase l) rest
  | held, releaseHeld l :: rest => Orderly (held.erase l) rest
  | held, touch write :: rest =>
    (handlesem ∉ held → held = ∅) ∧ (write = true → held ⊆ {handlesem}) ∧ Orderly held rest
  | held, die :: rest => Orderly held rest

theorem Orderly.touches {held : Finset Lock} {write : Bool} {rest : List Act} (n : ℕ)
    (hn : handlesem ∉ held → held = ∅) (hw : write = true → held ⊆ {handlesem}) (h : Orderly held rest) :
    Orderly held (List.replicate n (touch write) ++ rest) := by
  induction n with
  | zero => exact h
  | succ n ih => exact ⟨hn, hw, ih⟩

theorem Orderly.beforeMunmap {rest : List Act} (pages : List ℕ) (h : Orderly {framesem} rest) :
    Orderly {framesem} (pages.flatMap beforeMunmap ++ rest) := by
  induction pages with
  | nil => exact h
  | cons n pages ih =>
    simp only [List.flatMap_cons, Locking.beforeMunmap, List.cons_append, List.append_assoc, List.nil_append]
    refine ⟨by decide, ?_⟩
    apply Orderly.touches n (by decide) (by decide)
    exact ⟨by decide, ih⟩

theorem Orderly.closeFiles (files : ℕ) : Orderly ∅ ((List.replicate files closeFile).flatten ++ [die]) := by
  induction files with
  | zero => exact rfl
  | succ n ih => exact ⟨by decide, by decide, ih⟩

theorem orderly_processExit (pages : List ℕ) (files : ℕ) : Orderly ∅ (processExit pages files) := by
  refine ⟨by decide, ?_⟩
  apply Orderly.beforeMunmap pages
  exact ⟨by decide, Orderly.closeFiles files⟩

theorem orderly_pageFaultUser (o : UserFault) : Orderly ∅ (pageFaultUser o) := by
  cases o with
  | exit pages files => exact orderly_processExit pages files
  | code => exact rfl
  | grow => exact ⟨by decide, by decide, rfl⟩
  | inswap => exact ⟨by decide, by decide, by decide, by decide, rfl⟩
  | load => exact ⟨by decide, by decide, by decide, by decide, rfl⟩
  | loadShort => exact ⟨by decide, by decide, by decide, by decide, rfl⟩
  | loadPresent pages files => exact ⟨by decide, by decide, orderly_processExit pages files⟩

/-- Every activity takes the locks in order. -/
theorem Activity.orderly (a : Activity) : Orderly ∅ a.acts := by
  have free (w : Bool) {rest : List Act} (n : ℕ) (h : Orderly ∅ rest) :
      Orderly ∅ (List.replicate n (touch w) ++ rest) :=
    h.touches n (fun _ => rfl) (fun _ => Finset.empty_subset _)
  have locked (w : Bool) (n : ℕ) :
      Orderly ∅ (acquire handlesem :: (List.replicate n (touch w) ++ [release handlesem])) := by
    refine ⟨by decide, ?_⟩
    apply Orderly.touches n (by decide) (fun _ => by decide)
    exact ⟨by decide, rfl⟩
  have done : Orderly ∅ [] := rfl
  cases a with
  | fault o => exact orderly_pageFaultUser o
  | read n size => exact free false n (locked true size)
  | readConsole n size => exact free false n (free true size done)
  | write n size => exact free false n (locked false size)
  | writeConsole n size => exact free false n (free false size done)
  | exit n pages files => exact free false n (orderly_processExit pages files)

/-- A fault in kernel mode keeps to the order when it is loaded, releases `handlesem`, or finds it free. -/
theorem Orderly.pageFaultKernel {held : Finset Lock} {write : Bool} {rest l : List Act} {k : KernelFault}
    (h : Orderly held (touch write :: rest)) (hl : pageFaultKernel write rest k = some l)
    (hk : handlesem ∈ held → (k = .load) ∨ ∃ pages files, k = .rights pages files) : Orderly held l := by
  have free (hne : ¬ handlesem ∈ held) : held = ∅ := h.1 hne
  cases k with
  | load => cases hl; exact h
  | grow =>
    have he : held = ∅ := free fun hm => by simpa using hk hm
    subst he
    cases hl
    exact ⟨by decide, by decide, h⟩
  | exit pages files =>
    have he : held = ∅ := free fun hm => by simpa using hk hm
    subst he
    cases hl
    exact orderly_processExit pages files
  | rights pages files =>
    cases write with
    | false => cases hl
    | true =>
      cases hl
      have he : held.erase handlesem = ∅ := by
        rw [← Finset.subset_empty]
        exact (Finset.erase_subset_erase _ (h.2.1 rfl)).trans (by decide)
      change Orderly (held.erase handlesem) _
      rw [he]
      exact orderly_processExit pages files

/-! ### Whole runs -/

/-- What every thread has to do is in order. -/
def Inv (s : State) : Prop := ∀ t, Orderly (s.held t) (s.todo t)

namespace State

variable {s : State} {t u : ℕ} {l : Lock}

theorem mem_held : l ∈ s.held t ↔ s.holder l = some t := by simp [held]

@[simp] theorem todo_goOn_same (a : List Act) : (s.goOn t a).todo t = a := Function.update_self ..

theorem todo_goOn_of_ne (a : List Act) (h : u ≠ t) : (s.goOn t a).todo u = s.todo u := Function.update_of_ne h ..

@[simp] theorem held_goOn (a : List Act) : (s.goOn t a).held u = s.held u := rfl

theorem held_acquire (hl : s.holder l = none) :
    (s.hand l (some t)).held u = if u = t then insert l (s.held t) else s.held u := by
  ext m
  by_cases hm : m = l
  · subst hm
    have hu : some t = some u ↔ u = t := by simp [eq_comm]
    split_ifs with h <;> simp [mem_held, hand, hl, hu, h]
  · split_ifs with h <;> simp [mem_held, hand, hm, h]

theorem held_release (hl : s.holder l = some t) :
    (s.hand l none).held u = if u = t then (s.held t).erase l else s.held u := by
  ext m
  by_cases hm : m = l
  · subst hm
    have hu : some t = some u ↔ u = t := by simp [eq_comm]
    split_ifs with h <;> simp [mem_held, hand, hl, hu, h]
  · split_ifs with h <;> simp [mem_held, hand, hm, h]

end State

/-- A thread goes on with what is in order for the locks it holds; the others go on as before. -/
theorem Inv.goOn {s s' : State} {t : ℕ} {a : List Act} (h : Inv s) (hs : ∀ u, u ≠ t → s'.held u = s.held u)
    (htodo : s'.todo = s.todo) (ha : Orderly (s'.held t) a) : Inv (s'.goOn t a) := by
  intro u
  by_cases hu : u = t
  · subst hu
    simpa using ha
  · rw [State.todo_goOn_of_ne _ hu, State.held_goOn, hs u hu, htodo]
    exact h u

theorem Inv.perform {s s' : State} {t : ℕ} {a : Act} {rest : List Act} (h : Inv s) (htodo : s.todo t = a :: rest)
    (hs : s.perform t rest a = some s') : Inv s' := by
  have ht := h t
  rw [htodo] at ht
  cases a with
  | acquire l =>
    simp only [State.perform, Option.ite_none_right_eq_some, Option.some.injEq] at hs
    obtain ⟨hl, rfl⟩ := hs
    refine h.goOn (fun u hu => ?_) rfl ?_
    · rw [State.held_acquire hl, if_neg hu]
    · rw [State.held_acquire hl, if_pos rfl]
      exact ht.2
  | release l =>
    simp only [State.perform, Option.ite_none_right_eq_some, Option.some.injEq] at hs
    obtain ⟨hl, rfl⟩ := hs
    refine h.goOn (fun u hu => ?_) rfl ?_
    · rw [State.held_release hl, if_neg hu]
    · rw [State.held_release hl, if_pos rfl]
      exact ht.2
  | releaseHeld l =>
    by_cases hl : s.holder l = some t
    · simp only [State.perform, if_pos hl, Option.some.injEq] at hs
      subst hs
      refine h.goOn (fun u hu => ?_) rfl ?_
      · rw [State.held_release hl, if_neg hu]
      · rw [State.held_release hl, if_pos rfl]
        exact ht
    · simp only [State.perform, if_neg hl, Option.some.injEq] at hs
      subst hs
      have hne : l ∉ s.held t := fun hm => hl (State.mem_held.1 hm)
      refine h.goOn (fun _ _ => rfl) rfl ?_
      rw [← Finset.erase_eq_of_notMem hne]
      exact ht
  | touch w =>
    cases hs
    exact h.goOn (fun _ _ => rfl) rfl ht.2.2
  | die =>
    cases hs
    exact h.goOn (fun _ _ => rfl) rfl ht

/-- No fault under `handlesem` takes `framesem`: in kernel mode, a thread that holds `handlesem` neither grows
its stack nor ends its process, but in the branch that releases the lock first. -/
def Calm : Event → State → Prop
  | .fault t k, s => s.holder handlesem = some t → k = .load ∨ ∃ pages files, k = .rights pages files
  | _, _ => True

theorem Inv.step {e : Event} {s s' : State} (h : Inv s) (he : Calm e s) (hs : next e s = some s') : Inv s' := by
  cases e with
  | enter t a =>
    simp only [next, Option.ite_none_right_eq_some, Option.some.injEq] at hs
    obtain ⟨⟨_, ht⟩, rfl⟩ := hs
    have hfree : s.held t = ∅ := by simpa [ht, Orderly] using h t
    refine h.goOn (fun _ _ => rfl) rfl ?_
    rw [hfree]
    exact a.orderly
  | step t =>
    simp only [next] at hs
    split at hs
    · cases hs
    · next a rest htodo => exact h.perform htodo hs
  | fault t k =>
    simp only [next] at hs
    split at hs
    · next w rest htodo =>
      obtain ⟨l, hl, rfl⟩ := Option.map_eq_some_iff.1 hs
      have ht := h t
      rw [htodo] at ht
      exact h.goOn (fun _ _ => rfl) rfl (ht.pageFaultKernel hl fun hm => he (State.mem_held.1 hm))
    · cases hs

/-- What `Calm` admits, as a test. -/
def calm : Event → State → Bool
  | .fault t .grow, s => s.holder handlesem != some t
  | .fault t (.exit _ _), s => s.holder handlesem != some t
  | _, _ => true

theorem Calm.of_calm {e : Event} {s : State} (h : calm e s = true) : Calm e s := by
  cases e with
  | enter t a => trivial
  | step t => trivial
  | fault t k =>
    intro ht
    cases k with
    | load => exact .inl rfl
    | rights pages files => exact .inr ⟨pages, files, rfl⟩
    | grow => simp [calm, ht] at h
    | exit pages files => simp [calm, ht] at h

end Pintos.Locking
