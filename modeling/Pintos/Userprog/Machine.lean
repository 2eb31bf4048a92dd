import Pintos.Userprog.Syscall
import Pintos.Library.Steps

/-!
# A process in and out of the kernel

The steps of one process: its user program runs and traps, the kernel code goes on step
by step, and at any time a frame of the process may be taken and its page swapped out.
An access of the kernel to user memory that finds no page, or a page it may not write,
faults, and what `page_fault` does comes before the access is tried again.

`Holds.run` is the rule for all that follows: code that holds a condition at every point
of interest goes on doing so, whatever is answered, if the faults that end the process
meet the condition too.
-/

namespace Pintos.Trap

open Library
open Locking (Lock)
open Locking.Lock
open Paging (pgsize physBase)

/-- A process's thread, with its address space. -/
structure Machine where
  code : Code
  space : Space
  regs : Regs
  /-- What the addresses hold. -/
  mem : ℕ → UInt8
  /-- Why `thread_exit` was called, once it was. -/
  ended : Option Why
  /-- How many calls of `SYS_MMAP` have succeeded. -/
  maps : ℕ

/-- Why the user program enters the kernel. -/
inductive Cause
  /-- `int $0x30`. -/
  | syscall (esp : ℕ)
  /-- A page fault. -/
  | fault (addr esp : ℕ)
  /-- An exception that `exception_init` routes to `kill`. -/
  | exception

/-- What the kernel does. -/
def Cause.code : Cause → Code
  | .syscall esp => syscallHandler esp
  | .fault addr esp => pageFaultUser addr esp
  | .exception => kill

/-- What happens next. -/
inductive Event
  /-- The user program has run, has left the memory like this, and traps. -/
  | trap (t : Cause) (mem : ℕ → UInt8)
  /-- The kernel code takes its next step, with an answer if it asks for one. -/
  | step (answer : ℕ)
  /-- `swap_out` takes the frame of a page, here or in another process. -/
  | evict (page : ℕ)

/-- The address that the next step accesses. -/
def Code.touches : Code → Option ℕ
  | .load addr _ => some addr
  | .store addr _ => some addr
  | _ => none

namespace Machine

/-- Go on with `k`. -/
def goOn (s : Machine) (k : Code) : Machine := { s with code := k }

/-- Go on with `k`, holding these locks. -/
def holding (s : Machine) (held : Finset Lock) (k : Code) : Machine :=
  { s with code := k, regs := { s.regs with held := held } }

/-- A position in `fdtable`. -/
def InTable (fd : ℤ) : Prop := 0 ≤ fd ∧ fd < filesMax

instance (fd : ℤ) : Decidable (InTable fd) := inferInstanceAs (Decidable (_ ∧ _))

/-- **The next step of the kernel code.** -/
def run (a : ℕ) (s : Machine) : Option Machine :=
  match s.code with
  | .iret | .gone | .powerOff | .panic | .wild => none
  | .setStatus v k => some { s with code := k, regs := { s.regs with returnstatus := v } }
  | .acquire l k => some (if l ∈ s.regs.held then s.goOn .panic else s.holding (insert l s.regs.held) k)
  | .release l k => some (if l ∈ s.regs.held then s.holding (s.regs.held.erase l) k else s.goOn .panic)
  | .releaseHeld l k => some (s.holding (s.regs.held.erase l) k)
  | .load addr k =>
    -- above `PHYS_BASE` the kernel reads its own memory, or panics
    if physBase ≤ addr then some (if a = 0 then s.goOn .panic else s.goOn (k (s.mem addr)))
    else
      match s.space.pagedir (pgRoundDown addr) with
      | some _ => some (s.goOn (k (s.mem addr)))
      | none => some (s.goOn (pageFaultAbsent s.space addr (.load addr k)))
  | .store addr k =>
    if physBase ≤ addr then some (s.goOn .wild)
    else
      match s.space.pagedir (pgRoundDown addr) with
      | some true => some { s with code := k, mem := Function.update s.mem addr (UInt8.ofNat a) }
      | some false => some (s.goOn pageFaultRights)
      | none => some (s.goOn (pageFaultAbsent s.space addr (.store addr k)))
  | .fdAt fd k => some (s.goOn (if InTable fd then k (s.space.fdtable fd.toNat) else .wild))
  | .setFd fd file k =>
    some (if InTable fd then
        { s with code := k, space := { s.space with fdtable := Function.update s.space.fdtable fd.toNat file } }
      else s.goOn .wild)
  | .mapid k => some (s.goOn (k s.regs.nextMapid))
  | .setMap k =>
    some (if s.regs.nextMapid < 128 then
        { s with code := k, regs := { s.regs with nextMapid := s.regs.nextMapid + 1 }, maps := s.maps + 1 }
      else s.goOn .wild)
  | .ask k => some (s.goOn (k a))
  | .look k => some (s.goOn (k s.space))
  | .change f k => some { s with code := k, space := f s.space }
  | .threadExit why => some { s with code := processExit, ended := some why }

/-- The state after an event; nothing where the event cannot happen. -/
def next : Event → Machine → Option Machine
  | .trap t mem, s =>
    match s.code with
    | .iret => some { s with code := t.code, mem := mem }
    | _ => none
  | .step a, s => s.run a
  | .evict page, s => some { s with space := s.space.swapOut page }

/-- **A process that has been loaded** and enters its user program for the first time. -/
structure Started (s : Machine) : Prop where
  code : s.code = .iret
  regs : s.regs = { held := ∅, returnstatus := 0, nextMapid := 3 }
  fdtable : ∀ fd, s.space.fdtable fd = 0
  nextfd : s.space.nextfd = 2
  ended : s.ended = none
  maps : s.maps = 0

/-- The next step faults on a page that is not present, and the fault ends the process. -/
def Killed (s : Machine) : Prop :=
  ∃ addr, s.code.touches = some addr ∧ addr < physBase ∧ s.space.pagedir (pgRoundDown addr) = none ∧ kills s.space addr

end Machine

/-! ### The rule -/

variable {I : Point → Regs → Prop} {s s' : Machine}

/-- **One step of code that holds.** -/
theorem Holds.run {a : ℕ} (h : s.code.Holds I s.mem s.regs) (hs : s.run a = some s')
    (hkill : s.Killed → I (.exit .pageFault) { s.regs with returnstatus := -1 })
    (hrights : I (.touch true) s.regs →
      I (.exit .pageFault) { s.regs with held := s.regs.held.erase handlesem, returnstatus := -1 })
    (hexit : ∀ why, s.code = .threadExit why → processExit.Holds I s.mem s.regs) :
    s'.code.Holds I s'.mem s'.regs := by
  cases hc : s.code with
  | iret | gone | powerOff | panic | wild => simp [Machine.run, hc] at hs
  | setStatus v k =>
    rw [hc] at h
    simp only [Machine.run, hc, Option.some.injEq] at hs
    subst hs
    exact h
  | acquire l k =>
    rw [hc] at h
    simp only [Machine.run, hc, Option.some.injEq] at hs
    subst hs
    split_ifs with hl
    · trivial
    · exact h hl
  | release l k =>
    rw [hc] at h
    simp only [Machine.run, hc, Option.some.injEq] at hs
    subst hs
    split_ifs with hl
    · exact h hl
    · trivial
  | releaseHeld l k =>
    rw [hc] at h
    simp only [Machine.run, hc, Option.some.injEq] at hs
    subst hs
    exact h
  | load addr k =>
    have h' := h
    rw [hc] at h'
    simp only [Machine.run, hc] at hs
    split_ifs at hs with hb ha
    · cases hs
      trivial
    · cases hs
      exact h'.2
    · cases hp : s.space.pagedir (pgRoundDown addr) with
      | some w =>
        simp only [hp, Option.some.injEq] at hs
        subst hs
        exact h'.2
      | none =>
        simp only [hp, Option.some.injEq] at hs
        subst hs
        exact holds_pageFaultAbsent hp h' fun hk => hkill ⟨addr, by rw [hc]; rfl, lt_of_not_ge hb, hp, hk⟩
  | store addr k =>
    have h' := h
    rw [hc] at h'
    simp only [Machine.run, hc] at hs
    split_ifs at hs with hb
    · simp only [Option.some.injEq] at hs
      subst hs
      trivial
    · cases hp : s.space.pagedir (pgRoundDown addr) with
      | some w =>
        cases w with
        | true =>
          simp only [hp, Option.some.injEq] at hs
          subst hs
          exact h'.2 _
        | false =>
          simp only [hp, Option.some.injEq] at hs
          subst hs
          exact holds_pageFaultRights (hrights h'.1)
      | none =>
        simp only [hp, Option.some.injEq] at hs
        subst hs
        exact holds_pageFaultAbsent hp h' fun hk => hkill ⟨addr, by rw [hc]; rfl, lt_of_not_ge hb, hp, hk⟩
  | fdAt fd k =>
    rw [hc] at h
    simp only [Machine.run, hc, Option.some.injEq] at hs
    subst hs
    simp only [Machine.goOn]
    split_ifs
    · exact h.2 _
    · trivial
  | setFd fd file k =>
    rw [hc] at h
    simp only [Machine.run, hc, Option.some.injEq] at hs
    subst hs
    split_ifs
    · exact h.2
    · trivial
  | mapid k =>
    rw [hc] at h
    simp only [Machine.run, hc, Option.some.injEq] at hs
    subst hs
    exact h
  | setMap k =>
    rw [hc] at h
    simp only [Machine.run, hc, Option.some.injEq] at hs
    subst hs
    split_ifs
    · exact h.2
    · trivial
  | ask k =>
    rw [hc] at h
    simp only [Machine.run, hc, Option.some.injEq] at hs
    subst hs
    exact h a
  | look k =>
    rw [hc] at h
    simp only [Machine.run, hc, Option.some.injEq] at hs
    subst hs
    exact h s.space
  | change f k =>
    rw [hc] at h
    simp only [Machine.run, hc, Option.some.injEq] at hs
    subst hs
    exact h
  | threadExit why =>
    simp only [Machine.run, hc, Option.some.injEq] at hs
    subst hs
    exact hexit why hc

end Pintos.Trap
