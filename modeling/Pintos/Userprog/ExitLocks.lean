import Pintos.Userprog.TrapSpec

/-!
# Ending a process without locks

Whether a thread that `page_fault` or `syscall_handler` sends to `thread_exit` holds
`handlesem`, `framesem` or `swap_lock`. The only accesses to user memory under a lock are
those of `file_read`, `file_write` and `strlen` in `SYS_READ`, `SYS_WRITE` and
`SYS_MUNMAP`, and those of `before_munmap` in `process_exit`. A write to a read-only page
gives `handlesem` back; a fault on a page that is not present does not, and ends the
process if the page has no entry and lies at or below `process_stack`, or if
`process_stack` lies in the code section.
-/

namespace Pintos.Trap

open Library
open Locking (Lock)
open Locking.Lock
open Paging (pgsize physBase)

/-- What the points of interest have to do with locks. -/
def LockFree : Point → Regs → Prop
  | .back, r => r.held = ∅
  | .exit _, r => r.held = ∅
  | .touch true, r => r.held ⊆ {handlesem}
  | _, _ => True

/-- `syscall_handler`, entered without a lock. -/
theorem callOk_lockFree {mem : ℕ → UInt8} {r : Regs} {esp : ℕ} (hr : r.held = ∅) : CallOk LockFree mem r esp where
  back := hr
  mapped := hr
  touch write := by
    cases write with
    | false => trivial
    | true =>
      change r.held ⊆ {handlesem}
      rw [hr]
      exact Finset.empty_subset _
  locked write _ := by
    cases write with
    | false => trivial
    | true =>
      change insert handlesem r.held ⊆ {handlesem}
      rw [hr]
      exact subset_rfl
  slot _ _ _ _ := trivial
  lockedSlot _ _ _ := trivial
  mapSlot _ := trivial
  called _ := hr
  badStack := hr
  badArgument _ _ := hr
  remove _ _ := hr

/-- **The condition**: an access under a lock that finds its page absent is not one whose fault ends the
process. The page has an entry or the address lies above `process_stack`, and `process_stack` lies above the
code section. -/
def Spared : Event → Machine → Prop
  | .step _, s => s.Killed → s.regs.held = ∅
  | _, _ => True

/-- No lock is held at `intr_exit` and at `thread_exit`. -/
theorem holds_lockFree {s₀ s : Machine} (h₀ : s₀.Started) (h : Reach Machine.next Spared s₀ s) :
    s.code.Holds LockFree s.mem s.regs := by
  apply Holds.reach h
  · rw [h₀.code, h₀.regs]
    exact rfl
  · intro c mem s _ hb
    cases c with
    | syscall esp => exact (callOk_lockFree hb).syscallHandler
    | fault addr esp => exact holds_pageFaultUser (fun _ _ => hb) hb
    | exception => exact hb
  · exact fun a s hg hk => hg hk
  · intro r hr
    change r.held.erase handlesem = ∅
    rw [← Finset.subset_empty]
    exact (Finset.erase_subset_erase _ (hr : r.held ⊆ {handlesem})).trans (by decide)
  · exact fun why mem r _ => holds_processExit (fun _ _ => trivial) trivial

/-- A fault that ends the process leads to `thread_exit` with the locks as they are. -/
theorem exit_of_killed {s : Machine} (hk : s.Killed) (a : ℕ) :
    ∃ s₁ s₂, s.run a = some s₁ ∧ s₁.run 0 = some s₂ ∧ s₂.code = .threadExit .pageFault ∧ s₂.regs.held = s.regs.held := by
  obtain ⟨addr, ht, hb, hp, hkill⟩ := hk
  have hdie (retry : Code) : pageFaultAbsent s.space addr retry = die .pageFault := by
    unfold pageFaultAbsent
    rw [if_neg (not_le.2 hb), if_pos hkill]
  have hrun : s.run a = some (s.goOn (die .pageFault)) := by
    unfold Machine.run
    cases hc : s.code with
    | load addr' k =>
      rw [hc] at ht
      cases ht
      simp only [if_neg (not_le.2 hb), hp, hdie]
    | store addr' k =>
      rw [hc] at ht
      cases ht
      simp only [if_neg (not_le.2 hb), hp, hdie]
    | _ =>
      rw [hc] at ht
      cases ht
  exact ⟨_, _, hrun, rfl, rfl, rfl⟩

/-- **A thread that is sent to `thread_exit` holds no lock**, in every run in which no access under a lock
meets a fault that ends the process; and such a fault is met with the lock held. -/
theorem thread_exit_holds_no_lock {s₀ s : Machine} (h₀ : s₀.Started) (h : Reach Machine.next Spared s₀ s) :
    (∀ why, s.code = .threadExit why → s.regs.held = ∅) ∧
    (s.Killed → s.regs.held ≠ ∅ → ∀ a, ∃ s₁ s₂, s.run a = some s₁ ∧ s₁.run 0 = some s₂ ∧
      s₂.code = .threadExit .pageFault ∧ s₂.regs.held ≠ ∅) := by
  constructor
  · intro why hc
    have hs := holds_lockFree h₀ h
    rw [hc] at hs
    exact hs
  · intro hk hne a
    obtain ⟨s₁, s₂, h₁, h₂, hc, hh⟩ := exit_of_killed hk a
    exact ⟨s₁, s₂, h₁, h₂, hc, hh ▸ hne⟩

/-- A thread at `thread_exit`, for which `p` is true of the locks it holds. -/
def exitsWith (p : Finset Lock → Bool) (s : Machine) : Bool :=
  match s.code with
  | .threadExit _ => p s.regs.held
  | _ => false

theorem of_exitsWith {p : Finset Lock → Bool} {s : Machine} (h : exitsWith p s = true) :
    (∃ why, s.code = .threadExit why) ∧ p s.regs.held = true := by
  unfold exitsWith at h
  cases hc : s.code with
  | threadExit why =>
    rw [hc] at h
    exact ⟨⟨why, rfl⟩, h⟩
  | _ =>
    rw [hc] at h
    cases h

/-- The check for `Spared`. -/
def spares (_ : Event) (s : Machine) : Bool :=
  match s.code.touches with
  | none => true
  | some addr => s.regs.held = ∅ || !(s.space.pagedir (pgRoundDown addr)).isNone

theorem spared_of_spares (e : Event) (s : Machine) (h : spares e s = true) : Spared e s := by
  cases e with
  | step a =>
    rintro ⟨addr, ht, _, hp, _⟩
    simp only [spares, ht, hp, Option.isNone_none, Bool.not_true, Bool.or_false, decide_eq_true_eq] at h
    exact h
  | trap c mem => trivial
  | evict page => trivial

/-- `open` and then `read` into a buffer of one byte, and `read` from a descriptor that is out of range, which ends
the process. -/
theorem thread_exit_holds_no_lock_read : ∃ s, loaded.Started ∧ Reach Machine.next Spared loaded s ∧
    (∃ why, s.code = .threadExit why) ∧ s.regs.held = ∅ := by
  have hrun : (follow Machine.next spares
      (call [6, 0x804a000] 2 21 ++ call [8, 2, 0x804afff, 1] 2 24 ++ call [8, 200, 0x804afff, 1] 2 11) loaded).any
      (exitsWith fun _ => true) = true := by decide +kernel
  obtain ⟨s, hs, hp⟩ := reach_of_follow hrun spared_of_spares
  obtain ⟨⟨why, hc⟩, _⟩ := of_exitsWith hp
  exact ⟨s, started_loaded, hs, ⟨why, hc⟩, (thread_exit_holds_no_lock started_loaded hs).1 why hc⟩

/-- **A thread ends with `handlesem`**: `read` of two bytes into a buffer that begins with the last byte of a
page, the next page being none of the process's. -/
theorem thread_exit_with_handlesem : ∃ s, loaded.Started ∧ Reach Machine.next (fun _ _ => True) loaded s ∧
    (∃ why, s.code = .threadExit why) ∧ handlesem ∈ s.regs.held := by
  have hrun : (follow Machine.next (fun _ _ => true)
      (call [6, 0x804a000] 2 21 ++ call [8, 2, 0x804afff, 2] 2 25) loaded).any
      (exitsWith fun held => handlesem ∈ held) = true := by decide +kernel
  obtain ⟨s, hs, hp⟩ : ∃ s, Reach Machine.next (fun _ _ => True) loaded s ∧ _ :=
    reach_of_follow hrun fun _ _ _ => trivial
  obtain ⟨hc, hh⟩ := of_exitsWith hp
  exact ⟨s, started_loaded, hs, hc, of_decide_eq_true hh⟩

end Pintos.Trap
