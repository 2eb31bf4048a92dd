import Pintos.Userprog.TrapSpec
import Pintos.Userprog.Wait

/-!
# Exit statuses

From `SYS_EXIT` of a child, or whatever else ends it, to what `SYS_WAIT` of its parent
returns. The parent and its children are those of `Wait`; each child runs as a process in
and out of the kernel, and its `returnstatus` is the one that its traps have set.

`SYS_EXIT` reads its argument with `get_user`, which returns one byte, and takes an
argument above `PHYS_BASE` for a bad pointer. `kill` and the pointer check of
`SYS_REMOVE` call `thread_exit` without setting `returnstatus`.
-/

namespace Pintos.Trap

open Library
open Locking.Lock
open Paging (pgsize physBase)

/-- The status that `SYS_EXIT` leaves for the word it is called with. -/
def delivered (w : ℕ) : ℤ := if w < physBase then ((w % 256 : ℕ) : ℤ) else -1

/-- What `returnstatus` is at `thread_exit`. -/
def Marked (v : ℤ) : Why → Prop
  | .called w => w < 2 ^ 32 ∧ v = delivered w
  | .badArgument num => num ≠ 5 → v = -1
  | .badStack | .pageFault => v = -1
  | .exception => True

/-- Before `thread_exit`. -/
def Stated : Point → Regs → Prop
  | .exit why, r => Marked r.returnstatus why
  | .gone, _ => False
  | _, _ => True

/-- After `thread_exit`. A fault there happens under `framesem`, which `process_exit` cannot take again. -/
def Final (why : Why) : Point → Regs → Prop
  | .gone, r => Marked r.returnstatus why
  | .touch _, r => framesem ∈ r.held
  | .exit _, r => framesem ∈ r.held
  | .back, _ => False
  | _, _ => True

theorem wordAt_lt (mem : ℕ → UInt8) (addr : ℕ) : wordAt mem addr < 2 ^ 32 := by
  have hb (i : ℕ) : (mem i).toNat < 2 ^ 8 := UInt8.toNat_lt (mem i)
  have h₀ := hb addr
  have h₁ := hb (addr + 1)
  have h₂ := hb (addr + 2)
  have h₃ := hb (addr + 3)
  unfold wordAt
  omega

theorem exitStatus_eq (mem : ℕ → UInt8) (esp : ℕ) : exitStatus mem esp = delivered (arg mem esp 1) := by
  have hb : arg mem esp 1 % 256 = (mem (esp + 4)).toNat := by
    have h₀ : (mem (esp + 4)).toNat < 2 ^ 8 := UInt8.toNat_lt _
    change wordAt mem (esp + 4) % 256 = _
    unfold wordAt
    omega
  unfold exitStatus delivered
  rw [hb]

theorem callOk_stated {mem : ℕ → UInt8} {r : Regs} {esp : ℕ} : CallOk Stated mem r esp where
  back := trivial
  mapped := trivial
  touch _ := trivial
  locked _ _ := trivial
  slot _ _ _ _ := trivial
  lockedSlot _ _ _ := trivial
  mapSlot _ := trivial
  called _ := ⟨wordAt_lt _ _, exitStatus_eq _ _⟩
  badStack := rfl
  badArgument _ _ _ := rfl
  remove _ _ h := absurd rfl h

namespace Machine

/-- What is known of `returnstatus` on the way to `thread_exit`, and after it. -/
def StatusOk (s : Machine) : Prop :=
  match s.ended with
  | none => s.code.Holds Stated s.mem s.regs
  | some why => s.code.Holds (Final why) s.mem s.regs

/-- Only `thread_exit` sets `ended`. -/
theorem ended_run {s s' : Machine} {a : ℕ} (hs : s.run a = some s') (hc : ∀ why, s.code ≠ .threadExit why) :
    s'.ended = s.ended := by
  unfold run at hs
  cases h : s.code with
  | iret | gone | powerOff | panic | wild => simp [h] at hs
  | threadExit why => exact absurd h (hc why)
  | load addr k | store addr k =>
    simp only [h] at hs
    split_ifs at hs
    all_goals first | (cases hs; rfl) | skip
    split at hs <;> (cases hs; rfl)
  | acquire l k | release l k | setFd fd file k | setMap k =>
    simp only [h, Option.some.injEq] at hs
    subst hs
    split_ifs <;> rfl
  | _ =>
    simp only [h, Option.some.injEq] at hs
    subst hs
    rfl

/-- An access is made with what the condition says there. -/
theorem touch_of_holds {I : Point → Regs → Prop} {s : Machine} {addr : ℕ} (h : s.code.Holds I s.mem s.regs)
    (ht : s.code.touches = some addr) : ∃ write, I (.touch write) s.regs := by
  cases hc : s.code with
  | load addr' k =>
    rw [hc] at h
    exact ⟨false, h.1⟩
  | store addr' k =>
    rw [hc] at h
    exact ⟨true, h.1⟩
  | _ =>
    rw [hc] at ht
    cases ht

theorem StatusOk.run {s s' : Machine} {a : ℕ} (h : s.StatusOk) (hs : s.run a = some s') : s'.StatusOk := by
  by_cases hc : ∃ why, s.code = .threadExit why
  · obtain ⟨why, hc⟩ := hc
    simp only [Machine.run, hc, Option.some.injEq] at hs
    subst hs
    change processExit.Holds (Final why) s.mem s.regs
    unfold StatusOk at h
    cases he : s.ended with
    | none =>
      rw [he] at h
      simp only [hc] at h
      exact holds_processExit (fun held hm => hm) h
    | some why' =>
      -- a second `thread_exit` does not get past `lock_acquire (&framesem)`
      rw [he] at h
      simp only [hc] at h
      exact fun hl => absurd h hl
  · have hne : ∀ why, s.code ≠ .threadExit why := fun why hw => hc ⟨why, hw⟩
    unfold StatusOk at h ⊢
    rw [ended_run hs hne]
    cases he : s.ended with
    | none =>
      rw [he] at h
      exact Holds.run h hs (fun _ => rfl) (fun _ => rfl) fun why hw => absurd hw (hne why)
    | some why' =>
      rw [he] at h
      refine Holds.run h hs (fun hk => ?_) (fun ht => ?_) fun why hw => absurd hw (hne why)
      · obtain ⟨addr, ht, _⟩ := hk
        obtain ⟨write, hw⟩ := touch_of_holds h ht
        exact hw
      · exact Finset.mem_erase.2 ⟨by decide, ht⟩

theorem StatusOk.next {s s' : Machine} {e : Event} (h : s.StatusOk) (hn : next e s = some s') : s'.StatusOk := by
  cases e with
  | trap c mem =>
    cases hc : s.code with
    | iret =>
      simp only [Machine.next, hc, Option.some.injEq] at hn
      subst hn
      unfold StatusOk at h ⊢
      cases he : s.ended with
      | none =>
        cases c with
        | syscall esp => exact callOk_stated.syscallHandler
        | fault addr esp => exact holds_pageFaultUser (fun _ _ => trivial) rfl
        | exception => trivial
      | some why =>
        rw [he] at h
        simp only [hc] at h
        exact h.elim
    | _ => simp [Machine.next, hc] at hn
  | step a => exact h.run hn
  | evict page =>
    cases hn
    exact h

theorem Started.statusOk {s : Machine} (h : s.Started) : s.StatusOk := by
  unfold StatusOk
  rw [h.ended, h.code]
  trivial

end Machine

end Pintos.Trap

namespace Pintos.Waiting

open Library

/-! ### The protocol keeps the statuses -/

/-- What the protocol does to a child: it carries the status on, and records it when the child wakes its
parent. -/
structure Carries (ch ch' : Child) : Prop where
  running : ch'.pc = .running ↔ ch.pc = .running
  status : ch'.pc.rank ≤ 6 → ch.pc.rank ≤ 6 ∧ ch'.thread.returnstatus = ch.thread.returnstatus
  exited : ch'.exited = ch.exited ∨ ch.pc.rank ≤ 6 ∧ ch'.exited = some ch.thread.returnstatus

/-- Only the struct changes, and not the status in it. -/
theorem Carries.of_eq {ch ch' : Child} (hpc : ch'.pc = ch.pc) (hs : ch'.thread.returnstatus = ch.thread.returnstatus)
    (hx : ch'.exited = ch.exited) : Carries ch ch' where
  running := by rw [hpc]
  status h := ⟨hpc ▸ h, hs⟩
  exited := .inl hx

theorem Carries.refl (ch : Child) : Carries ch ch := .of_eq rfl rfl rfl

/-- A child past `thread_exit` goes on. -/
theorem Carries.on {ch : Child} {t : Thread} {pc : ExitPc} {b : Bool} {x : Option ℤ} (hpc : 1 ≤ ch.pc.rank)
    (h6 : ch.pc.rank ≤ 6) (hpc' : pc ≠ .running) (ht : t.returnstatus = ch.thread.returnstatus)
    (hx : x = ch.exited ∨ x = some ch.thread.returnstatus) : Carries ch ⟨t, pc, b, x⟩ where
  running := by
    constructor
    · exact fun h => absurd h hpc'
    · intro h
      rw [h] at hpc
      exact absurd hpc (by decide)
  status _ := ⟨h6, ht⟩
  exited := hx.imp_right fun h => ⟨h6, h⟩

theorem Carries.trans_eq {ch ch' ch'' : Child} (h : Carries ch ch') (hpc : ch''.pc = ch'.pc)
    (hs : ch''.thread.returnstatus = ch'.thread.returnstatus) (hx : ch''.exited = ch'.exited) : Carries ch ch'' where
  running := by rw [hpc, h.running]
  status h6 := by
    rw [hpc] at h6
    exact ⟨(h.status h6).1, hs.trans (h.status h6).2⟩
  exited := by
    rw [hx]
    exact h.exited

/-- Both families have the same children, carried on. -/
def Keeps (s s' : Family) : Prop := ∀ c, Option.Rel Carries (s.children c) (s'.children c)

section Keeps

variable {s s' : Family} {c : Tid} {ch ch' : Child}

theorem rel_carries_refl (o : Option Child) : Option.Rel Carries o o := by
  cases o with
  | none => exact .none
  | some ch => exact .some (.refl ch)

theorem exists_of_rel_some {o : Option Child} (h : Option.Rel Carries o (some ch')) :
    ∃ ch, o = some ch ∧ Carries ch ch' := by
  cases h with
  | some hcar => exact ⟨_, rfl, hcar⟩

theorem Keeps.of_eq (h : s'.children = s.children) : Keeps s s' := fun c => by
  rw [h]
  exact rel_carries_refl _

theorem Keeps.put (hc : s.children c = some ch) (h : Carries ch ch') : Keeps s (s.put c ch') := by
  intro t
  by_cases htc : t = c
  · subst htc
    rw [Family.put_same, hc]
    exact .some h
  · rw [Family.put_of_ne ch' s htc]
    exact rel_carries_refl _

theorem Keeps.congr {s'' : Family} (h : Keeps s s') (he : s''.children = s'.children) : Keeps s s'' := fun c => by
  rw [he]
  exact h c

theorem Keeps.unblock (h : Keeps s s') (who : Option Who) : Keeps s (s'.unblock who) := by
  unfold Family.unblock
  cases who with
  | none => exact h
  | some w =>
    cases w with
    | parent => exact h
    | child t =>
      cases ht : s'.children t with
      | none => simpa only [ht] using h
      | some d =>
        simp only [ht]
        intro u
        have hu := h u
        by_cases hut : u = t
        · subst hut
          rw [Family.put_same]
          rw [ht] at hu
          obtain ⟨ch, hs, hcar⟩ := exists_of_rel_some hu
          rw [hs]
          exact .some (hcar.trans_eq rfl rfl rfl)
        · rw [Family.put_of_ne _ s' hut]
          exact hu

theorem Keeps.waitStep (hc : s.children c = some ch) (hn : s.waitStep c ch = some s') : Keeps s s' := by
  unfold Family.waitStep at hn
  split at hn
  · cases hn
  · cases hn
  · cases hn
    split_ifs <;> exact Keeps.put hc (.of_eq rfl rfl rfl)
  · cases hn
    split_ifs <;> exact Keeps.of_eq rfl
  · cases hn
    exact Keeps.put hc (.of_eq rfl rfl rfl)
  · cases hn
    exact Keeps.of_eq rfl
  · cases hn
    exact Keeps.of_eq rfl
  · cases hn
    have hput : Keeps s (s.put c { ch with thread := { ch.thread with diesem := ch.thread.diesem.up.2 } }) :=
      Keeps.put hc (.of_eq rfl rfl rfl)
    exact hput.unblock ch.thread.diesem.up.1
  · cases hn
    split_ifs <;> exact Keeps.put hc (.of_eq rfl rfl rfl)
  · cases hn
    exact Keeps.put hc (.of_eq rfl rfl rfl)

theorem Keeps.exitStep (hc : s.children c = some ch) (hn : s.exitStep c ch = some s') : Keeps s s' := by
  unfold Family.exitStep at hn
  cases hpc : ch.pc with
  | running | dying | freed => simp [hpc] at hn
  | upWait =>
    simp only [hpc] at hn
    cases hn
    apply Keeps.unblock
    apply Keeps.put hc
    refine Carries.on (by rw [hpc]; decide) (by rw [hpc]; decide) ?_ rfl (.inr rfl)
    split_ifs <;> exact fun h => by cases h
  | downDie =>
    simp only [hpc] at hn
    cases hn
    split_ifs
    · apply Keeps.put hc
      exact Carries.on (by rw [hpc]; decide) (by rw [hpc]; decide) (fun h => by cases h) rfl (.inl rfl)
    · apply Keeps.put hc
      exact Carries.on (by rw [hpc]; decide) (by rw [hpc]; decide) (fun h => by cases h) rfl (.inl rfl)
  | remove =>
    simp only [hpc] at hn
    cases hn
    refine Keeps.congr (Keeps.put hc ?_) rfl
    exact Carries.on (by rw [hpc]; decide) (by rw [hpc]; decide) (fun h => by cases h) rfl (.inl rfl)
  | upJin =>
    simp only [hpc] at hn
    cases hn
    apply Keeps.unblock
    apply Keeps.put hc
    exact Carries.on (by rw [hpc]; decide) (by rw [hpc]; decide) (fun h => by cases h) rfl (.inl rfl)
  | closing =>
    simp only [hpc] at hn
    cases hn
    apply Keeps.put hc
    exact Carries.on (by rw [hpc]; decide) (by rw [hpc]; decide) (fun h => by cases h) rfl (.inl rfl)

end Keeps

/-- The events that are no steps of a child's program. -/
def Event.protocol : Event → Bool
  | .runs _ _ _ | .exit _ => false
  | _ => true

/-- A child just created. -/
structure IsNew (ch : Child) : Prop where
  running : ch.pc = .running
  status : ch.thread.returnstatus = 0
  exited : ch.exited = none

/-- **The protocol's own events carry every status on**; a new child has none yet. -/
theorem keeps_next {s s' : Family} {e : Event} (he : e.protocol = true) (hn : Family.next e s = some s') (c : Tid) :
    Option.Rel Carries (s.children c) (s'.children c) ∨
      (s.children c = none ∧ ∃ ch, s'.children c = some ch ∧ IsNew ch) := by
  cases e with
  | create t name =>
    simp only [Family.next] at hn
    split at hn
    · rename_i hpc ht
      cases hn
      by_cases hct : c = t
      · subst hct
        exact .inr ⟨ht, _, Family.put_same _ _ _, ⟨rfl, rfl, rfl⟩⟩
      · have hsame := Family.put_of_ne (⟨Family.newThread name, .running, false, none⟩ : Child) s hct
        refine .inl ?_
        change Option.Rel Carries (s.children c) ((s.put t _).children c)
        rw [hsame]
        exact rel_carries_refl _
    · cases hn
  | wait tid =>
    simp only [Family.next] at hn
    split at hn
    · cases hn
      refine .inl (Keeps.of_eq ?_ c)
      unfold Family.beginWait
      split <;> rfl
    · cases hn
  | parent =>
    simp only [Family.next] at hn
    split_ifs at hn
    obtain ⟨t, _, hn⟩ := Option.bind_eq_some_iff.1 hn
    obtain ⟨ch, hc, hn⟩ := Option.bind_eq_some_iff.1 hn
    exact .inl (Keeps.waitStep hc hn c)
  | runs t status file => cases he
  | exit t => cases he
  | child t =>
    obtain ⟨ch, hc, hn⟩ := Option.bind_eq_some_iff.1 hn
    split_ifs at hn
    exact .inl (Keeps.exitStep hc hn c)
  | tail t junk =>
    obtain ⟨ch, hc, hn⟩ := Option.bind_eq_some_iff.1 hn
    split_ifs at hn with hpc
    cases hn
    have hcar : Carries ch { ch with thread := junk, pc := .freed } := by
      refine ⟨?_, fun h => absurd h (by decide : ¬ 7 ≤ 6), .inl rfl⟩
      rw [hpc]
      constructor
      · intro h
        cases h
      · intro h
        cases h
    exact .inl (Keeps.put hc hcar c)
  | reuse t junk wakes =>
    obtain ⟨ch, hc, hn⟩ := Option.bind_eq_some_iff.1 hn
    split_ifs at hn with hpc
    cases hn
    have hcar : Carries ch { ch with thread := junk } := by
      refine ⟨Iff.rfl, fun h => ?_, .inl rfl⟩
      dsimp only at h
      rw [hpc] at h
      exact absurd h (by decide : ¬ 7 ≤ 6)
    exact .inl (Keeps.put hc hcar c)

end Pintos.Waiting

namespace Pintos

open Library Waiting Trap

/-! ### A parent with the processes that are its children -/

/-- The parent's side of the protocol, and the machine of every child. -/
structure System where
  family : Family
  machine : Tid → Machine

namespace System

/-- What happens next. -/
inductive Event
  /-- An event of the protocol: of the parent, or of a child in `process_exit` and beyond. -/
  | protocol (e : Waiting.Event)
  /-- A step of a child's program or of the kernel for it; `file` is the executable it has open. -/
  | process (c : Tid) (e : Trap.Event) (file : Bool)

/-- The state after an event. A child that comes to where `process_exit` wakes the parent goes on there. -/
def next : Event → System → Option System
  | .protocol e, s => if e.protocol then (Family.next e s.family).map fun f => { s with family := f } else none
  | .process c e file, s =>
    (Machine.next e (s.machine c)).bind fun m =>
      (Family.next (.runs c m.regs.returnstatus file) s.family).bind fun f =>
        match m.code with
        | .gone => (Family.next (.exit c) f).map fun f' => ⟨f', Function.update s.machine c m⟩
        | _ => some ⟨f, Function.update s.machine c m⟩

/-- No child yet, and for each the process it will be. -/
structure Started (s : System) : Prop where
  family : s.family = Family.start
  machine : ∀ c, (s.machine c).Started

/-- No child is called `main`. -/
def NotMain : Event → System → Prop
  | .protocol e, _ => Family.NotMain e
  | .process _ _ _, _ => True

/-- A child's struct has the status of its process. -/
structure Agrees (m : Machine) (ch : Child) : Prop where
  status : ch.pc.rank ≤ 6 → ch.thread.returnstatus = m.regs.returnstatus
  gone : ch.pc ≠ .running → m.code = .gone
  exited : ∀ v, ch.exited = some v → v = m.regs.returnstatus

theorem Agrees.carries {m : Machine} {ch ch' : Child} (h : Agrees m ch) (hc : Carries ch ch') : Agrees m ch' where
  status h6 := (hc.status h6).2.trans (h.status (hc.status h6).1)
  gone hr := h.gone fun hr' => hr (hc.running.2 hr')
  exited v hv := by
    rcases hc.exited with he | ⟨h6, he⟩
    · exact h.exited v (he ▸ hv)
    · rw [he, Option.some.injEq] at hv
      rw [← hv, h.status h6]

/-- **The protocol and the processes belong together.** -/
structure Linked (s : System) : Prop where
  reach : Reach Family.next (fun e _ => Family.NotMain e) Family.start s.family
  statusOk : ∀ c, (s.machine c).StatusOk
  fresh : ∀ c, s.family.children c = none → (s.machine c).Started
  agrees : ∀ c ch, s.family.children c = some ch → Agrees (s.machine c) ch

theorem Started.linked {s : System} (h : s.Started) : Linked s where
  reach := by
    rw [h.family]
    exact .refl
  statusOk c := (h.machine c).statusOk
  fresh c _ := h.machine c
  agrees c ch hc := by
    rw [h.family] at hc
    cases hc

theorem Linked.protocol {s : System} {e : Waiting.Event} {f : Family} (h : Linked s) (hm : Family.NotMain e)
    (he : e.protocol = true) (hn : Family.next e s.family = some f) : Linked { s with family := f } where
  reach := h.reach.tail hm hn
  statusOk := h.statusOk
  fresh c hc := by
    change f.children c = none at hc
    rcases keeps_next he hn c with hrel | ⟨hnone, _⟩
    · rw [hc] at hrel
      cases hs : s.family.children c with
      | none => exact h.fresh c hs
      | some ch =>
        rw [hs] at hrel
        cases hrel
    · exact h.fresh c hnone
  agrees c ch' hc := by
    change f.children c = some ch' at hc
    rcases keeps_next he hn c with hrel | ⟨hnone, ch, hch, hnew⟩
    · rw [hc] at hrel
      obtain ⟨ch, hs, hcar⟩ := exists_of_rel_some hrel
      exact (h.agrees c ch hs).carries hcar
    · obtain rfl : ch = ch' := Option.some.inj (hch.symm.trans hc)
      have hm := h.fresh c hnone
      refine ⟨fun _ => by rw [hnew.status, hm.regs], fun hr => absurd hnew.running hr, fun v hv => ?_⟩
      rw [hnew.exited] at hv
      cases hv

/-- A child's process takes a step. -/
theorem Linked.process {s : System} {c : Tid} {e : Trap.Event} {file : Bool} {m : Machine} {f : Family} (h : Linked s)
    (hm : Machine.next e (s.machine c) = some m) (hr : Family.next (.runs c m.regs.returnstatus file) s.family = some f) :
    Linked ⟨f, Function.update s.machine c m⟩ := by
  have hreach : Reach Family.next (fun e _ => Family.NotMain e) Family.start f :=
    h.reach.tail (show Family.NotMain (.runs c m.regs.returnstatus file) from trivial) hr
  obtain ⟨ch, hch, hrun⟩ := Option.bind_eq_some_iff.1 hr
  split_ifs at hrun with hpc
  cases hrun
  refine ⟨hreach, fun t => ?_, fun t ht => ?_, fun t d hd => ?_⟩
  · by_cases htc : t = c
    · subst htc
      simp only [Function.update_self]
      exact (h.statusOk t).next hm
    · simp only [Function.update_of_ne htc]
      exact h.statusOk t
  · by_cases htc : t = c
    · subst htc
      simp at ht
    · rw [Family.put_of_ne _ _ htc] at ht
      simp only [Function.update_of_ne htc]
      exact h.fresh t ht
  · by_cases htc : t = c
    · subst htc
      have hearly := ((Family.Inv.of_reach hreach).child t d hd).early
      rw [Family.put_same, Option.some.injEq] at hd
      subst hd
      simp only [Function.update_self]
      refine ⟨fun _ => rfl, fun hne => absurd hpc hne, fun v hv => ?_⟩
      rw [(hearly (by rw [hpc]; decide)).2] at hv
      cases hv
    · rw [Family.put_of_ne _ _ htc] at hd
      simp only [Function.update_of_ne htc]
      exact h.agrees t d hd

/-- A child's process has come to where `process_exit` wakes the parent. -/
theorem Linked.exit {s : System} {c : Tid} {f : Family} (h : Linked s) (hg : (s.machine c).code = .gone)
    (hx : Family.next (.exit c) s.family = some f) : Linked { s with family := f } := by
  have hreach : Reach Family.next (fun e _ => Family.NotMain e) Family.start f :=
    h.reach.tail (show Family.NotMain (.exit c) from trivial) hx
  obtain ⟨ch, hch, hrun⟩ := Option.bind_eq_some_iff.1 hx
  split_ifs at hrun with hpc
  cases hrun
  refine ⟨hreach, h.statusOk, fun t ht => ?_, fun t d hd => ?_⟩
  · by_cases htc : t = c
    · subst htc
      simp at ht
    · exact h.fresh t (by rwa [Family.put_of_ne _ _ htc] at ht)
  · by_cases htc : t = c
    · subst htc
      have hearly := ((Family.Inv.of_reach hreach).child t d hd).early
      have hstat := (h.agrees t ch hch).status (by rw [hpc]; decide)
      rw [Family.put_same, Option.some.injEq] at hd
      subst hd
      refine ⟨fun _ => hstat, fun _ => hg, fun v hv => ?_⟩
      rw [(hearly (by decide : 1 ≤ 1)).2] at hv
      cases hv
    · exact h.agrees t d (by rwa [Family.put_of_ne _ _ htc] at hd)

theorem Linked.next {s s' : System} {e : Event} (h : Linked s) (he : NotMain e s) (hn : next e s = some s') :
    Linked s' := by
  cases e with
  | protocol e =>
    simp only [System.next] at hn
    split_ifs at hn with hp
    obtain ⟨f, hf, rfl⟩ := Option.map_eq_some_iff.1 hn
    exact h.protocol he hp hf
  | process c e file =>
    obtain ⟨m, hm, hn⟩ := Option.bind_eq_some_iff.1 hn
    obtain ⟨f, hf, hn⟩ := Option.bind_eq_some_iff.1 hn
    have hlink := h.process hm hf
    cases hc : m.code with
    | gone =>
      simp only [hc] at hn
      obtain ⟨f', hf', rfl⟩ := Option.map_eq_some_iff.1 hn
      exact hlink.exit (by simp only [Function.update_self, hc]) hf'
    | _ =>
      simp only [hc, Option.some.injEq] at hn
      subst hn
      exact hlink

/-- **What `SYS_WAIT` returns is what the child has left**: its process came to `thread_exit` for some reason, and
the status is the one that goes with the reason. -/
theorem Linked.marked {s : System} {c : Tid} {v : ℤ} (h : Linked s) (hv : (c, some v) ∈ s.family.log) :
    ∃ why, (s.machine c).ended = some why ∧ Marked v why := by
  obtain ⟨ch, hch, h5, hx⟩ := (Family.Inv.of_reach h.reach).status c v hv
  have ha := h.agrees c ch hch
  have hgone : (s.machine c).code = .gone := by
    apply ha.gone
    intro hr
    rw [hr] at h5
    exact absurd h5 (by decide)
  obtain rfl : v = (s.machine c).regs.returnstatus := ha.exited v hx
  have hok := h.statusOk c
  unfold Machine.StatusOk at hok
  cases he : (s.machine c).ended with
  | none =>
    rw [he] at hok
    simp only [hgone] at hok
    exact hok.elim
  | some why =>
    rw [he] at hok
    simp only [hgone] at hok
    exact ⟨why, rfl, hok⟩

/-- A parent with no child yet. -/
def alone : System := ⟨Family.start, fun _ => loaded⟩

end System

end Pintos
