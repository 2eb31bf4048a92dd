import Mathlib.Data.List.Basic
import Mathlib.Data.List.Nodup
import Mathlib.Algebra.Order.Group.Int
import Pintos.Library.Steps
import Pintos.Threads.Synch

/-!
# Waiting for children

`process_wait` of a parent and `process_exit`, `thread_exit` and `schedule_tail` of its
children (`userprog/process.c`, `threads/thread.c`), as steps over the semaphores
`waitsem`, `diesem` and `jinsem` of each child and the parent's `childrenlist`. The
parent and its children take their steps in any order.

A child's `struct thread` lies in a page that `schedule_tail` returns to the page
allocator; from then on its contents are arbitrary. `process_exit` takes the thread
named `main` for the initial one: it neither waits for `diesem` nor leaves the list,
and a program may have that name.
-/

namespace Pintos.Waiting

open Library

/-- `tid_t`. -/
abbrev Tid := ℤ

/-- The threads that block on a child's semaphores. -/
inductive Who
  | parent
  | child (t : Tid)
deriving DecidableEq

/-- The fields of a child's `struct thread` that the protocol uses. -/
structure Thread where
  name : String
  returnstatus : ℤ
  wait : Bool
  /-- `file != NULL`: the executable, to which writes are denied. -/
  file : Bool
  waitsem : Semaphore Who
  diesem : Semaphore Who
  jinsem : Semaphore Who

/-- Where a child is, in `process_exit` and beyond. -/
inductive ExitPc
  /-- Before `process_exit`. -/
  | running
  /-- At `sema_up (&curr->waitsem)`. -/
  | upWait
  /-- At `sema_down (&curr->diesem)`. -/
  | downDie
  /-- At `list_remove (&curr->child_elem)`. -/
  | remove
  /-- At `sema_up (&curr->jinsem)`. -/
  | upJin
  /-- Closing its files. -/
  | closing
  /-- `THREAD_DYING`, up to `schedule_tail`. -/
  | dying
  /-- The page is returned. -/
  | freed
deriving DecidableEq

/-- A thread the parent has created. -/
structure Child where
  thread : Thread
  pc : ExitPc
  /-- `THREAD_BLOCKED`, on `diesem`. -/
  blocked : Bool
  /-- The `returnstatus` with which it reached `sema_up (&curr->waitsem)`, once it has. -/
  exited : Option ℤ

/-- Where the parent is in `process_wait`, with the child found and the local `exitstatus`. -/
inductive WaitPc
  /-- Not in `process_wait`. -/
  | idle
  /-- At `sema_down (&child->waitsem)`. -/
  | downWait (c : Tid)
  /-- At `if (child->wait)`. -/
  | testWait (c : Tid)
  /-- At `child->wait = true`. -/
  | setWait (c : Tid)
  /-- At `exitstatus = child->returnstatus`. -/
  | readStatus (c : Tid)
  /-- At `if (child->file != NULL)`, with the `file_allow_write`. -/
  | allowWrite (c : Tid) (exitstatus : ℤ)
  /-- At `sema_up (&child->diesem)`. -/
  | upDie (c : Tid) (exitstatus : ℤ)
  /-- At `sema_down (&child->jinsem)`. -/
  | downJin (c : Tid) (exitstatus : ℤ)
  /-- At `child->wait = false`. -/
  | clearWait (c : Tid) (exitstatus : ℤ)
  /-- `find_child` has followed the links of a page that was returned: `palloc_free_page` fills it
  with `0xcc`, and the kernel faults. -/
  | wild
deriving DecidableEq

/-- The child whose struct the parent works with. -/
def WaitPc.child : WaitPc → Option Tid
  | .idle | .wild => none
  | .downWait c | .testWait c | .setWait c | .readStatus c => some c
  | .allowWrite c _ | .upDie c _ | .downJin c _ | .clearWait c _ => some c

/-- The parent with its children. -/
structure Family where
  /-- The children by their `tid`, which no two threads share. -/
  children : Tid → Option Child
  childrenlist : List Tid
  pc : WaitPc
  /-- The parent is `THREAD_BLOCKED`. -/
  blocked : Bool
  /-- The calls of `process_wait` that have returned: `some` status from `return exitstatus`,
  `none` from `return -1`. -/
  log : List (Tid × Option ℤ)

/-- What happens next. -/
inductive Event
  /-- The parent's `thread_create`. -/
  | create (c : Tid) (name : String)
  /-- The parent calls `process_wait`, and `find_child` walks the list. -/
  | wait (tid : Tid)
  /-- The parent's next step inside `process_wait`. -/
  | parent
  /-- A running child sets its `returnstatus` and its `file`. -/
  | runs (c : Tid) (status : ℤ) (file : Bool)
  /-- A running child calls `thread_exit`. -/
  | exit (c : Tid)
  /-- The child's next step inside `process_exit`. -/
  | child (c : Tid)
  /-- `schedule_tail` returns the page of a dying child, which then has any contents. -/
  | tail (c : Tid) (junk : Thread)
  /-- Someone else uses the page; a semaphore there may wake the parent. -/
  | reuse (c : Tid) (junk : Thread) (wakes : Bool)

/-- What a walk along the list ends with. -/
inductive Walk
  | found (c : Tid)
  | missing
  | wild

namespace Family

/-- No child yet. -/
def start : Family := { children := fun _ => none, childrenlist := [], pc := .idle, blocked := false, log := [] }

/-- Replace a child. -/
def put (c : Tid) (ch : Child) (s : Family) : Family :=
  { s with children := Function.update s.children c (some ch) }

/-- `thread_unblock`, for the thread at the front of a semaphore's waiters. -/
def unblock (who : Option Who) (s : Family) : Family :=
  match who with
  | none => s
  | some .parent => { s with blocked := false }
  | some (.child c) =>
    match s.children c with
    | none => s
    | some ch => s.put c { ch with blocked := false }

/-- `find_child` along the rest of the list. -/
def findChild (s : Family) (tid : Tid) : List Tid → Walk
  | [] => .missing
  | c :: rest =>
    match s.children c with
    | none => .wild
    | some ch => if ch.pc = .freed then .wild else if c = tid then .found c else findChild s tid rest

/-- `process_wait` up to the child it waits for. -/
def beginWait (tid : Tid) (s : Family) : Family :=
  match s.findChild tid s.childrenlist with
  | .found c => { s with pc := .downWait c }
  | .missing => { s with log := s.log ++ [(tid, none)] }
  | .wild => { s with pc := .wild }

/-- One step of `process_wait`, in which `child` is `ch`. -/
def waitStep (c : Tid) (ch : Child) (s : Family) : Option Family :=
  let t := ch.thread
  match s.pc with
  | .idle | .wild => none
  | .downWait _ =>
    let (through, sema) := t.waitsem.down .parent
    let s' := s.put c { ch with thread := { t with waitsem := sema } }
    some (if through then { s' with pc := .testWait c } else { s' with blocked := true })
  | .testWait _ =>
    some (if t.wait then { s with pc := .idle, log := s.log ++ [(c, none)] } else { s with pc := .setWait c })
  | .setWait _ => some { s.put c { ch with thread := { t with wait := true } } with pc := .readStatus c }
  | .readStatus _ => some { s with pc := .allowWrite c t.returnstatus }
  | .allowWrite _ st => some { s with pc := .upDie c st }
  | .upDie _ st =>
    let (who, sema) := t.diesem.up
    some { (s.put c { ch with thread := { t with diesem := sema } }).unblock who with pc := .downJin c st }
  | .downJin _ st =>
    let (through, sema) := t.jinsem.down .parent
    let s' := s.put c { ch with thread := { t with jinsem := sema } }
    some (if through then { s' with pc := .clearWait c st } else { s' with blocked := true })
  | .clearWait _ st =>
    some { s.put c { ch with thread := { t with wait := false } } with pc := .idle, log := s.log ++ [(c, some st)] }

/-- One step of `process_exit` of the child `c`, which is `ch`. -/
def exitStep (c : Tid) (ch : Child) (s : Family) : Option Family :=
  let t := ch.thread
  match ch.pc with
  | .running | .dying | .freed => none
  | .upWait =>
    let (who, sema) := t.waitsem.up
    let pc := if t.name = "main" then .closing else .downDie
    some ((s.put c { ch with thread := { t with waitsem := sema }, pc := pc, exited := some t.returnstatus }).unblock who)
  | .downDie =>
    let (through, sema) := t.diesem.down (.child c)
    some (if through then s.put c { ch with thread := { t with diesem := sema }, pc := .remove }
      else s.put c { ch with thread := { t with diesem := sema }, blocked := true })
  | .remove => some { s.put c { ch with pc := .upJin } with childrenlist := s.childrenlist.erase c }
  | .upJin =>
    let (who, sema) := t.jinsem.up
    some ((s.put c { ch with thread := { t with jinsem := sema }, pc := .closing }).unblock who)
  | .closing => some (s.put c { ch with thread := { t with file := false }, pc := .dying })

/-- The struct that `thread_create` makes. -/
def newThread (name : String) : Thread :=
  { name := name, returnstatus := 0, wait := false, file := false,
    waitsem := .init 0, diesem := .init 0, jinsem := .init 0 }

/-- The step an event names. -/
def next (e : Event) (s : Family) : Option Family :=
  match e with
  | .create c name =>
    match s.pc, s.children c with
    | .idle, none =>
      some { s.put c { thread := newThread name, pc := .running, blocked := false, exited := none } with
        childrenlist := s.childrenlist ++ [c] }
    | _, _ => none
  | .wait tid =>
    match s.pc with
    | .idle => some (s.beginWait tid)
    | _ => none
  | .parent => if s.blocked then none else s.pc.child.bind fun c => (s.children c).bind fun ch => s.waitStep c ch
  | .runs c status file => (s.children c).bind fun ch =>
      if ch.pc = .running then
        some (s.put c { ch with thread := { ch.thread with returnstatus := status, file := file } })
      else none
  | .exit c => (s.children c).bind fun ch => if ch.pc = .running then some (s.put c { ch with pc := .upWait }) else none
  | .child c => (s.children c).bind fun ch => if ch.blocked then none else s.exitStep c ch
  | .tail c junk => (s.children c).bind fun ch =>
      if ch.pc = .dying then some (s.put c { ch with thread := junk, pc := .freed }) else none
  | .reuse c junk wakes => (s.children c).bind fun ch =>
      if ch.pc = .freed then
        some { s.put c { ch with thread := junk } with blocked := s.blocked && !wakes }
      else none

end Family

/-! ### The invariant -/

/-- How far a child has come. -/
def ExitPc.rank : ExitPc → ℕ
  | .running => 0
  | .upWait => 1
  | .downDie => 2
  | .remove => 3
  | .upJin => 4
  | .closing => 5
  | .dying => 6
  | .freed => 7

theorem ExitPc.rank_freed {pc : ExitPc} (h : pc.rank = 7) : pc = .freed := by
  cases pc <;> first | rfl | cases h

/-- The parent has let the child `c` go: it is past `sema_up (&child->diesem)`. -/
def Released : WaitPc → Tid → Prop
  | .downJin c _, t => c = t
  | .clearWait c _, t => c = t
  | _, _ => False

theorem Released.child {pc : WaitPc} {c : Tid} (h : Released pc c) : pc.child = some c := by
  cases pc with
  | downJin d st => exact congrArg some h
  | clearWait d st => exact congrArg some h
  | _ => exact h.elim

/-- **A child is where it should be**, given whether it is on the list and was let go. It leaves the
list itself, when it was let go, and ups `jinsem` after that. -/
structure ChildOk (listed released : Prop) (ch : Child) : Prop where
  name : ch.pc.rank ≤ 1 → ch.thread.name ≠ "main"
  listed_iff : listed ↔ ch.pc.rank ≤ 3
  held : ch.pc.rank ≤ 3 → ¬ released → ch.pc.rank ≤ 2 ∧ ch.thread.diesem.value = 0
  jin : ch.pc.rank ≤ 4 → ch.thread.jinsem.value = 0
  early : ch.pc.rank ≤ 1 → ch.thread.waitsem.value = 0 ∧ ch.exited = none
  late : 2 ≤ ch.pc.rank → ch.exited ≠ none
  final : 2 ≤ ch.pc.rank → ch.pc.rank ≤ 6 → ch.exited = some ch.thread.returnstatus

/-- A child that has left the list goes on to its end. -/
theorem ChildOk.later {listed released : Prop} {ch ch' : Child} (h : ChildOk listed released ch) (h4 : 4 ≤ ch.pc.rank)
    (h5 : 5 ≤ ch'.pc.rank) (hx : ch'.exited = ch.exited)
    (hst : ch'.pc.rank ≤ 6 → ch.pc.rank ≤ 6 ∧ ch'.thread.returnstatus = ch.thread.returnstatus) :
    ChildOk listed released ch' where
  name h1 := by omega
  listed_iff := by
    rw [h.listed_iff]
    exact ⟨fun h3 => by omega, fun h3 => by omega⟩
  held h3 := by omega
  jin hj := by omega
  early h1 := by omega
  late _ := by
    rw [hx]
    exact h.late (by omega)
  final _ h6 := by
    rw [hx, (hst h6).2]
    exact h.final (by omega) (hst h6).1

/-- **Where the parent is says how far its child has come**, and what status it has left. -/
def Stage : WaitPc → Child → Prop
  | .idle, _ | .wild, _ => True
  | .downWait _, ch => ch.pc.rank ≤ 3
  | .testWait _, ch | .setWait _, ch | .readStatus _, ch => ch.pc.rank = 2
  | .allowWrite _ st, ch | .upDie _ st, ch => ch.pc.rank = 2 ∧ ch.exited = some st
  | .downJin _ st, ch => 2 ≤ ch.pc.rank ∧ ch.exited = some st
  | .clearWait _ st, ch => 5 ≤ ch.pc.rank ∧ ch.exited = some st

/-- The parent follows the list no further than it reaches, and its child is as it should be. -/
structure WaitOk (children : Tid → Option Child) (pc : WaitPc) : Prop where
  tame : pc ≠ .wild
  stage : ∀ c, pc.child = some c → ∃ ch, children c = some ch ∧ Stage pc ch

/-- What a child may do, as the parent sees it: it moves on, keeps the status it left with, and
stays on the list until it is let go. -/
structure Grows (released : Prop) (ch ch' : Child) : Prop where
  rank : ch.pc.rank ≤ ch'.pc.rank
  exited : ∀ v, ch.exited = some v → ch'.exited = some v
  held : ¬ released → ch.pc.rank ≤ 3 → ch'.pc.rank ≤ 2

/-- Only the struct changes. -/
theorem Grows.of_eq {released : Prop} {ch ch' : Child} (hpc : ch'.pc = ch.pc) (hx : ch'.exited = ch.exited)
    (hh : ¬ released → ch.pc.rank ≤ 3 → ch.pc.rank ≤ 2) : Grows released ch ch' :=
  ⟨le_of_eq (by rw [hpc]), fun v hv => hx.trans hv, fun h h3 => by rw [hpc]; exact hh h h3⟩

theorem Stage.grows {pc : WaitPc} {c : Tid} {ch ch' : Child} (hc : pc.child = some c) (h : Stage pc ch)
    (hg : Grows (Released pc c) ch ch') : Stage pc ch' := by
  have hrank := hg.rank
  cases pc with
  | idle => trivial
  | wild => trivial
  | downWait t =>
    have := hg.held id h
    exact this.trans (by decide)
  | testWait t | setWait t | readStatus t =>
    have h2 : ch.pc.rank = 2 := h
    have := hg.held id (by omega)
    exact le_antisymm this (h2 ▸ hrank)
  | allowWrite t st | upDie t st =>
    have h2 : ch.pc.rank = 2 := h.1
    have := hg.held id (by omega)
    exact ⟨le_antisymm this (h2 ▸ hrank), hg.exited st h.2⟩
  | downJin t st | clearWait t st => exact ⟨h.1.trans hrank, hg.exited st h.2⟩

theorem WaitOk.update {children : Tid → Option Child} {pc : WaitPc} {c : Tid} {ch ch' : Child} (h : WaitOk children pc)
    (hc : children c = some ch) (hg : Grows (Released pc c) ch ch') :
    WaitOk (Function.update children c (some ch')) pc := by
  refine ⟨h.tame, fun t ht => ?_⟩
  obtain ⟨d, hd, hs⟩ := h.stage t ht
  by_cases htc : t = c
  · subst htc
    obtain rfl : ch = d := Option.some.inj (hc.symm.trans hd)
    exact ⟨ch', Function.update_self _ _ _, Stage.grows ht hs hg⟩
  · exact ⟨d, (Function.update_of_ne htc _ _).trans hd, hs⟩

namespace Family

/-- The children whose status was returned, in order. -/
def returned (s : Family) : List Tid := (s.log.filter fun e => e.2.isSome).map Prod.fst

/-- **The protocol's invariant.** -/
structure Inv (s : Family) : Prop where
  nodup : s.childrenlist.Nodup
  listed : ∀ c ∈ s.childrenlist, ∃ ch, s.children c = some ch
  child : ∀ c ch, s.children c = some ch → ChildOk (c ∈ s.childrenlist) (Released s.pc c) ch
  wait : WaitOk s.children s.pc
  status : ∀ c v, (c, some v) ∈ s.log → ∃ ch, s.children c = some ch ∧ 5 ≤ ch.pc.rank ∧ ch.exited = some v
  once : s.returned.Nodup
  fresh : ∀ c, s.pc.child = some c → c ∉ s.returned

theorem mem_returned {s : Family} {c : Tid} : c ∈ s.returned ↔ ∃ v, (c, some v) ∈ s.log := by
  simp only [returned, List.mem_map, List.mem_filter]
  constructor
  · rintro ⟨⟨t, o⟩, ⟨hm, ho⟩, rfl⟩
    obtain ⟨v, rfl⟩ := Option.isSome_iff_exists.1 ho
    exact ⟨v, hm⟩
  · rintro ⟨v, hm⟩
    exact ⟨(c, some v), ⟨hm, rfl⟩, rfl⟩

theorem Inv.start : Inv start where
  nodup := List.nodup_nil
  listed _ h := by cases h
  child _ _ h := by cases h
  wait := ⟨by rintro ⟨⟩, fun _ h => by cases h⟩
  status _ _ h := by cases h
  once := List.nodup_nil
  fresh _ h := by cases h

@[simp] theorem put_same (c : Tid) (ch : Child) (s : Family) : (s.put c ch).children c = some ch :=
  Function.update_self _ _ _

theorem put_of_ne {c t : Tid} (ch : Child) (s : Family) (h : t ≠ c) : (s.put c ch).children t = s.children t :=
  Function.update_of_ne h _ _

/-- **One child moves**, everything else staying as it is. -/
theorem Inv.put {s : Family} {c : Tid} {ch ch' : Child} (h : Inv s) (hc : s.children c = some ch)
    (hok : ChildOk (c ∈ s.childrenlist) (Released s.pc c) ch') (hg : Grows (Released s.pc c) ch ch') :
    Inv (s.put c ch') where
  nodup := h.nodup
  listed t ht := by
    by_cases htc : t = c
    · exact ⟨ch', by rw [htc]; exact put_same _ _ _⟩
    · rw [put_of_ne ch' s htc]
      exact h.listed t ht
  child t d hd := by
    by_cases htc : t = c
    · subst htc
      rw [put_same, Option.some.injEq] at hd
      exact hd ▸ hok
    · rw [put_of_ne ch' s htc] at hd
      exact h.child t d hd
  wait := h.wait.update hc hg
  status t v hv := by
    obtain ⟨d, hd, h5, hx⟩ := h.status t v hv
    by_cases htc : t = c
    · subst htc
      obtain rfl : ch = d := Option.some.inj (hc.symm.trans hd)
      exact ⟨ch', put_same _ _ _, h5.trans hg.rank, hg.exited v hx⟩
    · exact ⟨d, (put_of_ne ch' s htc).trans hd, h5, hx⟩
  once := h.once
  fresh := h.fresh

/-- Who is blocked does not matter. -/
theorem Inv.blocked {s : Family} (h : Inv s) (b : Bool) : Inv { s with blocked := b } :=
  ⟨h.nodup, h.listed, h.child, h.wait, h.status, h.once, h.fresh⟩

theorem Inv.unblock {s : Family} (h : Inv s) (who : Option Who) : Inv (s.unblock who) := by
  unfold Family.unblock
  split
  · exact h
  · exact h.blocked false
  · split
    · exact h
    · rename_i ch hch
      have hok := h.child _ _ hch
      refine h.put hch ⟨hok.name, hok.listed_iff, hok.held, hok.jin, hok.early, hok.late, hok.final⟩ ?_
      exact Grows.of_eq rfl rfl fun hr h3 => (hok.held h3 hr).1

/-- **The parent moves on** with the same child, which it does not call back. -/
theorem Inv.setPc {s : Family} {pc : WaitPc} (h : Inv s) (hw : WaitOk s.children pc)
    (hcur : ∀ c, pc.child = some c → c ∉ s.returned)
    (hrel : ∀ c ch, s.children c = some ch → Released s.pc c → Released pc c ∨ 4 ≤ ch.pc.rank) :
    Inv { s with pc := pc } where
  nodup := h.nodup
  listed := h.listed
  child c ch hc := by
    have hok := h.child c ch hc
    refine ⟨hok.name, hok.listed_iff, fun h3 hr => hok.held h3 fun hr' => ?_, hok.jin, hok.early, hok.late, hok.final⟩
    rcases hrel c ch hc hr' with hr'' | h4
    · exact hr hr''
    · omega
  wait := hw
  status := h.status
  once := h.once
  fresh := hcur

/-! ### The parent's steps -/

/-- A walk along children whose pages are in place finds the one it looks for. -/
theorem findChild_eq {s : Family} (tid : Tid) (l : List Tid)
    (hl : ∀ c ∈ l, ∃ ch, s.children c = some ch ∧ ch.pc ≠ .freed) :
    s.findChild tid l = if tid ∈ l then .found tid else .missing := by
  induction l with
  | nil => rfl
  | cons c l ih =>
    obtain ⟨ch, hc, hpc⟩ := hl c List.mem_cons_self
    have ih' := ih fun t ht => hl t (List.mem_cons_of_mem c ht)
    simp only [findChild, hc, if_neg hpc]
    by_cases hct : c = tid
    · rw [if_pos hct, if_pos (hct ▸ List.mem_cons_self), hct]
    · rw [if_neg hct, ih']
      refine if_congr ?_ rfl rfl
      rw [List.mem_cons, or_iff_right (Ne.symm hct)]

/-- The children on the list are in place. -/
theorem Inv.inPlace {s : Family} (h : Inv s) (c : Tid) (hc : c ∈ s.childrenlist) :
    ∃ ch, s.children c = some ch ∧ ch.pc ≠ .freed := by
  obtain ⟨ch, hch⟩ := h.listed c hc
  refine ⟨ch, hch, fun hf => ?_⟩
  have := (h.child c ch hch).listed_iff.1 hc
  rw [hf] at this
  exact absurd this (by decide)

/-- **`process_wait` on a thread that is not on the list** returns -1 at once. -/
theorem Inv.beginWait_missing {s : Family} {tid : Tid} (h : Inv s) (ht : tid ∉ s.childrenlist) :
    s.beginWait tid = { s with log := s.log ++ [(tid, none)] } := by
  unfold beginWait
  rw [findChild_eq tid s.childrenlist h.inPlace, if_neg ht]

theorem Inv.beginWait_found {s : Family} {tid : Tid} (h : Inv s) (ht : tid ∈ s.childrenlist) :
    s.beginWait tid = { s with pc := .downWait tid } := by
  unfold beginWait
  rw [findChild_eq tid s.childrenlist h.inPlace, if_pos ht]

/-- A call that returned -1 is noted. -/
theorem Inv.logNone {s : Family} (h : Inv s) (c : Tid) : Inv { s with log := s.log ++ [(c, none)] } := by
  have hret : ({ s with log := s.log ++ [(c, none)] } : Family).returned = s.returned := by
    simp [returned, List.filter_append]
  refine ⟨h.nodup, h.listed, h.child, h.wait, fun t v hv => h.status t v ?_, ?_, ?_⟩
  · simpa using hv
  · rw [hret]
    exact h.once
  · rw [hret]
    exact h.fresh

/-- A child on the list was not returned. -/
theorem Inv.not_returned {s : Family} {c : Tid} {ch : Child} (h : Inv s) (hc : s.children c = some ch)
    (hr : ch.pc.rank ≤ 4) : c ∉ s.returned := by
  intro hm
  obtain ⟨v, hv⟩ := mem_returned.1 hm
  obtain ⟨d, hd, h5, -⟩ := h.status c v hv
  obtain rfl : ch = d := Option.some.inj (hc.symm.trans hd)
  omega

theorem Inv.beginWait {s : Family} (h : Inv s) (hpc : s.pc = .idle) (tid : Tid) : Inv (s.beginWait tid) := by
  by_cases ht : tid ∈ s.childrenlist
  · rw [h.beginWait_found ht]
    obtain ⟨ch, hch⟩ := h.listed tid ht
    have h3 := (h.child tid ch hch).listed_iff.1 ht
    refine h.setPc ⟨by rintro ⟨⟩, fun c hc => ?_⟩ (fun c hc => ?_) fun c d _ hr => ?_
    · obtain rfl : tid = c := Option.some.inj hc
      exact ⟨ch, hch, h3⟩
    · obtain rfl : tid = c := Option.some.inj hc
      exact h.not_returned hch (by omega)
    · rw [hpc] at hr
      exact hr.elim
  · rw [h.beginWait_missing ht]
    exact h.logNone tid

theorem Inv.create {s : Family} {c : Tid} {name : String} (h : Inv s) (hpc : s.pc = .idle) (hc : s.children c = none)
    (hname : name ≠ "main") :
    Inv { s.put c { thread := newThread name, pc := .running, blocked := false, exited := none } with
      childrenlist := s.childrenlist ++ [c] } := by
  have hnew : c ∉ s.childrenlist := fun hm => by
    obtain ⟨ch, hch⟩ := h.listed c hm
    rw [hc] at hch
    cases hch
  have hne : ∀ {t : Tid} {d : Child}, s.children t = some d → t ≠ c := by
    rintro t d hd rfl
    rw [hc] at hd
    cases hd
  refine ⟨?_, fun t ht => ?_, fun t d hd => ?_, ?_, fun t v hv => ?_, h.once, h.fresh⟩
  · exact List.nodup_append.2 ⟨h.nodup, List.nodup_singleton c, fun a ha b hb => by
      rw [List.mem_singleton.1 hb]
      rintro rfl
      exact hnew ha⟩
  · rcases List.mem_append.1 ht with ht | ht
    · obtain ⟨d, hd⟩ := h.listed t ht
      exact ⟨d, (put_of_ne _ s (hne hd)).trans hd⟩
    · exact ⟨_, by rw [List.mem_singleton.1 ht]; exact put_same c _ s⟩
  · by_cases htc : t = c
    · subst htc
      obtain rfl := Option.some.inj ((put_same t _ s).symm.trans hd)
      refine ⟨fun _ => hname, ?_, fun _ _ => ⟨Nat.zero_le _, rfl⟩, fun _ => rfl, fun _ => ⟨rfl, rfl⟩, ?_, ?_⟩
      · exact ⟨fun _ => Nat.zero_le _, fun _ => List.mem_append_right _ List.mem_cons_self⟩
      · exact fun h2 => absurd h2 (Nat.not_succ_le_zero 1)
      · exact fun h2 => absurd h2 (Nat.not_succ_le_zero 1)
    · have hd' : s.children t = some d := (put_of_ne _ s htc).symm.trans hd
      have hok := h.child t d hd'
      refine ⟨hok.name, ?_, hok.held, hok.jin, hok.early, hok.late, hok.final⟩
      rw [← hok.listed_iff]
      simp [htc]
  · refine ⟨h.wait.tame, fun t ht => ?_⟩
    have hi : s.pc.child = some t := ht
    rw [hpc] at hi
    cases hi
  · obtain ⟨d, hd, h5, hx⟩ := h.status t v hv
    exact ⟨d, (put_of_ne _ s (hne hd)).trans hd, h5, hx⟩

section ParentStep

variable {s s' : Family} {c : Tid} {ch : Child}

/-- Only the struct of a child changes, and only what the protocol does not depend on then. -/
theorem Inv.putThread {t : Thread} (h : Inv s) (hc : s.children c = some ch) (hname : t.name = ch.thread.name)
    (hst : t.returnstatus = ch.thread.returnstatus) (hw : ch.pc.rank ≤ 1 → t.waitsem.value = 0)
    (hd : ch.pc.rank ≤ 3 → ¬ Released s.pc c → t.diesem.value = 0) (hj : ch.pc.rank ≤ 4 → t.jinsem.value = 0) :
    Inv (s.put c { ch with thread := t }) := by
  have hok := h.child c ch hc
  refine h.put hc ⟨?_, hok.listed_iff, fun h3 hr => ⟨(hok.held h3 hr).1, hd h3 hr⟩, hj,
    fun h1 => ⟨hw h1, (hok.early h1).2⟩, hok.late, ?_⟩ (Grows.of_eq rfl rfl fun hr h3 => (hok.held h3 hr).1)
  · exact fun h1 => by
      change t.name ≠ "main"
      rw [hname]
      exact hok.name h1
  · exact fun h2 h6 => by
      change ch.exited = some t.returnstatus
      rw [hst]
      exact hok.final h2 h6

/-- The parent goes on with the same child, not letting it go or keeping it let go. -/
theorem Inv.advance {pc : WaitPc} (h : Inv s) (hcur : s.pc.child = some c) (hpc : pc.child = some c)
    (hc : s.children c = some ch) (htame : pc ≠ .wild) (hs : Stage pc ch)
    (hrel : Released s.pc c → Released pc c) : Inv { s with pc := pc } := by
  refine h.setPc ⟨htame, fun t ht => ?_⟩ (fun t ht => ?_) fun t d _ hr => ?_
  · obtain rfl : c = t := Option.some.inj (hpc.symm.trans ht)
    exact ⟨ch, hc, hs⟩
  · obtain rfl : c = t := Option.some.inj (hpc.symm.trans ht)
    exact h.fresh c hcur
  · obtain rfl : c = t := Option.some.inj (hcur.symm.trans hr.child)
    exact .inl (hrel hr)

/-- Unblocking a thread and moving the parent on commute. -/
theorem setPc_unblock (s : Family) (who : Option Who) (pc : WaitPc) :
    { s.unblock who with pc := pc } = ({ s with pc := pc } : Family).unblock who := by
  cases who with
  | none => rfl
  | some w =>
    cases w with
    | parent => rfl
    | child c =>
      simp only [unblock]
      cases s.children c <;> rfl

@[simp] theorem unblock_pc (s : Family) (who : Option Who) : (s.unblock who).pc = s.pc := by
  have h := congrArg Family.pc (setPc_unblock s who s.pc)
  exact h.symm

/-- The status is returned, and the parent is out of `process_wait`. -/
theorem Inv.logStatus {st : ℤ} (h : Inv s) (hpc : s.pc = .clearWait c st) :
    Inv { s with pc := .idle, log := s.log ++ [(c, some st)] } := by
  have hcur : s.pc.child = some c := by rw [hpc]; rfl
  obtain ⟨d, hd, hs⟩ := h.wait.stage c hcur
  rw [hpc] at hs
  have hidle : Inv { s with pc := .idle } := by
    refine h.setPc ⟨by rintro ⟨⟩, fun t ht => by cases ht⟩ (fun t ht => by cases ht) fun t e he hr => .inr ?_
    obtain rfl : c = t := Option.some.inj (hcur.symm.trans hr.child)
    obtain rfl : d = e := Option.some.inj (hd.symm.trans he)
    exact (by decide : 4 ≤ 5).trans hs.1
  have hret : ({ s with pc := .idle, log := s.log ++ [(c, some st)] } : Family).returned = s.returned ++ [c] := by
    simp [returned, List.filter_append]
  refine ⟨hidle.nodup, hidle.listed, hidle.child, hidle.wait, fun t v hv => ?_, ?_, fun t ht => by cases ht⟩
  · rcases List.mem_append.1 hv with hv | hv
    · exact h.status t v hv
    · obtain ⟨rfl, hst⟩ := Prod.mk.inj (List.mem_singleton.1 hv)
      obtain rfl := Option.some.inj hst
      exact ⟨d, hd, hs⟩
  · rw [hret]
    refine List.nodup_append.2 ⟨h.once, List.nodup_singleton c, fun a ha b hb => ?_⟩
    rw [List.mem_singleton.1 hb]
    rintro rfl
    exact h.fresh a hcur ha

/-- **Each step of `process_wait` keeps the invariant.** -/
theorem Inv.waitStep (h : Inv s) (hcur : s.pc.child = some c) (hc : s.children c = some ch)
    (hn : s.waitStep c ch = some s') : Inv s' := by
  have hok := h.child c ch hc
  obtain ⟨d, hd, hs⟩ := h.wait.stage c hcur
  obtain rfl : ch = d := Option.some.inj (hc.symm.trans hd)
  cases hpc : s.pc with
  | idle => rw [hpc] at hcur; cases hcur
  | wild => rw [hpc] at hcur; cases hcur
  | downWait t =>
    have hrel : ¬ Released s.pc c := by rw [hpc]; exact id
    have h3 : ch.pc.rank ≤ 3 := by rw [hpc] at hs; exact hs
    obtain ⟨h2, hdie⟩ := hok.held h3 hrel
    rcases ch.thread.waitsem.down_cases .parent with ⟨-, sema, hdown, hv⟩ | ⟨hv, sema, hdown, -⟩
    · simp only [Family.waitStep, hpc, hdown, Bool.false_eq_true, if_false, Option.some.injEq] at hn
      subst hn
      have hput := h.putThread (t := { ch.thread with waitsem := sema }) hc rfl rfl (fun _ => hv) (fun _ _ => hdie) hok.jin
      exact hput.blocked true
    · -- the child has upped `waitsem`
      have h1 : ¬ ch.pc.rank ≤ 1 := fun h1 => hv (hok.early h1).1
      simp only [Family.waitStep, hpc, hdown, if_true, Option.some.injEq] at hn
      subst hn
      have hput := h.putThread (t := { ch.thread with waitsem := sema }) hc rfl rfl (fun h1' => absurd h1' h1)
        (fun _ _ => hdie) hok.jin
      exact hput.advance hcur rfl (put_same _ _ _) (by rintro ⟨⟩) (le_antisymm h2 (not_le.1 h1)) fun hr => absurd hr hrel
  | testWait t =>
    have hrel : ¬ Released s.pc c := by rw [hpc]; exact id
    simp only [Family.waitStep, hpc, Option.some.injEq] at hn
    subst hn
    rw [hpc] at hs
    split_ifs
    · have hlog := h.logNone c
      exact hlog.setPc ⟨by rintro ⟨⟩, fun t ht => by cases ht⟩ (fun t ht => by cases ht) fun t e _ hr => by
        have hr' : Released s.pc t := hr
        rw [hpc] at hr'
        exact hr'.elim
    · exact h.advance hcur rfl hc (by rintro ⟨⟩) hs fun hr => absurd hr hrel
  | setWait t =>
    have hrel : ¬ Released s.pc c := by rw [hpc]; exact id
    simp only [Family.waitStep, hpc, Option.some.injEq] at hn
    subst hn
    rw [hpc] at hs
    have hput := h.putThread (t := { ch.thread with wait := true }) hc rfl rfl (fun h1 => (hok.early h1).1)
      (fun h3 hr => (hok.held h3 hr).2) hok.jin
    exact hput.advance hcur rfl (put_same _ _ _) (by rintro ⟨⟩) hs fun hr => absurd hr hrel
  | readStatus t =>
    have hrel : ¬ Released s.pc c := by rw [hpc]; exact id
    simp only [Family.waitStep, hpc, Option.some.injEq] at hn
    subst hn
    rw [hpc] at hs
    have h2 : ch.pc.rank = 2 := hs
    refine h.advance hcur rfl hc (by rintro ⟨⟩) ⟨h2, hok.final (by omega) (by omega)⟩ fun hr => absurd hr hrel
  | allowWrite t st =>
    have hrel : ¬ Released s.pc c := by rw [hpc]; exact id
    simp only [Family.waitStep, hpc, Option.some.injEq] at hn
    subst hn
    rw [hpc] at hs
    exact h.advance hcur rfl hc (by rintro ⟨⟩) hs fun hr => absurd hr hrel
  | upDie t st =>
    have hrel : ¬ Released s.pc c := by rw [hpc]; exact id
    simp only [Family.waitStep, hpc, Option.some.injEq] at hn
    subst hn
    rw [hpc] at hs
    rw [setPc_unblock]
    have hgo : Inv { s with pc := .downJin c st } :=
      h.advance hcur rfl hc (by rintro ⟨⟩) ⟨hs.1.ge, hs.2⟩ fun hr => absurd hr hrel
    refine Inv.unblock ?_ _
    exact hgo.putThread (t := { ch.thread with diesem := _ }) hc rfl rfl (fun h1 => (hok.early h1).1)
      (fun _ hr => absurd rfl hr) hok.jin
  | downJin t st =>
    have hrel : Released s.pc c := by rw [hpc] at hcur ⊢; exact Option.some.inj hcur
    rw [hpc] at hs
    rcases ch.thread.jinsem.down_cases .parent with ⟨-, sema, hdown, hv⟩ | ⟨hv, sema, hdown, -⟩
    · simp only [Family.waitStep, hpc, hdown, Bool.false_eq_true, if_false, Option.some.injEq] at hn
      subst hn
      have hput := h.putThread (t := { ch.thread with jinsem := sema }) hc rfl rfl (fun h1 => (hok.early h1).1)
        (fun _ hr => absurd hrel hr) fun _ => hv
      exact hput.blocked true
    · -- the child has left the list and upped `jinsem`, or its page is gone
      have h5 : ¬ ch.pc.rank ≤ 4 := fun h4 => hv (hok.jin h4)
      simp only [Family.waitStep, hpc, hdown, if_true, Option.some.injEq] at hn
      subst hn
      have hput := h.putThread (t := { ch.thread with jinsem := sema }) hc rfl rfl (fun h1 => (hok.early h1).1)
        (fun _ hr => absurd hrel hr) fun h4 => absurd h4 h5
      exact hput.advance hcur rfl (put_same _ _ _) (by rintro ⟨⟩) ⟨by change 5 ≤ ch.pc.rank; omega, hs.2⟩ fun _ => rfl
  | clearWait t st =>
    have hrel : Released s.pc c := by rw [hpc] at hcur ⊢; exact Option.some.inj hcur
    obtain rfl : t = c := by rw [hpc] at hcur; exact Option.some.inj hcur
    simp only [Family.waitStep, hpc, Option.some.injEq] at hn
    subst hn
    have hput := h.putThread (t := { ch.thread with wait := false }) hc rfl rfl (fun h1 => (hok.early h1).1)
      (fun _ hr => absurd hrel hr) hok.jin
    exact hput.logStatus hpc

end ParentStep

/-! ### The children's steps -/

section ChildStep

variable {s s' : Family} {c : Tid} {ch : Child}

/-- A child leaves the list. -/
theorem Inv.remove (h : Inv s) (hc : s.children c = some ch) (h3 : ch.pc.rank = 3) (hrel : Released s.pc c) :
    Inv { s.put c { ch with pc := .upJin } with childrenlist := s.childrenlist.erase c } := by
  have hok := h.child c ch hc
  have hgone : ∀ t, t ∈ s.childrenlist.erase c ↔ t ≠ c ∧ t ∈ s.childrenlist := fun t => h.nodup.mem_erase_iff
  have hg : Grows (Released s.pc c) ch { ch with pc := .upJin } :=
    ⟨by rw [h3]; exact Nat.le_succ 3, fun _ hv => hv, fun hr => absurd hrel hr⟩
  refine ⟨h.nodup.erase c, fun t ht => ?_, fun t d hd => ?_, h.wait.update hc hg, fun t v hv => ?_, h.once, h.fresh⟩
  · obtain ⟨hne, ht'⟩ := (hgone t).1 ht
    obtain ⟨d, hd⟩ := h.listed t ht'
    exact ⟨d, (put_of_ne _ s hne).trans hd⟩
  · by_cases htc : t = c
    · subst htc
      obtain rfl := Option.some.inj ((put_same t _ s).symm.trans hd)
      refine ⟨fun h1 => absurd h1 (by decide : ¬ 4 ≤ 1), ?_, fun h3' => absurd h3' (by decide : ¬ 4 ≤ 3),
        fun _ => hok.jin (by omega), fun h1 => absurd h1 (by decide : ¬ 4 ≤ 1), fun _ => hok.late (by omega),
        fun _ _ => hok.final (by omega) (by omega)⟩
      exact ⟨fun ht => absurd rfl ((hgone t).1 ht).1, fun h3' => absurd h3' (by decide : ¬ 4 ≤ 3)⟩
    · have hd' : s.children t = some d := (put_of_ne _ s htc).symm.trans hd
      have hok' := h.child t d hd'
      refine ⟨hok'.name, ?_, hok'.held, hok'.jin, hok'.early, hok'.late, hok'.final⟩
      rw [← hok'.listed_iff]
      exact ⟨fun ht => ((hgone t).1 ht).2, fun ht => (hgone t).2 ⟨htc, ht⟩⟩
  · obtain ⟨d, hd, h5, hx⟩ := h.status t v hv
    have hne : t ≠ c := by
      rintro rfl
      obtain rfl : ch = d := Option.some.inj (hc.symm.trans hd)
      omega
    exact ⟨d, (put_of_ne _ s hne).trans hd, h5, hx⟩

/-- **Each step of `process_exit` keeps the invariant.** -/
theorem Inv.exitStep (h : Inv s) (hc : s.children c = some ch) (hn : s.exitStep c ch = some s') : Inv s' := by
  have hok := h.child c ch hc
  obtain ⟨t, pc, b, x⟩ := ch
  cases pc with
  | running | dying | freed => cases hn
  | upWait =>
    have hname : t.name ≠ "main" := hok.name le_rfl
    have hx : x = none := (hok.early le_rfl).2
    simp only [Family.exitStep, if_neg hname, Option.some.injEq] at hn
    subst hn
    refine Inv.unblock ?_ _
    refine h.put hc ⟨fun _ => hname, ?_, fun _ hr => ⟨le_rfl, ?_⟩, fun _ => hok.jin (by decide : 1 ≤ 4),
      fun h1 => absurd h1 (by decide : ¬ 2 ≤ 1), fun _ => by rintro ⟨⟩, fun _ _ => rfl⟩ ?_
    · exact ⟨fun _ => (by decide : 2 ≤ 3), fun _ => hok.listed_iff.2 (by decide : 1 ≤ 3)⟩
    · exact (hok.held (by decide : 1 ≤ 3) hr).2
    · refine ⟨(by decide : 1 ≤ 2), fun v hv => ?_, fun _ _ => le_rfl⟩
      have hv' : x = some v := hv
      rw [hx] at hv'
      cases hv'
  | downDie =>
    rcases t.diesem.down_cases (.child c) with ⟨-, sema, hdown, hv⟩ | ⟨hv, sema, hdown, -⟩
    · simp only [Family.exitStep, hdown, Bool.false_eq_true, if_false, Option.some.injEq] at hn
      subst hn
      refine h.put hc ⟨hok.name, hok.listed_iff, fun h3 hr => ⟨(hok.held h3 hr).1, hv⟩, hok.jin, ?_, hok.late,
        hok.final⟩ (Grows.of_eq rfl rfl fun hr h3 => (hok.held h3 hr).1)
      exact fun h1 => absurd h1 (by decide : ¬ 2 ≤ 1)
    · -- the parent has let the child go
      have hrel : Released s.pc c := by
        by_contra hr
        exact hv (hok.held (by decide : 2 ≤ 3) hr).2
      simp only [Family.exitStep, hdown, if_true, Option.some.injEq] at hn
      subst hn
      refine h.put hc ⟨fun h1 => absurd h1 (by decide : ¬ 3 ≤ 1), ?_, fun _ hr => absurd hrel hr,
        fun _ => hok.jin (by decide : 2 ≤ 4), fun h1 => absurd h1 (by decide : ¬ 3 ≤ 1), fun _ => hok.late le_rfl,
        fun _ _ => hok.final le_rfl (by decide : 2 ≤ 6)⟩ ?_
      · exact ⟨fun _ => (by decide : 3 ≤ 3), fun _ => hok.listed_iff.2 (by decide : 2 ≤ 3)⟩
      · exact ⟨(by decide : 2 ≤ 3), fun _ hv => hv, fun hr => absurd hrel hr⟩
  | remove =>
    have hrel : Released s.pc c := by
      by_contra hr
      exact absurd (hok.held le_rfl hr).1 (by decide : ¬ 3 ≤ 2)
    simp only [Family.exitStep, Option.some.injEq] at hn
    subst hn
    exact h.remove hc rfl hrel
  | upJin =>
    simp only [Family.exitStep, Option.some.injEq] at hn
    subst hn
    refine Inv.unblock ?_ _
    refine h.put hc (hok.later le_rfl le_rfl rfl fun _ => ⟨(by decide : 4 ≤ 6), rfl⟩) ?_
    exact ⟨(by decide : 4 ≤ 5), fun _ hv => hv, fun _ h3 => absurd h3 (by decide : ¬ 4 ≤ 3)⟩
  | closing =>
    simp only [Family.exitStep, Option.some.injEq] at hn
    subst hn
    refine h.put hc (hok.later (by decide : 4 ≤ 5) (by decide : 5 ≤ 6) rfl fun _ => ⟨(by decide : 5 ≤ 6), rfl⟩) ?_
    exact ⟨(by decide : 5 ≤ 6), fun _ hv => hv, fun _ h3 => absurd h3 (by decide : ¬ 5 ≤ 3)⟩

end ChildStep

/-! ### The protocol -/

/-- The program of a child is not called `main`. -/
def NotMain : Event → Prop
  | .create _ name => name ≠ "main"
  | _ => True

instance (e : Event) : Decidable (NotMain e) :=
  match e with
  | .create _ _ => inferInstanceAs (Decidable (_ ≠ _))
  | .wait _ | .parent | .runs _ _ _ | .exit _ | .child _ | .tail _ _ | .reuse _ _ _ => isTrue trivial

/-- **Every event keeps the invariant**, as long as no child is called `main`. -/
theorem Inv.next {s s' : Family} {e : Event} (h : Inv s) (he : NotMain e) (hn : next e s = some s') : Inv s' := by
  cases e with
  | create c name =>
    simp only [Family.next] at hn
    split at hn
    · rename_i hpc hc
      cases hn
      exact h.create hpc hc he
    · cases hn
  | wait tid =>
    simp only [Family.next] at hn
    split at hn
    · rename_i hpc
      cases hn
      exact h.beginWait hpc tid
    · cases hn
  | parent =>
    simp only [Family.next] at hn
    split_ifs at hn
    obtain ⟨c, hcur, hn⟩ := Option.bind_eq_some_iff.1 hn
    obtain ⟨ch, hc, hn⟩ := Option.bind_eq_some_iff.1 hn
    exact h.waitStep hcur hc hn
  | runs c status file =>
    obtain ⟨⟨t, pc, b, x⟩, hc, hn⟩ := Option.bind_eq_some_iff.1 hn
    split_ifs at hn with hpc
    cases hn
    dsimp only at hpc
    subst hpc
    have hok := h.child c _ hc
    refine h.put hc ⟨hok.name, hok.listed_iff, hok.held, hok.jin, hok.early, hok.late, ?_⟩ ?_
    · exact fun h2 => absurd h2 (by decide : ¬ 2 ≤ 0)
    · exact Grows.of_eq rfl rfl fun hr h3 => (hok.held h3 hr).1
  | exit c =>
    obtain ⟨⟨t, pc, b, x⟩, hc, hn⟩ := Option.bind_eq_some_iff.1 hn
    split_ifs at hn with hpc
    cases hn
    dsimp only at hpc
    subst hpc
    have hok := h.child c _ hc
    refine h.put hc ⟨fun _ => hok.name (Nat.zero_le 1), ?_, fun _ hr => ⟨(by decide : 1 ≤ 2), ?_⟩,
      fun _ => hok.jin (Nat.zero_le 4), fun _ => hok.early (Nat.zero_le 1), ?_, ?_⟩ ?_
    · exact ⟨fun _ => (by decide : 1 ≤ 3), fun _ => hok.listed_iff.2 (Nat.zero_le 3)⟩
    · exact (hok.held (Nat.zero_le 3) hr).2
    · exact fun h2 => absurd h2 (by decide : ¬ 2 ≤ 1)
    · exact fun h2 => absurd h2 (by decide : ¬ 2 ≤ 1)
    · exact ⟨Nat.zero_le 1, fun _ hv => hv, fun _ _ => (by decide : 1 ≤ 2)⟩
  | child c =>
    obtain ⟨ch, hc, hn⟩ := Option.bind_eq_some_iff.1 hn
    split_ifs at hn
    exact h.exitStep hc hn
  | tail c junk =>
    obtain ⟨⟨t, pc, b, x⟩, hc, hn⟩ := Option.bind_eq_some_iff.1 hn
    split_ifs at hn with hpc
    cases hn
    dsimp only at hpc
    subst hpc
    have hok := h.child c _ hc
    refine h.put hc (hok.later (by decide : 4 ≤ 6) (by decide : 5 ≤ 7) rfl fun h6 => ?_) ?_
    · exact absurd h6 (by decide : ¬ 7 ≤ 6)
    · exact ⟨(by decide : 6 ≤ 7), fun _ hv => hv, fun _ h3 => absurd h3 (by decide : ¬ 6 ≤ 3)⟩
  | reuse c junk wakes =>
    obtain ⟨⟨t, pc, b, x⟩, hc, hn⟩ := Option.bind_eq_some_iff.1 hn
    split_ifs at hn with hpc
    cases hn
    dsimp only at hpc
    subst hpc
    have hok := h.child c _ hc
    refine Inv.blocked ?_ _
    refine h.put hc (hok.later (by decide : 4 ≤ 7) (by decide : 5 ≤ 7) rfl fun h6 => ?_) ?_
    · exact absurd h6 (by decide : ¬ 7 ≤ 6)
    · exact ⟨le_rfl, fun _ hv => hv, fun _ h3 => absurd h3 (by decide : ¬ 7 ≤ 3)⟩

/-- The states reached by any interleaving in which no child is called `main`. -/
theorem Inv.of_reach {s : Family} (h : Reach Family.next (fun e _ => NotMain e) Family.start s) : Inv s :=
  h.invariant Inv.start fun _ _ _ hi he hn => hi.next he hn

/-- **The wait/exit protocol**: in every interleaving in which no child is called `main`,
`process_wait` has returned the status of each child at most once, only of a thread the caller
created, and only the final status with which that child reached `sema_up (&curr->waitsem)`; and a
`process_wait` on any other thread, or once more on the same one, returns -1. -/
theorem process_wait_protocol {s : Family} (h : Reach Family.next (fun e _ => NotMain e) Family.start s) :
    (∀ t, s.returned.count t ≤ 1) ∧
      (∀ t v, (t, some v) ∈ s.log → ∃ ch, s.children t = some ch ∧ ch.exited = some v ∧
        (ch.pc ≠ .freed → ch.thread.returnstatus = v)) ∧
      ∀ t, s.pc = .idle → s.children t = none ∨ t ∈ s.returned →
        Family.next (.wait t) s = some { s with log := s.log ++ [(t, none)] } := by
  have hi := Inv.of_reach h
  refine ⟨fun t => List.nodup_iff_count_le_one.1 hi.once t, fun t v hv => ?_, fun t hpc ht => ?_⟩
  · obtain ⟨ch, hc, h5, hx⟩ := hi.status t v hv
    refine ⟨ch, hc, hx, fun hf => ?_⟩
    have h6 : ch.pc.rank ≤ 6 := by
      cases hp : ch.pc with
      | freed => exact absurd hp hf
      | _ => decide
    exact Option.some.inj (((hi.child t ch hc).final (by omega) h6).symm.trans hx)
  · have hlist : t ∉ s.childrenlist := by
      intro hm
      obtain ⟨ch, hc⟩ := hi.listed t hm
      rcases ht with hnone | hret
      · rw [hnone] at hc
        cases hc
      · have h3 := (hi.child t ch hc).listed_iff.1 hm
        exact hi.not_returned hc (by omega) hret
    simp only [Family.next, hpc, hi.beginWait_missing hlist]

/-- A child that takes part in a whole wait: it exits with status 7. -/
def waited : List Event :=
  [.create 3 "a", .wait 3, .parent, .runs 3 7 true, .exit 3, .child 3, .parent, .parent, .parent, .parent, .parent,
    .parent, .parent, .child 3, .child 3, .child 3, .parent, .parent]

/-- `process_wait` has returned 7 for the child; a second call returns -1. -/
theorem process_wait_protocol_again : ∃ s, Reach Family.next (fun e _ => NotMain e) Family.start s ∧
    s.log = [(3, some 7)] ∧ Family.next (.wait 3) s = some { s with log := s.log ++ [(3, none)] } := by
  have hrun : (follow Family.next (fun e _ => decide (NotMain e)) waited Family.start).map (fun s => (s.log, s.pc)) =
      some ([(3, some 7)], .idle) := by decide +kernel
  obtain ⟨s, hs, hend⟩ := Option.map_eq_some_iff.1 hrun
  obtain ⟨hlog, hpc⟩ := Prod.mk.inj hend
  have hreach : Reach Family.next (fun e _ => NotMain e) Family.start s :=
    Reach.of_follow hs (fun _ _ _ hc => of_decide_eq_true hc) .refl
  refine ⟨s, hreach, hlog, (process_wait_protocol hreach).2.2 3 hpc (.inr ?_)⟩
  rw [mem_returned, hlog]
  exact ⟨7, List.mem_cons_self⟩

/-- A program called `main` is run and exits, and its page is returned. -/
def mainExits : List Event := [.create 3 "main", .exit 3, .child 3, .child 3, .tail 3 (newThread "")]

/-- Afterwards `process_wait` on a thread that is no child does not return -1: `find_child` walks
over the page that was returned. -/
theorem process_wait_after_main : ∃ s s', Reach Family.next (fun _ _ => True) Family.start s ∧ s.pc = .idle ∧
    s.children 9 = none ∧ Family.next (.wait 9) s = some s' ∧ s'.pc = .wild ∧ s'.log = [] := by
  have hrun : ((follow Family.next (fun _ _ => true) mainExits Family.start).bind fun s => (Family.next (.wait 9) s).map fun s' =>
      (s.pc, (s.children 9).isNone, s'.pc, s'.log.isEmpty)) = some (.idle, true, .wild, true) := by decide +kernel
  obtain ⟨s, hs, hnext⟩ := Option.bind_eq_some_iff.1 hrun
  obtain ⟨s', hs', hend⟩ := Option.map_eq_some_iff.1 hnext
  simp only [Prod.mk.injEq, Option.isNone_iff_eq_none, List.isEmpty_iff] at hend
  obtain ⟨hpc, hnone, hwild, hlog⟩ := hend
  exact ⟨s, s', Reach.of_follow hs (fun _ _ _ _ => trivial) .refl, hpc, hnone, hs', hwild, hlog⟩

/-! ### Returned pages -/

/-- The children `find_child` looks at. -/
def visits (tid : Tid) : List Tid → List Tid
  | [] => []
  | c :: rest => if c = tid then [c] else c :: visits tid rest

/-- The children whose struct the parent reads or writes in an event. -/
def touches (e : Event) (s : Family) : List Tid :=
  match e with
  -- `list_push_back` links the new child to the last one
  | .create _ _ => s.childrenlist.getLast?.toList
  | .wait tid => visits tid s.childrenlist
  | .parent => s.pc.child.toList
  | _ => []

/-- **No step of the parent is on a page that was returned.** -/
def NoneStale (s : Family) : Prop :=
  ∀ e s', Family.next e s = some s' → ∀ c ∈ touches e s, ∃ ch, s.children c = some ch ∧ ch.pc ≠ .freed

/-- No child is called `main`, and `schedule_tail` returns the page of a child only when the parent
is not inside `process_wait` for it. -/
def Unhurried (e : Event) (s : Family) : Prop :=
  NotMain e ∧ ∀ c junk, e = .tail c junk → s.pc.child ≠ some c

theorem visits_subset (tid : Tid) (l : List Tid) : ∀ c ∈ visits tid l, c ∈ l := by
  induction l with
  | nil => exact fun c hc => hc
  | cons a l ih =>
    intro c hc
    simp only [visits] at hc
    split_ifs at hc
    · rw [List.mem_singleton.1 hc]
      exact List.mem_cons_self
    · rcases List.mem_cons.1 hc with rfl | hc
      · exact List.mem_cons_self
      · exact List.mem_cons_of_mem a (ih c hc)

/-- The page of a child is in place. -/
def InPlace (s : Family) (c : Tid) : Prop := ∃ ch, s.children c = some ch ∧ ch.pc ≠ .freed

section InPlace

variable {s s' : Family} {c t : Tid} {ch : Child}

theorem InPlace.put (h : InPlace s t) (hc : s.children c = some ch) (ch' : Child) (hf : ch'.pc = .freed → ch.pc = .freed) :
    InPlace (s.put c ch') t := by
  obtain ⟨d, hd, hdf⟩ := h
  by_cases htc : t = c
  · subst htc
    obtain rfl : ch = d := Option.some.inj (hc.symm.trans hd)
    exact ⟨ch', put_same _ _ _, fun h => hdf (hf h)⟩
  · exact ⟨d, (put_of_ne ch' s htc).trans hd, hdf⟩

theorem InPlace.unblock (h : InPlace s t) (who : Option Who) : InPlace (s.unblock who) t := by
  unfold Family.unblock
  split
  · exact h
  · exact h
  · split
    · exact h
    · rename_i ch hch
      exact h.put hch _ id

/-- The parent's steps leave the pages in place. -/
theorem InPlace.waitStep (h : InPlace s t) (hc : s.children c = some ch) (hn : s.waitStep c ch = some s') :
    InPlace s' t := by
  unfold Family.waitStep at hn
  split at hn
  · cases hn
  · cases hn
  · cases hn
    split_ifs <;> exact h.put hc _ id
  · cases hn
    split_ifs <;> exact h
  · cases hn
    exact h.put hc _ id
  · cases hn
    exact h
  · cases hn
    exact h
  · cases hn
    exact (h.put hc { ch with thread := { ch.thread with diesem := ch.thread.diesem.up.2 } } id).unblock _
  · cases hn
    split_ifs <;> exact h.put hc _ id
  · cases hn
    exact h.put hc _ id

/-- The parent stays with its child, or leaves it. -/
theorem child_waitStep (hcur : s.pc.child = some c) (hn : s.waitStep c ch = some s') (ht : s'.pc.child = some t) : t = c := by
  unfold Family.waitStep at hn
  split at hn
  all_goals cases hn
  all_goals first
    | (split_ifs at ht <;> first | exact (Option.some.inj ht).symm | cases ht | exact Option.some.inj (ht.symm.trans hcur))
    | exact (Option.some.inj ht).symm
    | cases ht

/-- The steps of `process_exit` leave the pages in place. -/
theorem InPlace.exitStep (h : InPlace s t) (hc : s.children c = some ch) (hn : s.exitStep c ch = some s') :
    InPlace s' t := by
  unfold Family.exitStep at hn
  split at hn
  · cases hn
  · cases hn
  · cases hn
  · cases hn
    refine InPlace.unblock (h.put hc _ fun hf => ?_) _
    dsimp only at hf
    split_ifs at hf
  · cases hn
    split_ifs
    · exact h.put hc _ (by rintro ⟨⟩)
    · exact h.put hc _ id
  · cases hn
    exact h.put hc _ (by rintro ⟨⟩)
  · cases hn
    exact InPlace.unblock (h.put hc _ (by rintro ⟨⟩)) _
  · cases hn
    exact h.put hc _ (by rintro ⟨⟩)

/-- **Only `schedule_tail` returns a page.** -/
theorem InPlace.next {e : Event} (h : InPlace s t) (hn : Family.next e s = some s') (he : ∀ junk, e ≠ .tail t junk) :
    InPlace s' t := by
  cases e with
  | create c name =>
    simp only [Family.next] at hn
    split at hn
    · rename_i hpc hc
      cases hn
      obtain ⟨d, hd, hf⟩ := h
      have hne : t ≠ c := by
        rintro rfl
        rw [hc] at hd
        cases hd
      exact ⟨d, (put_of_ne _ s hne).trans hd, hf⟩
    · cases hn
  | wait tid =>
    simp only [Family.next] at hn
    split at hn
    · cases hn
      unfold beginWait
      split <;> exact h
    · cases hn
  | parent =>
    simp only [Family.next] at hn
    split_ifs at hn
    obtain ⟨c, -, hn⟩ := Option.bind_eq_some_iff.1 hn
    obtain ⟨ch, hc, hn⟩ := Option.bind_eq_some_iff.1 hn
    exact h.waitStep hc hn
  | runs c status file =>
    obtain ⟨ch, hc, hn⟩ := Option.bind_eq_some_iff.1 hn
    split_ifs at hn
    cases hn
    exact h.put hc _ id
  | exit c =>
    obtain ⟨ch, hc, hn⟩ := Option.bind_eq_some_iff.1 hn
    split_ifs at hn
    cases hn
    exact h.put hc _ (by rintro ⟨⟩)
  | child c =>
    obtain ⟨ch, hc, hn⟩ := Option.bind_eq_some_iff.1 hn
    split_ifs at hn
    exact h.exitStep hc hn
  | tail c junk =>
    obtain ⟨ch, hc, hn⟩ := Option.bind_eq_some_iff.1 hn
    split_ifs at hn
    cases hn
    obtain ⟨d, hd, hf⟩ := h
    have hne : t ≠ c := by
      rintro rfl
      exact he junk rfl
    exact ⟨d, (put_of_ne _ s hne).trans hd, hf⟩
  | reuse c junk wakes =>
    obtain ⟨ch, hc, hn⟩ := Option.bind_eq_some_iff.1 hn
    split_ifs at hn
    cases hn
    exact h.put hc _ id

/-- The parent takes up a child only in a call of `process_wait`, and from its list. -/
theorem child_next {e : Event} (hi : Inv s) (hn : Family.next e s = some s') (ht : s'.pc.child = some t) :
    s.pc.child = some t ∨ t ∈ s.childrenlist := by
  cases e with
  | create c name =>
    simp only [Family.next] at hn
    split at hn
    · cases hn
      exact .inl ht
    · cases hn
  | wait tid =>
    simp only [Family.next] at hn
    split at hn
    · rename_i hpc
      cases hn
      by_cases hm : tid ∈ s.childrenlist
      · rw [hi.beginWait_found hm] at ht
        exact .inr (Option.some.inj ht ▸ hm)
      · rw [hi.beginWait_missing hm] at ht
        exact .inl ht
    · cases hn
  | parent =>
    simp only [Family.next] at hn
    split_ifs at hn
    obtain ⟨c, hcur, hn⟩ := Option.bind_eq_some_iff.1 hn
    obtain ⟨ch, hc, hn⟩ := Option.bind_eq_some_iff.1 hn
    exact .inl (child_waitStep hcur hn ht ▸ hcur)
  | child c =>
    obtain ⟨ch, hc, hn⟩ := Option.bind_eq_some_iff.1 hn
    split_ifs at hn
    left
    unfold Family.exitStep at hn
    split at hn
    all_goals cases hn
    all_goals first
      | (rw [unblock_pc] at ht; exact ht)
      | (split_ifs at ht <;> exact ht)
      | exact ht
  | runs c status file | exit c | tail c junk | reuse c junk wakes =>
    obtain ⟨ch, hc, hn⟩ := Option.bind_eq_some_iff.1 hn
    split_ifs at hn
    cases hn
    exact .inl ht

/-- The steps keep the parent's child in place, when its page is not returned early. -/
theorem inPlace_next {e : Event} (hi : Inv s) (h : ∀ c, s.pc.child = some c → InPlace s c) (hu : Unhurried e s)
    (hn : Family.next e s = some s') : ∀ c, s'.pc.child = some c → InPlace s' c := by
  intro c hc
  have hstart : InPlace s c ∧ ∀ junk, e ≠ .tail c junk := by
    rcases child_next hi hn hc with hcur | hm
    · refine ⟨h c hcur, fun junk he => hu.2 c junk he hcur⟩
    · refine ⟨hi.inPlace c hm, ?_⟩
      -- a child on the list is not dying
      rintro junk rfl
      obtain ⟨ch, hch, hn⟩ := Option.bind_eq_some_iff.1 hn
      have h3 := (hi.child c ch hch).listed_iff.1 hm
      split_ifs at hn with hd
      rw [hd] at h3
      exact absurd h3 (by decide)
  exact hstart.1.next hn hstart.2

end InPlace

/-- What the parent looks at in a call is on its list. -/
theorem Inv.noneStale {s : Family} (h : Inv s) (hp : ∀ c, s.pc.child = some c → InPlace s c) : NoneStale s := by
  intro e s' _ c hc
  cases e with
  | create d name => exact h.inPlace c (List.mem_of_getLast? (Option.mem_toList.1 hc))
  | wait tid => exact h.inPlace c (visits_subset tid _ c hc)
  | parent => exact hp c (Option.mem_toList.1 hc)
  | _ => cases hc

/-- **The parent does not use a returned page**: in every interleaving in which no child is called
`main` and `schedule_tail` returns no page of a child while the parent is inside `process_wait` for
it, every step of the parent reads and writes only structs that are in place; and such a
`schedule_tail` leaves the parent's next step on a returned page. -/
theorem process_wait_in_place (s : Family) :
    (Reach Family.next Unhurried Family.start s → NoneStale s) ∧
      ∀ c junk s', Family.next (.tail c junk) s = some s' → s.pc.child = some c →
        c ∈ touches .parent s' ∧ ¬ InPlace s' c := by
  refine ⟨fun h => ?_, fun c junk s' hn hcur => ?_⟩
  · have hboth : Inv s ∧ ∀ c, s.pc.child = some c → InPlace s c :=
      h.invariant (I := fun t => Inv t ∧ ∀ c, t.pc.child = some c → InPlace t c) ⟨Inv.start, fun c hc => by cases hc⟩
        fun e t u ht hu hn => ⟨ht.1.next hu.1 hn, inPlace_next ht.1 ht.2 hu hn⟩
    exact hboth.1.noneStale hboth.2
  · obtain ⟨ch, hc, hn⟩ := Option.bind_eq_some_iff.1 hn
    split_ifs at hn
    cases hn
    refine ⟨Option.mem_toList.2 hcur, ?_⟩
    rintro ⟨d, hd, hf⟩
    obtain rfl := Option.some.inj ((put_same c _ s).symm.trans hd)
    exact hf rfl

/-- A check that an event is unhurried. -/
def calm (e : Event) (s : Family) : Bool :=
  decide (NotMain e) && match e with
    | .tail c _ => decide (s.pc.child ≠ some c)
    | _ => true

theorem Unhurried.of_calm {e : Event} {s : Family} (h : calm e s = true) : Unhurried e s := by
  obtain ⟨hm, ht⟩ := Bool.and_eq_true_iff.1 h
  refine ⟨of_decide_eq_true hm, ?_⟩
  rintro c junk rfl
  exact of_decide_eq_true ht

/-- After a whole wait the child's page is returned, and the parent may go on. -/
theorem process_wait_in_place_after : ∃ s, Reach Family.next Unhurried Family.start s ∧ ¬ InPlace s 3 ∧ NoneStale s := by
  have hrun : ((follow Family.next calm (waited ++ [.child 3, .tail 3 (newThread "")]) Family.start).bind fun s =>
      (s.children 3).map Child.pc) = some .freed := by decide +kernel
  obtain ⟨s, hs, hch⟩ := Option.bind_eq_some_iff.1 hrun
  obtain ⟨ch, hc, hf⟩ := Option.map_eq_some_iff.1 hch
  have hreach : Reach Family.next Unhurried Family.start s := Reach.of_follow hs (fun _ _ _ => Unhurried.of_calm) .refl
  refine ⟨s, hreach, ?_, (process_wait_in_place s).1 hreach⟩
  rintro ⟨d, hd, hdf⟩
  obtain rfl := Option.some.inj (hc.symm.trans hd)
  exact hdf hf

/-- The child is let go, ups `jinsem` and is through to `schedule_tail` before the parent runs. -/
def hurried : List Event :=
  [.create 3 "a", .exit 3, .child 3, .wait 3, .parent, .parent, .parent, .parent, .parent, .parent, .parent,
    .child 3, .child 3, .child 3, .child 3, .tail 3 (newThread "")]

/-- The parent, woken by `sema_up (&curr->jinsem)`, tests `jinsem` again on the returned page. -/
theorem process_wait_stale : ∃ s, Reach Family.next (fun e _ => NotMain e) Family.start s ∧
    s.pc = .downJin 3 0 ∧ s.blocked = false ∧ ¬ NoneStale s := by
  have hrun : ((follow Family.next (fun e _ => decide (NotMain e)) hurried Family.start).bind fun s => (Family.next .parent s).bind fun _ =>
      (s.children 3).map fun ch => (s.pc, s.blocked, ch.pc)) = some (.downJin 3 0, false, .freed) := by decide +kernel
  obtain ⟨s, hs, hnext⟩ := Option.bind_eq_some_iff.1 hrun
  obtain ⟨s', hs', hch⟩ := Option.bind_eq_some_iff.1 hnext
  obtain ⟨ch, hc, hend⟩ := Option.map_eq_some_iff.1 hch
  simp only [Prod.mk.injEq] at hend
  obtain ⟨hpc, hb, hf⟩ := hend
  refine ⟨s, Reach.of_follow hs (fun _ _ _ hc => of_decide_eq_true hc) .refl, hpc, hb, fun hstale => ?_⟩
  obtain ⟨d, hd, hdf⟩ := hstale .parent s' hs' 3 (by simp [touches, hpc, WaitPc.child])
  obtain rfl := Option.some.inj (hc.symm.trans hd)
  exact hdf hf

end Family

end Pintos.Waiting
