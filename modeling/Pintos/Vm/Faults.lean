import Pintos.Vm.Entries
import Pintos.Vm.Supply
import Pintos.Vm.SwapSlots

/-!
# What becomes of a page fault

`page_fault` (`userprog/exception.c`) returns to the instruction that faulted, ends the
process, or brings the kernel down. It makes progress if, where it returns, the
instruction can go on. `Served` says of the state before, branch by branch, when it does.
It does not with a stack pointer below `0xa0058000` in user mode, where it returns at
once; for a write to a page that is read-only, which it brings in as it is; when a file
is too short, or memory for an entry or a page table is missing, which it does not look
at; and in kernel mode not for a stack page in swap, where it panics.
-/

namespace Pintos.Paging

open Library

/-- How `page_fault` ends. -/
inductive Outcome
  /-- It returns to the instruction that faulted. -/
  | returns (s : Vm)
  /-- It calls `thread_exit`. -/
  | exits (s : Vm)
  /-- A panic, a failed assertion or a wild pointer. -/
  | stops

/-- What returns if it comes to an end. -/
def Outcome.ofReturn : Option Vm → Outcome
  | some s => .returns s
  | none => .stops

namespace Vm

/-- How `page_fault` ends after a load. -/
def Loaded.outcome : Loaded → Outcome
  | .noFrame s => .exits s
  | .done s => .returns s
  | .short s => .returns s

variable (s : Vm)

/-- The page of a supplementary entry is read from its file, as both branches of `page_fault` do it. -/
def loadSpte (mem : Memory) (p : Pid) (pg : Page) (e : Spte) : Outcome :=
  match e.file with
  -- the pointer of an anonymous page is null or wild
  | none => .stops
  | some file =>
    if (e.readBytes + e.zeroBytes) % pgsize = 0 then
      match s.load mem p pg e file with
      | none => .stops
      | some r => r.outcome
    else .stops

/-- `page_fault`, up to where it returns or calls `thread_exit`. `stack` is `f->esp` in user mode and `process_stack` in kernel
mode. -/
def pageFault (mem : Memory) (p : Pid) (user notPresent : Bool) (addr stack : ℕ) : Outcome :=
  if user then
    match Paging.pageOf addr with
    | none => .exits s
    | some pg =>
      if addr = 0 then .exits s
      else if isCodeVaddr stack then .returns s
      else
        match s.hash p pg with
        | none =>
          if isCodeVaddr addr then .exits s
          else if stack ≤ addr ∨ stack = addr + 32 ∨ stack = addr + 4 then .ofReturn (s.growStack mem p pg)
          else .exits s
        | some e => if e.inswap then .ofReturn (s.swapIn mem p pg) else s.loadSpte mem p pg e
  else if notPresent then
    match Paging.pageOf addr with
    | none => .stops
    | some pg =>
      if ((s.hash p pg).isNone ∧ addr ≤ stack) ∨ isCodeSection stack = true then .exits s
      else
        match s.hash p pg with
        | none => .ofReturn (s.growStack mem p pg)
        | some e => s.loadSpte mem p pg e
  else .exits s

/-- What the processor reports of an access: whether the page is not present; where it is, it was a write to a read-only
page. Of kernel memory nothing is known. -/
def Raised (p : Pid) (write notPresent : Bool) (addr : ℕ) : Prop :=
  ∀ pg, Paging.pageOf addr = some pg → (notPresent = !(s.pagedir p pg).present) ∧
    ((s.pagedir p pg).present = true → write = true ∧ (s.pagedir p pg).writable = false)

end Vm

namespace Vm

variable (s : Vm)

/-- A stack page can be had. -/
structure Grows (mem : Memory) : Prop where
  room : s.Room
  entry : mem.entry = true
  pageTable : mem.pageTable = true

/-- A page can be brought in for the access. -/
structure Brings (mem : Memory) (e : Spte) (write : Bool) : Prop where
  pageTable : mem.pageTable = true
  writable : write = true → e.writable = true

/-- A page is loaded for the access, or the process ends as the page is present already. -/
structure Loads (mem : Memory) (p : Pid) (pg : Page) (e : Spte) (write : Bool) : Prop where
  aligned : (e.readBytes + e.zeroBytes) % pgsize = 0
  room : s.Room
  file : ∃ file, e.file = some file ∧ ((s.pagedir p pg).present = true ∧ ¬ s.GivesUp p pg ∨
    s.fileReadAt file e.readBytes e.ofs = e.readBytes ∧ Brings mem e write)

/-- **When `page_fault` makes progress**, branch by branch. -/
def Served (mem : Memory) (p : Pid) (user write notPresent : Bool) (addr stack : ℕ) : Prop :=
  match Paging.pageOf addr with
  | none => user = true ∨ notPresent = false
  | some pg =>
    if user then
      addr = 0 ∨ isCodeVaddr stack = false ∧
        match s.hash p pg with
        | none => isCodeVaddr addr = true ∨ ¬ (stack ≤ addr ∨ stack = addr + 32 ∨ stack = addr + 4) ∨
            (s.pagedir p pg).present = false ∧ s.Grows mem
        | some e => if e.inswap then s.Room ∧ Brings mem e write else s.Loads mem p pg e write
    else
      (s.pagedir p pg).present = true ∨ isCodeSection stack = true ∨
        match s.hash p pg with
        | none => addr ≤ stack ∨ s.Grows mem
        | some e => s.Loads mem p pg e write

/-! ### The step of the system -/

variable {s}
variable {s' t u : Vm} {p q : Pid} {pg pg' : Page} {mem : Memory} {fte v : Fte} {e : Spte} {f : ℕ}
variable {user write notPresent : Bool} {addr stack : ℕ}

/-- **A fault is this**, and then `process_exit` where it does not return. -/
theorem next_fault {visited : List Page} (hl : s.live p = true) (hf : s.faults p write addr = true)
    (hr : s.Raised p write notPresent addr) (hk : user = false → (Paging.pageOf addr).isSome = true)
    (ha : ∀ pg e, s.hash p pg = some e → (e.readBytes + e.zeroBytes) % pgsize = 0) :
    next (.fault mem p user write addr stack visited) s =
      match s.pageFault mem p user notPresent addr stack with
      | .returns t => some t
      | .exits t => t.processExit mem p visited
      | .stops => none := by
  have hload : ∀ pg e, s.hash p pg = some e → (do
      let file ← e.file
      match ← s.load mem p pg e file with
      | .noFrame s => s.processExit mem p visited
      | .done s => some s
      | .short s => some s) =
      match s.loadSpte mem p pg e with
      | .returns t => some t
      | .exits t => t.processExit mem p visited
      | .stops => none := by
    intro pg e he
    unfold loadSpte
    cases hfile : e.file with
    | none => rfl
    | some file =>
      simp only [if_pos (ha pg e he), Option.bind_eq_bind, Option.bind_some]
      cases hrun : s.load mem p pg e file with
      | none => rfl
      | some r => cases r <;> rfl
  have hgrow : ∀ o : Option Vm, o = match Outcome.ofReturn o with
      | .returns t => some t
      | .exits t => t.processExit mem p visited
      | .stops => none := by
    intro o
    cases o <;> rfl
  rw [next, if_pos ⟨hl, hf⟩]
  unfold pageFault
  cases user with
  | true =>
    simp only [if_true, pageFaultUser]
    cases hpg : Paging.pageOf addr with
    | none => rfl
    | some pg =>
      dsimp only
      by_cases h0 : addr = 0
      · rw [if_pos h0, if_pos h0]
      rw [if_neg h0, if_neg h0]
      by_cases hesp : isCodeVaddr stack = true
      · rw [if_pos hesp, if_pos hesp]
      rw [if_neg hesp, if_neg hesp]
      cases he : s.hash p pg with
      | none =>
        dsimp only
        split_ifs
        · rfl
        · exact hgrow _
        · rfl
      | some e =>
        dsimp only
        by_cases hin : e.inswap = true
        · rw [if_pos hin, if_pos hin]
          exact hgrow _
        · rw [if_neg hin, if_neg hin]
          exact hload pg e he
  | false =>
    obtain ⟨pg, hpg⟩ := Option.isSome_iff_exists.1 (hk rfl)
    rw [(hr pg hpg).1, hpg]
    simp only [pageFaultKernel, hpg, Option.bind_eq_bind, Option.bind_some, Bool.false_eq_true, if_false]
    cases hp : (s.pagedir p pg).present with
    | true => simp
    | false =>
      simp only [Bool.false_eq_true, if_false, Bool.not_false, if_true]
      by_cases hbad : ((s.hash p pg).isNone = true ∧ addr ≤ stack) ∨ isCodeSection stack = true
      · rw [if_pos hbad, if_pos hbad]
      rw [if_neg hbad, if_neg hbad]
      cases he : s.hash p pg with
      | none => exact hgrow _
      | some e => exact hload pg e he

/-! ### Frames -/

theorem Supplied.pallocFreePage (h : Supplied s p pg f t) : ∃ u, t.pallocFreePage f = some u := by
  unfold Vm.pallocFreePage
  rw [Bitmap.all_one, if_pos h.used]
  exact ⟨_, rfl⟩

/-- **What a fault relies on**: the frame table is in order, pages in swap have a slot and are not mapped, and the entry of a
frame was allocated before. -/
structure Settled (s : Vm) : Prop extends Clocked s where
  away : ∀ p pg e, s.hash p pg = some e → e.inswap = true → (s.pagedir p pg).present = false
  slot : ∀ p pg e, s.hash p pg = some e → e.inswap = true → ∃ i : ℕ, e.swapindex = i ∧ i < s.swapTable.bitCnt
  bare : ∀ p, s.suppagetable p = false → ∀ pg, s.hash p pg = none
  numbered : ∀ fte ∈ s.globalFrameList, fte.spte < s.entries

/-- What `allocate_page` adds for a page without an entry. -/
structure Added (s : Vm) (mem : Memory) (p : Pid) (pg : Page) (t : Vm) : Prop where
  usedMap : t.usedMap = s.usedMap
  pagedir : t.pagedir = s.pagedir
  globalFrameList : t.globalFrameList = s.globalFrameList
  swapTable : t.swapTable = s.swapTable
  other : ∀ q pg', (q, pg') ≠ (p, pg) → t.hash q pg' = s.hash q pg'
  entry : t.hash p pg = if mem.entry then some (s.newSpte none true 0) else none

theorem Settled.added (h : Settled s) (hn : s.hash p pg = none) : Added s mem p pg (s.allocatePage mem p pg none true 0) := by
  have hinit : s.pageInit mem p = { s with suppagetable := (s.pageInit mem p).suppagetable } := by
    unfold pageInit
    split_ifs with hs
    · rfl
    · have hhash : Function.update s.hash p (fun _ => none) = s.hash := by
        rw [← funext (h.bare p (by simpa using hs)), Function.update_eq_self]
      rw [hhash]
  have hhash : (s.pageInit mem p).hash = s.hash := by rw [hinit]
  have hnew : (s.pageInit mem p).newSpte none true 0 = s.newSpte none true 0 := by rw [newSpte, hinit, newSpte]
  unfold allocatePage
  dsimp only
  rw [hhash, hn, hnew]
  by_cases hm : mem.entry = true
  · rw [if_pos hm]
    refine ⟨?_, ?_, ?_, ?_, fun q pg' hq => ?_, ?_⟩
    · rw [hinit]; rfl
    · rw [hinit]; rfl
    · rw [hinit]; rfl
    · rw [hinit]; rfl
    · exact (setSpte_of_ne _ (mt Prod.mk_inj.2 hq)).trans (by rw [hhash])
    · rw [if_pos hm]
      exact setSpte_same _
  · rw [if_neg hm]
    refine ⟨by rw [hinit], by rw [hinit], by rw [hinit], by rw [hinit], fun q pg' _ => by rw [hhash], ?_⟩
    rw [if_neg hm, hhash, hn]

end Vm

open Vm

end Pintos.Paging
