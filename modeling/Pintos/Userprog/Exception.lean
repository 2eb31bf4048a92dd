import Pintos.Userprog.Trap

/-!
# Exceptions

`page_fault` and `kill` (`userprog/exception.c`), `allocate_page` (`vm/page.c`),
`allocate_frame` (`vm/frame.c`), `swap_in` (`vm/swap.c`) and the part of `process_exit`
(`userprog/process.c`) before the parent is woken, as code in a trap.

`page_fault` has eight ways to `thread_exit`, all of which set `returnstatus`; in kernel
mode, one of them gives `handlesem` back. `kill` sets nothing.
-/

namespace Pintos.Trap

open Locking (Lock)
open Locking.Lock
open Paging (pgsize physBase isCodeVaddr isCodeSection)

/-- `allocate_page`: a new entry, unless there is no memory for it. -/
def allocatePage (e : Entry) (k : Bool → Code) : Code :=
  .ask fun
    | 0 => k false
    | _ => .change (Space.insert e) (k true)

/-- `allocate_frame` for a page of the space `sp`. To find a frame it may swap pages out, for which the swap
device may be too full. -/
def allocateFrame (sp : Space) (page : ℕ) (k : Bool → Code) : Code :=
  .ask fun
    | 0 => .panic
    | _ =>
      match sp.find page, sp.pagedir page with
      | some e, none => .change (Space.setPage page e.writable) (k true)
      | _, _ => k false

/-- The entry of a new stack page, whose `file` is whatever the memory held. -/
def stackEntry (page junk : ℕ) : Entry :=
  { userVaddr := page, file := junk, readBytes := junk, zeroBytes := junk, writable := true, inswap := false, mapid := 0 }

/-- A page fault grows the stack. -/
def growStack (page : ℕ) (k : Code) : Code :=
  .ask fun junk => allocatePage (stackEntry page junk) fun _ =>
    .acquire framesem (.look fun sp => allocateFrame sp page fun _ => .release framesem k)

/-- `swap_in`. -/
def swapIn (page : ℕ) (k : Code) : Code :=
  .acquire swapLock (.acquire framesem (.look fun sp => allocateFrame sp page fun frame =>
    .release framesem (if frame then .change (Space.setInswap page false) (.release swapLock k) else .panic)))

/-- `ASSERT ((spte->read_bytes + spte->zero_bytes) % PGSIZE == 0)` and `ASSERT (pg_ofs (spte->user_vaddr) == 0)`. -/
def Entry.aligned (e : Entry) : Prop := (e.readBytes + e.zeroBytes) % pgsize = 0 ∧ e.userVaddr % pgsize = 0

instance (e : Entry) : Decidable e.aligned := inferInstanceAs (Decidable (_ ∧ _))

/-- `file_read_at` of a page: it reads all, or less, or is given no file. -/
def fileReadAt (k : Bool → Code) : Code :=
  .ask fun
    | 0 => .panic
    | 1 => k false
    | _ => k true

/-- `page_fault`, user mode, with the faulting address and the stack pointer. -/
def pageFaultUser (faultAddr esp : ℕ) : Code :=
  if faultAddr = 0 ∨ physBase ≤ faultAddr then die .pageFault
  else if isCodeVaddr esp then .setStatus (-1) .iret
  else .look fun sp =>
    match sp.find (pgRoundDown faultAddr) with
    | none =>
      if isCodeVaddr faultAddr then die .pageFault
      else if esp ≤ faultAddr ∨ esp - faultAddr = 32 ∨ esp - faultAddr = 4 then growStack (pgRoundDown faultAddr) .iret
      else die .pageFault
    | some e =>
      if e.inswap then swapIn e.userVaddr .iret
      else if e.file = 0 then .panic
      else if ¬ e.aligned then .panic
      else .acquire framesem (.look fun sp => allocateFrame sp e.userVaddr fun kpage =>
        if kpage then
          .acquire handlesem (fileReadAt fun full =>
            if full then .change (Space.setPage e.userVaddr e.writable) (.release handlesem (.release framesem .iret))
            else .release framesem (.release handlesem .iret))
        else .setStatus (-1) (.release framesem (.threadExit .pageFault)))

/-- A fault on a page that is not present ends the process, in kernel mode. -/
def kills (sp : Space) (addr : ℕ) : Prop :=
  (sp.find (pgRoundDown addr) = none ∧ addr ≤ sp.processStack) ∨ isCodeSection sp.processStack = true

instance (sp : Space) (addr : ℕ) : Decidable (kills sp addr) :=
  inferInstanceAs (Decidable ((_ = none ∧ _) ∨ _))

/-- `page_fault`, kernel mode, on a page that is not present; `retry` is the access that faulted. -/
def pageFaultAbsent (sp : Space) (addr : ℕ) (retry : Code) : Code :=
  if physBase ≤ addr then .panic
  else if kills sp addr then die .pageFault
  else
    match sp.find (pgRoundDown addr) with
    | some e =>
      if e.file = 0 then .panic
      else if ¬ e.aligned then .panic
      else allocateFrame sp e.userVaddr fun kpage =>
        if kpage then
          fileReadAt fun full => if full then .change (Space.setPage e.userVaddr e.writable) retry else retry
        else die .pageFault
    | none => growStack (pgRoundDown addr) retry

/-- `page_fault`, kernel mode, on a page that may not be written. -/
def pageFaultRights : Code := .setStatus (-1) (.releaseHeld handlesem (.threadExit .pageFault))

/-- `kill`, for an exception in the user's code segment. -/
def kill : Code := .threadExit .exception

/-- `before_munmap`: what is dirty of a mapped page is written to its file. -/
def beforeMunmap (e : Entry) (k : Code) : Code :=
  if e.mapid = 0 then k
  else .ask fun
    | 0 => k
    | _ => .acquire handlesem (loads e.readBytes e.userVaddr (.release handlesem k))

/-- `destroy_spt`. -/
def destroySpt (l : List Entry) (k : Code) : Code := l.foldr beforeMunmap k

/-- `process_exit`, up to where the parent is woken. -/
def processExit : Code :=
  .acquire framesem (.look fun sp => destroySpt sp.hash (.release framesem .gone))

/-! ### What they keep to -/

section Holds

variable {I : Point → Regs → Prop} {mem : ℕ → UInt8} {r : Regs}

theorem holds_allocatePage {e : Entry} {k : Bool → Code} (h : ∀ b, (k b).Holds I mem r) :
    (allocatePage e k).Holds I mem r := by
  intro n
  match n with
  | 0 => exact h false
  | _ + 1 => exact h true

theorem holds_allocateFrame {sp : Space} {page : ℕ} {k : Bool → Code} (h : ∀ b, (k b).Holds I mem r) :
    (allocateFrame sp page k).Holds I mem r := by
  intro n
  match n with
  | 0 => trivial
  | _ + 1 =>
    cases hf : sp.find page with
    | none => simpa only [hf] using h false
    | some e =>
      cases hp : sp.pagedir page with
      | none => simpa only [hf, hp, Code.Holds] using h true
      | some w => simpa only [hf, hp] using h false

/-- A page with an entry that is not present gets its frame. -/
theorem holds_allocateFrame_absent {sp : Space} {page : ℕ} {e : Entry} {k : Bool → Code} (hf : sp.find page = some e)
    (hp : sp.pagedir page = none) (h : (k true).Holds I mem r) : (allocateFrame sp page k).Holds I mem r := by
  intro n
  match n with
  | 0 => trivial
  | _ + 1 => simpa only [hf, hp, Code.Holds] using h

theorem holds_growStack {page : ℕ} {k : Code} (h : k.Holds I mem r) : (growStack page k).Holds I mem r := by
  intro junk
  apply holds_allocatePage
  intro _ hl sp
  apply holds_allocateFrame
  intro _ _
  rw [held_insert_erase hl]
  exact h

theorem holds_fileReadAt {k : Bool → Code} (h : ∀ b, (k b).Holds I mem r) : (fileReadAt k).Holds I mem r := by
  intro n
  match n with
  | 0 => trivial
  | 1 => exact h false
  | _ + 2 => exact h true

theorem holds_swapIn {page : ℕ} {k : Code} (h : k.Holds I mem r) : (swapIn page k).Holds I mem r := by
  intro hs hl sp
  apply holds_allocateFrame
  intro b _
  rw [Finset.erase_insert hl]
  cases b with
  | false => trivial
  | true =>
    intro _
    rw [held_insert_erase hs]
    exact h

theorem find_userVaddr {sp : Space} {page : ℕ} {e : Entry} (h : sp.find page = some e) : e.userVaddr = page := by
  simpa using List.find?_some h

/-- **A fault on an absent page**: either it ends the process, or what was interrupted goes on. -/
theorem holds_pageFaultAbsent {sp : Space} {addr : ℕ} {retry : Code} (hp : sp.pagedir (pgRoundDown addr) = none)
    (h : retry.Holds I mem r) (hk : kills sp addr → I (.exit .pageFault) { r with returnstatus := -1 }) :
    (pageFaultAbsent sp addr retry).Holds I mem r := by
  unfold pageFaultAbsent
  split_ifs with hb hkill
  · trivial
  · exact hk hkill
  · cases hf : sp.find (pgRoundDown addr) with
    | none => exact holds_growStack h
    | some e =>
      simp only
      split_ifs
      · trivial
      · have he : e.userVaddr = pgRoundDown addr := find_userVaddr hf
        rw [he]
        apply holds_allocateFrame_absent hf hp
        rw [if_pos rfl]
        apply holds_fileReadAt
        intro b
        cases b <;> exact h
      · trivial

theorem holds_pageFaultRights
    (h : I (.exit .pageFault) { r with held := r.held.erase handlesem, returnstatus := -1 }) :
    pageFaultRights.Holds I mem r := h

/-- **A fault in user mode**: the thread comes to `intr_exit` or to `thread_exit` with the locks it had. -/
theorem holds_pageFaultUser {faultAddr esp : ℕ} (hb : ∀ v, v = r.returnstatus ∨ v = -1 → I .back { r with returnstatus := v })
    (he : I (.exit .pageFault) { r with returnstatus := -1 }) : (pageFaultUser faultAddr esp).Holds I mem r := by
  have back : Code.iret.Holds I mem r := hb r.returnstatus (.inl rfl)
  unfold pageFaultUser
  by_cases h₁ : faultAddr = 0 ∨ physBase ≤ faultAddr
  · rw [if_pos h₁]
    exact he
  rw [if_neg h₁]
  by_cases h₂ : isCodeVaddr esp = true
  · rw [if_pos h₂]
    exact hb (-1) (.inr rfl)
  rw [if_neg h₂]
  intro sp
  beta_reduce
  cases hf : sp.find (pgRoundDown faultAddr) with
  | none =>
    simp only
    split_ifs
    · exact he
    · exact holds_growStack back
    · exact he
  | some e =>
    simp only
    split_ifs
    · exact holds_swapIn back
    · trivial
    · intro hl sp'
      apply holds_allocateFrame
      intro kpage
      cases kpage with
      | false =>
        intro _
        simp only [Finset.erase_insert hl]
        exact he
      | true =>
        intro hh
        apply holds_fileReadAt
        intro full
        cases full with
        | true =>
          intro _ _
          simp only [Finset.erase_insert hh, Finset.erase_insert hl]
          exact back
        | false =>
          intro _ _
          have : ((insert handlesem (insert framesem r.held)).erase framesem).erase handlesem = r.held := by
            rw [Finset.erase_right_comm, Finset.erase_insert hh, Finset.erase_insert hl]
          simp only [this]
          exact back
    · trivial

/-- `process_exit` reads user memory under `framesem`, and goes on to wake the parent. -/
theorem holds_processExit (hr : ∀ held, framesem ∈ held → I (.touch false) { r with held := held }) (hg : I .gone r) :
    processExit.Holds I mem r := by
  intro hl sp
  have key : ∀ l : List Entry, (destroySpt l (.release framesem .gone)).Holds I mem
      { r with held := insert framesem r.held } := by
    intro l
    induction l with
    | nil =>
      intro _
      simp only [Finset.erase_insert hl]
      exact hg
    | cons e l ih =>
      change (beforeMunmap e _).Holds _ _ _
      unfold beforeMunmap
      split_ifs
      · exact ih
      intro n
      match n with
      | 0 => exact ih
      | _ + 1 =>
        intro hh
        apply holds_loads
        · exact hr _ (by simp)
        · intro _
          have := held_insert_erase (r := { r with held := insert framesem r.held }) hh
          simp only at this
          rw [this]
          exact ih
  exact key sp.hash

end Holds

end Pintos.Trap
