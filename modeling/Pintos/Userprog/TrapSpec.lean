import Pintos.Userprog.Machine

/-!
# What every trap keeps to

`CallOk` collects what has to be known of a condition for `syscall_handler` to meet it at
all of its points: at `intr_exit`, at accesses to user memory without a lock and under
`handlesem`, at the positions of `fdtable` and `mmaptable` that the call looks at, and at
its ways to `thread_exit`. `Holds.reach` then carries the condition along every run.
-/

namespace Pintos.Trap

open Library
open Locking (Lock)
open Locking.Lock
open Paging (pgsize physBase)

/-- The `i`th argument of a system call. -/
def arg (mem : ℕ → UInt8) (esp i : ℕ) : ℕ := wordAt mem (esp + 4 * i)

/-- The descriptor that is the first argument. -/
def fdArg (mem : ℕ → UInt8) (esp : ℕ) : ℤ := toInt (arg mem esp 1)

/-- The call that a system call trap asks for. -/
def callAt (mem : ℕ → UInt8) (esp : ℕ) : Option Sys := Sys.ofNum (wordAt mem esp)

/-- **The positions of `fdtable` a call looks at**, if nothing ends it before. -/
def Indexes (mem : ℕ → UInt8) (esp : ℕ) (fd : ℤ) : Sys → Prop
  | .filesize | .seek | .tell | .isdir | .inumber => fd = fdArg mem esp
  | .read => fd = fdArg mem esp ∧ 1 < fd ∧ fd ≤ filesMax ∧ arg mem esp 2 ≤ physBase ∧ arg mem esp 3 ≠ 0
  | .write => fd = fdArg mem esp ∧ 1 < fd ∧ fd ≤ filesMax ∧ arg mem esp 2 ≤ physBase
  | .close => fd = fdArg mem esp ∧ 0 ≤ fd ∧ fd ≤ filesMax
  | .mmap => fd = fdArg mem esp ∧ 2 ≤ fd ∧ fd ≤ filesMax
  | .readdir => fd = fdArg mem esp ∧ arg mem esp 2 ≤ physBase ∧ arg mem esp 2 ≠ 0
  | .open => Machine.InTable fd
  | _ => False

/-- The `returnstatus` that `SYS_EXIT` sets. -/
def exitStatus (mem : ℕ → UInt8) (esp : ℕ) : ℤ :=
  if arg mem esp 1 < physBase then (mem (esp + 4)).toNat else -1

variable {I : Point → Regs → Prop} {mem : ℕ → UInt8} {r : Regs} {esp : ℕ}

/-- **A condition that `syscall_handler` meets**, entered with these registers and this memory. -/
structure CallOk (I : Point → Regs → Prop) (mem : ℕ → UInt8) (r : Regs) (esp : ℕ) : Prop where
  back : I .back r
  mapped : I .back { r with nextMapid := r.nextMapid + 1 }
  touch : ∀ write, I (.touch write) r
  locked : ∀ write, handlesem ∉ r.held → I (.touch write) { r with held := insert handlesem r.held }
  slot : ∀ c fd, callAt mem esp = some c → Indexes mem esp fd c → I (.slot fd) r
  lockedSlot : ∀ fd, callAt mem esp = some .mmap → Indexes mem esp fd .mmap →
    I (.slot fd) { r with held := insert handlesem r.held }
  mapSlot : callAt mem esp = some .mmap → I (.mapSlot r.nextMapid) r
  called : callAt mem esp = some .exit →
    I (.exit (.called (arg mem esp 1))) { r with returnstatus := exitStatus mem esp }
  badStack : I (.exit .badStack) { r with returnstatus := -1 }
  badArgument : ∀ num, num ≠ 5 → I (.exit (.badArgument num)) { r with returnstatus := -1 }
  remove : callAt mem esp = some .remove → physBase < arg mem esp 1 → I (.exit (.badArgument 5)) r

namespace CallOk

variable (h : CallOk I mem r esp)

include h

theorem iret : Code.iret.Holds I mem r := h.back

theorem word {addr : ℕ} {k : ℕ → Code} (hk : (k (wordAt mem addr)).Holds I mem r) : (word addr k).Holds I mem r :=
  holds_word (h.touch false) hk

theorem die {num : ℕ} (hn : num ≠ 5) : (die (.badArgument num)).Holds I mem r := holds_die (h.badArgument num hn)

theorem copyName {p : ℕ} {k : Code} (hk : k.Holds I mem r) : (copyName p k).Holds I mem r := by
  intro n
  match n with
  | 0 => exact h.back
  | _ + 1 => exact holds_copyString (h.touch false) hk

theorem checkName {num : ℕ} {k : ℕ → Code} (hn : num ≠ 5) (hk : ∀ p, (k p).Holds I mem r) :
    (checkName num esp k).Holds I mem r := by
  apply h.word
  split_ifs
  · exact h.die hn
  · refine ⟨h.touch false, ?_⟩
    beta_reduce
    split_ifs
    · exact h.die hn
    · exact ⟨h.touch false, hk _⟩

theorem checkPointer {num addr : ℕ} {k : ℕ → Code} (hn : num ≠ 5)
    (hk : wordAt mem addr ≤ physBase → wordAt mem addr ≠ 0 → (k (wordAt mem addr)).Holds I mem r) :
    (checkPointer num addr k).Holds I mem r := by
  apply h.word
  split_ifs with h₁ h₂
  · exact h.die hn
  · exact h.die hn
  · exact hk (not_lt.1 h₁) h₂

theorem onFile {fd : ℤ} {k : Code} (hfd : I (.slot fd) r) (hk : k.Holds I mem r) : (onFile fd k).Holds I mem r := by
  refine ⟨hfd, fun file => ?_⟩
  beta_reduce
  split_ifs
  · exact h.back
  · exact hk

/-- Bytes are written to user memory under `handlesem`. -/
theorem lockedStores {n addr : ℕ} (hl : handlesem ∉ r.held) :
    (stores n addr (.release handlesem .iret)).Holds I mem { r with held := insert handlesem r.held } := by
  apply holds_stores (h.locked true hl)
  intro mem' _
  rw [Finset.erase_insert hl]
  exact h.back

/-- Bytes are read from user memory under `handlesem`. -/
theorem lockedLoads {n addr : ℕ} {k : Code} (hl : handlesem ∉ r.held) (hk : k.Holds I mem r) :
    (loads n addr (.release handlesem k)).Holds I mem { r with held := insert handlesem r.held } := by
  apply holds_loads (h.locked false hl)
  intro _
  rw [Finset.erase_insert hl]
  exact hk

end CallOk

theorem holds_scanSlots {n i : ℕ} {k : ℕ → Code} (hin : i + n ≤ filesMax)
    (hs : ∀ fd, Machine.InTable fd → I (.slot fd) r) (hk : ∀ j, (k j).Holds I mem r) :
    (scanSlots n i k).Holds I mem r := by
  induction n generalizing i with
  | zero => exact hk i
  | succ n ih =>
    refine ⟨hs i ⟨by omega, by omega⟩, fun file => ?_⟩
    beta_reduce
    split_ifs
    · exact hk i
    · exact ih (by omega)

theorem holds_mapPages {file mapid addr n remain already : ℕ} {k : Code} (hk : k.Holds I mem r) :
    (mapPages file mapid addr k n remain already).Holds I mem r := by
  induction n generalizing remain already with
  | zero => exact hk
  | succ n ih =>
    unfold mapPages
    apply holds_allocatePage
    intro new
    cases new with
    | true => exact ih
    | false => exact holds_filesysCalls hk

theorem holds_inFilesys {k : Code} (hk : k.Holds I mem r) : (inFilesys k).Holds I mem r :=
  fun _ => holds_filesysCalls hk

/-! ### One lemma for each call -/

namespace CallOk

variable (h : CallOk I mem r esp)

include h

theorem sysExit (hc : callAt mem esp = some .exit) : (sysExit esp).Holds I mem r := by
  unfold Trap.sysExit
  apply h.word
  have hx := h.called hc
  by_cases hw : wordAt mem (esp + 4) < physBase
  · have hs : exitStatus mem esp = (mem (esp + 4)).toNat := if_pos hw
    rw [if_pos hw]
    rw [hs] at hx
    exact ⟨h.touch false, hx⟩
  · have hs : exitStatus mem esp = -1 := if_neg hw
    rw [if_neg hw]
    rw [hs] at hx
    exact hx

theorem sysWait : (sysWait esp).Holds I mem r := by
  unfold Trap.sysWait
  apply h.word
  exact holds_inFilesys h.iret

theorem sysCreate : (sysCreate esp).Holds I mem r := by
  unfold Trap.sysCreate
  apply h.checkName (by decide)
  intro p
  apply h.copyName
  apply h.word
  exact holds_inFilesys h.iret

theorem sysRemove (hc : callAt mem esp = some .remove) : (sysRemove esp).Holds I mem r := by
  unfold Trap.sysRemove
  apply h.word
  split_ifs with hp
  · exact h.remove hc hp
  · exact h.copyName (holds_inFilesys h.iret)

theorem openSlot {file : ℕ} (hs : ∀ fd, Machine.InTable fd → I (.slot fd) r) : (openSlot file).Holds I mem r := by
  intro sp
  by_cases hn : filesMax ≤ sp.nextfd
  · simp only [if_pos hn]
    apply holds_scanSlots (by decide) hs
    intro i
    split_ifs with hi
    · exact holds_filesysCalls h.iret
    · exact ⟨hs i ⟨by omega, by omega⟩, h.back⟩
  · simp only [if_neg hn]
    exact ⟨hs sp.nextfd ⟨by omega, by omega⟩, h.back⟩

theorem sysOpen (hc : callAt mem esp = some .open) : (sysOpen esp).Holds I mem r := by
  unfold Trap.sysOpen
  apply h.checkPointer (by decide)
  intro _ _
  apply h.copyName
  apply holds_inFilesys
  intro file
  beta_reduce
  split_ifs
  · exact h.back
  · exact h.openSlot fun fd hfd => h.slot .open fd hc hfd

theorem sysRead (hc : callAt mem esp = some .read) : (sysRead esp).Holds I mem r := by
  unfold Trap.sysRead
  apply h.word
  by_cases h₁ : toInt (wordAt mem (esp + 4)) < 0 ∨ toInt (wordAt mem (esp + 4)) > filesMax
  · rw [if_pos h₁]
    exact h.die (by decide)
  rw [if_neg h₁]
  apply h.word
  by_cases h₂ : physBase < wordAt mem (esp + 8)
  · rw [if_pos h₂]
    exact h.die (by decide)
  rw [if_neg h₂]
  refine ⟨h.touch false, ?_⟩
  apply h.word
  split_ifs with h₃ h₄ h₅
  · exact holds_stores (h.touch true) fun _ => h.back
  · exact h.back
  · apply h.onFile
    · exact h.slot .read _ hc ⟨rfl, h₄, by omega, not_lt.1 h₂, h₅⟩
    · intro hl n
      exact h.lockedStores hl
  · exact h.back

theorem sysWrite (hc : callAt mem esp = some .write) : (sysWrite esp).Holds I mem r := by
  unfold Trap.sysWrite
  apply h.word
  apply h.word
  by_cases h₁ : physBase < wordAt mem (esp + 8)
  · rw [if_pos h₁]
    exact h.die (by decide)
  rw [if_neg h₁]
  apply h.word
  by_cases h₂ : toInt (wordAt mem (esp + 4)) = 1
  · rw [if_pos h₂]
    exact holds_loads (h.touch false) h.iret
  rw [if_neg h₂]
  by_cases h₃ : toInt (wordAt mem (esp + 4)) ≤ 0
  · rw [if_pos h₃]
    exact h.die (by decide)
  rw [if_neg h₃]
  by_cases h₄ : toInt (wordAt mem (esp + 4)) > filesMax
  · rw [if_pos h₄]
    exact h.die (by decide)
  rw [if_neg h₄]
  have hfd : I (.slot (toInt (wordAt mem (esp + 4)))) r :=
    h.slot .write _ hc ⟨rfl, by omega, by omega, not_lt.1 h₁⟩
  refine ⟨hfd, fun file => ?_⟩
  beta_reduce
  by_cases h₅ : file = 0
  · rw [if_pos h₅]
    exact h.die (by decide)
  rw [if_neg h₅]
  refine ⟨h.touch false, ?_⟩
  beta_reduce
  by_cases h₆ : wordAt mem (esp + 8) = 0
  · rw [if_pos h₆]
    exact h.die (by decide)
  rw [if_neg h₆]
  refine ⟨hfd, fun _ n => ?_⟩
  match n with
  | 0 => exact h.back
  | n + 1 => exact fun hl => h.lockedLoads hl h.iret

theorem sysClose (hc : callAt mem esp = some .close) : (sysClose esp).Holds I mem r := by
  unfold Trap.sysClose
  apply h.word
  by_cases h₁ : toInt (wordAt mem (esp + 4)) < 0 ∨ toInt (wordAt mem (esp + 4)) > filesMax
  · rw [if_pos h₁]
    exact h.die (by decide)
  rw [if_neg h₁]
  have hfd : I (.slot (toInt (wordAt mem (esp + 4)))) r := h.slot .close _ hc ⟨rfl, by omega, by omega⟩
  refine ⟨hfd, fun file => ?_⟩
  beta_reduce
  split_ifs
  · exact h.die (by decide)
  · exact ⟨hfd, holds_filesysCalls h.iret⟩

theorem sysMmap (hc : callAt mem esp = some .mmap) : (sysMmap esp).Holds I mem r := by
  unfold Trap.sysMmap
  apply h.word
  by_cases h₁ : toInt (wordAt mem (esp + 4)) < 2 ∨ toInt (wordAt mem (esp + 4)) > filesMax
  · rw [if_pos h₁]
    exact h.back
  rw [if_neg h₁]
  have hi : Indexes mem esp (toInt (wordAt mem (esp + 4))) .mmap := ⟨rfl, by omega, by omega⟩
  apply h.onFile (h.slot .mmap _ hc hi)
  apply h.word
  by_cases h₂ : physBase < wordAt mem (esp + 8) ∨ wordAt mem (esp + 8) = 0
  · rw [if_pos h₂]
    exact h.back
  rw [if_neg h₂]
  refine ⟨h.slot .mmap _ hc hi, fun _ length => ?_⟩
  beta_reduce
  by_cases h₃ : wordAt mem (esp + 8) % pgsize ≠ 0 ∨ length = 0
  · rw [if_pos h₃]
    exact h.back
  rw [if_neg h₃]
  intro sp
  beta_reduce
  by_cases h₄ : (sp.find (wordAt mem (esp + 8))).isSome
  · rw [if_pos h₄]
    exact h.back
  rw [if_neg h₄]
  intro hl
  refine ⟨h.lockedSlot _ hc hi, fun _ _ file => ?_⟩
  rw [Finset.erase_insert hl]
  exact holds_mapPages ⟨h.mapSlot hc, h.mapped⟩

theorem munmapPage {mapid : ℤ} {e : Entry} {k : Code} (hk : k.Holds I mem r) :
    (munmapPage mapid e k).Holds I mem r := by
  unfold Trap.munmapPage
  by_cases he : e.mapid = mapid
  · rw [if_pos he]
    intro n
    match n with
    | 0 => exact hk
    | _ + 1 =>
      intro hl
      apply holds_strlen (h.locked false hl)
      intro len
      exact h.lockedLoads hl hk
  · rw [if_neg he]
    exact hk

theorem sysMunmap : (sysMunmap esp).Holds I mem r := by
  unfold Trap.sysMunmap
  apply h.word
  intro sp
  beta_reduce
  induction sp.hash with
  | nil => exact h.back
  | cons e l ih => exact h.munmapPage ih

theorem sysReaddir (hc : callAt mem esp = some .readdir) : (sysReaddir esp).Holds I mem r := by
  unfold Trap.sysReaddir
  apply h.word
  apply h.checkPointer (by decide)
  intro hp hp'
  apply h.onFile (h.slot .readdir _ hc ⟨rfl, hp, hp'⟩)
  intro n
  exact holds_stores (h.touch true) fun _ => h.back

/-- The calls that look at their descriptor without a check, and then work on the file. -/
theorem unchecked {c : Sys} {k : Code} (hc : callAt mem esp = some c) (hi : Indexes mem esp (fdArg mem esp) c)
    (hk : k.Holds I mem r) : (Trap.word (esp + 4) fun fd => Trap.onFile (toInt fd) k).Holds I mem r := by
  apply h.word
  exact h.onFile (h.slot c _ hc hi) hk

/-- The calls that only copy a name. -/
theorem onName {num : ℕ} (hn : num ≠ 5) :
    (Trap.checkPointer num (esp + 4) fun p => Trap.copyName p .iret).Holds I mem r := by
  apply h.checkPointer hn
  intro _ _
  exact h.copyName h.iret

theorem sysSeek (hc : callAt mem esp = some .seek) : (sysSeek esp).Holds I mem r := by
  unfold Trap.sysSeek
  apply h.word
  apply h.word
  exact h.onFile (h.slot .seek _ hc rfl) (holds_filesysCalls h.iret)

/-- **Every call meets the condition.** -/
theorem code {c : Sys} (hc : callAt mem esp = some c) : (c.code esp).Holds I mem r := by
  cases c with
  | halt => trivial
  | exit => exact h.sysExit hc
  | exec => exact h.checkName (by decide) fun p => h.copyName h.iret
  | wait => exact h.sysWait
  | create => exact h.sysCreate
  | remove => exact h.sysRemove hc
  | «open» => exact h.sysOpen hc
  | filesize => exact h.unchecked hc rfl (holds_filesysCalls h.iret)
  | read => exact h.sysRead hc
  | write => exact h.sysWrite hc
  | seek => exact h.sysSeek hc
  | tell => exact h.unchecked hc rfl (holds_filesysCalls h.iret)
  | close => exact h.sysClose hc
  | mmap => exact h.sysMmap hc
  | munmap => exact h.sysMunmap
  | chdir => exact h.onName (by decide : 15 ≠ 5)
  | mkdir => exact h.onName (by decide : 16 ≠ 5)
  | readdir => exact h.sysReaddir hc
  | isdir => exact h.unchecked hc rfl h.iret
  | inumber => exact h.unchecked hc rfl h.iret

/-- **`syscall_handler` meets the condition.** -/
theorem syscallHandler : (syscallHandler esp).Holds I mem r := by
  change Code.Holds I mem r (ite _ _ _)
  by_cases hstack : physBase < esp
  · rw [if_pos hstack]
    exact h.badStack
  rw [if_neg hstack]
  refine ⟨h.touch false, ?_⟩
  apply h.word
  cases hc : callAt mem esp with
  | none =>
    rw [callAt] at hc
    simp only [hc]
    exact h.back
  | some c =>
    have hcode := h.code hc
    rw [callAt] at hc
    simp only [hc]
    exact hcode

end CallOk

/-! ### Whole runs -/

/-- **A condition that every trap meets holds along every run.** -/
theorem Holds.reach {guard : Event → Machine → Prop} {s₀ s : Machine} (h : Reach Machine.next guard s₀ s)
    (h₀ : s₀.code.Holds I s₀.mem s₀.regs)
    (htrap : ∀ c mem s, guard (.trap c mem) s → I .back s.regs → c.code.Holds I mem s.regs)
    (hkill : ∀ a s, guard (.step a) s → s.Killed → I (.exit .pageFault) { s.regs with returnstatus := -1 })
    (hrights : ∀ r : Regs, I (.touch true) r →
      I (.exit .pageFault) { r with held := r.held.erase handlesem, returnstatus := -1 })
    (hexit : ∀ why mem r, I (.exit why) r → processExit.Holds I mem r) : s.code.Holds I s.mem s.regs := by
  apply h.invariant h₀
  intro e s s' hs hg hn
  cases e with
  | trap c mem =>
    cases hc : s.code with
    | iret =>
      rw [hc] at hs
      simp only [Machine.next, hc, Option.some.injEq] at hn
      subst hn
      exact htrap c mem s hg hs
    | _ => simp [Machine.next, hc] at hn
  | step a =>
    apply Holds.run hs hn (hkill a s hg) (hrights s.regs)
    intro why hc
    rw [hc] at hs
    exact hexit why s.mem s.regs hs
  | evict page =>
    cases hn
    exact hs

/-! ### A process to try -/

/-- The words of a system call on the user's stack; all other bytes are null. -/
def callMem (esp : ℕ) (l : List ℕ) : ℕ → UInt8 := fun addr =>
  if esp ≤ addr then UInt8.ofNat (l.getD ((addr - esp) / 4) 0 / 256 ^ ((addr - esp) % 4)) else 0

/-- A process with one page of data, at `0x804a000`, and one page of stack, at `0xbffff000`. -/
def loaded : Machine where
  code := .iret
  space :=
    { processStack := 0, hash := [], pagedir := fun page => if page = 0x804a000 ∨ page = 0xbffff000 then some true else none,
      fdtable := fun _ => 0, nextfd := 2 }
  regs := { held := ∅, returnstatus := 0, nextMapid := 3 }
  mem := fun _ => 0
  ended := none
  maps := 0

theorem started_loaded : loaded.Started where
  code := rfl
  regs := rfl
  fdtable _ := rfl
  nextfd := rfl
  ended := rfl
  maps := rfl

/-- A system call with its words at `0xbfffff00`, and `n` steps of the kernel, with `answer` wherever it asks. -/
def call (words : List ℕ) (answer n : ℕ) : List Event :=
  .trap (.syscall 0xbfffff00) (callMem 0xbfffff00 words) :: List.replicate n (.step answer)

/-- Where events that pass a check lead the process is reached. -/
theorem reach_of_follow {guard : Event → Machine → Prop} {check : Event → Machine → Bool} {l : List Event}
    {p : Machine → Bool} (h : (follow Machine.next check l loaded).any p = true)
    (hg : ∀ e s, check e s = true → guard e s) : ∃ s, Reach Machine.next guard loaded s ∧ p s = true := by
  obtain ⟨s, hs, hp⟩ := (Option.any_eq_true _ _).1 h
  exact ⟨s, Reach.of_follow hs (fun e s _ hc => hg e s hc) .refl, hp⟩

end Pintos.Trap
