import Pintos.Userprog.TrapSpec

/-!
# The tables of a process

`fdtable` and `mmaptable` are arrays of 128 pointers in `struct thread`. Of the calls
that take a descriptor, `SYS_READ`, `SYS_WRITE`, `SYS_CLOSE` and `SYS_MMAP` compare it
with `FILES_MAX`, but let `FILES_MAX` itself pass; `SYS_FILESIZE`, `SYS_SEEK`,
`SYS_TELL`, `SYS_READDIR`, `SYS_ISDIR` and `SYS_INUMBER` do not look at it. `SYS_MMAP`
stores to `mmaptable[next_mapid]`, where `next_mapid` begins at 3 and only grows.
-/

namespace Pintos.Trap

open Library
open Paging (pgsize physBase)

/-- The arguments with which a call stays in `fdtable`: the descriptor is in range where it is not looked at,
and is not `FILES_MAX` where it is; or the call comes to its end before. -/
def FdFits (mem : ℕ → UInt8) (esp : ℕ) : Sys → Prop
  | .filesize | .seek | .tell | .isdir | .inumber => Machine.InTable (fdArg mem esp)
  | .read => fdArg mem esp = filesMax → physBase < arg mem esp 2 ∨ arg mem esp 3 = 0
  | .write => fdArg mem esp = filesMax → physBase < arg mem esp 2
  | .close | .mmap => fdArg mem esp ≠ filesMax
  | .readdir => Machine.InTable (fdArg mem esp) ∨ physBase < arg mem esp 2 ∨ arg mem esp 2 = 0
  | _ => True

/-- **The condition**: every system call has arguments that stay in `fdtable`, and at most 125 calls of
`SYS_MMAP` succeed. -/
def Fits : Event → Machine → Prop
  | .trap (.syscall esp) mem, _ => ∀ c, callAt mem esp = some c → FdFits mem esp c
  | .step _, s => ∀ k, s.code = .setMap k → s.maps < 125
  | _, _ => True

instance (mem : ℕ → UInt8) (esp : ℕ) (c : Sys) : Decidable (FdFits mem esp c) := by
  cases c <;> unfold FdFits <;> infer_instance

/-- The check for `Fits`, in a run that maps nothing. -/
def fits : Event → Machine → Bool
  | .trap (.syscall esp) mem, _ => (callAt mem esp).all fun c => FdFits mem esp c
  | .trap _ _, _ => true
  | .step _, s =>
    match s.code with
    | .setMap _ => false
    | _ => true
  | .evict _, _ => true

end Pintos.Trap
