import Pintos.Userprog.Exception
import Pintos.Userprog.Descriptors

/-!
# System calls

`syscall_handler` (`userprog/syscall.c`) as code in a trap: which arguments each system
call reads from the user's stack and which of them it refuses, where it indexes
`fdtable` and `mmaptable`, where it copies from and to user memory, and under which
locks. An argument is read once, though the source may read it several times. Where a
path leads and what a file holds is left to the file system, which answers what it may;
a call of the file system that panics ends the run and is left out.
-/

namespace Pintos.Trap

open Locking (Lock)
open Locking.Lock
open Paging (pgsize physBase)

/-- The system call numbers, `lib/syscall-nr.h`. -/
inductive Sys
  | halt | exit | exec | wait | create | remove | open | filesize | read | write | seek | tell | close
  | mmap | munmap | chdir | mkdir | readdir | isdir | inumber
deriving DecidableEq

/-- The call that a number names. -/
def Sys.ofNum : ℕ → Option Sys
  | 0 => some .halt
  | 1 => some .exit
  | 2 => some .exec
  | 3 => some .wait
  | 4 => some .create
  | 5 => some .remove
  | 6 => some .open
  | 7 => some .filesize
  | 8 => some .read
  | 9 => some .write
  | 10 => some .seek
  | 11 => some .tell
  | 12 => some .close
  | 13 => some .mmap
  | 14 => some .munmap
  | 15 => some .chdir
  | 16 => some .mkdir
  | 17 => some .readdir
  | 18 => some .isdir
  | 19 => some .inumber
  | _ => none

/-- A name that must not lie above `PHYS_BASE`, and whose pointer must not end in a null byte: `*tempesp`
is a `char`. -/
def checkName (num esp : ℕ) (k : ℕ → Code) : Code :=
  word (esp + 4) fun p =>
    if physBase < p then die (.badArgument num)
    else .load (esp + 4) fun b => if b = 0 then die (.badArgument num) else .load p fun _ => k p

/-- A pointer that must not lie above `PHYS_BASE`, and must not be null. -/
def checkPointer (num addr : ℕ) (k : ℕ → Code) : Code :=
  word addr fun p =>
    if physBase < p then die (.badArgument num) else if p = 0 then die (.badArgument num) else k p

/-- `palloc_get_page (0)`, and the copy of the user's string. -/
def copyName (p : ℕ) (k : Code) : Code :=
  .ask fun
    | 0 => .iret
    | _ => copyString p k

/-- What a call does with the file system once its arguments are copied. -/
def inFilesys (k : Code) : Code := .ask fun n => filesysCalls n k

/-- `struct file *f = fdtable[fd]; if (f == NULL) return`. -/
def onFile (fd : ℤ) (k : Code) : Code := .fdAt fd fun file => if file = 0 then .iret else k

/-- `SYS_EXIT`. The status is the byte that `get_user` returns, unless the word lies above `PHYS_BASE`. -/
def sysExit (esp : ℕ) : Code :=
  word (esp + 4) fun w =>
    if w < physBase then .load (esp + 4) fun b => .setStatus b.toNat (.threadExit (.called w))
    else .setStatus (-1) (.threadExit (.called w))

/-- `SYS_EXEC`. -/
def sysExec (esp : ℕ) : Code := checkName 2 esp fun p => copyName p .iret

/-- `SYS_WAIT`. -/
def sysWait (esp : ℕ) : Code := word (esp + 4) fun _ => inFilesys .iret

/-- `SYS_CREATE`. -/
def sysCreate (esp : ℕ) : Code := checkName 4 esp fun p => copyName p (word (esp + 8) fun _ => inFilesys .iret)

/-- `SYS_REMOVE`, which does not set `returnstatus`. -/
def sysRemove (esp : ℕ) : Code :=
  word (esp + 4) fun p => if physBase < p then .threadExit (.badArgument 5) else copyName p (inFilesys .iret)

/-- The loop `for (; i < FILES_MAX; i++) if (fdtable[i] == NULL) break;` of `SYS_OPEN`, with `n` turns left. -/
def scanSlots : ℕ → ℕ → (ℕ → Code) → Code
  | 0, i, k => k i
  | n + 1, i, k => .fdAt i fun file => if file = 0 then k i else scanSlots n (i + 1) k

/-- `SYS_OPEN`, from the file the walk has opened. -/
def openSlot (file : ℕ) : Code :=
  .look fun sp =>
    if filesMax ≤ sp.nextfd then
      scanSlots (filesMax - 3) 3 fun i =>
        if filesMax ≤ i then filesysCalls 1 .iret
        else .setFd i file (.change (fun sp => { sp with nextfd := i + 1 }) .iret)
    else .setFd sp.nextfd file (.change (fun sp => { sp with nextfd := sp.nextfd + 1 }) .iret)

/-- `SYS_OPEN`. -/
def sysOpen (esp : ℕ) : Code :=
  checkPointer 6 (esp + 4) fun p => copyName p (inFilesys (.ask fun file => if file = 0 then .iret else openSlot file))

/-- `SYS_FILESIZE`. -/
def sysFilesize (esp : ℕ) : Code := word (esp + 4) fun fd => onFile (toInt fd) (filesysCalls 1 .iret)

/-- `SYS_READ`. -/
def sysRead (esp : ℕ) : Code :=
  word (esp + 4) fun fd =>
    if toInt fd < 0 ∨ toInt fd > filesMax then die (.badArgument 8)
    else word (esp + 8) fun buffer =>
      if physBase < buffer then die (.badArgument 8)
      else .load buffer fun _ => word (esp + 12) fun size =>
        if toInt fd = 0 then stores size buffer .iret
        else if toInt fd > 1 then
          if size = 0 then .iret
          else onFile (toInt fd)
            (.acquire handlesem (.ask fun n => stores (min n size) buffer (.release handlesem .iret)))
        else .iret

/-- `SYS_WRITE`. -/
def sysWrite (esp : ℕ) : Code :=
  word (esp + 4) fun fd => word (esp + 8) fun buffer =>
    if physBase < buffer then die (.badArgument 9)
    else word (esp + 12) fun size =>
      if toInt fd = 1 then loads size buffer .iret
      else if toInt fd ≤ 0 then die (.badArgument 9)
      else if toInt fd > filesMax then die (.badArgument 9)
      else .fdAt (toInt fd) fun file =>
        if file = 0 then die (.badArgument 9)
        else .load buffer fun _ =>
          if buffer = 0 then die (.badArgument 9)
          else .fdAt (toInt fd) fun _ => .ask fun
            | 0 => .iret
            | n + 1 => .acquire handlesem (loads (min n size) buffer (.release handlesem .iret))

/-- `SYS_SEEK`. -/
def sysSeek (esp : ℕ) : Code :=
  word (esp + 4) fun fd => word (esp + 8) fun _ => onFile (toInt fd) (filesysCalls 1 .iret)

/-- `SYS_TELL`. -/
def sysTell (esp : ℕ) : Code := word (esp + 4) fun fd => onFile (toInt fd) (filesysCalls 1 .iret)

/-- `SYS_CLOSE`. -/
def sysClose (esp : ℕ) : Code :=
  word (esp + 4) fun fd =>
    if toInt fd < 0 ∨ toInt fd > filesMax then die (.badArgument 12)
    else .fdAt (toInt fd) fun file =>
      if file = 0 then die (.badArgument 12) else .setFd (toInt fd) 0 (filesysCalls 1 .iret)

/-- The loop of `SYS_MMAP` over the `n` pages that remain, with `remain` bytes of the file; a failed
`allocate_page` closes the file and leaves the loop. -/
def mapPages (file mapid addr : ℕ) (k : Code) : ℕ → ℕ → ℕ → Code
  | 0, _, _ => k
  | n + 1, remain, already =>
    let readBytes := min remain pgsize
    allocatePage { userVaddr := addr + already, file := file, readBytes := readBytes, zeroBytes := pgsize - readBytes,
                   writable := true, inswap := false, mapid := mapid } fun new =>
      if new then mapPages file mapid addr k n (remain - readBytes) (already + pgsize) else filesysCalls 1 k

/-- `SYS_MMAP`. The file system answers with the length of the file and the reopened file. -/
def sysMmap (esp : ℕ) : Code :=
  word (esp + 4) fun fd =>
    if toInt fd < 2 ∨ toInt fd > filesMax then .iret
    else onFile (toInt fd) (word (esp + 8) fun addr =>
      if physBase < addr ∨ addr = 0 then .iret
      else .fdAt (toInt fd) fun _ => .ask fun length =>
        if addr % pgsize ≠ 0 ∨ length = 0 then .iret
        else .look fun sp =>
          if (sp.find addr).isSome then .iret
          else .acquire handlesem (.fdAt (toInt fd) fun _ => .release handlesem (.ask fun file => .mapid fun mapid =>
            mapPages file mapid addr (.setMap .iret) ((length + pgsize - 1) / pgsize) length 0)))

/-- One turn of the loop of `SYS_MUNMAP`. -/
def munmapPage (mapid : ℤ) (e : Entry) (k : Code) : Code :=
  if e.mapid = mapid then
    .ask fun
      | 0 => .change (Space.delete e.userVaddr) k
      | _ => .acquire handlesem (strlen (2 ^ 32 - e.userVaddr) e.userVaddr 0 fun size =>
          loads size e.userVaddr (.release handlesem (.change (Space.delete e.userVaddr) k)))
  else k

/-- `SYS_MUNMAP`, over the table as it is when the call begins. -/
def sysMunmap (esp : ℕ) : Code :=
  word (esp + 4) fun mapid => .look fun sp => sp.hash.foldr (munmapPage (toInt mapid)) .iret

/-- `SYS_CHDIR`. -/
def sysChdir (esp : ℕ) : Code := checkPointer 15 (esp + 4) fun p => copyName p .iret

/-- `SYS_MKDIR`. -/
def sysMkdir (esp : ℕ) : Code := checkPointer 16 (esp + 4) fun p => copyName p .iret

/-- `SYS_READDIR`. The name that is found, of `NAME_MAX` bytes at most, is copied to the user. -/
def sysReaddir (esp : ℕ) : Code :=
  word (esp + 4) fun fd => checkPointer 17 (esp + 8) fun name => onFile (toInt fd)
    (.ask fun n => stores (min n 15) name .iret)

/-- `SYS_ISDIR`. -/
def sysIsdir (esp : ℕ) : Code := word (esp + 4) fun fd => onFile (toInt fd) .iret

/-- `SYS_INUMBER`. -/
def sysInumber (esp : ℕ) : Code := word (esp + 4) fun fd => onFile (toInt fd) .iret

/-- The case of `syscall_handler` for each call. -/
def Sys.code (esp : ℕ) : Sys → Code
  | .halt => .powerOff
  | .exit => sysExit esp
  | .exec => sysExec esp
  | .wait => sysWait esp
  | .create => sysCreate esp
  | .remove => sysRemove esp
  | .open => sysOpen esp
  | .filesize => sysFilesize esp
  | .read => sysRead esp
  | .write => sysWrite esp
  | .seek => sysSeek esp
  | .tell => sysTell esp
  | .close => sysClose esp
  | .mmap => sysMmap esp
  | .munmap => sysMunmap esp
  | .chdir => sysChdir esp
  | .mkdir => sysMkdir esp
  | .readdir => sysReaddir esp
  | .isdir => sysIsdir esp
  | .inumber => sysInumber esp

/-- `syscall_handler`, with the user's stack pointer. -/
def syscallHandler (esp : ℕ) : Code :=
  .change (fun sp => { sp with processStack := esp })
    (if physBase < esp then die .badStack
    else .load esp fun _ => word esp fun num =>
      match Sys.ofNum num with
      | some c => c.code esp
      | none => .iret)

end Pintos.Trap
