import Pintos.Vm.Locks
import Pintos.Vm.Paging

/-!
# Kernel code in a trap

What a process's thread does from its entry into the kernel to its return, as a tree of
the steps that matter to the process: it takes and releases the locks `handlesem`,
`framesem` and `swap_lock`, reads and writes bytes of user memory, reads and writes its
`fdtable` and `mmaptable`, sets `returnstatus`, and ends in `intr_exit`, in
`thread_exit` or with a halted kernel. What the file system, the memory allocators and
other processes answer is left open: a step `ask` goes on with any number.

`Code.Holds` says of a tree that whenever it comes to one of the points of interest, a
given condition holds there, whatever the answers are.
-/

namespace Pintos.Trap

open Locking (Lock)
open Paging (pgsize physBase isCodeVaddr isCodeSection)

/-- `pg_round_down`. -/
def pgRoundDown (addr : ℕ) : ℕ := addr / pgsize * pgsize

/-- `struct sup_page_table_entry`, as far as traps read it. -/
structure Entry where
  userVaddr : ℕ
  /-- `file`; any pointer in the entry of a stack page, where it is not set. -/
  file : ℕ
  readBytes : ℕ
  zeroBytes : ℕ
  writable : Bool
  inswap : Bool
  mapid : ℤ

/-- The part of `struct thread` and of the address space that the code looks at. -/
structure Space where
  /-- `process_stack`. -/
  processStack : ℕ
  /-- The supplementary page table, in the order of the table. -/
  hash : List Entry
  /-- The pages present in the page directory, and whether they may be written. -/
  pagedir : ℕ → Option Bool
  /-- `fdtable[FILES_MAX]`: pointers to `struct file`. -/
  fdtable : ℕ → ℕ
  nextfd : ℕ

namespace Space

/-- `hash_find`. -/
def find (sp : Space) (page : ℕ) : Option Entry := sp.hash.find? fun e => e.userVaddr = page

/-- `hash_insert`: an entry for the same page stays in place of the new one. -/
def insert (e : Entry) (sp : Space) : Space :=
  if (sp.find e.userVaddr).isSome then sp else { sp with hash := e :: sp.hash }

/-- `hash_delete` of the entry for a page. -/
def delete (page : ℕ) (sp : Space) : Space := { sp with hash := sp.hash.filter fun e => e.userVaddr ≠ page }

/-- `pagedir_set_page`, and `pagedir_set_writable`. -/
def setPage (page : ℕ) (writable : Bool) (sp : Space) : Space :=
  { sp with pagedir := Function.update sp.pagedir page (some writable) }

/-- Set `inswap` of the entry for a page. -/
def setInswap (page : ℕ) (b : Bool) (sp : Space) : Space :=
  { sp with hash := sp.hash.map fun e => if e.userVaddr = page then { e with inswap := b } else e }

/-- `swap_out` of a page: it is no longer present. -/
def swapOut (page : ℕ) (sp : Space) : Space :=
  { sp.setInswap page true with pagedir := Function.update sp.pagedir page none }

end Space

/-- Why `thread_exit` is called. -/
inductive Why
  /-- `SYS_EXIT` with this word as its argument. -/
  | called (status : ℕ)
  /-- `syscall_handler` refuses the stack pointer. -/
  | badStack
  /-- A system call, by its number, refuses its arguments. -/
  | badArgument (num : ℕ)
  /-- `page_fault`. -/
  | pageFault
  /-- `kill`. -/
  | exception
deriving DecidableEq

/-- What a thread does in the kernel. -/
inductive Code
  /-- `intr_exit`: back to the user program. -/
  | iret
  /-- `thread_current ()->returnstatus = v`. -/
  | setStatus (v : ℤ) (k : Code)
  /-- `lock_acquire`. -/
  | acquire (l : Lock) (k : Code)
  /-- `lock_release`. -/
  | release (l : Lock) (k : Code)
  /-- `if (lock_held_by_current_thread (l)) lock_release (l)`. -/
  | releaseHeld (l : Lock) (k : Code)
  /-- Read a byte of user memory. -/
  | load (addr : ℕ) (k : UInt8 → Code)
  /-- Write a byte to user memory. -/
  | store (addr : ℕ) (k : Code)
  /-- Read `fdtable[fd]`. -/
  | fdAt (fd : ℤ) (k : ℕ → Code)
  /-- `fdtable[fd] = file`. -/
  | setFd (fd : ℤ) (file : ℕ) (k : Code)
  /-- Read `next_mapid`. -/
  | mapid (k : ℕ → Code)
  /-- `mmaptable[next_mapid] = openedfile; next_mapid++`. -/
  | setMap (k : Code)
  /-- An answer of the file system, an allocator or another process. -/
  | ask (k : ℕ → Code)
  /-- Look at the thread and its address space. -/
  | look (k : Space → Code)
  /-- Change the thread or its address space. -/
  | change (f : Space → Space) (k : Code)
  /-- `thread_exit`. -/
  | threadExit (why : Why)
  /-- Past `sema_up (&curr->waitsem)` in `process_exit`. -/
  | gone
  /-- `power_off`. -/
  | powerOff
  /-- `PANIC`, or a failed assertion. -/
  | panic
  /-- The kernel has written over its own memory, or accessed a table beyond its end. -/
  | wild

/-- `returnstatus = -1; thread_exit ()`. -/
def die (why : Why) : Code := .setStatus (-1) (.threadExit why)

/-- A word of memory. -/
def wordAt (mem : ℕ → UInt8) (addr : ℕ) : ℕ :=
  (mem addr).toNat + 2 ^ 8 * (mem (addr + 1)).toNat + 2 ^ 16 * (mem (addr + 2)).toNat + 2 ^ 24 * (mem (addr + 3)).toNat

/-- A word as an `int`. -/
def toInt (w : ℕ) : ℤ := if w < 2 ^ 31 then w else w - 2 ^ 32

/-- `*(uint32_t *) addr`. -/
def word (addr : ℕ) (k : ℕ → Code) : Code :=
  .load addr fun b₀ => .load (addr + 1) fun b₁ => .load (addr + 2) fun b₂ => .load (addr + 3) fun b₃ =>
    k (b₀.toNat + 2 ^ 8 * b₁.toNat + 2 ^ 16 * b₂.toNat + 2 ^ 24 * b₃.toNat)

/-- Read `n` bytes from `addr` on. -/
def loads : ℕ → ℕ → Code → Code
  | 0, _, k => k
  | n + 1, addr, k => .load addr fun _ => loads n (addr + 1) k

/-- Write `n` bytes from `addr` on. -/
def stores : ℕ → ℕ → Code → Code
  | 0, _, k => k
  | n + 1, addr, k => .store addr (stores n (addr + 1) k)

/-- Read a string from `addr` on up to its null byte, of which `n` bytes at most lie below the end of the
address space; then go on with its length, of which `len` bytes were counted before. -/
def strlen : ℕ → ℕ → ℕ → (ℕ → Code) → Code
  | 0, _, _, _ => .panic
  | n + 1, addr, len, k => .load addr fun b => if b = 0 then k len else strlen n (addr + 1) (len + 1) k

/-- `strlcpy (dst, addr, PGSIZE)` from the user's string: it is read to its end and then copied. -/
def copyString (addr : ℕ) (k : Code) : Code :=
  strlen (2 ^ 32 - addr) addr 0 fun len => loads (min len (pgsize - 1)) addr k

/-- Calls of the file system, each under `handlesem`, on what is in kernel memory. -/
def filesysCalls : ℕ → Code → Code
  | 0, k => k
  | n + 1, k => .acquire .handlesem (.release .handlesem (filesysCalls n k))

/-! ### What a tree of steps keeps to -/

/-- The registers that the conditions are about. -/
structure Regs where
  /-- The locks the thread holds. -/
  held : Finset Lock
  returnstatus : ℤ
  nextMapid : ℕ

/-- The points of interest. -/
inductive Point
  /-- At `intr_exit`. -/
  | back
  /-- At `thread_exit`. -/
  | exit (why : Why)
  /-- Where `process_exit` wakes the parent. -/
  | gone
  /-- At an access to user memory. -/
  | touch (write : Bool)
  /-- At an access to `fdtable`. -/
  | slot (fd : ℤ)
  /-- At an access to `mmaptable`. -/
  | mapSlot (i : ℕ)

/-- **The code comes to every point with what `I` says there**, started with these registers and this
memory, whatever it is answered and whatever it finds. -/
def Code.Holds (I : Point → Regs → Prop) : (ℕ → UInt8) → Regs → Code → Prop
  | _, r, .iret => I .back r
  | mem, r, .setStatus v k => k.Holds I mem { r with returnstatus := v }
  | mem, r, .acquire l k => l ∉ r.held → k.Holds I mem { r with held := insert l r.held }
  | mem, r, .release l k => l ∈ r.held → k.Holds I mem { r with held := r.held.erase l }
  | mem, r, .releaseHeld l k => k.Holds I mem { r with held := r.held.erase l }
  | mem, r, .load addr k => I (.touch false) r ∧ (k (mem addr)).Holds I mem r
  | mem, r, .store addr k => I (.touch true) r ∧ ∀ b, k.Holds I (Function.update mem addr b) r
  | mem, r, .fdAt fd k => I (.slot fd) r ∧ ∀ p, (k p).Holds I mem r
  | mem, r, .setFd fd _ k => I (.slot fd) r ∧ k.Holds I mem r
  | mem, r, .mapid k => (k r.nextMapid).Holds I mem r
  | mem, r, .setMap k => I (.mapSlot r.nextMapid) r ∧ k.Holds I mem { r with nextMapid := r.nextMapid + 1 }
  | mem, r, .ask k => ∀ n, (k n).Holds I mem r
  | mem, r, .look k => ∀ sp, (k sp).Holds I mem r
  | mem, r, .change _ k => k.Holds I mem r
  | _, r, .threadExit why => I (.exit why) r
  | _, r, .gone => I .gone r
  | _, _, .powerOff => True
  | _, _, .panic => True
  | _, _, .wild => True

section Holds

variable {I : Point → Regs → Prop} {mem : ℕ → UInt8} {r : Regs}

theorem holds_die {why : Why} (h : I (.exit why) { r with returnstatus := -1 }) : (die why).Holds I mem r := h

theorem holds_word {addr : ℕ} {k : ℕ → Code} (ht : I (.touch false) r) (h : (k (wordAt mem addr)).Holds I mem r) :
    (word addr k).Holds I mem r :=
  ⟨ht, ht, ht, ht, h⟩

theorem holds_loads {n addr : ℕ} {k : Code} (ht : I (.touch false) r) (h : k.Holds I mem r) :
    (loads n addr k).Holds I mem r := by
  induction n generalizing addr with
  | zero => exact h
  | succ n ih => exact ⟨ht, ih⟩

theorem holds_stores {n addr : ℕ} {k : Code} (ht : I (.touch true) r) (h : ∀ mem, k.Holds I mem r) :
    (stores n addr k).Holds I mem r := by
  induction n generalizing addr mem with
  | zero => exact h mem
  | succ n ih => exact ⟨ht, fun _ => ih⟩

theorem holds_strlen {n addr len : ℕ} {k : ℕ → Code} (ht : I (.touch false) r) (h : ∀ len, (k len).Holds I mem r) :
    (strlen n addr len k).Holds I mem r := by
  induction n generalizing addr len with
  | zero => trivial
  | succ n ih =>
    refine ⟨ht, ?_⟩
    beta_reduce
    split_ifs
    · exact h len
    · exact ih

theorem holds_copyString {addr : ℕ} {k : Code} (ht : I (.touch false) r) (h : k.Holds I mem r) :
    (copyString addr k).Holds I mem r :=
  holds_strlen ht fun _ => holds_loads ht h

/-- A lock that is taken and given back leaves the registers as they were. -/
theorem held_insert_erase {l : Lock} (hl : l ∉ r.held) :
    ({ r with held := (insert l r.held).erase l } : Regs) = r := by
  rw [Finset.erase_insert hl]

theorem holds_filesysCalls {n : ℕ} {k : Code} (h : k.Holds I mem r) : (filesysCalls n k).Holds I mem r := by
  induction n with
  | zero => exact h
  | succ n ih =>
    intro hl _
    rw [held_insert_erase hl]
    exact ih

end Holds

end Pintos.Trap
