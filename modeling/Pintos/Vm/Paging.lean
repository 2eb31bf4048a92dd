import Mathlib.Data.List.FinRange
import Pintos.Lib.Bitmap
import Pintos.Library.Steps

/-!
# Paging

The user pages of all processes: the user pool (`threads/palloc.c`), the frame table
(`vm/frame.c`), the supplementary page tables (`vm/page.c`), the swap device
(`vm/swap.c`), page directories (`userprog/pagedir.c`), `page_fault`
(`userprog/exception.c`), `process_exit` (`userprog/process.c`) and `SYS_MUNMAP`
(`userprog/syscall.c`). An operation is one step, and steps of all processes come in any
order.

An operation that panics, fails an assertion or follows a pointer to freed memory yields
no state. Whether the kernel pool has memory for an entry, a table or a page table is
left open (`Memory`).
-/

namespace Pintos.Paging

open Library

/-- `PGSIZE`. -/
abbrev pgsize : ℕ := 4096

/-- `PHYS_BASE`. -/
abbrev physBase : ℕ := 0xc0000000

/-- A page of user virtual memory. -/
abbrev Page := Fin 0xc0000

instance neZero_pages : NeZero 0xc0000 := ⟨by decide⟩

/-- A `struct thread` that is a user process. -/
abbrev Pid := ℕ

/-- The bytes of a page or a frame. -/
abbrev Content := Fin pgsize → UInt8

/-- The bytes of a disk sector. -/
abbrev Sector := Fin 512 → UInt8

/-- The user page an address is in, `pg_round_down`. -/
def pageOf (addr : ℕ) : Option Page :=
  if h : addr / pgsize < 0xc0000 then some ⟨addr / pgsize, h⟩ else none

/-- `is_code_vaddr`. -/
def isCodeVaddr (addr : ℕ) : Bool := addr < 0xa0058000

/-- `is_code_section`. -/
def isCodeSection (addr : ℕ) : Bool := addr ≤ 0x08058000

/-- A page table entry. -/
structure Pte where
  frame : ℕ
  /-- `PTE_P`. -/
  present : Bool
  /-- `PTE_W`. -/
  writable : Bool
  /-- `PTE_A`. -/
  accessed : Bool
  /-- `PTE_D`. -/
  dirty : Bool

/-- `struct sup_page_table_entry`, but for `user_vaddr`, which is its key in the table. `addr` tells entries
apart that are allocated for the same page one after the other. -/
structure Spte where
  addr : ℕ
  mapid : ℕ
  /-- `file`, which is not set for anonymous pages (`filerelated` is false). -/
  file : Option ℕ
  ofs : ℕ
  readBytes : ℕ
  zeroBytes : ℕ
  writable : Bool
  inswap : Bool
  swapindex : ℤ

/-- `struct frame_table_entry`. -/
structure Fte where
  frame : ℕ
  owner : Pid
  /-- The address of the supplementary entry. -/
  spte : ℕ
  uaddr : Page
deriving DecidableEq

/-- Whether the kernel pool has room, for each allocation whose failure is handled or ignored. -/
structure Memory where
  /-- `malloc` of the entry, in `allocate_page`. -/
  entry : Bool
  /-- `calloc` of the table, in `page_init`. -/
  table : Bool
  /-- The page table, in `pagedir_set_page`. -/
  pageTable : Bool
deriving DecidableEq

/-- Room for everything. -/
def Memory.ample : Memory := ⟨true, true, true⟩

/-- The state of user memory. -/
structure Vm where
  /-- `user_pool.used_map`. -/
  usedMap : Bitmap
  /-- The frames of the user pool. -/
  memory : ℕ → Content
  /-- The processes. -/
  live : Pid → Bool
  /-- `suppagetable != NULL`. -/
  suppagetable : Pid → Bool
  /-- The supplementary page tables. -/
  hash : Pid → Page → Option Spte
  /-- How many entries have been allocated. -/
  entries : ℕ
  pagedir : Pid → Page → Pte
  /-- `perprocess_frame_list`. -/
  frameList : Pid → List Fte
  globalFrameList : List Fte
  /-- `swap_table`. -/
  swapTable : Bitmap
  /-- `swap_device`. -/
  swapDevice : ℕ → Sector
  files : ℕ → List UInt8

/-- A page table entry that was never set. -/
def Pte.zero : Pte := ⟨0, false, false, false, false⟩

namespace Vm

variable (s : Vm)

/-- No process yet; a user pool of `frames` pages, a swap device of `slots` slots. -/
def init (frames slots : ℕ) (files : ℕ → List UInt8) : Vm where
  usedMap := Bitmap.create frames
  memory := fun _ _ => 0
  live := fun _ => false
  suppagetable := fun _ => false
  hash := fun _ _ => none
  entries := 0
  pagedir := fun _ _ => Pte.zero
  frameList := fun _ => []
  globalFrameList := []
  swapTable := Bitmap.create slots
  swapDevice := fun _ _ => 0
  files := files

/-! ### Pages of memory -/

/-- `palloc_get_page (PAL_USER | PAL_ZERO)`. -/
def pallocGetPage : Option (ℕ × Vm) :=
  (s.usedMap.scan 0 1 false).map fun f =>
    (f, { s with usedMap := s.usedMap.mark f, memory := Function.update s.memory f fun _ => 0 })

/-- `palloc_free_page`, which asserts that the page is in use. -/
def pallocFreePage (f : ℕ) : Option Vm :=
  if s.usedMap.all f 1 then
    some { s with
      usedMap := s.usedMap.setMultiple f 1 false, memory := Function.update s.memory f fun _ => 0xcc }
  else none

/-- An update of one page table entry. -/
def setPte (p : Pid) (pg : Page) (f : Pte → Pte) : Vm :=
  { s with pagedir := Function.update s.pagedir p (Function.update (s.pagedir p) pg (f (s.pagedir p pg))) }

/-- An update of one supplementary entry. -/
def setSpte (p : Pid) (pg : Page) (e : Option Spte) : Vm :=
  { s with hash := Function.update s.hash p (Function.update (s.hash p) pg e) }

/-- `pagedir_clear_page`. -/
def pagedirClearPage (p : Pid) (pg : Page) : Vm := s.setPte p pg fun e => { e with present := false }

/-- `pagedir_set_accessed (..., false)`. -/
def pagedirClearAccessed (p : Pid) (pg : Page) : Vm := s.setPte p pg fun e => { e with accessed := false }

/-- `pagedir_set_page`; without memory for a page table, nothing happens. -/
def pagedirSetPage (mem : Memory) (p : Pid) (pg : Page) (f : ℕ) (writable : Bool) : Vm :=
  if mem.pageTable then s.setPte p pg fun _ => ⟨f, true, writable, false, false⟩ else s

/-- `fte->spte`, which is in its owner's table unless it has been freed. -/
def spteOf (fte : Fte) : Option Spte := (s.hash fte.owner fte.uaddr).filter fun e => e.addr = fte.spte

/-! ### Eviction -/

/-- The loop of `select_fte_for_evict`, with at most `n` turns. -/
def selectFteLoop : ℕ → Vm → Option (Fte × Vm)
  | 0, _ => none
  | n + 1, s =>
    match s.globalFrameList with
    | [] => none
    | fte :: rest =>
      (s.spteOf fte).bind fun _ =>
        if (s.pagedir fte.owner fte.uaddr).accessed then
          selectFteLoop n { s.pagedirClearAccessed fte.owner fte.uaddr with globalFrameList := rest ++ [fte] }
        else some (fte, s.pagedirClearPage fte.owner fte.uaddr)

/-- `select_fte_for_evict`: the first frame that has not been accessed since its last turn. The list goes round
at most once. -/
def selectFteForEvict : Option (Fte × Vm) := selectFteLoop (s.globalFrameList.length + 1) s

/-- `write_to_disk`: eight sectors, from `index * 8` on. -/
def writeToDisk (c : Content) (index : ℕ) (d : ℕ → Sector) : ℕ → Sector := fun sec =>
  if h : index * 8 ≤ sec ∧ sec < index * 8 + 8 then
    fun k => c ⟨512 * (sec - index * 8) + k, show _ < 4096 by omega⟩
  else d sec

/-- `read_from_disk`. -/
def readFromDisk (d : ℕ → Sector) (index : ℕ) : Content := fun o =>
  d (index * 8 + o / 512) ⟨o % 512, Nat.mod_lt _ (by omega)⟩

/-- `swap_out` once a frame and a slot are chosen. -/
def evict (fte : Fte) (e : Spte) (slot : ℕ) : Vm :=
  { s.setSpte fte.owner fte.uaddr (some { e with swapindex := slot, inswap := true }) with
    swapTable := s.swapTable.mark slot
    swapDevice := writeToDisk (s.memory fte.frame) slot s.swapDevice
    globalFrameList := s.globalFrameList.erase fte
    frameList := Function.update s.frameList fte.owner ((s.frameList fte.owner).erase fte) }

/-- `swap_out`. -/
def swapOut : Option Vm := do
  let (fte, s) ← s.selectFteForEvict
  let slot ← s.swapTable.scan 0 1 false
  let e ← s.spteOf fte
  (s.evict fte e slot).pallocFreePage fte.frame

/-! ### Frames -/

/-- The loop of `allocate_frame` that evicts until `palloc_get_page` succeeds, with at most `n` turns. -/
def getFrameLoop : ℕ → Vm → Option (ℕ × Vm)
  | 0, s => s.pallocGetPage
  | n + 1, s =>
    match s.pallocGetPage with
    | some r => some r
    | none => s.swapOut.bind (getFrameLoop n)

/-- The frame that `allocate_frame` works with: each turn of the loop takes an entry off the list. -/
def getFrame : Option (ℕ × Vm) := getFrameLoop s.globalFrameList.length s

/-- `allocate_frame` for a page with an entry that is not mapped: the frame is mapped and entered in both lists. -/
def install (mem : Memory) (p : Pid) (pg : Page) (e : Spte) (f : ℕ) : Vm :=
  { s.pagedirSetPage mem p pg f e.writable with
    frameList := Function.update s.frameList p (s.frameList p ++ [⟨f, p, e.addr, pg⟩])
    globalFrameList := s.globalFrameList ++ [⟨f, p, e.addr, pg⟩] }

/-- `allocate_frame`; the frame is `none` for `NULL`. -/
def allocateFrame (mem : Memory) (p : Pid) (pg : Page) : Option (Option ℕ × Vm) := do
  let (f, s) ← s.getFrame
  match s.hash p pg with
  | some e =>
    if (s.pagedir p pg).present then (s.pallocFreePage f).map (none, ·)
    else some (some f, s.install mem p pg e f)
  | none => (s.pallocFreePage f).map (none, ·)

/-- `swap_in`. Without an entry it follows a null pointer, and it panics without a frame. -/
def swapIn (mem : Memory) (p : Pid) (pg : Page) : Option Vm := do
  let _ ← s.hash p pg
  let (frame, s) ← s.allocateFrame mem p pg
  let f ← frame
  let e ← s.hash p pg
  -- `disk_read` asserts that the sector exists
  if 0 ≤ e.swapindex ∧ e.swapindex < s.swapTable.bitCnt then
    some { s.setSpte p pg (some { e with swapindex := -1, inswap := false }) with
      memory := Function.update s.memory f (readFromDisk s.swapDevice e.swapindex.toNat)
      swapTable := s.swapTable.flip e.swapindex.toNat }
  else none

/-! ### Supplementary entries -/

/-- `page_init`, where there is no table yet. -/
def pageInit (mem : Memory) (p : Pid) : Vm :=
  if s.suppagetable p then s
  else { s with
    suppagetable := Function.update s.suppagetable p mem.table, hash := Function.update s.hash p fun _ => none }

/-- What a page is filled from: `file`, `ofs`, `read_bytes`, `zero_bytes`; nothing for an anonymous page. -/
structure Source where
  file : ℕ
  ofs : ℕ
  readBytes : ℕ
  zeroBytes : ℕ

/-- The entry that `allocate_page` makes, with the `mapid` that `SYS_MMAP` gives it afterwards. -/
def newSpte (src : Option Source) (writable : Bool) (mapid : ℕ) : Spte where
  addr := s.entries
  mapid := mapid
  file := src.map Source.file
  ofs := (src.map Source.ofs).getD 0
  readBytes := (src.map Source.readBytes).getD 0
  zeroBytes := (src.map Source.zeroBytes).getD 0
  writable := writable
  inswap := false
  swapindex := -1

/-- `allocate_page`. `hash_insert` leaves an entry that is there already. -/
def allocatePage (mem : Memory) (p : Pid) (pg : Page) (src : Option Source) (writable : Bool) (mapid : ℕ) : Vm :=
  let s := s.pageInit mem p
  if mem.entry then
    match s.hash p pg with
    | some _ => { s with entries := s.entries + 1 }
    | none => { s.setSpte p pg (some (s.newSpte src writable mapid)) with entries := s.entries + 1 }
  else s

/-! ### Page faults -/

/-- `file_read_at` into a frame: the number of bytes read. -/
def fileReadAt (file n ofs : ℕ) : ℕ := min n ((s.files file).length - ofs)

/-- The bytes that `file_read_at` leaves in a frame. -/
def filled (c : Content) (file n ofs : ℕ) : Content := fun o =>
  if o < s.fileReadAt file n ofs then (s.files file).getD (ofs + o) 0 else c o

/-- How a load from a file ends. -/
inductive Loaded
  /-- `allocate_frame` gave no frame. -/
  | noFrame (s : Vm)
  /-- The page is in. -/
  | done (s : Vm)
  /-- The file was too short: the frame is freed. -/
  | short (s : Vm)

/-- Loading a page from its file, as both branches of `page_fault` do it. -/
def load (mem : Memory) (p : Pid) (pg : Page) (e : Spte) (file : ℕ) : Option Loaded := do
  let (frame, s) ← s.allocateFrame mem p pg
  match frame with
  | none => some (.noFrame s)
  | some f =>
    let s' := { s with memory := Function.update s.memory f (s.filled (s.memory f) file e.readBytes e.ofs) }
    if s.fileReadAt file e.readBytes e.ofs = e.readBytes then
      some (.done (s'.setPte p pg fun pte => { pte with writable := e.writable }))
    else (s'.pallocFreePage f).map .short

/-- A stack page: `allocate_page`, then `allocate_frame`. -/
def growStack (mem : Memory) (p : Pid) (pg : Page) : Option Vm :=
  ((s.allocatePage mem p pg none true 0).allocateFrame mem p pg).map Prod.snd

/-- The kernel reads a page for itself, and loads it where it is not present. -/
def touch (mem : Memory) (p : Pid) (pg : Page) (e : Spte) : Option Vm :=
  if (s.pagedir p pg).present then some s
  else do
    let file ← e.file
    match ← s.load mem p pg e file with
    | .done s => some s
    | _ => none

/-- A file with `c` written at `ofs`. -/
def overwrite (l : List UInt8) (ofs : ℕ) (c : List UInt8) : List UInt8 :=
  l.take ofs ++ List.replicate (ofs - l.length) 0 ++ c ++ l.drop (ofs + c.length)

/-- `before_munmap`. -/
def beforeMunmap (mem : Memory) (p : Pid) (pg : Page) : Option Vm :=
  match s.hash p pg with
  | none => some s
  | some e =>
    if e.mapid ≠ 0 ∧ (s.pagedir p pg).dirty = true then do
      let file ← e.file
      let s ← s.touch mem p pg e
      let c := (List.ofFn (s.memory (s.pagedir p pg).frame)).take e.readBytes
      some ({ s with files := Function.update s.files file (overwrite (s.files file) e.ofs c) }.setPte p pg
        fun pte => { pte with dirty := false })
    else some s

/-- `destroy_spt`; `visited` are the entries in the order of the hash table. -/
def destroySpt (mem : Memory) (p : Pid) (visited : List Page) : Option Vm :=
  visited.foldlM (fun s pg => s.beforeMunmap mem p pg) s

/-- The loop of `process_exit` over `perprocess_frame_list`. -/
def dropFrames (p : Pid) : Vm :=
  { s with
    globalFrameList := (s.frameList p).foldl List.erase s.globalFrameList
    frameList := Function.update s.frameList p [] }

/-- `pagedir_destroy`. -/
def pagedirDestroy (p : Pid) : Option Vm :=
  (List.finRange 0xc0000).foldlM
    (fun t pg => if (s.pagedir p pg).present then t.pallocFreePage (s.pagedir p pg).frame else some t) s

/-- The process is gone. -/
def bury (p : Pid) : Vm :=
  { s with
    live := Function.update s.live p false
    suppagetable := Function.update s.suppagetable p false
    hash := Function.update s.hash p fun _ => none
    pagedir := Function.update s.pagedir p fun _ => Pte.zero }

/-- `process_exit`. -/
def processExit (mem : Memory) (p : Pid) (visited : List Page) : Option Vm :=
  (if s.suppagetable p then (s.destroySpt mem p visited).map (dropFrames · p) else some s).bind fun s =>
    (s.pagedirDestroy p).map (bury · p)

/-- `page_fault`, user mode. -/
def pageFaultUser (mem : Memory) (p : Pid) (addr esp : ℕ) (visited : List Page) : Option Vm :=
  match pageOf addr with
  | none => s.processExit mem p visited
  | some pg =>
    if addr = 0 then s.processExit mem p visited
    else if isCodeVaddr esp then some s
    else
      match s.hash p pg with
      | none =>
        if isCodeVaddr addr then s.processExit mem p visited
        else if esp ≤ addr ∨ esp = addr + 32 ∨ esp = addr + 4 then s.growStack mem p pg
        else s.processExit mem p visited
      | some e =>
        if e.inswap then s.swapIn mem p pg
        else do
          -- the pointer of an anonymous page is null or wild
          let file ← e.file
          match ← s.load mem p pg e file with
          | .noFrame s => s.processExit mem p visited
          | .done s => some s
          | .short s => some s

/-- `page_fault`, kernel mode, with `process_stack` of the thread. -/
def pageFaultKernel (mem : Memory) (p : Pid) (addr stack : ℕ) (visited : List Page) : Option Vm := do
  let pg ← pageOf addr
  if (s.pagedir p pg).present then s.processExit mem p visited
  else if ((s.hash p pg).isNone ∧ addr ≤ stack) ∨ isCodeSection stack = true then s.processExit mem p visited
  else
    match s.hash p pg with
    | none => s.growStack mem p pg
    | some e => do
      let file ← e.file
      match ← s.load mem p pg e file with
      | .noFrame s => s.processExit mem p visited
      | .done s => some s
      | .short s => some s

/-- A fault ends the process: the address is not the process's own, or the page is present and was written to. -/
def kills (p : Pid) (user : Bool) (addr stack : ℕ) : Bool :=
  match pageOf addr with
  | none => user
  | some pg =>
    if user then
      addr = 0 ||
        (!isCodeVaddr stack &&
          match s.hash p pg with
          | none => isCodeVaddr addr || !(stack ≤ addr || stack = addr + 32 || stack = addr + 4)
          | some e => !e.inswap && (s.pagedir p pg).present)
    else (s.pagedir p pg).present || ((s.hash p pg).isNone && addr ≤ stack) || isCodeSection stack

/-! ### Unmapping -/

/-- One turn of the loop of `SYS_MUNMAP`. What is written to the file is left out. -/
def munmapPage (mem : Memory) (p : Pid) (mapid : ℕ) (pg : Page) : Option Vm :=
  match s.hash p pg with
  | none => some s
  | some e =>
    if e.mapid = mapid then do
      let s ← if (s.pagedir p pg).dirty then s.touch mem p pg e else some s
      some (s.setSpte p pg none)
    else some s

/-- `SYS_MUNMAP`. -/
def munmap (mem : Memory) (p : Pid) (mapid : ℕ) (visited : List Page) : Option Vm :=
  visited.foldlM (fun s pg => s.munmapPage mem p mapid pg) s

/-! ### Runs -/

/-- A new process, with an empty page directory. -/
def spawn (p : Pid) : Vm := { s.bury p with live := Function.update s.live p true, frameList := Function.update s.frameList p [] }

/-- The processor faults on an access to an address. -/
def faults (p : Pid) (write : Bool) (addr : ℕ) : Bool :=
  match pageOf addr with
  | none => true
  | some pg => !(s.pagedir p pg).present || (write && !(s.pagedir p pg).writable)

/-- A byte of a frame is set. -/
def poke (f : ℕ) (o : Fin pgsize) (v : UInt8) : Vm :=
  { s with memory := Function.update s.memory f (Function.update (s.memory f) o v) }

end Vm

/-- What happens next. -/
inductive Event
  /-- A process starts. -/
  | spawn (p : Pid)
  /-- `allocate_page`, in `load_segment`, `setup_stack` or `SYS_MMAP`. -/
  | allocatePage (mem : Memory) (p : Pid) (pg : Page) (src : Option Vm.Source) (writable : Bool) (mapid : ℕ)
  /-- `allocate_frame`, in `setup_stack`. -/
  | allocateFrame (mem : Memory) (p : Pid) (pg : Page)
  /-- `swap_out`. -/
  | swapOut
  /-- `swap_in`. -/
  | swapIn (mem : Memory) (p : Pid) (pg : Page)
  /-- `page_fault` on `addr`, with the stack pointer in user mode and `process_stack` in kernel mode. -/
  | fault (mem : Memory) (p : Pid) (user write : Bool) (addr stack : ℕ) (visited : List Page)
  /-- `process_exit`. -/
  | exit (mem : Memory) (p : Pid) (visited : List Page)
  /-- `SYS_MUNMAP`. -/
  | munmap (mem : Memory) (p : Pid) (mapid : ℕ) (visited : List Page)
  /-- A read of a page that is present. -/
  | access (p : Pid) (pg : Page)
  /-- A write to a page that is present and writable. -/
  | store (p : Pid) (pg : Page) (o : Fin pgsize) (v : UInt8)
  /-- A file is written. -/
  | writeFile (file : ℕ) (data : List UInt8)

/-- What the event finds in the kernel pool. -/
def Event.memory : Event → Memory
  | .allocatePage mem .. | .allocateFrame mem .. | .swapIn mem .. | .fault mem .. | .exit mem .. | .munmap mem .. => mem
  | _ => .ample

/-- The state after an event; nothing where it cannot happen, or does not return. -/
def next : Event → Vm → Option Vm
  | .spawn p, s => if s.live p then none else some (s.spawn p)
  | .allocatePage mem p pg src writable mapid, s =>
    if s.live p then some (s.allocatePage mem p pg src writable mapid) else none
  | .allocateFrame mem p pg, s => if s.live p then (s.allocateFrame mem p pg).map Prod.snd else none
  | .swapOut, s => s.swapOut
  | .swapIn mem p pg, s => if s.live p then s.swapIn mem p pg else none
  | .fault mem p user write addr stack visited, s =>
    if s.live p ∧ s.faults p write addr = true then
      if user then s.pageFaultUser mem p addr stack visited else s.pageFaultKernel mem p addr stack visited
    else none
  | .exit mem p visited, s => if s.live p then s.processExit mem p visited else none
  | .munmap mem p mapid visited, s => if s.live p then s.munmap mem p mapid visited else none
  | .access p pg, s =>
    if (s.pagedir p pg).present then some (s.setPte p pg fun e => { e with accessed := true }) else none
  | .store p pg o v, s =>
    if (s.pagedir p pg).present ∧ (s.pagedir p pg).writable then
      some ((s.poke (s.pagedir p pg).frame o v).setPte p pg fun e => { e with accessed := true, dirty := true })
    else none
  | .writeFile file data, s => some { s with files := Function.update s.files file data }

end Pintos.Paging
