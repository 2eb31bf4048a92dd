import Pintos.Filesys.Cache
import Pintos.Filesys.InodeDisk
import Pintos.Lib.Bitmap
import Pintos.Library.Heap

/-!
# Inodes

`filesys/inode.c` and, since the two call each other, `filesys/free-map.c`:
growing an inode allocates sectors, allocating a sector writes the free map to
its file, and writing a file may grow an inode. The functions that may allocate
take that write, `bitmap_write (free_map, free_map_file)`, as an argument
`persist`, and `bitmapWrite` ties the knot, one call deep after another, until
the kernel stack is used up.

The state is all that the file system keeps in memory, with the disk behind it.
Allocations of small objects always succeed here. A table of sectors is an
exception, since its address is stored in a word on disk.

`off_t` and `int` are integers reduced by `wrap` wherever C's arithmetic is done
on 32 bits; `size_t`, `uint32_t` and `disk_sector_t` are natural numbers.
-/

namespace Pintos

open Library Library.Prog Library.Bytes

/-- `struct inode`. -/
structure Inode where
  /-- `sector`. -/
  sector : ℕ
  /-- `open_cnt`. -/
  openCnt : ℤ
  /-- `removed`. -/
  removed : Bool
  /-- `deny_write_cnt`. -/
  denyWriteCnt : ℤ
  /-- `data`. -/
  data : InodeDisk

/-- `struct file`. -/
structure File where
  /-- `inode`. -/
  inode : ℕ
  /-- `pos`. -/
  pos : ℤ
  /-- `deny_write`. -/
  denyWrite : Bool

/-- `struct dir`. -/
structure Dir where
  /-- `inode`. -/
  inode : ℕ
  /-- `pos`. -/
  pos : ℤ

/-- A table of 512 words in the kernel's heap. -/
abbrev Table : Type := Fin 512 → ℕ

/-- The file system. -/
structure Fs where
  /-- The disk and the buffer cache. -/
  buffers : Buffers
  /-- `free_map`. -/
  freeMap : Bitmap
  /-- `free_map_file`. -/
  freeMapFile : ℕ
  /-- The `struct inode`s. -/
  inodes : Heap Inode
  /-- `open_inodes`. -/
  openInodes : List ℕ
  /-- The tables of sectors. -/
  tables : Heap Table
  /-- `disk_inode` of `inode_create`. -/
  temp : InodeDisk
  /-- The `struct file`s. -/
  files : Heap File
  /-- The `struct dir`s. -/
  dirs : Heap Dir
  /-- `curr_dir` of the running thread. -/
  currDir : ℕ

/-- Programs over the file system. -/
abbrev FsM := Prog Fs Halt

/-- An operation of the buffer cache. -/
def cached {α : Type} (m : CacheM α) : FsM α := within Fs.buffers (fun b k => { k with buffers := b }) m

/-- The `struct inode` at address `a`. -/
def inodeAt (a : ℕ) : FsM Inode := do
  let found ← gets fun k => k.inodes.cell a
  orStop found .badPointer

/-- Change the `struct inode` at address `a`. -/
def updateInode (a : ℕ) (f : Inode → Inode) : FsM Unit := modify fun k => { k with inodes := k.inodes.set a f }

/-- The `struct file` at address `p`. -/
def fileAt (p : ℕ) : FsM File := do
  let found ← gets fun k => k.files.cell p
  orStop found .badPointer

/-- Entry `j` of the table at address `t`. -/
def tableAt (t j : ℕ) : FsM ℕ := do
  let found ← gets fun k => k.tables.cell t
  let T ← orStop found .badPointer
  if h : j < 512 then pure (T ⟨j, h⟩) else stop .badPointer

/-- `calloc (DISK_SECTOR_SIZE, sizeof (disk_sector_t))`. -/
def newTable (T : Table) : FsM ℕ := do
  let t ← gets fun k => k.tables.next
  if t < 2 ^ 32 then do
    modify fun k => { k with tables := k.tables.alloc T }
    pure t
  else stop .noMemory

/-! ### The free map -/

/-- `free_map_allocate`. The caller stores the sector. -/
def freeMapAllocate (persist : FsM Bool) (cnt : ℕ) : FsM (Option ℕ) := do
  let map ← gets Fs.freeMap
  match map.scan 0 cnt false with
  | none => pure none
  | some sector =>
    modify fun k => { k with freeMap := map.setMultiple sector cnt true }
    let file ← gets Fs.freeMapFile
    if file = 0 then pure (some sector)
    else do
      let ok ← persist
      if ok then pure (some sector)
      else do
        modify fun k => { k with freeMap := k.freeMap.setMultiple sector cnt false }
        pure none

/-- `free_map_release`. -/
def freeMapRelease (persist : FsM Bool) (sector cnt : ℕ) : FsM Unit := do
  let map ← gets Fs.freeMap
  if sector + cnt ≤ map.bitCnt then
    if map.all sector cnt then do
      modify fun k => { k with freeMap := map.setMultiple sector cnt false }
      let _ ← persist
      pure ()
    else stop .sectorNotAllocated
  else stop .bitOutOfRange

/-! ### Growth -/

/-- `bytes_to_sectors`. -/
def bytesToSectors (size : ℤ) : ℕ := ofSigned ((wrap (size + 511)).tdiv 512)

/-- Where `inode_grow` finds the `struct inode_disk` it is given. -/
inductive DataRef where
  /-- In the `struct inode` at address `a`. -/
  | inode (a : ℕ)
  /-- In `inode_create`'s own memory. -/
  | temp
  deriving DecidableEq

/-- `*disk_inode`. -/
def readData : DataRef → FsM InodeDisk
  | .inode a => do let i ← inodeAt a; pure i.data
  | .temp => gets Fs.temp

/-- Change `*disk_inode`. -/
def updateData (f : InodeDisk → InodeDisk) : DataRef → FsM Unit
  | .inode a => updateInode a fun i => { i with data := f i.data }
  | .temp => modify fun k => { k with temp := f k.temp }

/-- A place for a sector number. -/
inductive Slot where
  /-- `disk_inode->start + i`. -/
  | direct (i : ℕ)
  /-- Entry `j` of the table at address `t`. -/
  | entry (t j : ℕ)

/-- `*slot = sector`. -/
def storeSlot (r : DataRef) (sector : ℕ) : Slot → FsM Unit
  | .direct i =>
    if h : i < directPointers then updateData (fun d => { d with start := Function.update d.start ⟨i, h⟩ sector }) r
    else stop .badPointer
  | .entry t j => do
    let _ ← tableAt t j
    modify fun k => { k with tables := k.tables.set t fun T => Function.update T (Fin.ofNat 512 j) sector }

/-- Allocate a sector for `slot` and fill it with zeros. -/
def allocateSlot (persist : FsM Bool) (r : DataRef) (slot : Slot) : FsM Unit := do
  let found ← freeMapAllocate persist 1
  let sector ← orStop found .diskFull
  storeSlot r sector slot
  cached (bufferCacheWrite sector (fun _ => 0) 0 sectorSize)

/-- `*disk_inode->indirect`, allocated and copied from `start` if there is none yet. -/
def indirectTable (r : DataRef) (currentSectors : ℕ) : FsM ℕ := do
  let d ← readData r
  if d.indirect = 0 then
    if currentSectors ≤ directPointers then do
      let t ← newTable fun j =>
        if h : j.1 < directPointers then (if j.1 < currentSectors then d.start ⟨j.1, h⟩ else 0) else 0
      updateData (fun d => { d with indirect := t }) r
      pure t
    else stop .badPointer
  else pure d.indirect

/-- `*disk_inode->doubly_indirect`, which the allocation sets to `disk_inode->indirect`. -/
def doublyIndirectTable (r : DataRef) : FsM ℕ := do
  let d ← readData r
  if d.doublyIndirect = 0 then do
    let t ← newTable fun j => if j.1 = 0 then d.indirect else 0
    updateData (fun d => { d with doublyIndirect := t }) r
    pure d.indirect
  else tableAt d.doublyIndirect 0

/-- The place of sector `i` in the branch for more than 512 sectors: `doubly + i % DISK_SECTOR_SIZE`. -/
def doublySlot (r : DataRef) (i : ℕ) : FsM Slot := do
  let t ← doublyIndirectTable r
  let s ← tableAt t (i / sectorSize)
  if s = 0 then do
    let t' ← newTable fun _ => 0
    pure (.entry t' (i % sectorSize))
  else pure (.entry t (i / sectorSize + i % sectorSize))

/-- `for (i = currentsectors; i < neededsectors; i++)`, `n` times. -/
def growLoop (persist : FsM Bool) (r : DataRef) (slot : ℕ → FsM Slot) : ℕ → ℕ → FsM Unit
  | _, 0 => pure ()
  | i, n + 1 => do
    let s ← slot i
    allocateSlot persist r s
    growLoop persist r slot (i + 1) n

/-- `inode_grow`. -/
def inodeGrow (persist : FsM Bool) (sector : ℕ) (r : DataRef) (length : ℤ) : FsM Bool := do
  let d ← readData r
  if length ≤ d.length then pure true
  else do
    let capacity ← gets fun k => k.buffers.disk.capacity
    if (512 * capacity) % 2 ^ 32 < ofSigned length then stop .fileTooBig
    else do
      let needed := bytesToSectors length
      let current := bytesToSectors d.length
      if needed ≤ directPointers then
        growLoop persist r (fun i => pure (.direct i)) current (needed - current)
      else if needed ≤ sectorSize then do
        let t ← indirectTable r current
        growLoop persist r (fun i => pure (.entry t i)) current (needed - current)
      else if needed ≤ sectorSize * sectorSize then do
        let _ ← doublyIndirectTable r
        growLoop persist r (doublySlot r) current (needed - current)
      else stop .notReached
      updateData (fun d => { d with length := length }) r
      let d ← readData r
      cached (bufferCacheWrite sector d.bytes 0 sectorSize)
      pure true

/-! ### Reading and writing -/

/-- `disk_inode->start[j]`. -/
def startAt (d : InodeDisk) (j : ℕ) : FsM ℕ :=
  if h : j < directPointers then pure (d.start ⟨j, h⟩) else stop .badPointer

/-- The rest of `byte_to_sector`, after the growth. -/
def sectorOf (a : ℕ) (pos : ℤ) : FsM ℕ := do
  let i ← inodeAt a
  let current := bytesToSectors i.data.length
  let target := bytesToSectors pos
  if pos = 0 then startAt i.data 0
  else if target = 0 then stop .badPointer
  else if current ≤ directPointers then startAt i.data (target - 1)
  else if current ≤ sectorSize then tableAt i.data.indirect (target - 1)
  else if current ≤ sectorSize * sectorSize then stop .notImplemented
  else stop .fileTooBig

/-- `byte_to_sector`. -/
def byteToSector (persist : FsM Bool) (a : ℕ) (pos : ℤ) : FsM ℕ := do
  let i ← inodeAt a
  let _ ← inodeGrow persist i.sector (.inode a) pos
  sectorOf a pos

/-- The loop of `inode_read_at`: `size` bytes from `offset` on are still to be read, `bytes` were. The
first argument bounds the number of rounds; each reads a byte at least. -/
def readLoop (persist : FsM Bool) (a : ℕ) : ℕ → ℤ → ℤ → List UInt8 → FsM (List UInt8)
  | 0, _, _, bytes => pure bytes
  | n + 1, size, offset, bytes =>
    if size ≤ 0 then pure bytes
    else do
      let i ← inodeAt a
      let sectorOfs := offset.tmod 512
      let inodeLeft := wrap (i.data.length - offset)
      let sectorLeft := 512 - sectorOfs
      let minLeft := if inodeLeft < sectorLeft then inodeLeft else sectorLeft
      let chunkSize := if size < minLeft then size else minLeft
      if chunkSize ≤ 0 then pure bytes
      else do
        let sectorIdx ← byteToSector persist a (wrap (offset + chunkSize))
        let buffer ← cached (bufferCacheRead sectorIdx true)
        if 0 ≤ sectorOfs ∧ sectorOfs + chunkSize ≤ 512 then
          readLoop persist a n (size - chunkSize) (wrap (offset + chunkSize))
            (bytes ++ (List.range chunkSize.toNat).map fun j => buffer (Fin.ofNat sectorSize (sectorOfs.toNat + j)))
        else stop .badPointer

/-- `inode_read_at`. The result is what was put in the buffer, and its length is the result in C. -/
def inodeReadAt (persist : FsM Bool) (a : ℕ) (size offset : ℤ) : FsM (List UInt8) :=
  readLoop persist a size.toNat size offset []

/-- The loop of `inode_write_at`: `size` bytes from `offset` on are still to be written, `written` were.
The first argument bounds the number of rounds; each writes a byte at least. -/
def writeLoop (persist : FsM Bool) (a : ℕ) (buffer : ℕ → UInt8) : ℕ → ℤ → ℤ → ℕ → FsM ℕ
  | 0, _, _, written => pure written
  | n + 1, size, offset, written =>
    if size ≤ 0 then pure written
    else do
      let i ← inodeAt a
      let sectorOfs := offset.tmod 512
      onlyIf (wrap (i.data.length - sectorOfs) ≤ 0) do
        let growth := if size < 512 then size else 512
        let _ ← inodeGrow persist i.sector (.inode a) (wrap (i.data.length + growth))
        pure ()
      let i ← inodeAt a
      let inodeLeft := ofSigned (i.data.length - sectorOfs)
      let sectorLeft := ofSigned (512 - sectorOfs)
      let minLeft := if inodeLeft < sectorLeft then inodeLeft else sectorLeft
      let chunkSize := if ofSigned size < minLeft then ofSigned size else minLeft
      let sectorIdx ← byteToSector persist a (wrap (offset + chunkSize))
      if chunkSize = 0 then pure written
      else do
        cached (bufferCacheWrite sectorIdx (fun j => buffer (written + j)) (ofSigned sectorOfs) chunkSize)
        writeLoop persist a buffer n (wrap (size - chunkSize)) (wrap (offset + chunkSize)) (written + chunkSize)

/-- `inode_write_at`. -/
def inodeWriteAt (persist : FsM Bool) (a : ℕ) (buffer : ℕ → UInt8) (size offset : ℤ) : FsM ℕ := do
  let i ← inodeAt a
  if i.denyWriteCnt ≠ 0 then pure 0 else writeLoop persist a buffer size.toNat size offset 0

/-- `bitmap_write (free_map, free_map_file)`, with room on the stack for `n` calls inside one another. -/
def bitmapWrite : ℕ → FsM Bool
  | 0 => stop .kernelStack
  | n + 1 => do
    let p ← gets Fs.freeMapFile
    let map ← gets Fs.freeMap
    let f ← fileAt p
    let written ← inodeWriteAt (bitmapWrite n) f.inode map.bytes map.fileSize 0
    pure (written == map.fileSize)

/-- The write of the free map that the kernel makes: a stack of one page has room for eight calls. -/
def persistFreeMap : FsM Bool := bitmapWrite 8

/-! ### Opening, closing, creating -/

/-- `inode_create`. -/
def inodeCreate (sector : ℕ) (length : ℤ) (isdir : Bool) : FsM Bool :=
  if 0 ≤ length then do
    modify fun k => { k with temp := { InodeDisk.zero with magic := inodeMagic, isdir := isdir } }
    let grown ← inodeGrow persistFreeMap sector .temp length
    onlyIf grown do
      let d ← readData .temp
      cached (bufferCacheWrite sector d.bytes 0 sectorSize)
    pure grown
  else stop .negativeLength

/-- `inode_reopen`. -/
def inodeReopen (a : ℕ) : FsM ℕ := do
  onlyIf (a ≠ 0) do
    let _ ← inodeAt a
    updateInode a fun i => { i with openCnt := i.openCnt + 1 }
  pure a

/-- `inode_open`. -/
def inodeOpen (sector : ℕ) : FsM ℕ := do
  let found ← gets fun k => k.openInodes.find? fun a => (k.inodes.cell a).any fun i => i.sector == sector
  match found with
  | some a => inodeReopen a
  | none => do
    let a ← gets fun k => k.inodes.next
    modify fun k => { k with
      inodes := k.inodes.alloc ⟨sector, 1, false, 0, InodeDisk.zero⟩, openInodes := a :: k.openInodes }
    let b ← cached (bufferCacheRead sector false)
    updateInode a fun i => { i with data := InodeDisk.decode b }
    pure a

/-- The sector that `inode_close` releases for block `j`. -/
def blockToRelease (d : InodeDisk) (current j : ℕ) : FsM ℕ :=
  if current ≤ directPointers then startAt d j
  else if current ≤ sectorSize then tableAt d.indirect j
  else if current ≤ sectorSize * sectorSize then do
    let t ← tableAt d.doublyIndirect 0
    tableAt t (j / sectorSize + j % sectorSize)
  else stop .notImplemented

/-- The loops of `inode_close`, from block `j` on. -/
def releaseLoop (a current : ℕ) : ℕ → ℕ → FsM Unit
  | _, 0 => pure ()
  | j, n + 1 => do
    let i ← inodeAt a
    let s ← blockToRelease i.data current j
    freeMapRelease persistFreeMap s 1
    releaseLoop a current (j + 1) n

/-- `inode_close`. -/
def inodeClose (a : ℕ) : FsM Unit := do
  onlyIf (a ≠ 0) do
    let i ← inodeAt a
    updateInode a fun i => { i with openCnt := i.openCnt - 1 }
    onlyIf (i.openCnt - 1 = 0) do
      modify fun k => { k with openInodes := k.openInodes.filter (· ≠ a) }
      onlyIf i.removed do
        freeMapRelease persistFreeMap i.sector 1
        let i ← inodeAt a
        let current := bytesToSectors i.data.length
        onlyIf (sectorSize * sectorSize < current) (stop .notImplemented)
        releaseLoop a current 0 current
      modify fun k => { k with inodes := k.inodes.free a }

/-- `inode_remove`. -/
def inodeRemove (a : ℕ) : FsM Unit := do
  let _ ← inodeAt a
  updateInode a fun i => { i with removed := true }

/-- `inode_length`. -/
def inodeLength (a : ℕ) : FsM ℤ := do
  let i ← inodeAt a
  pure i.data.length

end Pintos
