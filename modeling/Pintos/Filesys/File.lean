import Pintos.Filesys.Inode

/-!
# Files

`filesys/file.c`, and the part of `filesys/free-map.c` that keeps the free map
in a file.
-/

namespace Pintos

open Library Library.Prog Library.Bytes

/-- Change the `struct file` at address `p`. -/
def updateFile (p : ℕ) (f : File → File) : FsM Unit := modify fun k => { k with files := k.files.set p f }

/-- `inode->open_cnt++`. -/
def incrementOpenCnt (a : ℕ) : FsM Unit := updateInode a fun i => { i with openCnt := i.openCnt + 1 }

/-- `file_open`; `0` is the null pointer. -/
def fileOpen (a : ℕ) : FsM ℕ := do
  if a = 0 then do
    inodeClose a
    pure 0
  else do
    let p ← gets fun k => k.files.next
    modify fun k => { k with files := k.files.alloc ⟨a, 0, false⟩ }
    let _ ← inodeAt a
    incrementOpenCnt a
    pure p

/-- `file_reopen`. -/
def fileReopen (p : ℕ) : FsM ℕ := do
  let f ← fileAt p
  let a ← inodeReopen f.inode
  fileOpen a

/-- `inode_deny_write`. -/
def inodeDenyWrite (a : ℕ) : FsM Unit := do
  updateInode a fun i => { i with denyWriteCnt := i.denyWriteCnt + 1 }
  let i ← inodeAt a
  if i.denyWriteCnt ≤ i.openCnt then pure () else stop .denyWrite

/-- `inode_allow_write`. -/
def inodeAllowWrite (a : ℕ) : FsM Unit := do
  let i ← inodeAt a
  if 0 < i.denyWriteCnt ∧ i.denyWriteCnt ≤ i.openCnt then
    updateInode a fun i => { i with denyWriteCnt := i.denyWriteCnt - 1 }
  else stop .denyWrite

/-- `file_deny_write`. -/
def fileDenyWrite (p : ℕ) : FsM Unit := do
  let f ← fileAt p
  onlyIf (f.denyWrite = false) do
    updateFile p fun f => { f with denyWrite := true }
    inodeDenyWrite f.inode

/-- `file_allow_write`. -/
def fileAllowWrite (p : ℕ) : FsM Unit := do
  let f ← fileAt p
  onlyIf f.denyWrite do
    updateFile p fun f => { f with denyWrite := false }
    inodeAllowWrite f.inode

/-- `file_close`. -/
def fileClose (p : ℕ) : FsM Unit :=
  onlyIf (p ≠ 0) do
    fileAllowWrite p
    let f ← fileAt p
    inodeClose f.inode
    modify fun k => { k with files := k.files.free p }

/-- `file_read_at`. -/
def fileReadAt (p : ℕ) (size ofs : ℤ) : FsM (List UInt8) := do
  let f ← fileAt p
  inodeReadAt persistFreeMap f.inode size ofs

/-- `file_read`. -/
def fileRead (p : ℕ) (size : ℤ) : FsM (List UInt8) := do
  let f ← fileAt p
  let bytes ← inodeReadAt persistFreeMap f.inode size f.pos
  updateFile p fun f => { f with pos := wrap (f.pos + bytes.length) }
  pure bytes

/-- `file_write_at`. -/
def fileWriteAt (p : ℕ) (buffer : ℕ → UInt8) (size ofs : ℤ) : FsM ℕ := do
  let f ← fileAt p
  inodeWriteAt persistFreeMap f.inode buffer size ofs

/-- `file_write`. -/
def fileWrite (p : ℕ) (buffer : ℕ → UInt8) (size : ℤ) : FsM ℕ := do
  let f ← fileAt p
  let written ← inodeWriteAt persistFreeMap f.inode buffer size f.pos
  updateFile p fun f => { f with pos := wrap (f.pos + written) }
  pure written

/-- `file_length`. -/
def fileLength (p : ℕ) : FsM ℤ := do
  let f ← fileAt p
  inodeLength f.inode

/-- `file_seek`. -/
def fileSeek (p : ℕ) (newPos : ℤ) : FsM Unit := do
  let _ ← fileAt p
  if 0 ≤ newPos then updateFile p fun f => { f with pos := newPos } else stop .negativePos

/-- `file_tell`. -/
def fileTell (p : ℕ) : FsM ℤ := do
  let f ← fileAt p
  pure f.pos

/-! ### The free map's file -/

/-- `free_map_init`. -/
def freeMapInit : FsM Unit :=
  modify fun k => { k with freeMap := ((Bitmap.create k.buffers.disk.capacity).mark 0).mark 1 }

/-- `bitmap_read (free_map, free_map_file)`. -/
def bitmapRead : FsM Bool := do
  let map ← gets Fs.freeMap
  let p ← gets Fs.freeMapFile
  if map.bitCnt = 0 then pure true
  else do
    let bytes ← fileReadAt p map.fileSize 0
    -- what a short read leaves alone keeps its bits
    modify fun k => { k with
      freeMap := .ofBytes map.bitCnt fun j => if j < bytes.length then bytes.getD j 0 else map.bytes j }
    pure (bytes.length == map.fileSize)

/-- `free_map_file = file_open (inode_open (FREE_MAP_SECTOR))`. -/
def openFreeMapFile : FsM Unit := do
  let a ← inodeOpen 0
  let p ← fileOpen a
  modify fun k => { k with freeMapFile := p }
  if p = 0 then stop .formatFailed else pure ()

/-- `free_map_open`. -/
def freeMapOpen : FsM Unit := do
  openFreeMapFile
  let ok ← bitmapRead
  if ok then pure () else stop .formatFailed

/-- `free_map_close`; `free_map_file` keeps its value. -/
def freeMapClose : FsM Unit := do
  let p ← gets Fs.freeMapFile
  fileClose p

/-- `free_map_create`. -/
def freeMapCreate : FsM Unit := do
  let map ← gets Fs.freeMap
  let ok ← inodeCreate 0 map.fileSize false
  if ok then do
    openFreeMapFile
    let ok ← persistFreeMap
    if ok then pure () else stop .formatFailed
  else stop .formatFailed

end Pintos
