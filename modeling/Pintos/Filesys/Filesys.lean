import Pintos.Filesys.Directory

/-!
# The file system

`filesys/filesys.c`: formatting and mounting, and files by name in the current
directory.
-/

namespace Pintos

open Library Library.Prog

/-- The file system as it is in memory before `filesys_init`, with disk `d`. -/
def Fs.boot (d : Disk) : Fs where
  buffers := .init d
  freeMap := .create 0
  freeMapFile := 0
  inodes := .empty
  openInodes := []
  tables := .empty
  temp := .zero
  files := .empty
  dirs := .empty
  currDir := 0

/-- `do_format`. -/
def doFormat : FsM Unit := do
  freeMapCreate
  let ok ← dirCreate 1 16
  if ok then freeMapClose else stop .formatFailed

/-- `filesys_init`. -/
def filesysInit (format : Bool) : FsM Unit := do
  freeMapInit
  onlyIf format doFormat
  freeMapOpen

/-- `filesys_done`. -/
def filesysDone : FsM Unit := do
  cached bufferCacheWriteDirtiesOnce
  freeMapClose

/-- `filesys_create`. -/
def filesysCreate (name : Option CString) (initialSize : ℤ) : FsM Bool := do
  let cur ← dirMakesure
  let dir ← dirReopen cur
  let d ← dirAt dir
  let i ← inodeAt d.inode
  let success ←
    if i.removed then pure false
    else do
      let found ← freeMapAllocate persistFreeMap 1
      match found with
      | none => pure false
      | some sector => do
        let created ← inodeCreate sector initialSize false
        let added ← if created then dirAdd dir name sector else pure false
        onlyIf (added = false ∧ sector ≠ 0) (freeMapRelease persistFreeMap sector 1)
        pure added
  dirClose dir
  pure success

/-- `filesys_open`; `0` is the null pointer. -/
def filesysOpen (name : Option CString) : FsM ℕ := do
  let cur ← dirMakesure
  let dir ← dirReopen cur
  let d ← dirAt dir
  let i ← inodeAt d.inode
  if i.removed then pure 0
  else do
    let a ← dirLookup dir name
    dirClose dir
    fileOpen a

/-- `filesys_remove`. -/
def filesysRemove (name : Option CString) : FsM Bool := do
  let dir ← dirMakesure
  dirRemove dir name

end Pintos
