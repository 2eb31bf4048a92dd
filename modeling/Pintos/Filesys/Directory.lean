import Pintos.Filesys.File
import Pintos.Lib.CString

/-!
# Directories

`filesys/directory.c`. A directory is a file of entries of 24 bytes: the sector
of an inode in the first four, a name of at most 14 bytes and its terminator in
the next 15, and then the flag `in_use`. The flag `isfile` and the padding that
follow are copied and never looked at.

`dir_readdir` is described with the system call that uses it.
-/

namespace Pintos

open Library Library.Prog Library.Bytes

/-- `NAME_MAX`. -/
def nameMax : ℕ := 14

/-- `sizeof (struct dir_entry)`. -/
abbrev entrySize : ℕ := 24

/-- `struct dir_entry`, byte by byte. -/
abbrev DirEntry : Type := Fin entrySize → UInt8

namespace DirEntry

/-- `inode_sector`. -/
def inodeSector (e : DirEntry) : ℕ := Bytes.word fun i => e (Fin.ofNat entrySize i)

/-- `in_use`. -/
def inUse (e : DirEntry) : Bool := e 19 != 0

/-- Byte `i` of `name`. -/
def nameByte (e : DirEntry) (i : ℕ) : UInt8 := e (Fin.ofNat entrySize (4 + i))

/-- `!strcmp (name, e.name)`. -/
def hasName (e : DirEntry) (name : CString) : Bool :=
  decide (4 + name.strlen < entrySize) && (List.range (name.strlen + 1)).all fun i => e.nameByte i == name.byte i

/-- What `dir_add` puts in an entry: `in_use`, `name` by `strlcpy` and `inode_sector`. -/
def fill (e : DirEntry) (name : CString) (sector : ℕ) : DirEntry := fun i =>
  if i.1 < 4 then byteOf sector i.1
  else if i.1 = 19 then 1
  else if i.1 - 4 < min name.strlen nameMax then name.byte (i.1 - 4)
  else if i.1 - 4 = min name.strlen nameMax then 0
  else e i

/-- `e.in_use = false`. -/
def erase (e : DirEntry) : DirEntry := Function.update e 19 0

/-- An entry over the first bytes of which a read has put `bytes`. -/
def patch (e : DirEntry) (bytes : List UInt8) : DirEntry := fun i => bytes.getD i.1 (e i)

end DirEntry

/-- The `struct dir` at address `p`. -/
def dirAt (p : ℕ) : FsM Dir := do
  let found ← gets fun k => k.dirs.cell p
  orStop found .badPointer

/-- `dir_create`. -/
def dirCreate (sector entryCnt : ℕ) : FsM Bool := inodeCreate sector (wrap (entryCnt * entrySize : ℕ)) true

/-- `dir_open`; `0` is the null pointer. -/
def dirOpen (a : ℕ) : FsM ℕ :=
  if a = 0 then do
    inodeClose a
    pure 0
  else do
    let p ← gets fun k => k.dirs.next
    modify fun k => { k with dirs := k.dirs.alloc ⟨a, 0⟩, currDir := p }
    let _ ← inodeAt a
    incrementOpenCnt a
    pure p

/-- `dir_open_root`. -/
def dirOpenRoot : FsM ℕ := do
  let a ← inodeOpen 1
  dirOpen a

/-- `dir_reopen`. -/
def dirReopen (p : ℕ) : FsM ℕ := do
  let d ← dirAt p
  let a ← inodeReopen d.inode
  dirOpen a

/-- `dir_close`. -/
def dirClose (p : ℕ) : FsM Unit := do
  onlyIf (p ≠ 0) do
    let d ← dirAt p
    inodeClose d.inode
    modify fun k => { k with dirs := k.dirs.free p }
  let _ ← dirOpenRoot
  pure ()

/-- `inode_read_at (inode, &e, sizeof e, ofs)`: what is in `e` after it, and whether the read was not
short. -/
def readEntry (a : ℕ) (e : DirEntry) (ofs : ℕ) : FsM (DirEntry × Bool) := do
  let bytes ← inodeReadAt persistFreeMap a entrySize ofs
  pure (e.patch bytes, bytes.length == entrySize)

/-- The loops over the entries of a directory, from `ofs` on: the first entry that `found` is true of
and its offset, or no entry and the offset of the short read. The first argument bounds the number of
rounds. -/
def scanEntries (a : ℕ) (found : DirEntry → Bool) : ℕ → DirEntry → ℕ → FsM (DirEntry × ℕ × Bool)
  | 0, e, ofs => pure (e, ofs, false)
  | n + 1, e, ofs => do
    let (e, full) ← readEntry a e ofs
    if full then
      if found e then pure (e, ofs, true) else scanEntries a found n e (ofs + entrySize)
    else pure (e, ofs, false)

/-- The loop over the entries of the directory whose inode is at `a`. -/
def scanDir (a : ℕ) (found : DirEntry → Bool) : FsM (DirEntry × ℕ × Bool) := do
  let length ← inodeLength a
  scanEntries a found (length.toNat / entrySize + 1) (fun _ => 0) 0

/-- `lookup`. -/
def lookup (a : ℕ) (name : CString) : FsM (Option (DirEntry × ℕ)) := do
  let (e, ofs, found) ← scanDir a fun e => e.inUse && e.hasName name
  pure (if found then some (e, ofs) else none)

/-- `dir_lookup`; the result is `*inode`. -/
def dirLookup (p : ℕ) (name : Option CString) : FsM ℕ := do
  let d ← dirAt p
  let name ← orStop name .nullName
  let found ← lookup d.inode name
  match found with
  | some (e, _) => inodeOpen e.inodeSector
  | none => pure 0

/-- `dir_add`. -/
def dirAdd (p : ℕ) (name : Option CString) (sector : ℕ) : FsM Bool := do
  let d ← dirAt p
  let name ← orStop name .nullName
  if name.strlen = 0 ∨ nameMax < name.strlen then pure false
  else do
    let existing ← lookup d.inode name
    if existing.isSome then pure false
    else do
      let (e, ofs, _) ← scanDir d.inode fun e => !e.inUse
      let length ← inodeLength d.inode
      let (e, ofs) ←
        if length ≤ ofs then do
          let i ← inodeAt d.inode
          let _ ← inodeGrow persistFreeMap i.sector (.inode d.inode) (wrap (length + entrySize))
          let (e, _) ← readEntry d.inode e ofs
          pure (e, ofs + entrySize)
        else pure (e, ofs)
      let e := e.fill name sector
      let written ← inodeWriteAt persistFreeMap d.inode (fun j => e (Fin.ofNat entrySize j)) entrySize ofs
      pure (written == entrySize)

/-- The loop of `dir_remove` that counts the entries of a directory to be removed. -/
def countEntries (a : ℕ) : ℕ → ℕ → ℕ → FsM ℕ
  | 0, _, many => pure many
  | n + 1, pos, many => do
    let (e, full) ← readEntry a (fun _ => 0) pos
    if full then countEntries a n (pos + entrySize) (if e.inUse then many + 1 else many) else pure many

/-- How many entries of the directory whose inode is at `a` are in use. -/
def countDir (a : ℕ) : FsM ℕ := do
  let length ← inodeLength a
  countEntries a (length.toNat / entrySize + 1) 0 0

/-- `dir_remove`. -/
def dirRemove (p : ℕ) (name : Option CString) : FsM Bool := do
  let d ← dirAt p
  let name ← orStop name .nullName
  let found ← lookup d.inode name
  match found with
  | none => pure false
  | some (e, ofs) => do
    let a ← inodeOpen e.inodeSector
    let i ← inodeAt a
    let many ← if i.data.isdir then countDir a else pure 0
    if i.data.isdir ∧ 3 ≤ many then do
      inodeClose a
      pure false
    else do
      let e := e.erase
      let written ← inodeWriteAt persistFreeMap d.inode (fun j => e (Fin.ofNat entrySize j)) entrySize ofs
      if written = entrySize then do
        inodeRemove a
        inodeClose a
        pure true
      else do
        inodeClose a
        pure false

/-- `dir_makesure`. -/
def dirMakesure : FsM ℕ := do
  let p ← gets Fs.currDir
  onlyIf (p = 0) do
    let _ ← dirOpenRoot
    pure ()
  gets Fs.currDir

end Pintos
