import Pintos.Filesys.Filesys

/-!
# System calls that take a path

`SYS_CREATE`, `SYS_REMOVE`, `SYS_OPEN`, `SYS_CHDIR`, `SYS_MKDIR` and `SYS_READDIR`
of `userprog/syscall.c`, once the path has been copied from the user. The path
is cut into components by `strtok_r`, and the walk over them has the thread's
`curr_dir` for its cursor: each round looks up the component before the one
that was just cut, so that the last one is left over when the loop ends.

There are two kinds of walk. `SYS_CREATE` and `SYS_REMOVE` give up at a component
that is missing; `SYS_OPEN` and `SYS_MKDIR` go on in the directory they are in.
What each call then does with the flag `fail`, the name that is left over and
the saved `curr_dir` is its own.

The two pages for the copies of the path are there, like all small objects.
`SYS_OPEN` is described up to the `struct file *` for which it then looks for a
descriptor.
-/

namespace Pintos

open Library Library.Prog Library.Bytes

/-- The character `/`. -/
def slash : UInt8 := 47

namespace CString

/-- The bytes that satisfy `p`, up to the first that does not. -/
def takeWhile (p : UInt8 → Bool) (s : CString) : CString :=
  ⟨s.bytes.takeWhile p, fun h => s.noNul (List.takeWhile_subset p h)⟩

/-- The rest of the string, from byte `n` on. -/
def drop (n : ℕ) (s : CString) : CString := ⟨s.bytes.drop n, fun h => s.noNul (List.mem_of_mem_drop h)⟩

/-- The rest of the string, from the first byte on that does not satisfy `p`. -/
def dropWhile (p : UInt8 → Bool) (s : CString) : CString :=
  ⟨s.bytes.dropWhile p, fun h => s.noNul ((List.dropWhile_suffix p).subset h)⟩

/-- `strtok_r (s, "/", &save_ptr)`: the token, and what `save_ptr` then points to. -/
def strtokR (s : CString) : Option (CString × CString) :=
  let s := s.dropWhile (· == slash)
  if s.strlen = 0 then none
  else
    let token := s.takeWhile (· != slash)
    some (token, s.drop (token.strlen + 1))

/-- The tokens of the first `n` calls of `strtok_r`. -/
def tokensUpTo : ℕ → CString → List CString
  | 0, _ => []
  | n + 1, s =>
    match s.strtokR with
    | none => []
    | some (token, rest) => token :: tokensUpTo n rest

/-- All tokens; each has a byte at least. -/
def tokens (s : CString) : List CString := tokensUpTo s.strlen s

/-- `s[0] == '/'`. -/
def isAbsolute (s : CString) : Bool := s.byte 0 == slash

/-- `strchr (s, '/') != NULL`. -/
def hasSlash (s : CString) : Bool := s.bytes.contains slash

/-- `"."`. -/
def dot : CString := ⟨[46], by decide⟩

/-- `".."`. -/
def dotDot : CString := ⟨[46, 46], by decide⟩

/-- `"/"`. -/
def root : CString := ⟨[slash], by decide⟩

end CString

/-! ### The walk -/

/-- What the loop over the components leaves. -/
structure Walked where
  /-- `fail`. -/
  fail : Bool
  /-- `prev`. -/
  prev : Option CString
  /-- `inode`, as the last `dir_lookup` has set it. -/
  inode : ℕ

/-- The loop over the components of a path. A walk that is `strict` gives up at a component that is missing. -/
def walk (strict : Bool) : List CString → Option CString → ℕ → FsM Walked
  | [], prev, inode => pure ⟨false, prev, inode⟩
  | token :: rest, none, inode => walk strict rest (some token) inode
  | token :: rest, some prev, _ => do
    let dir ← dirMakesure
    let inode ← dirLookup dir (some prev)
    if inode = 0 then
      if strict then pure ⟨true, some prev, inode⟩ else walk strict rest (some token) inode
    else do
      let i ← inodeAt inode
      if i.data.isdir then do
        let _ ← dirOpen inode
        walk strict rest (some token) inode
      else pure ⟨true, some prev, inode⟩

/-- `thread_current ()->curr_dir = dir`. -/
def setCurrDir (dir : ℕ) : FsM Unit := modify fun k => { k with currDir := dir }

/-! ### The system calls -/

/-- The end of `SYS_CREATE` and `SYS_REMOVE`: the walk, and `op` for the name that it leaves unless it failed. -/
def walkThen (file : CString) (op : Option CString → FsM Bool) : FsM Bool := do
  let w ← walk true file.tokens none 0
  if w.fail then pure false else op w.prev

/-- `SYS_CREATE`. -/
def sysCreate (file : CString) (initialSize : ℤ) : FsM Bool := do
  let prevdir ← dirMakesure
  let answer ←
    if file.strlen ≤ 14 ∧ 0 < file.strlen then
      if file.isAbsolute then do
        -- this is `prevdir`, which is freed
        let dir ← gets Fs.currDir
        dirClose dir
        walkThen file fun prev => filesysCreate prev initialSize
      else if file.hasSlash then walkThen file fun prev => filesysCreate prev initialSize
      else filesysCreate (some file) initialSize
    else pure false
  setCurrDir prevdir
  pure answer

/-- `SYS_REMOVE`. -/
def sysRemove (file : CString) : FsM Bool := do
  let prevdir ← dirMakesure
  if file = .root then pure false
  else do
    let answer ←
      if file.isAbsolute then do
        let _ ← dirOpenRoot
        walkThen file filesysRemove
      else if file.hasSlash then walkThen file filesysRemove
      else filesysRemove (some file)
    setCurrDir prevdir
    pure answer

/-- `SYS_OPEN`, up to `openedfile`. -/
def sysOpen (file : CString) : FsM ℕ := do
  let prevdir ← dirMakesure
  let openedfile ←
    if file = .root then do
      let inode ← inodeOpen 1
      fileOpen inode
    else if file.isAbsolute then do
      let _ ← dirOpenRoot
      let w ← walk false file.tokens none 0
      filesysOpen w.prev
    else if file.hasSlash then do
      let w ← walk false file.tokens none 0
      filesysOpen w.prev
    else filesysOpen (some file)
  setCurrDir prevdir
  pure openedfile

/-- `SYS_CHDIR`. -/
def sysChdir (dirname : CString) : FsM Bool := do
  let dir ← dirMakesure
  let inode ← dirLookup dir (some dirname)
  if inode = 0 then pure false
  else do
    let i ← inodeAt inode
    if i.data.isdir then do
      let _ ← dirOpen inode
      pure true
    else pure false

/-- `tryopen = inode_open (inode_sector); if (tryopen != NULL) answer = dir_add (dir_makesure (), name, inode_sector)`,
after `dir_create`. -/
def mkdirAdd (name : Option CString) (sector : ℕ) : FsM (ℕ × Bool) := do
  let _ ← dirCreate sector 16
  let tryopen ← inodeOpen sector
  if tryopen ≠ 0 then do
    let dir ← dirMakesure
    let answer ← dirAdd dir name sector
    pure (tryopen, answer)
  else pure (tryopen, false)

/-- `dir_open (inode) && dir_add (dir_makesure (), ".", inode_sector) && dir_add (dir_makesure (), "..", ..)`, with
`parent` for the sector of the last. -/
def mkdirDots (inode sector : ℕ) (parent : FsM ℕ) : FsM Bool := do
  let dir ← dirOpen inode
  if dir ≠ 0 then do
    let dir ← dirMakesure
    let answer ← dirAdd dir (some .dot) sector
    if answer then do
      let sector ← parent
      let dir ← dirMakesure
      dirAdd dir (some .dotDot) sector
    else pure false
  else pure false

/-- `SYS_MKDIR` with an absolute path. The flag `fail` is not looked at. -/
def mkdirAbsolute (dirname : CString) (sector : ℕ) : FsM Bool := do
  let _ ← dirOpenRoot
  let w ← walk false dirname.tokens none 0
  let (_, answer) ← mkdirAdd w.prev sector
  if answer then do
    let tempdir ← dirMakesure
    let inode ← inodeOpen sector
    let answer ← mkdirDots inode sector do
      let i ← inodeAt w.inode
      pure i.sector
    onlyIf answer do
      let _ ← dirReopen tempdir
      pure ()
    pure answer
  else pure false

/-- The end of `SYS_MKDIR` with a path that is not absolute: the whole path is the name that is added. -/
def mkdirHere (dirname : CString) (sector : ℕ) : FsM Bool := do
  let (tryopen, answer) ← mkdirAdd (some dirname) sector
  if answer then do
    let tempdir ← dirMakesure
    let answer ← mkdirDots tryopen sector do
      let d ← dirAt tempdir
      let i ← inodeAt d.inode
      pure i.sector
    onlyIf answer (setCurrDir tempdir)
    pure answer
  else pure false

/-- `SYS_MKDIR`. -/
def sysMkdir (dirname : CString) : FsM Bool :=
  if dirname.strlen = 0 then pure false
  else do
    let found ← freeMapAllocate persistFreeMap 1
    let sector := found.getD 0
    if dirname.isAbsolute then mkdirAbsolute dirname sector
    else if dirname.hasSlash then do
      let w ← walk false dirname.tokens none 0
      if w.fail then pure false else mkdirHere dirname sector
    else mkdirHere dirname sector

/-- The name in an entry, as `strlcpy` copies it to the user. -/
def DirEntry.name (e : DirEntry) : List UInt8 := ((List.range nameMax).map e.nameByte).takeWhile (· != 0)

/-- The loop of `dir_readdir` for the directory at `p`, whose inode is at `a`. The first argument bounds the number of
rounds. -/
def readdirLoop (p a : ℕ) : ℕ → FsM (Option (List UInt8))
  | 0 => pure none
  | n + 1 => do
    let d ← dirAt p
    let bytes ← inodeReadAt persistFreeMap a entrySize d.pos
    if bytes.length = entrySize then do
      let e : DirEntry := DirEntry.patch (fun _ => 0) bytes
      modify fun k => { k with dirs := k.dirs.set p fun d => { d with pos := wrap (d.pos + entrySize) } }
      if e.inUse ∧ e.hasName .dot = false ∧ e.hasName .dotDot = false then pure (some e.name) else readdirLoop p a n
    else pure none

/-- `dir_readdir`; the name that it stores, if it returns true. -/
def dirReaddir (p : ℕ) : FsM (Option (List UInt8)) := do
  let d ← dirAt p
  let length ← inodeLength d.inode
  readdirLoop p d.inode (length.toNat / entrySize + 1)

/-- `SYS_READDIR` for the `struct file` at `p`, which the descriptor stands for. -/
def sysReaddir (p : ℕ) : FsM (Option (List UInt8)) :=
  if p = 0 then pure none
  else do
    let f ← fileAt p
    let i ← inodeAt f.inode
    if i.data.isdir then do
      let prevdir ← dirMakesure
      let tempopen ← dirOpen f.inode
      let pos ← fileTell p
      modify fun k => { k with dirs := k.dirs.set tempopen fun d => { d with pos := pos } }
      let answer ← dirReaddir tempopen
      let d ← dirAt tempopen
      fileSeek p d.pos
      dirClose tempopen
      setCurrDir prevdir
      pure answer
    else pure none

end Pintos
