import Pintos.Threads.Palloc

/-!
# Blocks of memory

`threads/malloc.c`. Blocks of up to 1 kB are cut from arenas: a page with a header,
and blocks of one size after it. A descriptor for each size has the list of its free
blocks. A bigger block has pages of its own, with a header too. The arena of a block
is found by rounding its address down.

The headers and the lists are fields of the state here, and they are in memory as
well: a header takes the first 12 bytes of its page, and a block on a free list has
the links of the list in its first 8 bytes. What these bytes are does not matter, only
which they are, so they are left open (`headerByte`, `linkByte`).

The pages come from the page allocator, which others use as well. Calls do not overlap
in time, and the descriptors' locks are left out.
-/

namespace Pintos.Malloc

open Library Library.Prog
open Paging (pgsize)
open Palloc (Allocator Flags Group PoolsM pallocGetMultiple pallocFreeMultiple)

/-- `struct desc`, but for the list. -/
structure Desc where
  blockSize : ℕ
  blocksPerArena : ℕ
  deriving DecidableEq

/-- `struct arena`, but for `magic`. -/
structure Arena where
  desc : Option Desc
  freeCnt : ℕ

/-- `sizeof (struct arena)`. -/
def arenaSize : ℕ := 12

/-- The loop of `malloc_init`. -/
def mallocInitLoop : ℕ → ℕ → List Desc
  | 0, _ => []
  | fuel + 1, blockSize =>
    if blockSize < pgsize / 2 then
      { blockSize := blockSize, blocksPerArena := (pgsize - arenaSize) / blockSize } :: mallocInitLoop fuel (blockSize * 2)
    else []

/-- `descs` after `malloc_init`, which has room for 10 of them. -/
def descs : List Desc := mallocInitLoop 10 16

/-- A failed assertion. -/
inductive Fault where
  /-- `ASSERT (a != NULL)`. -/
  | null
  /-- `ASSERT (a->magic == ARENA_MAGIC)`. -/
  | magic
  /-- A block is not aligned for its arena. -/
  | aligned
  /-- A big block is not at the start of its arena. -/
  | bigBlock
  /-- `ASSERT (idx < a->desc->blocks_per_arena)`. -/
  | index
  /-- `ASSERT (a->free_cnt == d->blocks_per_arena)`. -/
  | freeCnt
  /-- An assertion of `lib/kernel/list.c`: the element is not in the list. -/
  | list
  /-- An assertion of `threads/palloc.c`. -/
  | palloc (e : Palloc.Fault)
  deriving DecidableEq

/-- The heap. -/
structure Heap where
  /-- The page allocator, with memory, and the pages that `malloc` and others have got from it. -/
  palloc : Allocator
  /-- The header at an address, if there is one. -/
  arena : ℕ → Option Arena
  /-- `free_list` of a descriptor. -/
  freeList : Desc → List ℕ
  /-- The pages that have a header. -/
  owned : List Group
  /-- The bytes of a header. -/
  headerByte : Arena → ℕ → UInt8
  /-- The bytes of the links of a list. -/
  linkByte : List ℕ → ℕ → UInt8

/-- Programs over the heap. -/
abbrev HeapM := Prog Heap Fault

namespace Heap

/-- Memory. -/
def mem (s : Heap) : ℕ → UInt8 := s.palloc.pools.mem

/-- Write memory. -/
def setMem (mem : ℕ → UInt8) (s : Heap) : Heap :=
  { s with palloc := { s.palloc with pools := { s.palloc.pools with mem := mem } } }

/-- Write a header. -/
def setArena (p : ℕ) (ar : Arena) (s : Heap) : Heap :=
  { s.setMem fun a => if p ≤ a ∧ a < p + arenaSize then s.headerByte ar a else s.mem a with
    arena := Function.update s.arena p (some ar) }

/-- Write a list, with its links in the first bytes of its elements. -/
def setFreeList (d : Desc) (l : List ℕ) (s : Heap) : Heap :=
  { s.setMem fun a => if ∃ b ∈ l, b ≤ a ∧ a < b + 8 then s.linkByte l a else s.mem a with
    freeList := Function.update s.freeList d l }

/-- `memset`. -/
def memset (dst : ℕ) (value : UInt8) (size : ℕ) (s : Heap) : Heap :=
  s.setMem fun a => if dst ≤ a ∧ a < dst + size then value else s.mem a

/-- `memcpy`. -/
def memcpy (dst src size : ℕ) (s : Heap) : Heap :=
  s.setMem fun a => if dst ≤ a ∧ a < dst + size then s.mem (src + (a - dst)) else s.mem a

theorem setArena_mem (s : Heap) (p : ℕ) (ar : Arena) (a : ℕ) :
    (s.setArena p ar).mem a = if p ≤ a ∧ a < p + arenaSize then s.headerByte ar a else s.mem a := rfl

theorem setFreeList_mem (s : Heap) (d : Desc) (l : List ℕ) (a : ℕ) :
    (s.setFreeList d l).mem a = if ∃ b ∈ l, b ≤ a ∧ a < b + 8 then s.linkByte l a else s.mem a := rfl

theorem memset_mem (s : Heap) (dst : ℕ) (value : UInt8) (size a : ℕ) :
    (s.memset dst value size).mem a = if dst ≤ a ∧ a < dst + size then value else s.mem a := rfl

theorem memcpy_mem (s : Heap) (dst src size a : ℕ) :
    (s.memcpy dst src size).mem a = if dst ≤ a ∧ a < dst + size then s.mem (src + (a - dst)) else s.mem a := rfl

@[simp] theorem setArena_arena (s : Heap) (p : ℕ) (ar : Arena) :
    (s.setArena p ar).arena = Function.update s.arena p (some ar) := rfl

@[simp] theorem setArena_freeList (s : Heap) (p : ℕ) (ar : Arena) : (s.setArena p ar).freeList = s.freeList := rfl

@[simp] theorem setFreeList_arena (s : Heap) (d : Desc) (l : List ℕ) : (s.setFreeList d l).arena = s.arena := rfl

@[simp] theorem setFreeList_freeList (s : Heap) (d : Desc) (l : List ℕ) :
    (s.setFreeList d l).freeList = Function.update s.freeList d l := rfl

/-- Pages get a header. -/
def addPages (p cnt : ℕ) (s : Heap) : Heap := { s with owned := ⟨false, p, cnt⟩ :: s.owned }

/-- Pages have no header any more. -/
def dropPages (p cnt : ℕ) (s : Heap) : Heap :=
  { s with owned := s.owned.erase ⟨false, p, cnt⟩, arena := Function.update s.arena p none }

end Heap

/-! ### Pages -/

/-- A call of the page allocator. -/
def callPalloc {α : Type} (m : PoolsM α) : HeapM α := fun s =>
  match m s.palloc.pools with
  | .ok (a, pools) => .ok (a, { s with palloc := { s.palloc with pools := pools } })
  | .error e => .error (.palloc e)

theorem wp_callPalloc {α : Type} {m : PoolsM α} {Q : α → Heap → Prop} {E : Fault → Prop} {s : Heap} :
    wp (callPalloc m) Q E s ↔
      wp m (fun a pools => Q a { s with palloc := { s.palloc with pools := pools } }) (fun e => E (.palloc e)) s.palloc.pools := by
  unfold wp callPalloc
  cases m s.palloc.pools <;> rfl

/-- `palloc_get_multiple`. -/
def pallocGet (flags : Flags) (cnt : ℕ) : HeapM ℕ := do
  let p ← callPalloc (pallocGetMultiple flags cnt)
  onlyIf (p ≠ 0) (modify fun s => { s with palloc := { s.palloc with live := ⟨flags.user, p, cnt⟩ :: s.palloc.live } })
  pure p

/-- `palloc_free_multiple`. -/
def pallocFree (g : Group) : HeapM Unit := do
  callPalloc (pallocFreeMultiple g.addr g.cnt)
  modify fun s => { s with palloc := { s.palloc with live := s.palloc.live.erase g } }

/-- No flags. -/
def noFlags : Flags := ⟨false, false, false⟩

/-! ### Arenas -/

/-- `arena_to_block`, without its assertions. -/
def block (p : ℕ) (d : Desc) (idx : ℕ) : ℕ := p + arenaSize + idx * d.blockSize

/-- `arena_to_block`. -/
def arenaToBlock (p idx : ℕ) : HeapM ℕ := do
  let s ← gets id
  if p = 0 then stop .null
  else
    match s.arena p with
    | some ⟨some d, _⟩ => if idx < d.blocksPerArena then pure (block p d idx) else stop .index
    | _ => stop .magic

/-- `block_to_arena`. -/
def blockToArena (b : ℕ) : HeapM (ℕ × Arena) := do
  let s ← gets id
  let p := b / pgsize * pgsize
  if p = 0 then stop .null
  else
    match s.arena p with
    | none => stop .magic
    | some ⟨some d, n⟩ =>
      if (b % pgsize + 2 ^ 32 - arenaSize) % 2 ^ 32 % d.blockSize = 0 then pure (p, ⟨some d, n⟩) else stop .aligned
    | some ⟨none, n⟩ => if b % pgsize = arenaSize then pure (p, ⟨none, n⟩) else stop .bigBlock

/-- The blocks of a new arena go to the list. -/
def addBlocks (d : Desc) (p : ℕ) : ℕ → HeapM Unit
  | 0 => pure ()
  | n + 1 => do
    addBlocks d p n
    let b ← arenaToBlock p n
    modify fun s => s.setFreeList d (s.freeList d ++ [b])

/-- A new arena for a descriptor. -/
def newArena (d : Desc) (p : ℕ) : HeapM Unit := do
  modify fun s => (s.addPages p 1).setArena p ⟨some d, d.blocksPerArena⟩
  addBlocks d p d.blocksPerArena

/-- The blocks of an arena go from the list. -/
def removeBlocks (d : Desc) (p : ℕ) : ℕ → HeapM Unit
  | 0 => pure ()
  | n + 1 => do
    removeBlocks d p n
    let b ← arenaToBlock p n
    let s ← gets id
    if b ∈ s.freeList d then modify fun s => s.setFreeList d ((s.freeList d).erase b) else stop .list

/-! ### The functions -/

/-- The first free block of a descriptor. -/
def popBlock (d : Desc) : HeapM ℕ := do
  let s ← gets id
  match s.freeList d with
  | [] => stop .list
  | b :: rest => do
    modify (Heap.setFreeList d rest)
    let (p, ar) ← blockToArena b
    modify (Heap.setArena p { ar with freeCnt := ar.freeCnt - 1 })
    pure b

/-- `page_cnt` for a big block. -/
def bigPages (size : ℕ) : ℕ := (size + arenaSize + (pgsize - 1)) % 2 ^ 32 / pgsize

/-- `malloc`. -/
def malloc (size : ℕ) : HeapM ℕ :=
  if size = 0 then pure 0
  else
    match descs.find? fun d => size ≤ d.blockSize with
    | none => do
      let p ← pallocGet noFlags (bigPages size)
      if p = 0 then pure 0
      else do
        modify fun s => (s.addPages p (bigPages size)).setArena p ⟨none, bigPages size⟩
        pure (p + arenaSize)
    | some d => do
      let s ← gets id
      if s.freeList d = [] then do
        let p ← pallocGet noFlags 1
        if p = 0 then pure 0
        else do
          newArena d p
          popBlock d
      else popBlock d

/-- `calloc`. -/
def calloc (a b : ℕ) : HeapM ℕ :=
  let size := a * b % 2 ^ 32
  if size < a ∨ size < b then pure 0
  else do
    let p ← malloc size
    onlyIf (p ≠ 0) (modify (Heap.memset p 0 size))
    pure p

/-- The end of `free`: an arena without a block in use is given back. -/
def giveBack (d : Desc) (p freeCnt : ℕ) : HeapM Unit :=
  if freeCnt < d.blocksPerArena then pure ()
  else if freeCnt ≠ d.blocksPerArena then stop .freeCnt
  else do
    removeBlocks d p d.blocksPerArena
    modify (Heap.dropPages p 1)
    pallocFree ⟨false, p, 1⟩

/-- `free`. -/
def free (b : ℕ) : HeapM Unit :=
  if b = 0 then pure ()
  else do
    let (p, ar) ← blockToArena b
    match ar.desc with
    | none => do
      modify (Heap.dropPages p ar.freeCnt)
      pallocFree ⟨false, p, ar.freeCnt⟩
    | some d => do
      modify (Heap.memset b 0xcc d.blockSize)
      modify fun s => s.setFreeList d (b :: s.freeList d)
      modify (Heap.setArena p { ar with freeCnt := ar.freeCnt + 1 })
      giveBack d p (ar.freeCnt + 1)

/-- `block_size`. -/
def blockSize (b : ℕ) : HeapM ℕ := do
  let (_, ar) ← blockToArena b
  match ar.desc with
  | some d => pure d.blockSize
  | none => pure (pgsize * ar.freeCnt - b % pgsize)

/-- The move in `realloc`. -/
def moveBlock (old new newSize : ℕ) : HeapM Unit := do
  let oldSize ← blockSize old
  modify (Heap.memcpy new old (min newSize oldSize))
  free old

/-- `realloc`. -/
def realloc (old newSize : ℕ) : HeapM ℕ :=
  if newSize = 0 then do
    free old
    pure 0
  else do
    let new ← malloc newSize
    onlyIf (old ≠ 0 ∧ new ≠ 0) (moveBlock old new newSize)
    pure new

end Pintos.Malloc
