import Mathlib.Logic.Function.Basic
import Pintos.Library.Prog
import Pintos.Library.Words

/-!
# Page directories

`userprog/pagedir.c` with `threads/pte.h` and `threads/vaddr.h`. A page directory is a
page of 1024 words, one for each 4 MB of virtual memory; a word that is not 0 has the
address of a page table, a page of 1024 words again, one for each page. Page tables
are made when the first page of their 4 MB is set.

A word has an address in its upper 20 bits and flags in the others. Physical memory
is mapped one to one from `PHYS_BASE` on, so that a kernel address and the physical
address in a word differ by `PHYS_BASE`.

The translation lookaside buffer is no part of the state, so that
`invalidate_pagedir` does nothing here. What `palloc_get_page` returns is an argument
of the functions that call it.
-/

namespace Pintos.Pagedir

open Library Library.Prog

/-- `uint32_t`, and an address. -/
abbrev Word := BitVec 32

/-! ### Addresses -/

/-- `PGMASK`. -/
def pgmask : Word := BitVec.ofNat 32 (2 ^ 12 - 1)

/-- `PTMASK`. -/
def ptmask : Word := BitVec.ofNat 32 ((2 ^ 10 - 1) <<< 12)

/-- `PHYS_BASE`. -/
def physBase : Word := 0xc0000000#32

/-- `pg_ofs`. -/
def pgOfs (va : Word) : Word := va &&& pgmask

/-- `pt_no`. -/
def ptNo (va : Word) : ℕ := ((va &&& ptmask) >>> 12).toNat

/-- `pd_no`. -/
def pdNo (va : Word) : ℕ := (va >>> 22).toNat

/-- `pg_no`. -/
def pgNo (va : Word) : ℕ := (va >>> 12).toNat

/-- `is_user_vaddr`. -/
def isUserVaddr (va : Word) : Prop := va.toNat < physBase.toNat

instance (va : Word) : Decidable (isUserVaddr va) := inferInstanceAs (Decidable (_ < _))

/-- A failed assertion. -/
inductive Fault where
  /-- `ASSERT (pd != NULL)`. -/
  | nullPd
  /-- `ASSERT (!create || is_user_vaddr (vaddr))`, or `ASSERT (is_user_vaddr (...))`. -/
  | notUser
  /-- `ASSERT (is_kernel_vaddr (vaddr))` in `vtop`. -/
  | notKernel
  /-- `ASSERT ((void *) paddr < PHYS_BASE)` in `ptov`. -/
  | notPhysical
  /-- `ASSERT (pg_ofs (...) == 0)`. -/
  | offset
  /-- `ASSERT (pde & PTE_P)`. -/
  | notPresent
  /-- `ASSERT ((*pte & PTE_P) == 0)`. -/
  | mapped
  /-- `ASSERT (vtop (kpage) >> PTSHIFT < ram_pages)`. -/
  | ram
  /-- `ASSERT (pd != base_page_dir)`. -/
  | basePd
  deriving DecidableEq

/-- The pages that hold page directories and page tables. -/
structure Tables where
  /-- Word `i` of the page at an address. -/
  word : Word → ℕ → Word
  /-- `base_page_dir`. -/
  basePageDir : Word
  /-- `ram_pages`. -/
  ramPages : ℕ
  /-- The pages that `palloc_get_page` has returned. -/
  pages : List Word

/-- Programs over the tables. -/
abbrev TablesM := Prog Tables Fault

/-- Write a word. -/
def Tables.setWord (page : Word) (i : ℕ) (w : Word) (s : Tables) : Tables :=
  { s with word := Function.update s.word page (Function.update (s.word page) i w) }

/-- Write a page that has been allocated. -/
def Tables.newPage (page : Word) (content : ℕ → Word) (s : Tables) : Tables :=
  { s with word := Function.update s.word page content, pages := page :: s.pages }

/-- `ptov`. -/
def ptov (paddr : Word) : TablesM Word :=
  if paddr.toNat < physBase.toNat then pure (paddr + physBase) else stop .notPhysical

/-- `vtop`. -/
def vtop (vaddr : Word) : TablesM Word := if isUserVaddr vaddr then stop .notKernel else pure (vaddr - physBase)

/-! ### Words -/

/-- `PTE_ADDR`. -/
def pteAddr : Word := ~~~ pgmask

/-- `PTE_P`. -/
def pteP : Word := 0x1#32

/-- `PTE_W`. -/
def pteW : Word := 0x2#32

/-- `PTE_U`. -/
def pteU : Word := 0x4#32

/-- `PTE_A`. -/
def pteA : Word := 0x20#32

/-- `PTE_D`. -/
def pteD : Word := 0x40#32

/-- `pde_create`. -/
def pdeCreate (pt : Word) : TablesM Word := do
  if pgOfs pt = 0 then do
    let paddr ← vtop pt
    pure (paddr ||| pteU ||| pteP ||| pteW)
  else stop .offset

/-- `pde_get_pt`. -/
def pdeGetPt (pde : Word) : TablesM Word := if pde &&& pteP = 0 then stop .notPresent else ptov (pde &&& pteAddr)

/-- `pte_create_kernel`. -/
def pteCreateKernel (page : Word) (writable : Bool) : TablesM Word := do
  if pgOfs page = 0 then do
    let paddr ← vtop page
    pure (paddr ||| pteP ||| if writable then pteW else 0)
  else stop .offset

/-- `pte_create_user`. -/
def pteCreateUser (page : Word) (writable : Bool) : TablesM Word := do
  let pte ← pteCreateKernel page writable
  pure (pte ||| pteU)

/-- `pte_get_page`. -/
def pteGetPage (pte : Word) : TablesM Word := ptov (pte &&& pteAddr)

/-! ### Page directories -/

/-- `pagedir_create`. -/
def pagedirCreate (get : Option Word) : TablesM Word :=
  match get with
  | none => pure 0
  | some pd => do
    modify fun s => s.newPage pd (s.word s.basePageDir)
    pure pd

/-- The end of `lookup_page`: the page table and the index of the word in it. -/
def entryOf (pd vaddr : Word) : TablesM (Option (Word × ℕ)) := do
  let s ← gets id
  let pt ← pdeGetPt (s.word pd (pdNo vaddr))
  pure (some (pt, ptNo vaddr))

/-- A new page table. -/
def addTable (pd vaddr pt : Word) : TablesM Unit := do
  modify (Tables.newPage pt fun _ => 0)
  let pde ← pdeCreate pt
  modify (Tables.setWord pd (pdNo vaddr) pde)

/-- `lookup_page`: where the word for an address is. -/
def lookupPage (pd vaddr : Word) (create : Bool) (get : Option Word) : TablesM (Option (Word × ℕ)) := do
  let s ← gets id
  if pd = 0 then stop .nullPd
  else if create = true ∧ ¬ isUserVaddr vaddr then stop .notUser
  else if s.word pd (pdNo vaddr) ≠ 0 then entryOf pd vaddr
  else if create then
    match get with
    | none => pure none
    | some pt => do
      addTable pd vaddr pt
      entryOf pd vaddr
  else pure none

/-- The word for an address, if there is one. -/
def lookupWord (pd vaddr : Word) : TablesM (Option (Word × ℕ × Word)) := do
  let found ← lookupPage pd vaddr false none
  let s ← gets id
  pure (found.map fun pte => (pte.1, pte.2, s.word pte.1 pte.2))

/-- The end of `pagedir_set_page`. -/
def installPage (kpage : Word) (writable : Bool) : Option (Word × ℕ) → TablesM Bool
  | none => pure false
  | some (pt, i) => do
    let s ← gets id
    if s.word pt i &&& pteP ≠ 0 then stop .mapped
    else do
      let pte ← pteCreateUser kpage writable
      modify (Tables.setWord pt i pte)
      pure true

/-- `pagedir_set_page`. -/
def pagedirSetPage (pd upage kpage : Word) (writable : Bool) (get : Option Word) : TablesM Bool := do
  let s ← gets id
  if pgOfs upage ≠ 0 ∨ pgOfs kpage ≠ 0 then stop .offset
  else if ¬ isUserVaddr upage then stop .notUser
  else do
    let paddr ← vtop kpage
    if s.ramPages ≤ (paddr >>> 12).toNat then stop .ram
    else if pd = s.basePageDir then stop .basePd
    else do
      let pte ← lookupPage pd upage true get
      installPage kpage writable pte

/-- `pagedir_get_page`. -/
def pagedirGetPage (pd uaddr : Word) : TablesM Word :=
  if ¬ isUserVaddr uaddr then stop .notUser
  else do
    let found ← lookupWord pd uaddr
    match found with
    | none => pure 0
    | some (_, _, pte) =>
      if pte &&& pteP ≠ 0 then do
        let page ← pteGetPage pte
        pure (page + pgOfs uaddr)
      else pure 0

/-- `pagedir_clear_page`. -/
def pagedirClearPage (pd upage : Word) : TablesM Unit :=
  if pgOfs upage ≠ 0 then stop .offset
  else if ¬ isUserVaddr upage then stop .notUser
  else do
    let found ← lookupWord pd upage
    match found with
    | none => pure ()
    | some (pt, i, pte) => onlyIf (pte &&& pteP ≠ 0) (modify (Tables.setWord pt i (pte &&& ~~~ pteP)))

/-! ### Flags -/

/-- Read a flag of the word for a page. -/
def isFlag (flag pd vpage : Word) : TablesM Bool := do
  let found ← lookupWord pd vpage
  match found with
  | none => pure false
  | some (_, _, pte) => pure (decide (pte &&& flag ≠ 0))

/-- Set or clear a flag in the word for a page. -/
def setFlag (flag pd vpage : Word) (b : Bool) : TablesM Unit := do
  let found ← lookupWord pd vpage
  match found with
  | none => pure ()
  | some (pt, i, pte) => modify (Tables.setWord pt i (if b then pte ||| flag else pte &&& ~~~ flag))

/-- `pagedir_is_dirty`. -/
def pagedirIsDirty : Word → Word → TablesM Bool := isFlag pteD

/-- `pagedir_set_dirty`. -/
def pagedirSetDirty : Word → Word → Bool → TablesM Unit := setFlag pteD

/-- `pagedir_is_accessed`. -/
def pagedirIsAccessed : Word → Word → TablesM Bool := isFlag pteA

/-- `pagedir_set_accessed`. -/
def pagedirSetAccessed : Word → Word → Bool → TablesM Unit := setFlag pteA

/-- `pagedir_is_writable`. -/
def pagedirIsWritable : Word → Word → TablesM Bool := isFlag pteW

/-- `pagedir_set_writable`. -/
def pagedirSetWritable : Word → Word → Bool → TablesM Unit := setFlag pteW

end Pintos.Pagedir
