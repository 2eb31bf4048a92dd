import Pintos.Filesys.Contents
import Pintos.Filesys.Format
import Pintos.Lib.Hash
import Pintos.Userprog.Descriptors

/-!
# Memory mapped files

`SYS_MMAP` (`userprog/syscall.c`) and `allocate_page` (`vm/page.c`), over the file system
and the supplementary page table of the calling process, which is a hash table of
entries.

`SYS_MMAP` looks up the first page of the range only. For the others it relies on
`hash_insert`, which leaves an entry that is there in its place and of which
`allocate_page` drops the answer; a page with an entry so keeps it, and the mapping goes
without that page. Nor does it compare the end of the range with `PHYS_BASE`, and what
it stores in `eax` when `allocate_page` fails is overwritten after the loop.

An entry is a mapping's, or a page's of the executable or the stack; the fields that
only paging reads are left out, and so is `spte->dirty`, which nothing reads.
-/

namespace Pintos.Mmap

open Library Library.Prog

/-- `PGSIZE`. -/
abbrev pgsize : ℕ := 4096

/-- `PHYS_BASE`. -/
abbrev physBase : ℕ := 0xc0000000

/-- `struct sup_page_table_entry`. -/
structure Spte where
  /-- `user_vaddr`. -/
  userVaddr : ℕ
  /-- `mapid`. -/
  mapid : ℤ
  /-- `mmapfd`. -/
  mmapfd : ℤ
  /-- `file`, which is not set for anonymous pages (`filerelated` is false). -/
  file : Option ℕ
  /-- `ofs`. -/
  ofs : ℤ
  /-- `read_bytes`. -/
  readBytes : ℕ
  /-- `zero_bytes`. -/
  zeroBytes : ℕ
  deriving DecidableEq

/-- The calling process, and the file system. -/
structure Task where
  fs : Fs
  /-- `fdtable[FILES_MAX]`. -/
  fdtable : ℕ → ℕ
  /-- `nextfd`, the field right after the table. -/
  nextfd : ℕ
  /-- `suppagetable != NULL`. -/
  suppagetable : Bool
  /-- `hash`; its elements are addresses of entries. -/
  hash : Hash ℕ
  /-- The entries. -/
  sptes : Heap Spte
  /-- `next_mapid`. -/
  nextMapid : ℕ
  /-- `mmaptable[128]`. -/
  mmaptable : ℕ → ℕ
  /-- `nextmmapfd`, the field right after the table. -/
  nextmmapfd : ℕ
  /-- Memory as the kernel reads it at the process's addresses, which brings pages in; `none` where that
  ends the process. -/
  mem : ℕ → Option UInt8
  /-- `PTE_D` of the page at an address. -/
  dirty : ℕ → Bool

/-- Programs over the process and the file system. -/
abbrev TaskM := Prog Task Halt

/-- An operation of the file system. -/
def inFs {α : Type} (m : FsM α) : TaskM α := within Task.fs (fun k t => { t with fs := k }) m

/-- The four bytes of an address. -/
def addrBytes (a : ℕ) : List UInt8 := (List.range 4).map fun j => UInt8.ofNat (a / 256 ^ j)

/-- `hash_spte` and `compare_spte`. -/
def hasher : Hasher ℕ := ⟨fun a => hashBytes (addrBytes a), fun a b => a < b⟩

/-- `user_vaddr` of the entry at an address. -/
def keyOf (H : Heap Spte) (a : ℕ) : ℕ := (H.cell a).elim 0 Spte.userVaddr

/-- `hash_find` of the entry for the page at `va`. -/
def Task.find (t : Task) (va : ℕ) : Option ℕ := t.hash.hashFind hasher (keyOf t.sptes) va

/-- Whether the kernel pool has room, in the turns of the loop. -/
structure Memory where
  /-- For an entry. -/
  entry : ℕ → Bool
  /-- For another array of buckets. -/
  array : ℕ → Bool
  /-- For `suppagetable`. -/
  table : ℕ → Bool

/-- `page_init`. -/
def pageInit (table : Bool) : TaskM Unit :=
  modify fun t => { t with suppagetable := table, hash := Hash.init, nextMapid := 3, nextmmapfd := 3 }

/-- `allocate_page`, in turn `j`; `0` is the null pointer. -/
def allocatePage (m : Memory) (j : ℕ) (file : Option ℕ) (ofs : ℤ) (upage readBytes zeroBytes : ℕ) : TaskM ℕ := do
  let given ← gets Task.suppagetable
  onlyIf (given = false) (pageInit (m.table j))
  if m.entry j then do
    let myspte ← gets fun t => t.sptes.next
    modify fun t => { t with sptes := t.sptes.alloc ⟨upage, 0, 0, file, ofs, readBytes, zeroBytes⟩ }
    modify fun t => { t with hash := (t.hash.hashInsert hasher (keyOf t.sptes) (m.array j) myspte).2 }
    pure myspte
  else pure 0

/-- The loop `while (remain > 0)` of `SYS_MMAP`, of at most `n` turns. -/
def mapPages (m : Memory) (openedfile addr : ℕ) (fd : ℤ) : ℕ → ℤ → ℕ → TaskM Unit
  | 0, _, _ => pure ()
  | n + 1, remain, already =>
    if 0 < remain then do
      let readBytes := if pgsize < remain then pgsize else remain.toNat
      let new ← allocatePage m (already / pgsize) (some openedfile) already ((addr + already) % 2 ^ 32) readBytes
        (pgsize - readBytes)
      if new = 0 then inFs (fileClose openedfile)
      else do
        modify fun t => { t with sptes := t.sptes.set new fun e => { e with mapid := t.nextMapid, mmapfd := fd } }
        mapPages m openedfile addr fd n (remain - readBytes) (already + pgsize)
    else pure ()

/-- `mmaptable[next_mapid] = openedfile`. -/
def storeMap (openedfile : ℕ) : TaskM Unit := do
  let mapid ← gets Task.nextMapid
  if mapid < 128 then modify fun t => { t with mmaptable := Function.update t.mmaptable mapid openedfile }
  else if mapid = 128 then modify fun t => { t with nextmmapfd := openedfile }
  else stop .badPointer

/-- What follows the loop of `SYS_MMAP`. -/
def finishMap (openedfile : ℕ) : TaskM ℤ := do
  let mapid ← gets Task.nextMapid
  storeMap openedfile
  modify fun t => { t with nextMapid := t.nextMapid + 1 }
  return mapid

/-- `fdtable[fd]`, for `2 ≤ fd ≤ FILES_MAX`. -/
def Task.fdAt (t : Task) (fd : ℤ) : ℕ := if fd < filesMax then t.fdtable fd.toNat else t.nextfd

/-- An operation on the file `fdtable[fd]`; `fdtable[FILES_MAX]` is a number and no file. -/
def onFd {α : Type} (fd : ℤ) (m : ℕ → FsM α) : TaskM α := do
  let p ← gets fun t => t.fdAt fd
  if fd < filesMax then inFs (m p) else stop .badPointer

/-- `SYS_MMAP`; the result is `eax`. -/
def sysMmap (m : Memory) (fd : ℤ) (addr : ℕ) : TaskM ℤ := do
  let p ← gets fun t => t.fdAt fd
  if fd < 2 ∨ fd > filesMax ∨ p = 0 then return -1
  if addr > physBase ∨ addr = 0 then return -1
  if addr % pgsize ≠ 0 then return -1
  let length ← onFd fd fileLength
  if length = 0 then return -1
  let given ← gets Task.suppagetable
  let he ← gets fun t => t.find addr
  if given = true ∧ he.isSome then return -1
  let openedfile ← onFd fd fileReopen
  modify fun t => { t with nextmmapfd := t.nextmmapfd + 1 }
  let remain ← inFs (fileLength openedfile)
  mapPages m openedfile addr fd remain.toNat remain 0
  finishMap openedfile

/-! ### The supplementary page table -/

/-- The supplementary page table: the entries that are in the hash table. -/
def Task.table (t : Task) : List Spte := t.hash.elems.filterMap t.sptes.cell

/-- **Well-formed tables**: each element of the hash table is an entry, in the bucket of its page, and no page has
two. -/
structure Task.Wf (t : Task) : Prop where
  hash : t.hash.Wf hasher (keyOf t.sptes)
  live : ∀ a ∈ t.hash.elems, ∃ e, t.sptes.cell a = some e
  /-- `page_init` has been called, for the first page of the process. -/
  given : t.suppagetable = true

/-- A new entry, in the hash table unless its page has one. -/
def Task.insert (t : Task) (room : Bool) (e : Spte) : Task :=
  { t with
    sptes := t.sptes.alloc e
    hash := (t.hash.hashInsert hasher (keyOf (t.sptes.alloc e)) room t.sptes.next).2 }

theorem hasher_lawful : Hash.Lawful hasher := by
  constructor
  · intro a
    simp [hasher]
  · intro a b hab hba
    simp only [hasher, decide_eq_false_iff_not] at hab hba
    omega

section Table

variable {t t' : Task} {e : Spte} {H : Heap Spte} {a : ℕ}

theorem keyOf_of_cell (h : H.cell a = some e) : keyOf H a = e.userVaddr := by rw [keyOf, h]; rfl

theorem keyOf_alloc_of_ne (e : Spte) (ha : a ≠ H.next) : keyOf (H.alloc e) a = keyOf H a := by
  rw [keyOf, H.cell_alloc_of_ne e ha, keyOf]

theorem keyOf_alloc_self (e : Spte) : keyOf (H.alloc e) H.next = e.userVaddr := keyOf_of_cell (H.cell_alloc_self e)

theorem keyOf_alloc_congr {e e' : Spte} (h : e.userVaddr = e'.userVaddr) : keyOf (H.alloc e) = keyOf (H.alloc e') := by
  funext a
  by_cases ha : a = H.next
  · subst ha
    rw [keyOf_alloc_self, keyOf_alloc_self, h]
  · rw [keyOf_alloc_of_ne e ha, keyOf_alloc_of_ne e' ha]

theorem Task.mem_table : e ∈ t.table ↔ ∃ a ∈ t.hash.elems, t.sptes.cell a = some e := by
  rw [Task.table, List.mem_filterMap]

theorem Task.Wf.ne_next (hw : t.Wf) (ha : a ∈ t.hash.elems) : a ≠ t.sptes.next := by
  obtain ⟨e, he⟩ := hw.live a ha
  exact t.sptes.ne_next he

/-- The pages of the table are those of the elements. -/
theorem Task.Wf.map_userVaddr (hw : t.Wf) : t.table.map Spte.userVaddr = t.hash.elems.map (keyOf t.sptes) := by
  have hlive := hw.live
  rw [Task.table]
  generalize t.hash.elems = l at hlive ⊢
  induction l with
  | nil => rfl
  | cons a l ih =>
    obtain ⟨e, he⟩ := hlive a List.mem_cons_self
    rw [List.filterMap_cons_some he, List.map_cons, List.map_cons, keyOf_of_cell he,
      ih fun b hb => hlive b (List.mem_cons_of_mem a hb)]

theorem Task.Wf.nodup (hw : t.Wf) : (t.table.map Spte.userVaddr).Nodup := by
  rw [hw.map_userVaddr]
  exact hw.hash.nodup

/-- **`hash_find`** for a page. -/
theorem Task.Wf.find_eq_none (hw : t.Wf) {va : ℕ} : t.find va = none ↔ ∀ e ∈ t.table, e.userVaddr ≠ va := by
  rw [Task.find, hw.hash.hashFind_eq_none hasher_lawful]
  constructor
  · intro h e he
    obtain ⟨a, ha, hcell⟩ := Task.mem_table.1 he
    rw [← keyOf_of_cell hcell]
    exact h a ha
  · intro h a ha
    obtain ⟨e, hcell⟩ := hw.live a ha
    rw [keyOf_of_cell hcell]
    exact h e (Task.mem_table.2 ⟨a, ha, hcell⟩)

/-- A new entry that is not yet in the hash table does not matter to it. -/
theorem Task.Wf.hash_alloc (hw : t.Wf) (e : Spte) : t.hash.Wf hasher (keyOf (t.sptes.alloc e)) :=
  hw.hash.congr fun _ ha => keyOf_alloc_of_ne e (hw.ne_next ha)

/-- **An entry for a page that has none.** -/
theorem Task.Wf.insert (hw : t.Wf) (room : Bool) (hnew : ∀ x ∈ t.table, x.userVaddr ≠ e.userVaddr) :
    (t.insert room e).Wf ∧ (t.insert room e).table.Perm (e :: t.table) := by
  have hkey : ∀ a ∈ t.hash.elems, keyOf (t.sptes.alloc e) a ≠ keyOf (t.sptes.alloc e) t.sptes.next := by
    intro a ha
    obtain ⟨x, hx⟩ := hw.live a ha
    rw [keyOf_alloc_of_ne e (hw.ne_next ha), keyOf_alloc_self, keyOf_of_cell hx]
    exact hnew x (Task.mem_table.2 ⟨a, ha, hx⟩)
  obtain ⟨hhash, hperm⟩ := (hw.hash_alloc e).hashInsert_new hasher_lawful room hkey
  refine ⟨⟨hhash, fun a ha => ?_, hw.given⟩, ?_⟩
  · obtain rfl | ha := List.mem_cons.1 (hperm.mem_iff.1 ha)
    · exact ⟨e, t.sptes.cell_alloc_self e⟩
    · obtain ⟨x, hx⟩ := hw.live a ha
      exact ⟨x, t.sptes.cell_alloc e hx⟩
  · refine (hperm.filterMap (t.sptes.alloc e).cell).trans ?_
    have hold : t.hash.elems.filterMap (t.sptes.alloc e).cell = t.table :=
      List.filterMap_congr fun a ha => t.sptes.cell_alloc_of_ne e (hw.ne_next ha)
    rw [List.filterMap_cons_some (t.sptes.cell_alloc_self e), hold]

end Table

/-! ### The loop -/

/-- How many pages `length` bytes take. -/
def pageCount (length : ℕ) : ℕ := (length + (pgsize - 1)) / pgsize

/-- The entry of page `k` of a mapping. -/
def mapEntry (mapid : ℕ) (fd : ℤ) (file addr length k : ℕ) : Spte where
  userVaddr := addr + pgsize * k
  mapid := mapid
  mmapfd := fd
  file := some file
  ofs := (pgsize * k : ℕ)
  readBytes := min pgsize (length - pgsize * k)
  zeroBytes := pgsize - min pgsize (length - pgsize * k)

theorem lt_pageCount {length k : ℕ} : k < pageCount length ↔ pgsize * k < length := by
  unfold pageCount pgsize
  omega

section Loop

variable {t t' : Task} {m : Memory} {file addr length : ℕ} {fd : ℤ}

/-- **`allocate_page`** while there is memory. -/
theorem allocatePage_spec (hw : t.Wf) {j : ℕ} (hroom : m.entry j = true) (e : Spte) (hm : e.mapid = 0) (hf : e.mmapfd = 0)
    {E : Halt → Prop} {Q : ℕ → Task → Prop} (hQ : Q t.sptes.next (t.insert (m.array j) e)) :
    wp (allocatePage m j e.file e.ofs e.userVaddr e.readBytes e.zeroBytes) Q E t := by
  have he : (⟨e.userVaddr, 0, 0, e.file, e.ofs, e.readBytes, e.zeroBytes⟩ : Spte) = e := by
    cases e
    simp only at hm hf
    rw [hm, hf]
  rw [allocatePage, wp_bind, wp_gets, wp_bind, onlyIf, if_neg (by simp [hw.given]), wp_pure, if_pos hroom, wp_bind, wp_gets,
    wp_bind, wp_modify, wp_bind, wp_modify, wp_pure, he]
  exact hQ

theorem allocatePage_fails (hw : t.Wf) {j : ℕ} (hroom : m.entry j = false) {o : Option ℕ} {ofs : ℤ} {upage rb zb : ℕ}
    {E : Halt → Prop} {Q : ℕ → Task → Prop} (hQ : Q 0 t) : wp (allocatePage m j o ofs upage rb zb) Q E t := by
  rw [allocatePage, wp_bind, wp_gets, wp_bind, onlyIf, if_neg (by simp [hw.given]), wp_pure, if_neg (by simp [hroom]), wp_pure]
  exact hQ

/-- What follows `allocate_page` in a turn of the loop fills in the entry. -/
theorem Task.insert_set (room : Bool) {e e' : Spte} {f : Spte → Spte} (hf : f e = e') (hva : e.userVaddr = e'.userVaddr) :
    { t.insert room e with sptes := (t.insert room e).sptes.set t.sptes.next f } = t.insert room e' := by
  rw [Task.insert, Task.insert, t.sptes.set_alloc, hf, keyOf_alloc_congr hva]

/-- **What the loop does** on a range of pages that have no entries: it adds them one after the other, up to
the first for which there is no memory. -/
theorem mapPages_spec {n j : ℕ} (hw : t.Wf) (hn : length - pgsize * j ≤ n)
    (hbelow : ∀ k < pageCount length, addr + pgsize * k < physBase)
    (hfree : ∀ k, j ≤ k → k < pageCount length → ∀ x ∈ t.table, x.userVaddr ≠ addr + pgsize * k) :
    wp (mapPages m file addr fd n ((length - pgsize * j : ℕ) : ℤ) (pgsize * j))
      (fun _ t' => t'.Wf ∧ t'.nextMapid = t.nextMapid ∧ ∃ c, (∀ k, j ≤ k → k < j + c → m.entry k = true) ∧
        (j + c < pageCount length → m.entry (j + c) = false) ∧ j + c ≤ max j (pageCount length) ∧
        t'.table.Perm (((List.range' j c).map (mapEntry t.nextMapid fd file addr length)).reverse ++ t.table))
      (fun _ => ∃ k < pageCount length, m.entry k = false) t := by
  induction n generalizing t j with
  | zero =>
    have hlast := lt_pageCount.not.2 (by omega : ¬ pgsize * j < length)
    exact ⟨hw, rfl, 0, by omega, by omega, by omega, by simp⟩
  | succ n ih =>
    rw [mapPages]
    by_cases hlt : pgsize * j < length
    swap
    · have hlast := lt_pageCount.not.2 hlt
      rw [if_neg (by omega), wp_pure]
      exact ⟨hw, rfl, 0, by omega, by omega, by omega, by simp⟩
    have hj := lt_pageCount.2 hlt
    have hread : (if (pgsize : ℤ) < ((length - pgsize * j : ℕ) : ℤ) then pgsize else ((length - pgsize * j : ℕ) : ℤ).toNat) =
        min pgsize (length - pgsize * j) := by
      split_ifs <;> omega
    have hturn : pgsize * j / pgsize = j := Nat.mul_div_cancel_left j (by decide)
    have hva : (addr + pgsize * j) % 2 ^ 32 = addr + pgsize * j :=
      Nat.mod_eq_of_lt ((hbelow j hj).trans (by decide))
    rw [if_pos (by omega)]
    simp only [hread, hturn, hva]
    rw [wp_bind]
    cases hroom : m.entry j with
    | false =>
      -- the loop is left
      refine allocatePage_fails hw hroom ?_
      rw [if_pos rfl, inFs, wp_within]
      refine wp_mono wp_true (fun _ k _ => ?_) fun _ _ => ⟨j, hj, hroom⟩
      exact ⟨⟨hw.hash, hw.live, hw.given⟩, rfl, 0, by omega, fun _ => hroom, by omega, by simp [Task.table]⟩
    | true =>
      refine allocatePage_spec hw hroom { mapEntry t.nextMapid fd file addr length j with mapid := 0, mmapfd := 0 } rfl rfl ?_
      rw [if_neg t.sptes.pos.ne', wp_bind, wp_modify]
      have hset : { t.insert (m.array j) { mapEntry t.nextMapid fd file addr length j with mapid := 0, mmapfd := 0 } with
          sptes := (t.insert (m.array j)
            { mapEntry t.nextMapid fd file addr length j with mapid := 0, mmapfd := 0 }).sptes.set t.sptes.next fun e =>
              { e with mapid := t.nextMapid, mmapfd := fd } } =
          t.insert (m.array j) (mapEntry t.nextMapid fd file addr length j) := Task.insert_set (m.array j) rfl rfl
      obtain ⟨hw', hperm⟩ := hw.insert (m.array j) (e := mapEntry t.nextMapid fd file addr length j) (hfree j le_rfl hj)
      have hrest : (((length - pgsize * j : ℕ) : ℤ) - (min pgsize (length - pgsize * j) : ℕ)) =
          ((length - pgsize * (j + 1) : ℕ) : ℤ) := by
        rw [Nat.mul_succ]
        omega
      have hnext : pgsize * j + pgsize = pgsize * (j + 1) := (Nat.mul_succ pgsize j).symm
      have hpos : 0 < pgsize := by decide
      have hfuel : length - pgsize * (j + 1) ≤ n := by
        rw [← hnext]
        omega
      have hfree' : ∀ k, j + 1 ≤ k → k < pageCount length →
          ∀ x ∈ (t.insert (m.array j) (mapEntry t.nextMapid fd file addr length j)).table, x.userVaddr ≠ addr + pgsize * k := by
        intro k hk hk' x hx
        obtain rfl | hx := List.mem_cons.1 (hperm.mem_iff.1 hx)
        · change addr + pgsize * j ≠ addr + pgsize * k
          have := Nat.mul_lt_mul_of_pos_left (k := pgsize) hk hpos
          omega
        · exact hfree k (by omega) hk' x hx
      rw [hrest, hnext]
      refine (congrArg (wp _ _ _) hset).mpr (wp_post (ih hw' hfuel hfree') ?_)
      rintro - t' ⟨hwt, hmap, c, hc, hlast, hle, htable⟩
      refine ⟨hwt, hmap, c + 1, fun k hk hk' => ?_, fun hlt => ?_, by omega, ?_⟩
      · obtain rfl | hne := Nat.eq_or_lt_of_le hk
        · exact hroom
        · exact hc k hne (by omega)
      · rw [show j + (c + 1) = j + 1 + c by omega]
        exact hlast (by omega)
      · rw [List.range'_succ, List.map_cons, List.reverse_cons, List.append_assoc]
        exact htable.trans (hperm.append_left _)

end Loop

/-! ### All or nothing -/

/-- The entries for the page at `va`. -/
def Task.entriesAt (t : Task) (va : ℕ) : List Spte := t.table.filter fun e => e.userVaddr = va

/-- The length of the file that `fd` stands for. -/
def Task.lengthOf (t : Task) (fd : ℤ) : ℕ :=
  ((t.fs.files.cell (t.fdtable fd.toNat)).bind fun f => t.fs.inodes.cell f.inode).elim 0 fun i => i.data.length.toNat

/-- The descriptors in use stand for open files. -/
def Task.Opened (t : Task) : Prop :=
  ∀ j < filesMax, t.fdtable j ≠ 0 → ∃ f i, t.fs.files.cell (t.fdtable j) = some f ∧
    t.fs.inodes.cell f.inode = some i ∧ 0 ≤ i.data.length

/-- **All pages are mapped**: none was, and none lies above `PHYS_BASE`; each has one entry now, for its place
in the file, and together they are as long as the file. -/
structure MapsAll (t : Task) (addr length : ℕ) (t' : Task) : Prop where
  unmapped : ∀ k < pageCount length, t.entriesAt (addr + pgsize * k) = [] ∧ addr + pgsize * k < physBase
  mapped : ∀ k < pageCount length, ∃ e, t'.entriesAt (addr + pgsize * k) = [e] ∧ e.ofs = pgsize * k ∧
    e.readBytes + e.zeroBytes = pgsize
  sum : ((List.range (pageCount length)).flatMap fun k =>
    (t'.entriesAt (addr + pgsize * k)).map Spte.readBytes).sum = length

/-- **All or nothing**: `SYS_MMAP` returns, either `MAP_FAILED` with the supplementary page table as it was, or
with all pages mapped. -/
def AllOrNothing (m : Memory) (fd : ℤ) (addr : ℕ) (t : Task) : Prop :=
  ∃ r t', sysMmap m fd addr t = .ok (r, t') ∧
    (r = -1 ∧ t'.table.Perm t.table ∨ r ≠ -1 ∧ MapsAll t addr (t.lengthOf fd) t')

/-- What `SYS_MMAP` checks before it maps anything. -/
def Refused (t : Task) (fd : ℤ) (addr : ℕ) : Prop :=
  fd < 2 ∨ fd > filesMax ∨ t.fdAt fd = 0 ∨ addr > physBase ∨ addr = 0 ∨ addr % pgsize ≠ 0 ∨
    fd < filesMax ∧ (t.lengthOf fd = 0 ∨ t.entriesAt addr ≠ [])

section Call

variable {k : Fs} {p : ℕ} {f : File} {i : Inode} {t t' : Task} {m : Memory} {addr : ℕ} {fd : ℤ}

theorem fileLength_spec (hf : k.files.cell p = some f) (hi : k.inodes.cell f.inode = some i) :
    wp (fileLength p) (fun n k' => n = i.data.length ∧ k' = k) (fun _ => False) k := by
  rw [fileLength, wp_bind]
  refine wp_fileAt hf ?_
  rw [inodeLength, wp_bind]
  refine wp_inodeAt hi ?_
  rw [wp_pure]
  exact ⟨rfl, rfl⟩

/-- **`file_reopen`** counts two more openers. -/
theorem fileReopen_spec (hf : k.files.cell p = some f) (hi : k.inodes.cell f.inode = some i) :
    wp (fileReopen p) (fun q k' => q = k.files.next ∧
      k' = { (k.openers f.inode 1).openers f.inode 1 with files := k.files.alloc ⟨f.inode, 0, false⟩ }) (fun _ => False) k := by
  rw [fileReopen, wp_bind]
  refine wp_fileAt hf ?_
  rw [wp_bind]
  refine wp_post (inodeReopen_spec hi) ?_
  rintro a k' ⟨rfl, rfl⟩
  exact fileOpen_spec (k.inodes.cell_set _ hi)

/-- The state in which the loop of `SYS_MMAP` begins. -/
def Task.reopened (t : Task) (a : ℕ) : Task :=
  { t with
    fs := { (t.fs.openers a 1).openers a 1 with files := t.fs.files.alloc ⟨a, 0, false⟩ }
    nextmmapfd := t.nextmmapfd + 1 }

theorem Task.Wf.entriesAt_eq_nil {va : ℕ} : t.entriesAt va = [] ↔ ∀ e ∈ t.table, e.userVaddr ≠ va := by
  simp [Task.entriesAt, List.filter_eq_nil_iff]

/-- **A call that is refused** changes nothing. -/
theorem sysMmap_refused (hw : t.Wf) (ho : t.Opened) (hr : Refused t fd addr) :
    wp (sysMmap m fd addr) (fun r t' => r = -1 ∧ t' = t) (fun _ => False) t := by
  rw [sysMmap, wp_bind, wp_gets, wp_ite]
  refine ⟨fun _ => ⟨rfl, rfl⟩, fun h₁ => ?_⟩
  rw [wp_ite]
  refine ⟨fun _ => ⟨rfl, rfl⟩, fun h₂ => ?_⟩
  rw [wp_ite]
  refine ⟨fun _ => ⟨rfl, rfl⟩, fun h₃ => ?_⟩
  push Not at h₁ h₂ h₃
  -- the descriptor is one of the table
  obtain ⟨hlt, hr⟩ : fd < filesMax ∧ (t.lengthOf fd = 0 ∨ t.entriesAt addr ≠ []) := by
    rcases hr with h | h | h | h | h | h | h
    · omega
    · omega
    · exact absurd h h₁.2.2
    · omega
    · exact absurd h h₂.2
    · exact absurd h₃ h
    · exact h
  have hp : t.fdAt fd = t.fdtable fd.toNat := if_pos hlt
  rw [hp] at h₁
  obtain ⟨f, i, hf, hi, hlen⟩ := ho fd.toNat (by omega) h₁.2.2
  rw [wp_bind, onFd, wp_bind, wp_gets, if_pos hlt, hp, inFs, wp_within]
  refine wp_post (fileLength_spec hf hi) ?_
  rintro _ _ ⟨rfl, rfl⟩
  rw [wp_ite]
  refine ⟨fun _ => ⟨rfl, rfl⟩, fun h₄ => ?_⟩
  rw [wp_bind, wp_gets, wp_bind, wp_gets, if_pos]
  · exact ⟨rfl, rfl⟩
  · refine ⟨hw.given, ?_⟩
    change (t.find addr).isSome = true
    rw [Option.isSome_iff_ne_none, Ne, hw.find_eq_none, ← Task.Wf.entriesAt_eq_nil]
    refine hr.resolve_left fun h0 => h₄ ?_
    rw [Task.lengthOf, hf, Option.bind_some, hi] at h0
    exact le_antisymm (Int.toNat_eq_zero.1 h0) hlen

/-- **A call that is not refused** comes to the loop. -/
theorem sysMmap_maps {Q : ℤ → Task → Prop} {E : Halt → Prop} (hw : t.Wf) (ho : t.Opened) (hr : ¬ Refused t fd addr)
    (hlt : fd < filesMax)
    (hQ : ∀ a, wp (mapPages m t.fs.files.next addr fd (t.lengthOf fd) (t.lengthOf fd) 0 >>= fun _ =>
      finishMap t.fs.files.next) Q E (t.reopened a)) :
    wp (sysMmap m fd addr) Q E t := by
  unfold Refused at hr
  push Not at hr
  obtain ⟨h₁, h₂, h₃, h₄, h₅, h₆, h₇⟩ := hr
  obtain ⟨h₇, h₈⟩ := h₇ hlt
  have hp : t.fdAt fd = t.fdtable fd.toNat := if_pos hlt
  rw [hp] at h₃
  obtain ⟨f, i, hf, hi, hlen⟩ := ho fd.toNat (by omega) h₃
  have hlength : i.data.length = t.lengthOf fd := by
    rw [Task.lengthOf, hf, Option.bind_some, hi]
    exact (Int.toNat_of_nonneg hlen).symm
  rw [sysMmap, wp_bind, wp_gets, if_neg (by rw [hp]; omega), if_neg (by omega), if_neg (by omega), wp_bind, onFd, wp_bind,
    wp_gets, if_pos hlt, hp, inFs, wp_within]
  refine wp_mono (fileLength_spec hf hi) ?_ fun _ h => h.elim
  rintro _ _ ⟨rfl, rfl⟩
  have hnone : t.find addr = none := hw.find_eq_none.2 (Task.Wf.entriesAt_eq_nil.1 h₈)
  rw [if_neg (by omega), wp_bind, wp_gets, wp_bind, wp_gets, if_neg, wp_bind, onFd, wp_bind, wp_gets, if_pos hlt, inFs, wp_within]
  swap
  · rintro ⟨-, h⟩
    change (t.find addr).isSome = true at h
    rw [hnone] at h
    cases h
  change wp (fileReopen (t.fdAt fd)) _ E t.fs
  rw [hp]
  refine wp_mono (fileReopen_spec hf hi) ?_ fun _ h => h.elim
  rintro q k' ⟨rfl, rfl⟩
  rw [wp_bind, wp_modify, wp_bind, inFs, wp_within]
  have hf' : (t.fs.files.alloc ⟨f.inode, 0, false⟩).cell t.fs.files.next = some ⟨f.inode, 0, false⟩ :=
    t.fs.files.cell_alloc_self _
  have hi' := (t.fs.openers f.inode 1).inodes.cell_set (p := f.inode) (fun i => { i with openCnt := i.openCnt + 1 })
    (t.fs.inodes.cell_set (fun i => { i with openCnt := i.openCnt + 1 }) hi)
  refine wp_mono (fileLength_spec hf' hi') ?_ fun _ h => h.elim
  rintro _ _ ⟨rfl, rfl⟩
  rw [if_pos rfl, if_pos rfl]
  change wp (mapPages m _ addr fd i.data.length.toNat i.data.length 0 >>= _) Q E (t.reopened f.inode)
  rw [hlength, Int.toNat_natCast]
  exact hQ f.inode

/-- What is returned in the end, if anything. -/
theorem finishMap_spec {q : ℕ} : wp (finishMap q) (fun r t' => r = t.nextMapid ∧ t.nextMapid ≤ 128 ∧ t'.table = t.table)
    (fun _ => 128 < t.nextMapid) t := by
  rw [finishMap, wp_bind, wp_gets, wp_bind, storeMap, wp_bind, wp_gets, wp_ite]
  refine ⟨fun hlt => ?_, fun hge => ?_⟩
  · rw [wp_modify, wp_bind, wp_modify, wp_pure]
    exact ⟨rfl, by omega, rfl⟩
  · rw [wp_ite]
    refine ⟨fun heq => ?_, fun hne => ?_⟩
    · rw [wp_modify, wp_bind, wp_modify, wp_pure]
      exact ⟨rfl, heq.le, rfl⟩
    · rw [wp_stop]
      omega

/-- A call that is not refused does not return `MAP_FAILED`. -/
theorem sysMmap_ne (hw : t.Wf) (ho : t.Opened) (hr : ¬ Refused t fd addr) (hlt : fd < filesMax) :
    wp (sysMmap m fd addr) (fun r _ => r ≠ -1) (fun _ => True) t := by
  refine sysMmap_maps hw ho hr hlt fun a => ?_
  rw [wp_bind]
  refine wp_post wp_true fun _ t₁ _ => wp_mono finishMap_spec ?_ fun _ _ => trivial
  rintro r t' ⟨rfl, -⟩
  omega

/-- `fdtable[FILES_MAX]` is no file. -/
theorem sysMmap_last {r : ℤ} (hr : ¬ Refused t fd addr) (hge : fd ≥ filesMax) : sysMmap m fd addr t ≠ .ok (r, t') := by
  unfold Refused at hr
  push Not at hr
  obtain ⟨h₁, h₂, h₃, h₄, h₅, h₆, -⟩ := hr
  have hstop : wp (sysMmap m fd addr) (fun _ _ => False) (fun _ => True) t := by
    rw [sysMmap, wp_bind, wp_gets, if_neg (by omega), if_neg (by omega), if_neg (by omega), wp_bind, onFd, wp_bind, wp_gets,
      if_neg (by omega), wp_stop]
    trivial
  exact fun hrun => wp_of_ok hstop hrun

/-- **What is mapped**, where no page is mapped yet. -/
theorem sysMmap_spec (hw : t.Wf) (ho : t.Opened) (hr : ¬ Refused t fd addr) (hlt : fd < filesMax)
    (hfree : ∀ k < pageCount (t.lengthOf fd), t.entriesAt (addr + pgsize * k) = [] ∧ addr + pgsize * k < physBase) :
    wp (sysMmap m fd addr)
      (fun r t' => r = t.nextMapid ∧ t.nextMapid ≤ 128 ∧ (t'.table.map Spte.userVaddr).Nodup ∧
        ∃ c ≤ pageCount (t.lengthOf fd), (∀ k < c, m.entry k = true) ∧
          (c < pageCount (t.lengthOf fd) → m.entry c = false) ∧
          t'.table.Perm (((List.range c).map (mapEntry t.nextMapid fd t.fs.files.next addr (t.lengthOf fd))).reverse ++ t.table))
      (fun _ => 128 < t.nextMapid ∨ ∃ k < pageCount (t.lengthOf fd), m.entry k = false) t := by
  refine sysMmap_maps hw ho hr hlt fun a => ?_
  have hw' : (t.reopened a).Wf := ⟨hw.hash, hw.live, hw.given⟩
  have hloop : wp (mapPages m t.fs.files.next addr fd (t.lengthOf fd) ((t.lengthOf fd - pgsize * 0 : ℕ) : ℤ) (pgsize * 0)) _ _
      (t.reopened a) :=
    mapPages_spec hw' (Nat.sub_le _ _) (fun k hk => (hfree k hk).2) fun k _ hk =>
      Task.Wf.entriesAt_eq_nil.1 (hfree k hk).1
  rw [wp_bind]
  refine wp_mono hloop ?_ fun _ h => .inr h
  rintro - t₁ ⟨hw₁, hmapid, c, hc, hlast, hle, htable⟩
  rw [Nat.zero_add] at hc hlast hle
  refine wp_mono finishMap_spec ?_ fun _ h => .inl (by rw [hmapid] at h; exact h)
  rintro r t' ⟨rfl, hcnt, htable'⟩
  rw [hmapid] at hcnt ⊢
  rw [htable']
  rw [← List.range_eq_range'] at htable
  exact ⟨rfl, hcnt, hw₁.nodup, c, by omega, fun k hk => hc k (Nat.zero_le k) hk, hlast, htable⟩

end Call

/-! ### When it is so -/

/-- Entries for different pages are told apart by the page. -/
theorem filter_eq_singleton {T : List Spte} (hT : (T.map Spte.userVaddr).Nodup) {e : Spte} (he : e ∈ T) :
    T.filter (fun x => x.userVaddr = e.userVaddr) = [e] := by
  induction T with
  | nil => cases he
  | cons x T ih =>
    rw [List.map_cons, List.nodup_cons] at hT
    obtain rfl | he := List.mem_cons.1 he
    · rw [List.filter_cons_of_pos (by simp), List.filter_eq_nil_iff.2]
      intro y hy hk
      exact hT.1 (List.mem_map.2 ⟨y, hy, of_decide_eq_true hk⟩)
    · rw [List.filter_cons_of_neg, ih hT.2 he]
      intro hk
      exact hT.1 (List.mem_map.2 ⟨e, he, (of_decide_eq_true hk).symm⟩)

/-- The pages of a file are together as long as the file. -/
theorem sum_readBytes (length n : ℕ) :
    ((List.range n).map fun k => min pgsize (length - pgsize * k)).sum = min length (pgsize * n) := by
  induction n with
  | zero => simp
  | succ n ih =>
    rw [List.range_succ, List.map_append, List.sum_append, ih, Nat.mul_succ]
    simp only [List.map_cons, List.map_nil, List.sum_cons, List.sum_nil]
    omega

section Claim

variable {t : Task} {m : Memory} {addr : ℕ} {fd : ℤ}

/-- **`SYS_MMAP` is all or nothing** if and only if it is refused at once, or `next_mapid` is at most 128, every page of the
range is free and below `PHYS_BASE`, and there is memory for every entry. -/
theorem mmap_all_or_nothing_iff (hw : t.Wf) (ho : t.Opened) :
    AllOrNothing m fd addr t ↔ Refused t fd addr ∨ fd ≠ filesMax ∧ t.nextMapid ≤ 128 ∧
      ∀ k < pageCount (t.lengthOf fd),
        t.entriesAt (addr + pgsize * k) = [] ∧ addr + pgsize * k < physBase ∧ m.entry k = true := by
  by_cases hr : Refused t fd addr
  · refine iff_of_true ?_ (.inl hr)
    obtain ⟨r, t', hrun, hneg, rfl⟩ := exists_ok (sysMmap_refused (m := m) hw ho hr)
    exact ⟨r, t', hrun, .inl ⟨hneg, .refl _⟩⟩
  constructor
  · rintro ⟨r, t', hrun, hcase⟩
    have hlt : fd < filesMax := lt_of_not_ge fun hge => sysMmap_last hr hge hrun
    have hmaps : MapsAll t addr (t.lengthOf fd) t' := by
      rcases hcase with ⟨hneg, -⟩ | ⟨-, hmaps⟩
      · exact absurd hneg (wp_of_ok (sysMmap_ne hw ho hr hlt) hrun)
      · exact hmaps
    obtain ⟨-, hcnt, -, c, hle, hroom, -, htable⟩ := wp_of_ok (sysMmap_spec hw ho hr hlt hmaps.unmapped) hrun
    -- a page for which there is no memory would have no entry
    have hc : c = pageCount (t.lengthOf fd) := by
      refine hle.eq_of_not_lt fun hlt' => ?_
      obtain ⟨e, he, -⟩ := hmaps.mapped c hlt'
      have hmem : e ∈ t'.entriesAt (addr + pgsize * c) := by rw [he]; exact List.mem_cons_self
      rw [Task.entriesAt, List.mem_filter, htable.mem_iff, List.mem_append, List.mem_reverse, List.mem_map,
        decide_eq_true_eq] at hmem
      obtain ⟨⟨k, hk, rfl⟩ | hold, hva⟩ := hmem
      · have hkc := List.mem_range.1 hk
        change addr + pgsize * k = addr + pgsize * c at hva
        have := Nat.mul_lt_mul_of_pos_left (k := pgsize) hkc (by decide)
        omega
      · exact Task.Wf.entriesAt_eq_nil.1 (hmaps.unmapped c hlt').1 e hold hva
    refine .inr ⟨hlt.ne, hcnt, fun k hk => ⟨(hmaps.unmapped k hk).1, (hmaps.unmapped k hk).2, hroom k (by omega)⟩⟩
  · rintro (h | ⟨hne, hcnt, hall⟩)
    · exact absurd h hr
    have hlt : fd < filesMax := by
      unfold Refused at hr
      push Not at hr
      exact lt_of_le_of_ne hr.2.1 hne
    have hfree := fun k hk => (⟨(hall k hk).1, (hall k hk).2.1⟩ : _ ∧ _)
    obtain ⟨r, t', hrun, rfl, -, hnodup, c, hle, -, hlast, htable⟩ :=
      exists_ok (wp_mono (sysMmap_spec (m := m) hw ho hr hlt hfree) (fun _ _ h => h) (by
        rintro - (h | ⟨k, hk, hno⟩)
        · omega
        · rw [(hall k hk).2.2] at hno
          cases hno))
    obtain rfl : c = pageCount (t.lengthOf fd) := by
      refine hle.eq_of_not_lt fun hlt' => ?_
      have hno := hlast hlt'
      rw [(hall c hlt').2.2] at hno
      cases hno
    have hentry : ∀ k < pageCount (t.lengthOf fd), t'.entriesAt (addr + pgsize * k) =
        [mapEntry t.nextMapid fd t.fs.files.next addr (t.lengthOf fd) k] := by
      intro k hk
      refine filter_eq_singleton hnodup (e := mapEntry t.nextMapid fd t.fs.files.next addr (t.lengthOf fd) k) ?_
      rw [htable.mem_iff, List.mem_append, List.mem_reverse]
      exact .inl (List.mem_map.2 ⟨k, List.mem_range.2 hk, rfl⟩)
    refine ⟨_, t', hrun, .inr ⟨by omega, hfree, fun k hk => ⟨_, hentry k hk, ?_, ?_⟩, ?_⟩⟩
    · simp [mapEntry]
    · change min pgsize _ + (pgsize - min pgsize _) = pgsize
      omega
    · have hbytes : ((List.range (pageCount (t.lengthOf fd))).flatMap fun k =>
          (t'.entriesAt (addr + pgsize * k)).map Spte.readBytes) =
          (List.range (pageCount (t.lengthOf fd))).map fun k => min pgsize (t.lengthOf fd - pgsize * k) := by
        rw [List.map_eq_flatMap]
        refine List.flatMap_congr fun k hk => ?_
        rw [hentry k (List.mem_range.1 hk)]
        rfl
      rw [hbytes, sum_readBytes, Nat.min_eq_left]
      exact Nat.le_of_not_lt fun h => (lt_irrefl _ (lt_pageCount.2 h))

end Claim

/-! ### A process -/

/-- A name of one letter. -/
def nameA : CString := ⟨[97], CString.noNul_a⟩

/-- A disk is formatted, and a file of `length` bytes is made and opened. -/
def openNew (length : ℤ) : FsM ℕ := do
  filesysInit true
  let _ ← filesysCreate (some nameA) length
  filesysOpen (some nameA)

/-- A process with a stack page, for which descriptor 2 is the file at `p`. -/
def Task.start (k : Fs) (p : ℕ) : Task where
  fs := k
  fdtable := Function.update (fun _ => 0) 2 p
  nextfd := 3
  suppagetable := true
  hash := Hash.init
  sptes := .empty
  nextMapid := 3
  mmaptable := fun _ => 0
  nextmmapfd := 3
  mem := fun _ => some 0
  dirty := fun _ => false

/-- The entry of the stack page. -/
def stackPage : Spte := ⟨0xbffff000, 0, 0, none, 0, 0, 0⟩

/-- Memory for everything. -/
def Memory.ample : Memory := ⟨fun _ => true, fun _ => true, fun _ => true⟩

theorem Task.start_wf (k : Fs) (p : ℕ) : (Task.start k p).Wf := by
  refine ⟨⟨Nat.succ_pos 3, Hash.placed_replicate 4, ?_, ?_⟩, fun a ha => ?_, rfl⟩
  · exact List.nodup_nil
  · rfl
  · cases ha

theorem Task.start_table (k : Fs) (p : ℕ) (room : Bool) :
    ((Task.start k p).insert room stackPage).Wf ∧ ((Task.start k p).insert room stackPage).table.Perm [stackPage] :=
  (Task.start_wf k p).insert room fun x hx => by cases hx

theorem Task.start_opened {k : Fs} {p : ℕ} {f : File} {i : Inode} (room : Bool) (hf : k.files.cell p = some f)
    (hi : k.inodes.cell f.inode = some i) (hlen : 0 ≤ i.data.length) : ((Task.start k p).insert room stackPage).Opened := by
  intro j _ hj
  have h2 : j = 2 := by
    by_contra hne
    have hnull : Function.update (fun _ : ℕ => 0) 2 p j = 0 := Function.update_of_ne hne _ _
    exact hj hnull
  subst h2
  exact ⟨f, i, hf, hi, hlen⟩

/-- A file of one byte is mapped below the stack. -/
theorem mmap_all_or_nothing_below : ∃ k p, openNew 1 (Fs.boot (Disk.blank 16 (by decide))) = .ok (p, k) ∧
    AllOrNothing .ample 2 0xbfffe000 ((Task.start k p).insert true stackPage) := by
  have hrun : (openNew 1).returns (fun p k => (k.files.cell p).any fun f => (k.inodes.cell f.inode).any fun i =>
      i.data.length = 1) (Fs.boot (Disk.blank 16 (by decide))) = true := by decide +kernel
  obtain ⟨p, k, hrun, hcheck⟩ := exists_of_returns hrun
  obtain ⟨f, hf, hcheck⟩ := (Option.any_eq_true _ _).1 hcheck
  obtain ⟨i, hi, hcheck⟩ := (Option.any_eq_true _ _).1 hcheck
  have hlen : i.data.length = 1 := of_decide_eq_true hcheck
  obtain ⟨hw, htable⟩ := Task.start_table k p true
  have hlength : ((Task.start k p).insert true stackPage).lengthOf 2 = 1 := by
    change ((k.files.cell p).bind fun f => k.inodes.cell f.inode).elim 0 (fun i => i.data.length.toNat) = 1
    rw [hf, Option.bind_some, hi]
    change i.data.length.toNat = 1
    rw [hlen]
    rfl
  refine ⟨k, p, hrun, (mmap_all_or_nothing_iff hw (Task.start_opened true hf hi (by omega))).2 (.inr ⟨by decide, ?_, ?_⟩)⟩
  · change (3 : ℕ) ≤ 128
    decide
  · rw [hlength]
    intro j hj
    obtain rfl : j = 0 := Nat.lt_one_iff.1 hj
    refine ⟨Task.Wf.entriesAt_eq_nil.2 fun e he => ?_, by decide, rfl⟩
    rw [List.mem_singleton.1 (htable.mem_iff.1 he)]
    decide

/-- A file of two pages is mapped over the stack page, which keeps its entry. -/
theorem mmap_over_stack : ∃ k p, openNew 4097 (Fs.boot (Disk.blank 24 (by decide))) = .ok (p, k) ∧
    ((Task.start k p).insert true stackPage).Wf ∧ ((Task.start k p).insert true stackPage).Opened ∧
    ¬ AllOrNothing .ample 2 0xbfffe000 ((Task.start k p).insert true stackPage) := by
  have hrun : (openNew 4097).returns (fun p k => ((k.files.cell p).any fun f => (k.inodes.cell f.inode).any fun i =>
      i.data.length = 4097) && (((Task.start k p).insert true stackPage).lengthOf 2 = 4097 &&
        (sysMmap .ample 2 0xbfffe000).returns (fun r _ => r = 3) ((Task.start k p).insert true stackPage)))
      (Fs.boot (Disk.blank 24 (by decide))) = true := by decide +kernel
  obtain ⟨p, k, hrun, hcheck⟩ := exists_of_returns hrun
  obtain ⟨hfile, hcheck⟩ := Bool.and_eq_true_iff.1 hcheck
  obtain ⟨hlength, hcall⟩ := Bool.and_eq_true_iff.1 hcheck
  obtain ⟨f, hf, hfile⟩ := (Option.any_eq_true _ _).1 hfile
  obtain ⟨i, hi, hfile⟩ := (Option.any_eq_true _ _).1 hfile
  have hlen : i.data.length = 4097 := of_decide_eq_true hfile
  obtain ⟨hw, htable⟩ := Task.start_table k p true
  refine ⟨k, p, hrun, hw, Task.start_opened true hf hi (by omega), ?_⟩
  obtain ⟨r, t', hok, hr⟩ := exists_of_returns hcall
  rintro ⟨r', t'', hok', hcase⟩
  rw [hok'] at hok
  obtain ⟨rfl, rfl⟩ := Prod.mk.inj (Except.ok.inj hok)
  have hthree : r' = 3 := of_decide_eq_true hr
  obtain ⟨hneg, -⟩ | ⟨-, hmaps⟩ := hcase
  · omega
  · -- the second page is the stack page
    rw [of_decide_eq_true hlength] at hmaps
    have hfree := Task.Wf.entriesAt_eq_nil.1 (hmaps.unmapped 1 (by decide)).1
    exact hfree stackPage (htable.mem_iff.2 List.mem_cons_self) rfl

end Pintos.Mmap
