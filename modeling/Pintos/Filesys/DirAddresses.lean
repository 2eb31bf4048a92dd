import Pintos.Filesys.Filesys

/-!
# Addresses of directories in memory

Whatever the state and whatever an operation of the file system does, it gives out no address
twice: one at which a `struct dir` was freed has none ever after (`NoReuse`). So a pointer to
such a `struct dir` that was kept is one to freed memory for good.
-/

namespace Pintos

open Library Library.Prog

variable {k k' : Fs} {p : ℕ}

/-- **No address is given out twice**: where there was no `struct dir`, there is none, except at new addresses. -/
def NoReuse (k k' : Fs) : Prop := k.dirs.next ≤ k'.dirs.next ∧ ∀ p < k.dirs.next, k.dirs.cell p = none → k'.dirs.cell p = none

instance : IsPreorder Fs NoReuse where
  refl _ := ⟨le_rfl, fun _ _ h => h⟩
  trans _ _ _ h h' := ⟨h.1.trans h'.1, fun p hp hnone => h'.2 p (hp.trans_le h.1) (h.2 p hp hnone)⟩

theorem NoReuse.of_dirs (h : k'.dirs = k.dirs) : NoReuse k k' := by
  rw [NoReuse, h]
  exact ⟨le_rfl, fun _ _ h => h⟩

/-! ### Inodes -/

/-- Only the directories in memory matter. -/
theorem leads_modify {f : Fs → Fs} (hf : ∀ k, (f k).dirs = k.dirs) : Leads NoReuse (modify f : FsM Unit) :=
  .modify fun k => .of_dirs (hf k)

theorem leads_cached {α : Type} (m : CacheM α) : Leads NoReuse (cached m) := by
  intro k
  rw [cached, wp_within]
  exact wp_post wp_true fun _ _ _ => .of_dirs rfl

theorem leads_inodeAt (a : ℕ) : Leads NoReuse (inodeAt a) := .bind (.gets _) fun _ => .orStop _ _

theorem leads_updateInode (a : ℕ) (f : Inode → Inode) : Leads NoReuse (updateInode a f) := leads_modify fun _ => rfl

theorem leads_tableAt (t j : ℕ) : Leads NoReuse (tableAt t j) :=
  .bind (.gets _) fun _ => .bind (.orStop _ _) fun _ => .dite (fun _ => .pure _) fun _ => .stop _

theorem leads_newTable (T : Table) : Leads NoReuse (newTable T) :=
  .bind (.gets _) fun _ => .ite (.bind (leads_modify fun _ => rfl) fun _ => .pure _) (.stop _)

theorem leads_readData (r : DataRef) : Leads NoReuse (readData r) := by
  cases r with
  | inode a => exact .bind (leads_inodeAt a) fun _ => .pure _
  | temp => exact .gets _

theorem leads_updateData (f : InodeDisk → InodeDisk) (r : DataRef) : Leads NoReuse (updateData f r) := by
  cases r with
  | inode a => exact leads_updateInode a _
  | temp => exact leads_modify fun _ => rfl

theorem leads_freeMapAllocate {persist : FsM Bool} (hp : Leads NoReuse persist) (cnt : ℕ) : Leads NoReuse (freeMapAllocate persist cnt) := by
  refine .bind (.gets _) fun map => ?_
  split
  · exact .pure _
  · exact .bind (leads_modify fun _ => rfl) fun _ => .bind (.gets _) fun _ =>
      .ite (.pure _) (.bind hp fun _ => .ite (.pure _) (.bind (leads_modify fun _ => rfl) fun _ => .pure _))

theorem leads_freeMapRelease {persist : FsM Bool} (hp : Leads NoReuse persist) (s cnt : ℕ) : Leads NoReuse (freeMapRelease persist s cnt) :=
  .bind (.gets _) fun _ => .ite (.ite (.bind (leads_modify fun _ => rfl) fun _ => .bind hp fun _ => .pure _) (.stop _)) (.stop _)

theorem leads_storeSlot (r : DataRef) (b : ℕ) (slot : Slot) : Leads NoReuse (storeSlot r b slot) := by
  cases slot with
  | direct i => exact .dite (fun _ => leads_updateData _ r) fun _ => .stop _
  | entry t j => exact .bind (leads_tableAt t j) fun _ => leads_modify fun _ => rfl

theorem leads_allocateSlot {persist : FsM Bool} (hp : Leads NoReuse persist) (r : DataRef) (slot : Slot) :
    Leads NoReuse (allocateSlot persist r slot) :=
  .bind (leads_freeMapAllocate hp 1) fun _ => .bind (.orStop _ _) fun _ => .bind (leads_storeSlot r _ slot) fun _ => leads_cached _

theorem leads_indirectTable (r : DataRef) (n : ℕ) : Leads NoReuse (indirectTable r n) :=
  .bind (leads_readData r) fun _ => .ite
    (.ite (.bind (leads_newTable _) fun _ => .bind (leads_updateData _ r) fun _ => .pure _) (.stop _)) (.pure _)

theorem leads_doublyIndirectTable (r : DataRef) : Leads NoReuse (doublyIndirectTable r) :=
  .bind (leads_readData r) fun _ => .ite
    (.bind (leads_newTable _) fun _ => .bind (leads_updateData _ r) fun _ => .pure _) (leads_tableAt _ _)

theorem leads_doublySlot (r : DataRef) (i : ℕ) : Leads NoReuse (doublySlot r i) :=
  .bind (leads_doublyIndirectTable r) fun _ => .bind (leads_tableAt _ _) fun _ =>
    .ite (.bind (leads_newTable _) fun _ => .pure _) (.pure _)

theorem leads_growLoop {persist : FsM Bool} (hp : Leads NoReuse persist) (r : DataRef) {slot : ℕ → FsM Slot}
    (hslot : ∀ i, Leads NoReuse (slot i)) (i n : ℕ) : Leads NoReuse (growLoop persist r slot i n) := by
  induction n generalizing i with
  | zero => exact .pure _
  | succ n ih => exact .bind (hslot i) fun s => .bind (leads_allocateSlot hp r s) fun _ => ih (i + 1)

theorem leads_inodeGrow {persist : FsM Bool} (hp : Leads NoReuse persist) (s : ℕ) (r : DataRef) (L : ℤ) :
    Leads NoReuse (inodeGrow persist s r L) := by
  have hend : Leads NoReuse (do
      updateData (fun d => { d with length := L }) r
      let d ← readData r
      cached (bufferCacheWrite s d.bytes 0 sectorSize)
      pure true) :=
    .bind (leads_updateData _ r) fun _ => .bind (leads_readData r) fun _ => .bind (leads_cached _) fun _ => .pure _
  refine .bind (leads_readData r) fun d => .ite (.pure _) (.bind (.gets _) fun _ => .ite (.stop _) ?_)
  refine .ite (.bind (leads_growLoop hp r (fun _ => .pure _) _ _) fun _ => hend) (.ite ?_ (.ite ?_ ?_))
  · exact .bind (leads_indirectTable r _) fun t => .bind (leads_growLoop hp r (fun _ => .pure _) _ _) fun _ => hend
  · exact .bind (leads_doublyIndirectTable r) fun _ => .bind (leads_growLoop hp r (leads_doublySlot r) _ _) fun _ => hend
  · exact .bind (.stop _) fun _ => hend

theorem leads_startAt (d : InodeDisk) (j : ℕ) : Leads NoReuse (startAt d j) := .dite (fun _ => .pure _) fun _ => .stop _

theorem leads_sectorOf (a : ℕ) (pos : ℤ) : Leads NoReuse (sectorOf a pos) :=
  .bind (leads_inodeAt a) fun _ => .ite (leads_startAt _ _) (.ite (.stop _) (.ite (leads_startAt _ _)
    (.ite (leads_tableAt _ _) (.ite (.stop _) (.stop _)))))

theorem leads_byteToSector {persist : FsM Bool} (hp : Leads NoReuse persist) (a : ℕ) (pos : ℤ) :
    Leads NoReuse (byteToSector persist a pos) :=
  .bind (leads_inodeAt a) fun _ => .bind (leads_inodeGrow hp _ _ _) fun _ => leads_sectorOf a pos

theorem leads_readLoop {persist : FsM Bool} (hp : Leads NoReuse persist) (a n : ℕ) (size offset : ℤ) (bytes : List UInt8) :
    Leads NoReuse (readLoop persist a n size offset bytes) := by
  induction n generalizing size offset bytes with
  | zero => exact .pure _
  | succ n ih =>
    refine .ite (.pure _) (.bind (leads_inodeAt a) fun i => .ite (.pure _) ?_)
    exact .bind (leads_byteToSector hp a _) fun _ => .bind (leads_cached _) fun _ => .ite (ih _ _ _) (.stop _)

theorem leads_writeLoop {persist : FsM Bool} (hp : Leads NoReuse persist) (a : ℕ) (buffer : ℕ → UInt8) (n : ℕ) (size offset : ℤ)
    (written : ℕ) : Leads NoReuse (writeLoop persist a buffer n size offset written) := by
  induction n generalizing size offset written with
  | zero => exact .pure _
  | succ n ih =>
    refine .ite (.pure _) (.bind (leads_inodeAt a) fun i => .bind (.onlyIf ?_) fun _ => .bind (leads_inodeAt a) fun i => ?_)
    · exact .bind (leads_inodeGrow hp _ _ _) fun _ => .pure _
    · exact .bind (leads_byteToSector hp a _) fun s => .ite (.pure _) (.bind (leads_cached _) fun _ => ih _ _ _)

theorem leads_inodeWriteAt {persist : FsM Bool} (hp : Leads NoReuse persist) (a : ℕ) (buffer : ℕ → UInt8) (size offset : ℤ) :
    Leads NoReuse (inodeWriteAt persist a buffer size offset) :=
  .bind (leads_inodeAt a) fun _ => .ite (.pure _) (leads_writeLoop hp _ _ _ _ _ _)

theorem leads_bitmapWrite (n : ℕ) : Leads NoReuse (bitmapWrite n) := by
  induction n with
  | zero => exact .stop _
  | succ n ih =>
    exact .bind (.gets _) fun p => .bind (.gets _) fun map => .bind (.bind (.gets _) fun _ => .orStop _ _) fun f =>
      .bind (leads_inodeWriteAt ih _ _ _ _) fun _ => .pure _

theorem leads_persistFreeMap : Leads NoReuse persistFreeMap := leads_bitmapWrite 8

theorem leads_inodeReadAt (a : ℕ) (size offset : ℤ) : Leads NoReuse (inodeReadAt persistFreeMap a size offset) :=
  leads_readLoop leads_persistFreeMap _ _ _ _ _

theorem leads_inodeLength (a : ℕ) : Leads NoReuse (inodeLength a) := .bind (leads_inodeAt a) fun _ => .pure _

theorem leads_inodeCreate (s : ℕ) (L : ℤ) (isdir : Bool) : Leads NoReuse (inodeCreate s L isdir) := by
  refine .ite (.bind (leads_modify fun _ => rfl) fun _ => .bind (leads_inodeGrow leads_persistFreeMap _ _ _) fun _ =>
    .bind (.onlyIf ?_) fun _ => .pure _) (.stop _)
  exact .bind (leads_readData _) fun _ => leads_cached _

theorem leads_inodeReopen (a : ℕ) : Leads NoReuse (inodeReopen a) :=
  .bind (.onlyIf (.bind (leads_inodeAt a) fun _ => leads_updateInode a _)) fun _ => .pure _

theorem leads_inodeOpen (s : ℕ) : Leads NoReuse (inodeOpen s) := by
  refine .bind (.gets _) fun found => ?_
  cases found with
  | some a => exact leads_inodeReopen a
  | none =>
    exact .bind (.gets _) fun _ => .bind (leads_modify fun _ => rfl) fun _ => .bind (leads_cached _) fun _ =>
      .bind (leads_updateInode _ _) fun _ => .pure _

theorem leads_blockToRelease (d : InodeDisk) (current j : ℕ) : Leads NoReuse (blockToRelease d current j) :=
  .ite (leads_startAt _ _) (.ite (leads_tableAt _ _) (.ite (.bind (leads_tableAt _ _) fun _ => leads_tableAt _ _) (.stop _)))

theorem leads_releaseLoop (a current j n : ℕ) : Leads NoReuse (releaseLoop a current j n) := by
  induction n generalizing j with
  | zero => exact .pure _
  | succ n ih =>
    exact .bind (leads_inodeAt a) fun _ => .bind (leads_blockToRelease _ _ _) fun _ =>
      .bind (leads_freeMapRelease leads_persistFreeMap _ _) fun _ => ih (j + 1)

theorem leads_inodeClose (a : ℕ) : Leads NoReuse (inodeClose a) := by
  refine .onlyIf (.bind (leads_inodeAt a) fun i => .bind (leads_updateInode a _) fun _ => .onlyIf ?_)
  refine .bind (leads_modify fun _ => rfl) fun _ => .bind (.onlyIf ?_) fun _ => leads_modify fun _ => rfl
  exact .bind (leads_freeMapRelease leads_persistFreeMap _ _) fun _ => .bind (leads_inodeAt a) fun _ =>
    .bind (.onlyIf (.stop _)) fun _ => leads_releaseLoop _ _ _ _

/-! ### Directories -/

theorem leads_dirAt (p : ℕ) : Leads NoReuse (dirAt p) := .bind (.gets _) fun _ => .orStop _ _

theorem leads_dirOpen (a : ℕ) : Leads NoReuse (dirOpen a) := by
  refine .ite (.bind (leads_inodeClose a) fun _ => .pure _) (.bind (.gets _) fun p => .bind ?_ fun _ => ?_)
  · refine .modify fun k => ⟨Nat.le_succ _, fun q hq hnone => ?_⟩
    exact (k.dirs.cell_alloc_of_ne _ hq.ne).trans hnone
  · exact .bind (leads_inodeAt a) fun _ => .bind (leads_updateInode a _) fun _ => .pure _

theorem leads_dirOpenRoot : Leads NoReuse dirOpenRoot := .bind (leads_inodeOpen 1) fun a => leads_dirOpen a

theorem leads_dirReopen (p : ℕ) : Leads NoReuse (dirReopen p) :=
  .bind (leads_dirAt p) fun _ => .bind (leads_inodeReopen _) fun a => leads_dirOpen a

theorem leads_dirClose (p : ℕ) : Leads NoReuse (dirClose p) := by
  refine .bind (.onlyIf (.bind (leads_dirAt p) fun _ => .bind (leads_inodeClose _) fun _ => .modify fun k => ?_)) fun _ =>
    .bind leads_dirOpenRoot fun _ => .pure _
  refine ⟨le_rfl, fun q _ hnone => ?_⟩
  by_cases hq : q = p
  · subst hq
    exact k.dirs.cell_free_self q
  · exact (k.dirs.cell_free_of_ne hq).trans hnone

theorem leads_dirMakesure : Leads NoReuse dirMakesure :=
  .bind (.gets _) fun _ => .bind (.onlyIf (.bind leads_dirOpenRoot fun _ => .pure _)) fun _ => .gets _

theorem leads_readEntry (a : ℕ) (e : DirEntry) (ofs : ℕ) : Leads NoReuse (readEntry a e ofs) :=
  .bind (leads_inodeReadAt a _ _) fun _ => .pure _

theorem leads_scanDir (a : ℕ) (found : DirEntry → Bool) : Leads NoReuse (scanDir a found) := by
  have hloop : ∀ n e ofs, Leads NoReuse (scanEntries a found n e ofs) := by
    intro n
    induction n with
    | zero => exact fun e ofs => .pure _
    | succ n ih => exact fun e ofs => .bind (leads_readEntry a e ofs) fun _ => .ite (.ite (.pure _) (ih _ _)) (.pure _)
  exact .bind (leads_inodeLength a) fun _ => hloop _ _ _

theorem leads_lookup (a : ℕ) (name : CString) : Leads NoReuse (lookup a name) := .bind (leads_scanDir a _) fun _ => .pure _

theorem leads_dirLookup (p : ℕ) (name : Option CString) : Leads NoReuse (dirLookup p name) := by
  refine .bind (leads_dirAt p) fun d => .bind (.orStop _ _) fun _ => .bind (leads_lookup _ _) fun found => ?_
  cases found with
  | none => exact .pure _
  | some x => exact leads_inodeOpen _

theorem leads_dirAdd (p : ℕ) (name : Option CString) (s : ℕ) : Leads NoReuse (dirAdd p name s) := by
  refine .bind (leads_dirAt p) fun d => .bind (.orStop _ _) fun nm => .ite (.pure _) (.bind (leads_lookup _ _) fun _ => .ite (.pure _) ?_)
  have hend : ∀ x : DirEntry × ℕ, Leads NoReuse (do
      let written ← inodeWriteAt persistFreeMap d.inode (fun j => (x.1.fill nm s) (Fin.ofNat entrySize j)) entrySize x.2
      pure (written == entrySize)) := fun x => .bind (leads_inodeWriteAt leads_persistFreeMap _ _ _ _) fun _ => .pure _
  refine .bind (leads_scanDir _ _) fun x => .bind (leads_inodeLength _) fun _ => .ite ?_ (.bind (.pure _) hend)
  exact .bind (leads_inodeAt _) fun _ => .bind (leads_inodeGrow leads_persistFreeMap _ _ _) fun _ =>
    .bind (leads_readEntry _ _ _) fun _ => .bind (.pure _) hend

/-- **`filesys_create`** gives out no address twice. -/
theorem leads_filesysCreate (name : Option CString) (L : ℤ) : Leads NoReuse (filesysCreate name L) := by
  refine .bind leads_dirMakesure fun _ => .bind (leads_dirReopen _) fun dir => .bind (leads_dirAt dir) fun _ =>
    .bind (leads_inodeAt _) fun _ => ?_
  have hend : ∀ success : Bool, Leads NoReuse (do
      dirClose dir
      pure success) := fun _ => .bind (leads_dirClose dir) fun _ => .pure _
  refine .ite (.bind (.pure _) hend) (.bind (leads_freeMapAllocate leads_persistFreeMap 1) fun found => ?_)
  cases found with
  | none => exact .bind (.pure _) hend
  | some s =>
    have hadded : ∀ added : Bool, Leads NoReuse (do
        onlyIf (added = false ∧ s ≠ 0) (freeMapRelease persistFreeMap s 1)
        let success ← pure added
        dirClose dir
        pure success) := fun _ =>
      .bind (.onlyIf (leads_freeMapRelease leads_persistFreeMap _ _)) fun _ => .bind (.pure _) hend
    exact .bind (leads_inodeCreate s L false) fun _ => .ite (.bind (leads_dirAdd _ _ _) hadded) (.bind (.pure _) hadded)

end Pintos
