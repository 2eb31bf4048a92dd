import Pintos.Filesys.File

/-!
# Where the file system stops

Only `free_map_release` and the bitmap functions it calls have the assertions
`sectorNotAllocated` and `bitOutOfRange`. Whatever the state, growing and writing
an inode stop for other reasons, which are called *benign* here.

The specifications of the following modules name the condition `P` under which
an operation returns; `Unless P` is what its stops satisfy.
-/

namespace Pintos

open Library Library.Prog

/-- A reason for stopping that is not an assertion of `free_map_release`. -/
def Benign (e : Halt) : Prop := e ≠ .sectorNotAllocated ∧ e ≠ .bitOutOfRange

instance (e : Halt) : Decidable (Benign e) := inferInstanceAs (Decidable (_ ∧ _))

/-- An operation that returns whenever `P` holds stops for the reason `e`. -/
def Unless (P : Prop) (e : Halt) : Prop := ¬ P ∧ Benign e

theorem Unless.mono {P P' : Prop} (h : P' → P) (e : Halt) (he : Unless P e) : Unless P' e :=
  ⟨fun hp => he.1 (h hp), he.2⟩

theorem Unless.elim {P : Prop} {e : Halt} (hP : P) (he : Unless P e) : False := he.1 hP

/-! ### The cache -/

theorem diskRead_stops (s : ℕ) : StopsFor Benign (diskRead s) :=
  .bind (.gets _) fun _ => .ite (.pure _) (.stop (by decide))

theorem diskWrite_stops (s : ℕ) (b : Block) : StopsFor Benign (diskWrite s b) :=
  .bind (.gets _) fun _ => .ite (.modify _) (.stop (by decide))

theorem evict_stops : StopsFor Benign evict :=
  .bind (.bind (.modify _) fun _ => .gets _) fun _ => .bind (.orStop (by decide)) fun v =>
    .bind (.onlyIf (diskWrite_stops _ _)) fun _ => .modify _

theorem load_stops (s : ℕ) : StopsFor Benign (load s) :=
  .bind (.gets _) fun _ => .bind (.onlyIf evict_stops) fun _ =>
    .bind (.bind (.gets _) fun _ => .bind (.modify _) fun _ => .pure _) fun _ =>
      .bind (diskRead_stops s) fun _ => .bind (.modify _) fun _ => .pure _

theorem fetch_stops {ahead : CacheM Unit} (h : StopsFor Benign ahead) (s : ℕ) : StopsFor Benign (fetch ahead s) := by
  refine .bind (.gets _) fun found => ?_
  cases found with
  | none => exact .bind (load_stops s) fun _ => .bind h fun _ => .pure _
  | some b => exact .bind (.modify _) fun _ => .pure _

theorem bufferCacheCheck_stops (s : ℕ) (write : Bool) : StopsFor Benign (bufferCacheCheck s write) := by
  cases write with
  | false => exact fetch_stops (.pure _) s
  | true => exact fetch_stops (.bind (fetch_stops (.pure _) _) fun _ => .pure _) s

theorem bufferCacheWrite_stops (s : ℕ) (src : ℕ → UInt8) (ofs n : ℕ) : StopsFor Benign (bufferCacheWrite s src ofs n) :=
  .bind (bufferCacheCheck_stops s true) fun _ => .bind (.bind (.gets _) fun _ => .orStop (by decide)) fun _ =>
    .ite (.modify _) (.stop (by decide))

/-! ### Growing -/

theorem inodeAt_stops (a : ℕ) : StopsFor Benign (inodeAt a) := .bind (.gets _) fun _ => .orStop (by decide)

theorem tableAt_stops (t j : ℕ) : StopsFor Benign (tableAt t j) :=
  .bind (.gets _) fun _ => .bind (.orStop (by decide)) fun _ => .dite (fun _ => .pure _) fun _ => .stop (by decide)

theorem newTable_stops (T : Table) : StopsFor Benign (newTable T) :=
  .bind (.gets _) fun _ => .ite (.bind (.modify _) fun _ => .pure _) (.stop (by decide))

theorem readData_stops (r : DataRef) : StopsFor Benign (readData r) := by
  cases r with
  | inode a => exact .bind (inodeAt_stops a) fun _ => .pure _
  | temp => exact .gets _

theorem updateData_stops (f : InodeDisk → InodeDisk) (r : DataRef) : StopsFor Benign (updateData f r) := by
  cases r <;> exact .modify _

theorem freeMapAllocate_stops {persist : FsM Bool} (hp : StopsFor Benign persist) (cnt : ℕ) :
    StopsFor Benign (freeMapAllocate persist cnt) := by
  refine .bind (.gets _) fun map => ?_
  split
  · exact .pure _
  · exact .bind (.modify _) fun _ => .bind (.gets _) fun _ =>
      .ite (.pure _) (.bind hp fun _ => .ite (.pure _) (.bind (.modify _) fun _ => .pure _))

theorem storeSlot_stops (r : DataRef) (b : ℕ) (slot : Slot) : StopsFor Benign (storeSlot r b slot) := by
  cases slot with
  | direct i => exact .dite (fun _ => updateData_stops _ r) fun _ => .stop (by decide)
  | entry t j => exact .bind (tableAt_stops t j) fun _ => .modify _

theorem allocateSlot_stops {persist : FsM Bool} (hp : StopsFor Benign persist) (r : DataRef) (slot : Slot) :
    StopsFor Benign (allocateSlot persist r slot) :=
  .bind (freeMapAllocate_stops hp 1) fun _ => .bind (.orStop (by decide)) fun b =>
    .bind (storeSlot_stops r b slot) fun _ => .within (bufferCacheWrite_stops _ _ _ _)

theorem indirectTable_stops (r : DataRef) (n : ℕ) : StopsFor Benign (indirectTable r n) :=
  .bind (readData_stops r) fun _ => .ite
    (.ite (.bind (newTable_stops _) fun _ => .bind (updateData_stops _ r) fun _ => .pure _) (.stop (by decide))) (.pure _)

theorem doublyIndirectTable_stops (r : DataRef) : StopsFor Benign (doublyIndirectTable r) :=
  .bind (readData_stops r) fun _ => .ite
    (.bind (newTable_stops _) fun _ => .bind (updateData_stops _ r) fun _ => .pure _) (tableAt_stops _ _)

theorem doublySlot_stops (r : DataRef) (i : ℕ) : StopsFor Benign (doublySlot r i) :=
  .bind (doublyIndirectTable_stops r) fun _ => .bind (tableAt_stops _ _) fun _ =>
    .ite (.bind (newTable_stops _) fun _ => .pure _) (.pure _)

theorem growLoop_stops {persist : FsM Bool} (hp : StopsFor Benign persist) (r : DataRef) {slot : ℕ → FsM Slot}
    (hslot : ∀ i, StopsFor Benign (slot i)) (i n : ℕ) : StopsFor Benign (growLoop persist r slot i n) := by
  induction n generalizing i with
  | zero => exact .pure _
  | succ n ih => exact .bind (hslot i) fun s => .bind (allocateSlot_stops hp r s) fun _ => ih (i + 1)

/-- Growing an inode does not stop at an assertion of `free_map_release`. -/
theorem inodeGrow_stops {persist : FsM Bool} (hp : StopsFor Benign persist) (s : ℕ) (r : DataRef) (L : ℤ) :
    StopsFor Benign (inodeGrow persist s r L) := by
  have hend : StopsFor Benign (do
      updateData (fun d => { d with length := L }) r
      let d ← readData r
      cached (bufferCacheWrite s d.bytes 0 sectorSize)
      pure true) :=
    .bind (updateData_stops _ r) fun _ => .bind (readData_stops r) fun _ =>
      .bind (.within (bufferCacheWrite_stops _ _ _ _)) fun _ => .pure _
  refine .bind (readData_stops r) fun d => .ite (.pure _) (.bind (.gets _) fun _ => .ite (.stop (by decide)) ?_)
  refine .ite (.bind (growLoop_stops hp r (fun _ => .pure _) _ _) fun _ => hend) (.ite ?_ (.ite ?_ ?_))
  · exact .bind (indirectTable_stops r _) fun t => .bind (growLoop_stops hp r (fun _ => .pure _) _ _) fun _ => hend
  · exact .bind (doublyIndirectTable_stops r) fun _ => .bind (growLoop_stops hp r (doublySlot_stops r) _ _) fun _ => hend
  · exact .bind (.stop (by decide)) fun _ => hend

/-! ### Writing -/

theorem startAt_stops (d : InodeDisk) (j : ℕ) : StopsFor Benign (startAt d j) :=
  .dite (fun _ => .pure _) fun _ => .stop (by decide)

theorem sectorOf_stops (a : ℕ) (pos : ℤ) : StopsFor Benign (sectorOf a pos) :=
  .bind (inodeAt_stops a) fun _ => .ite (startAt_stops _ _) (.ite (.stop (by decide)) (.ite (startAt_stops _ _)
    (.ite (tableAt_stops _ _) (.ite (.stop (by decide)) (.stop (by decide))))))

theorem byteToSector_stops {persist : FsM Bool} (hp : StopsFor Benign persist) (a : ℕ) (pos : ℤ) :
    StopsFor Benign (byteToSector persist a pos) :=
  .bind (inodeAt_stops a) fun _ => .bind (inodeGrow_stops hp _ _ _) fun _ => sectorOf_stops a pos

theorem writeLoop_stops {persist : FsM Bool} (hp : StopsFor Benign persist) (a : ℕ) (buffer : ℕ → UInt8)
    (n : ℕ) (size offset : ℤ) (written : ℕ) : StopsFor Benign (writeLoop persist a buffer n size offset written) := by
  induction n generalizing size offset written with
  | zero => exact .pure _
  | succ n ih =>
    refine .ite (.pure _) (.bind (inodeAt_stops a) fun i => .bind (.onlyIf ?_) fun _ => .bind (inodeAt_stops a) fun i => ?_)
    · exact .bind (inodeGrow_stops hp _ _ _) fun _ => .pure _
    · exact .bind (byteToSector_stops hp a _) fun s =>
        .ite (.pure _) (.bind (.within (bufferCacheWrite_stops _ _ _ _)) fun _ => ih _ _ _)

/-- Writing the free map does not stop at an assertion of `free_map_release`. -/
theorem bitmapWrite_stops (n : ℕ) : StopsFor Benign (bitmapWrite n) := by
  induction n with
  | zero => exact .stop (by decide)
  | succ n ih =>
    exact .bind (.gets _) fun p => .bind (.gets _) fun map => .bind (.bind (.gets _) fun _ => .orStop (by decide)) fun f =>
      .bind (.bind (inodeAt_stops _) fun i => .ite (.pure _) (writeLoop_stops ih _ _ _ _ _ _)) fun _ => .pure _

end Pintos
