import Mathlib.Logic.Function.Basic
import Pintos.Lib.Debug

/-!
# Disks

A disk is an array of 512-byte sectors (`devices/disk.c`). The two assertions of
`select_sector` are the only way a transfer fails here.
-/

namespace Pintos

/-- `DISK_SECTOR_SIZE`. -/
abbrev sectorSize : ℕ := 512

instance neZero_sectorSize : NeZero sectorSize := ⟨by decide⟩

/-- The contents of a sector. -/
abbrev Block : Type := Fin sectorSize → UInt8

namespace Block

/-- A sector of zeros. -/
def zero : Block := fun _ => 0

/-- `memcpy (b + ofs, src, n)`. -/
def write (b : Block) (ofs n : ℕ) (src : ℕ → UInt8) : Block := fun i =>
  if ofs ≤ i.1 ∧ i.1 < ofs + n then src (i.1 - ofs) else b i

/-- A whole sector written over forgets what was there. -/
theorem write_all (b : Block) (src : ℕ → UInt8) : b.write 0 sectorSize src = fun i => src i.1 := by
  funext i
  simp [write, i.2]

end Block

/-- A disk. An IDE drive reports its capacity as a count of sectors that 28 bits address. -/
structure Disk where
  /-- `capacity`, the number of sectors. -/
  capacity : ℕ
  /-- What the sectors hold. -/
  sectors : ℕ → Block
  /-- Every sector has a 28-bit address. -/
  capacity_le : capacity ≤ 2 ^ 28

namespace Disk

/-- What `select_sector` asserts of a sector number. -/
def InRange (d : Disk) (sec : ℕ) : Prop := sec < d.capacity ∧ sec < 2 ^ 28

instance (d : Disk) (sec : ℕ) : Decidable (d.InRange sec) := inferInstanceAs (Decidable (_ ∧ _))

theorem inRange_iff {d : Disk} {sec : ℕ} : d.InRange sec ↔ sec < d.capacity :=
  ⟨And.left, fun h => ⟨h, Nat.lt_of_lt_of_le h d.capacity_le⟩⟩

/-- Replace the contents of a sector. -/
def store (d : Disk) (sec : ℕ) (b : Block) : Disk := { d with sectors := Function.update d.sectors sec b }

@[simp] theorem capacity_store (d : Disk) (sec : ℕ) (b : Block) : (d.store sec b).capacity = d.capacity := rfl

@[simp] theorem sectors_store_self (d : Disk) (sec : ℕ) (b : Block) : (d.store sec b).sectors sec = b := by
  simp [store]

theorem sectors_store_of_ne (d : Disk) {sec s : ℕ} (b : Block) (h : s ≠ sec) :
    (d.store sec b).sectors s = d.sectors s := by
  simp [store, Function.update_of_ne h]

end Disk

end Pintos
