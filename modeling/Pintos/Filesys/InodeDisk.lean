import Pintos.Devices.Disk
import Pintos.Library.Bytes

/-!
# Inodes on disk

`struct inode_disk` (`filesys/inode.h`) and its layout in a sector: 128 words of
four bytes. `indirect` and `doubly_indirect` are C pointers, addresses of tables
in the kernel's heap, and are kept in the sector as such. The last word, the
member `dir`, is stored by `dir_open` and read nowhere; it is left out, and is
zero here.
-/

namespace Pintos

open Library

/-- The number of entries of `start`. -/
abbrev directPointers : ℕ := 122

/-- `INODE_MAGIC`. -/
def inodeMagic : ℕ := 0x494e4f44

/-- `struct inode_disk`. -/
@[ext]
structure InodeDisk where
  /-- `length`, the file's size in bytes. -/
  length : ℤ
  /-- `magic`. -/
  magic : ℕ
  /-- `start`, the sectors of a file of at most 122 sectors. -/
  start : Fin directPointers → ℕ
  /-- `indirect`, the address of the table of sectors of a longer file. -/
  indirect : ℕ
  /-- `doubly_indirect`. -/
  doublyIndirect : ℕ
  /-- `isdir`. -/
  isdir : Bool

namespace InodeDisk

/-- `calloc (1, sizeof (struct inode_disk))`. -/
def zero : InodeDisk := ⟨0, 0, fun _ => 0, 0, 0, false⟩

/-- Word `j` of the inode in memory. -/
def word (d : InodeDisk) (j : ℕ) : ℕ :=
  if j = 0 then Bytes.ofSigned d.length
  else if j = 1 then d.magic
  else if h : j - 2 < directPointers then d.start ⟨j - 2, h⟩
  else if j = 124 then d.indirect
  else if j = 125 then d.doublyIndirect
  else if j = 126 then d.isdir.toNat
  else 0

/-- The inode as `memcpy` writes it to a sector: byte `i`. -/
def bytes (d : InodeDisk) (i : ℕ) : UInt8 := Bytes.pack d.word i

/-- A sector that holds the inode. -/
def encode (d : InodeDisk) : Block := fun i => d.bytes i.1

/-- The inode as `memcpy` reads it from a sector. -/
def decode (b : Block) : InodeDisk :=
  let w := Bytes.unpack fun i => b (Fin.ofNat sectorSize i)
  { length := Bytes.toSigned (w 0), magic := w 1, start := fun k => w (k.1 + 2), indirect := w 124,
    doublyIndirect := w 125, isdir := b (Fin.ofNat sectorSize 504) != 0 }

/-- Every member fits in its word. -/
structure Fits (d : InodeDisk) : Prop where
  length : Bytes.InRange d.length
  magic : d.magic < 2 ^ 32
  start : ∀ k, d.start k < 2 ^ 32
  indirect : d.indirect < 2 ^ 32
  doubly : d.doublyIndirect < 2 ^ 32

theorem fits_decode (b : Block) : (decode b).Fits := by
  have hlt : ∀ j, Bytes.unpack (fun i => b (Fin.ofNat sectorSize i)) j < 2 ^ 32 := fun j => Bytes.word_lt _
  refine ⟨?_, hlt 1, fun k => hlt (k.1 + 2), hlt 124, hlt 125⟩
  have := hlt 0
  simp only [decode, Bytes.toSigned, Bytes.InRange]
  split_ifs <;> omega

theorem unpack_encode (d : InodeDisk) {j : ℕ} (hj : j < 128) :
    Bytes.unpack (fun i => d.encode (Fin.ofNat sectorSize i)) j = d.word j % 2 ^ 32 := by
  rw [← Bytes.unpack_pack]
  refine Bytes.unpack_congr fun i hi => ?_
  simp only [encode, bytes, Fin.ofNat, Nat.mod_eq_of_lt (show 4 * j + i < sectorSize by unfold sectorSize; omega)]

/-- **An inode that fits is read back from its sector.** -/
theorem decode_encode {d : InodeDisk} (h : d.Fits) : decode d.encode = d := by
  have hw : ∀ j < 128, Bytes.unpack (fun i => d.encode (Fin.ofNat sectorSize i)) j = d.word j % 2 ^ 32 :=
    fun j hj => unpack_encode d hj
  ext k
  · simp only [decode, hw 0 (by decide)]
    rw [Nat.mod_eq_of_lt (by exact Bytes.ofSigned_lt _)]
    exact Bytes.toSigned_ofSigned h.length
  · simp only [decode, hw 1 (by decide)]
    exact Nat.mod_eq_of_lt h.magic
  · simp only [decode, hw (k.1 + 2) (by have := k.2; unfold directPointers at this; omega)]
    have : d.word (k.1 + 2) = d.start k := by
      have hk := k.2
      unfold directPointers at hk
      simp [word, directPointers]
    rw [this]
    exact Nat.mod_eq_of_lt (h.start k)
  · simp only [decode, hw 124 (by decide)]
    exact Nat.mod_eq_of_lt h.indirect
  · simp only [decode, hw 125 (by decide)]
    exact Nat.mod_eq_of_lt h.doubly
  · simp only [decode]
    have : d.encode (Fin.ofNat sectorSize 504) = UInt8.ofNat d.isdir.toNat := by
      change Bytes.byteOf (d.word (504 / 4)) (504 % 4) = _
      simp [Bytes.byteOf, word, show ¬ 124 < directPointers by decide]
    rw [this]
    cases d.isdir <;> rfl

end InodeDisk

end Pintos
