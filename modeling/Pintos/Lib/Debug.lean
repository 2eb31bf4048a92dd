import Pintos.Library.Prog

/-!
# Halting

The reasons for which the kernel code stops instead of returning: a failed
`ASSERT`, a `PANIC`, an access through a pointer that points to no object (or
outside the object), or the end of the calling process.
-/

namespace Pintos

/-- Why a kernel function does not return. -/
inductive Halt where
  /-- `ASSERT (sec_no < d->capacity)` or `ASSERT (sec_no < (1UL << 28))` in `select_sector`. -/
  | sectorOutOfRange
  /-- `ASSERT (bitmap_all (free_map, sector, cnt))` in `free_map_release`. -/
  | sectorNotAllocated
  /-- `ASSERT (start + cnt <= b->bit_cnt)` in `bitmap_contains`, `bitmap_set_multiple`. -/
  | bitOutOfRange
  /-- `ASSERT (length >= 0)` in `inode_create`. -/
  | negativeLength
  /-- `PANIC("Fail to allocate free map.\n")` in `inode_grow`. -/
  | diskFull
  /-- `PANIC("File size should be smaller than disk size(%d Bytes)\n", ...)` in `inode_grow`. -/
  | fileTooBig
  /-- `PANIC("test case please not here\n")` in `byte_to_sector`, `PANIC("NOT HERE\n")` in `inode_close`. -/
  | notImplemented
  /-- `NOT_REACHED()`. -/
  | notReached
  /-- `ASSERT (name != NULL)` in `directory.c`. -/
  | nullName
  /-- `ASSERT (inode->deny_write_cnt <= inode->open_cnt)` and `ASSERT (inode->deny_write_cnt > 0)`. -/
  | denyWrite
  /-- `ASSERT (new_pos >= 0)` in `file_seek`. -/
  | negativePos
  /-- `PANIC ("free map creation failed")` and its siblings in `free-map.c` and `filesys.c`. -/
  | formatFailed
  /-- An access through a null or dangling pointer, or outside an array. -/
  | badPointer
  /-- The kernel heap has no memory left. -/
  | noMemory
  /-- The recursion of the free map into itself has used up the kernel stack. -/
  | kernelStack
  /-- `thread_exit ()`: the calling process ends. -/
  | exit
  deriving DecidableEq, Repr

end Pintos
