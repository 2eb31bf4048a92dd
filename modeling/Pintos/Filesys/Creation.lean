import Pintos.Filesys.TreeEdits

/-!
# Failed creations

`filesys_create` gives a sector back when it fails: the sector of the inode. The
sectors that `inode_create` has allocated for the file's bytes stay marked, and belong
to no file. So a call that fails leaves no trace only if it had no bytes to allocate,
or failed before (`filesysCreate_traceless_iff`).
-/

namespace Pintos

open Library Library.Prog

variable {k k' k₁ : Fs} {N : Nodes} {H : Bindings} {s a p : ℕ} {nd : Node} {i : Inode} {d : Dir} {nm : CString} {L : ℤ}

/-- An entry in use of the directory in sector `s` binds `nm` to sector `t`. -/
def Binds (k : Fs) (s : ℕ) (nm : CString) (t : ℕ) : Prop :=
  ∃ bytes n, contentsAt k s = some bytes ∧ 24 * n + 24 ≤ bytes.length ∧ (entryOf bytes n).binding = some (nm, t)

/-- **No trace**: the free map is the same, and so is every binding of every directory. -/
def Traceless (N : Nodes) (k k' : Fs) : Prop :=
  k'.freeMap = k.freeMap ∧ ∀ s nd, N s = some nd → nd.isdir = true → ∀ nm t, Binds k' s nm t ↔ Binds k s nm t

/-- The current directory, or the root directory if there is none, was removed. -/
def Fs.CurrentRemoved (k : Fs) : Prop :=
  (k.currDir ≠ 0 ∧ ∃ i, k.DirOf k.currDir i ∧ i.removed = true) ∨ k.currDir = 0 ∧ Removed k 1

theorem Binds.congr (h : contentsAt k' s = contentsAt k s) {t : ℕ} : Binds k' s nm t ↔ Binds k s nm t := by
  unfold Binds
  rw [h]

theorem SameData.traceless (h : SameData k k') (N : Nodes) : Traceless N k k' :=
  ⟨h.freeMap, fun s _ _ _ _ _ => Binds.congr (h.contentsAt_eq s)⟩

/-! ### The current directory -/

/-- `dir_reopen` of what is no directory. -/
theorem dirReopen_null (hp : ∀ i, ¬ k.DirOf p i) : wp (dirReopen p) (fun q _ => q = 0) (fun _ => True) k := by
  rw [dirReopen, wp_bind, dirAt, wp_bind, wp_gets, wp_orStop]
  refine ⟨fun d hd => ?_, fun _ => trivial⟩
  rw [wp_bind, inodeReopen, wp_bind, wp_onlyIf]
  refine ⟨fun _ => ?_, fun h0 => ?_⟩
  · rw [wp_bind]
    exact wp_inodeAt_of fun i hi => absurd ⟨d, hd, hi⟩ (hp i)
  · rw [wp_pure, not_not.1 h0]
    rfl

/-- Whether the current directory was removed, by its sector. -/
theorem Tree.currentRemoved_iff (h : Tree k N H) (hc : k.Cwd s) : k.CurrentRemoved ↔ Removed k s := by
  unfold Fs.CurrentRemoved
  rcases hc with ⟨h0, rfl⟩ | ⟨i, hi, rfl⟩
  · simp [h0]
  · rw [h.removed_dirOf hi]
    have hne := Fs.dirOf_ne_zero hi
    constructor
    · rintro (⟨-, j, hj, hrem⟩ | ⟨h0, -⟩)
      · rw [Fs.dirOf_unique hi hj]
        exact hrem
      · exact absurd h0 hne
    · exact fun hrem => .inl ⟨hne, i, hi, hrem⟩

/-- `filesys_create` stops if what is the current directory is none. -/
theorem filesysCreate_lost (h : Tree k N H) (hc : ∀ s, ¬ k.Cwd s) :
    wp (filesysCreate (some nm) L) (fun _ _ => False) (fun _ => True) k := by
  have hne : k.currDir ≠ 0 := fun h0 => hc 1 (.inl ⟨h0, rfl⟩)
  have hnone : ∀ i, ¬ k.DirOf k.currDir i := fun i hi => hc i.sector (.inr ⟨i, hi, rfl⟩)
  rw [filesysCreate]
  refine wp_seq (dirMakesure_tree h) (fun _ => False.elim) ?_
  rintro p k₁ ⟨-, rfl, ⟨-, rfl⟩ | ⟨h0, -⟩⟩
  · refine wp_seq (dirReopen_null hnone) (fun _ _ => trivial) ?_
    rintro q k₂ rfl
    rw [wp_bind, dirAt, wp_bind, wp_gets, wp_orStop]
    refine ⟨fun d hd => ?_, fun _ => trivial⟩
    rw [k₂.dirs.null] at hd
    cases hd
  · exact absurd h0 hne

/-! ### What is left behind -/

/-- The free map is the same exactly if there were no bytes to allocate. -/
theorem Refused.traceless_iff {n t : ℕ} {new : List ℕ} (h : Refused k N H n t new k') (hw : Wf k N 0) :
    Traceless N k k' ↔ n = 0 := by
  have hnew : new = [] ↔ n = 0 := by
    rw [← List.length_eq_zero_iff, h.count, sectorsFor]
    omega
  rw [← hnew]
  constructor
  · rintro ⟨hmap, -⟩
    rw [List.eq_nil_iff_forall_not_mem]
    intro b hb
    have hbit := h.bits b
    rw [hmap, (h.fresh b (List.mem_cons_of_mem _ hb)).2, decide_eq_true hb] at hbit
    cases hbit
  · intro hnil
    refine ⟨?_, fun s nd hN hdir nm t => ?_⟩
    · have hcnt := h.bitCnt
      have hbit : k'.freeMap.bit = k.freeMap.bit := by
        funext j
        rw [h.bits, hnil]
        simp
      cases hk' : k'.freeMap
      cases hk : k.freeMap
      rw [hk, hk'] at hcnt hbit
      rw [Bitmap.mk.injEq]
      exact ⟨hcnt, hbit⟩
    · exact Binds.congr (h.bytes.contentsAt_eq hw h.tree.wf hN hN (h.tree.ne_zero hN hdir))

/-- **`filesys_create`** that returns false. -/
theorem CreateResult.traceless_iff (h : Tree k N H) (hc : k.Cwd s) (hr : CreateResult k N H s nm L false k') :
    Traceless N k k' ↔ L = 0 ∨ k.CurrentRemoved ∨ k.Full := by
  rw [h.currentRemoved_iff hc]
  rcases hr with ⟨hr, -⟩ | ⟨-, ⟨hwhy, -, hsame⟩ | ⟨hkept, hfull, h0, -, t, new, href⟩⟩
  · cases hr
  · exact iff_of_true (hsame.traceless N) (.inr hwhy)
  · rw [href.traceless_iff h.wf, or_iff_left (not_or.2 ⟨hkept, hfull⟩)]
    omega

/-- **A failed creation leaves no trace** exactly if the file was to have no bytes, or the call failed before a sector was
allocated: because the directory was removed, or because no sector is free. -/
theorem filesysCreate_traceless_iff (h : Tree k N H) (hL : L < 2 ^ 31)
    (hret : filesysCreate (some nm) L k = .ok (false, k')) :
    Traceless N k k' ↔ L = 0 ∨ k.CurrentRemoved ∨ k.Full := by
  by_cases hc : ∃ s, k.Cwd s
  · obtain ⟨s, hc⟩ := hc
    obtain ⟨-, -, -, hr⟩ := wp_of_ok (filesysCreate_tree h hc hL) hret
    exact hr.traceless_iff h hc
  · push Not at hc
    exact (wp_of_ok (filesysCreate_lost h hc) hret).elim

/-- On a disk of sixteen sectors, a file of 512 bytes with an empty name: sector 5 is marked afterwards. -/
theorem emptyName_marks : ∃ k N k', Tree k N (fun _ _ => none) ∧ filesysCreate (some ⟨[], by decide⟩) 512 k = .ok (false, k') ∧
    k.freeMap.bit 5 = false ∧ k'.freeMap.bit 5 = true := by
  have hcheck : (filesysInit true).returns (fun _ k => (filesysCreate (some ⟨[], by decide⟩) 512).returns (fun r k' =>
      !r && !k.freeMap.bit 5 && k'.freeMap.bit 5) k) (Fs.boot (Disk.blank 16 (by decide))) = true := by
    decide +kernel
  obtain ⟨⟨⟩, k, hformat, hcheck⟩ := exists_of_returns hcheck
  obtain ⟨r, k', hret, hcheck⟩ := exists_of_returns hcheck
  simp only [Bool.and_eq_true, Bool.not_eq_true'] at hcheck
  obtain ⟨⟨rfl, hclear⟩, hset⟩ := hcheck
  obtain ⟨N, hf, hplain⟩ := wp_of_ok (filesysInit_plain _) hformat
  exact ⟨k, N, k', hf.tree hplain, hret, hclear, hset⟩

/-- The empty name is refused, and the sector of the file's bytes is lost. -/
theorem filesysCreate_traceless_iff_empty : ∃ k N k', Tree k N (fun _ _ => none) ∧
    filesysCreate (some ⟨[], by decide⟩) 512 k = .ok (false, k') ∧
    (Traceless N k k' ↔ (512 : ℤ) = 0 ∨ k.CurrentRemoved ∨ k.Full) := by
  obtain ⟨k, N, k', h, hret, -, -⟩ := emptyName_marks
  exact ⟨k, N, k', h, hret, filesysCreate_traceless_iff h (by decide) hret⟩

/-- **A failed creation leaves a trace.** -/
theorem filesysCreate_leaks : ∃ k N k', Tree k N (fun _ _ => none) ∧
    filesysCreate (some ⟨[], by decide⟩) 512 k = .ok (false, k') ∧ ¬ Traceless N k k' := by
  obtain ⟨k, N, k', h, hret, hclear, hset⟩ := emptyName_marks
  refine ⟨k, N, k', h, hret, fun htrace => ?_⟩
  rw [htrace.1, hclear] at hset
  cases hset

end Pintos
