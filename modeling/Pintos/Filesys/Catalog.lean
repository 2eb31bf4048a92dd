import Pintos.Filesys.Format

/-!
# The file system through its names

What `filesys_create`, `filesys_open`, `filesys_remove`, `file_write` and
`file_close` keep. A *catalog* is a sound file system with the map that its root
directory represents: every name is bound to a file of its own that was not
removed, the current directory is the root directory, and no file that a caller
has open is the free map's or the root directory's.

An operation that does not return stops for a reason that is not an assertion of
`free_map_release`.
-/

namespace Pintos

open Library Library.Prog Library.Bytes

variable {k k' : Fs} {N N' : Nodes} {x x' : ℕ → ℕ} {m : CString → Option ℕ} {S : Set ℕ} {s p a : ℕ} {i : Inode} {nd nd' : Node}
  {nm : CString}

/-! ### Handles -/

/-- The directory at `p` is the root directory. -/
def AtRoot (k : Fs) (p : ℕ) : Prop := ∃ d i, k.dirs.cell p = some d ∧ k.inodes.cell d.inode = some i ∧ i.sector = 1

/-- The current directory is the root directory, if there is one yet, and the files of callers are files other than the
free map's and the root directory's. -/
structure Handles (k : Fs) : Prop where
  cur : k.currDir ≠ 0 → AtRoot k k.currDir
  files : ∀ p f, k.files.cell p = some f → p ≠ k.freeMapFile →
    0 ≤ f.pos ∧ f.pos < 2 ^ 31 ∧ ∀ i, k.inodes.cell f.inode = some i → 2 ≤ i.sector

/-- A directory at the root stays there. -/
theorem AtRoot.places {q : ℕ} (h : AtRoot k p) (hs : Sound k' N' x') (hp : Places k k') (hd : k'.dirs.cell q = k.dirs.cell p) :
    AtRoot k' q := by
  obtain ⟨d, i, hdir, hi, hsec⟩ := h
  rw [hdir] at hd
  obtain ⟨j, hj⟩ := hs.counted.dirs q d hd
  obtain ⟨i', hi', heq⟩ := hp.cell _ j hj (k.inodes.lt_next hi)
  rw [hi] at hi'
  cases hi'
  exact ⟨d, j, hd, hj, heq.symm.trans hsec⟩

/-- The files that callers had open. -/
theorem Handles.files_of (h : Handles k) (hs : Sound k N x) (hp : Places k k') {q : ℕ} {f : File} (hf : k.files.cell q = some f)
    (hq : q ≠ k.freeMapFile) : 0 ≤ f.pos ∧ f.pos < 2 ^ 31 ∧ ∀ i, k'.inodes.cell f.inode = some i → 2 ≤ i.sector := by
  obtain ⟨h0, h31, hsec⟩ := h.files q f hf hq
  refine ⟨h0, h31, fun j hj => ?_⟩
  obtain ⟨⟨i, hi⟩, -⟩ := hs.counted.files q f hf
  obtain ⟨i', hi', heq⟩ := hp.cell _ j hj (k.inodes.lt_next hi)
  rw [← heq]
  exact hsec i' hi'

theorem Handles.same (h : Handles k) (hs : Sound k N x) (hs' : Sound k' N' x') (hp : Places k k') (hh : SameHandles k k')
    (hf : k'.freeMapFile = k.freeMapFile) : Handles k' := by
  refine ⟨fun h0 => ?_, fun q f hq hne => ?_⟩
  · rw [hh.currDir] at h0 ⊢
    exact (h.cur h0).places hs' hp (by rw [hh.dirs])
  · rw [hh.files] at hq
    rw [hf] at hne
    exact h.files_of hs hp hq hne

theorem Steady.same (h : Steady k k') : SameHandles k k' := ⟨h.files, h.dirs, h.currDir⟩

/-! ### Catalogs -/

/-- **The root directory represents the map `m`** of a sound file system. -/
structure Catalog (k : Fs) (N : Nodes) (x : ℕ → ℕ) (m : CString → Option ℕ) : Prop where
  sound : Sound k N x
  sync : MapSync k N
  root : ∃ nd, N 1 = some nd ∧ nd.isdir = true ∧ DirOk k.buffers nd m
  target : ∀ nm t, m nm = some t → 2 ≤ t ∧ ¬ Removed k t ∧ ∃ ndt, N t = some ndt ∧ ndt.isdir = false
  inj : ∀ nm nm' t, m nm = some t → m nm' = some t → nm = nm'
  handles : Handles k

/-- A formatted file system is a catalog of no names. -/
theorem Formatted.catalog (h : Formatted k N) : Catalog k N (fun a => if a = 1 then 2 else 0) fun _ => none := by
  obtain ⟨nd, hN, hdir, -, hok⟩ := h.root
  refine ⟨h.sound, h.map.sync, ⟨nd, hN, hdir, hok⟩, nofun, nofun, fun h0 => absurd h.map.currDir h0, fun p f hf hp => ?_⟩
  exact absurd ((h.file.cell p f).1 hf).1 hp

namespace Catalog

theorem not_removed_root (h : Catalog k N x m) : ¬ Removed k 1 := fun hr => absurd (h.sound.removed_le hr) (by decide)

/-- Files that no name is bound to change, or handles. -/
theorem still (h : Catalog k N x m) (hs : Sound k' N' x') (hst : Still S k N k' N') (h1 : 1 ∉ S)
    (ht : ∀ nm t, m nm = some t → t ∉ S) (hh : Handles k') : Catalog k' N' x' m := by
  have hnode : ∀ t nd, t ∉ S → ¬ Removed k t → N t = some nd → N' t = some nd := by
    intro t nd ht hr hN
    rcases hst.nodes t nd ht hN with hN' | ⟨-, hr'⟩
    · exact hN'
    · exact absurd hr' hr
  obtain ⟨nd, hN, hdir, hok⟩ := h.root
  have hN' := hnode 1 nd h1 h.not_removed_root hN
  refine ⟨hs, hst.sync h.sync, ⟨nd, hN', hdir, hst.dirOk h1 Nat.one_ne_zero hs.wf hN' hok⟩, fun nm t hm => ?_, h.inj, hh⟩
  obtain ⟨h2, hr, ndt, hNt, hfile⟩ := h.target nm t hm
  exact ⟨h2, fun hr' => hr (hst.removed t (ht nm t hm) hr'), ndt, hnode t ndt (ht nm t hm) hr hNt, hfile⟩

/-- Only handles have changed. -/
theorem of_empty (h : Catalog k N x m) (hs : Sound k' N' x' ∧ Still ∅ k N k' N') (hh : Handles k') : Catalog k' N' x' m :=
  h.still hs.1 hs.2 (Set.notMem_empty _) (fun _ _ _ => Set.notMem_empty _) hh

/-- A file other than the root directory and the free map's is changed, or a new one comes. -/
theorem edited {new : List ℕ} (h : Catalog k N x m) (he : Edited k N s nd new nd' k') (h2 : 2 ≤ s)
    (hself : ∀ ndt, N s = some ndt → ndt = nd) : Catalog k' (Function.update N s (some nd')) x m := by
  obtain ⟨hs, hst⟩ := h.sound.edited he (by omega)
  have h1 : (1 : ℕ) ∉ ({s} : Set ℕ) := fun heq => by
    have := Set.mem_singleton_iff.1 heq
    omega
  obtain ⟨nd₁, hN, hdir, hok⟩ := h.root
  have hN' : Function.update N s (some nd') 1 = some nd₁ := by
    rw [Function.update_of_ne (by omega)]
    exact hN
  refine ⟨hs, hst.sync h.sync, ⟨nd₁, hN', hdir, hst.dirOk h1 Nat.one_ne_zero hs.wf hN' hok⟩, fun nm t hm => ?_, h.inj,
    h.handles.same h.sound hs he.steady.places he.steady.same he.steady.freeMapFile⟩
  obtain ⟨ht2, hr, ndt, hNt, hfile⟩ := h.target nm t hm
  refine ⟨ht2, fun hr' => hr (he.steady.removed hr'), ?_⟩
  by_cases hts : t = s
  · subst hts
    refine ⟨nd', Function.update_self _ _ _, ?_⟩
    rw [he.isdir, ← hself ndt hNt]
    exact hfile
  · exact ⟨ndt, by rw [Function.update_of_ne hts]; exact hNt, hfile⟩

end Catalog

/-! ### The current directory -/

/-- A directory for the root directory's inode is made and is the current one. -/
theorem Catalog.enter (h : Catalog k N x m) (hi : k.inodes.cell a = some i) (hsec : i.sector = 1) :
    Catalog (k.enter a) N x m ∧ AtRoot (k.enter a) (k.enter a).currDir := by
  obtain ⟨hs, hst⟩ := h.sound.enter hi
  have hroot : AtRoot (k.enter a) (k.enter a).currDir := by
    refine ⟨⟨a, 0⟩, { i with openCnt := i.openCnt + 1 }, k.dirs.cell_alloc_self _, ?_, hsec⟩
    change (k.inodes.set a _).cell a = _
    rw [Heap.cell_set_self, hi]
    rfl
  exact ⟨h.of_empty ⟨hs, hst⟩ ⟨fun _ => hroot, fun q f hq hne => h.handles.files_of h.sound hst.places hq hne⟩, hroot⟩

/-- An inode is opened. -/
theorem Catalog.opens (h : Catalog k N x m) (ho : Opens k s a k') (hN : N s = some nd) :
    Catalog k' N (Function.update x a (x a + 1)) m := by
  obtain ⟨hs, hst⟩ := h.sound.opens ho hN
  exact h.of_empty ⟨hs, hst⟩ (h.handles.same h.sound hs hst.places ⟨ho.files, ho.dirs, ho.currDir⟩ ho.freeMapFile)

/-- **`dir_makesure`** gives the root directory. -/
theorem dirMakesure_catalog (h : Catalog k N x m) :
    wp dirMakesure (fun p k' => ∃ x', Catalog k' N x' m ∧ AtRoot k' p) Benign k := by
  obtain ⟨nd, hN, -⟩ := h.root
  rw [dirMakesure, wp_bind, wp_gets, wp_bind, wp_onlyIf]
  refine ⟨fun _ => ?_, fun h0 => ?_⟩
  · rw [wp_bind]
    refine wp_mono (dirOpenRoot_spec h.sound) ?_ fun _ he => he.elim
    rintro p k' ⟨a, k₁, ho, rfl, rfl⟩
    obtain ⟨i, hi, hsec, -⟩ := ho.cell_self
    exact ⟨_, (h.opens ho hN).enter hi hsec⟩
  · exact ⟨x, h, h.handles.cur h0⟩

/-- **`dir_reopen`** of the root directory. -/
theorem dirReopen_catalog (h : Catalog k N x m) (hp : AtRoot k p) :
    wp (dirReopen p) (fun q k' => ∃ x', Catalog k' N x' m ∧ AtRoot k' q) Benign k := by
  obtain ⟨d, i, hd, hi, hsec⟩ := hp
  obtain ⟨nd, hN, -⟩ := h.root
  rw [dirReopen, wp_bind]
  refine wp_dirAt hd ?_
  rw [wp_bind]
  refine wp_mono (inodeReopen_spec hi) ?_ fun _ he => he.elim
  rintro _ k₁ ⟨rfl, rfl⟩
  have ho : Opens k 1 d.inode (k.openers d.inode 1) := .found hi hsec
  have hi' := ho.cell hi
  refine wp_mono (dirOpen_spec hi') ?_ fun _ he => he.elim
  rintro q k' ⟨rfl, rfl⟩
  exact ⟨_, (h.opens ho hN).enter hi' hsec⟩

/-- **`dir_close`** of the root directory. -/
theorem dirClose_catalog (h : Catalog k N x m) (hp : AtRoot k p) :
    wp (dirClose p) (fun _ k' => ∃ x', Catalog k' N x' m ∧ Still ∅ k N k' N ∧ ∀ b, x b ≤ x' b) Benign k := by
  obtain ⟨d, i, hd, hi, hsec⟩ := hp
  refine wp_mono (dirClose_spec h.sound hd hi) ?_ fun _ he => he.2
  rintro - k' ⟨k₁, N', k₂, a, hc, ho, rfl⟩
  obtain ⟨hs₁, hst₁⟩ := h.sound.dirClose hd hi hc
  have hnot : i.removed = false := by
    cases hrem : i.removed with
    | false => rfl
    | true => exact absurd (h.sound.removed _ i hi hrem) (by rw [hsec]; decide)
  have hNN : N' = N := by
    cases hc with
    | more => rfl
    | last => rfl
    | removed _ hrem => rw [hnot] at hrem; cases hrem
  subst hNN
  obtain ⟨nd, hN⟩ := hs₁.root
  obtain ⟨hs₂, hst₂⟩ := hs₁.opens ho hN
  obtain ⟨j, hj, hsecj, -⟩ := ho.cell_self
  obtain ⟨hs₃, hst₃⟩ := hs₂.enter hj
  have hst := (hst₁.trans hst₂).trans hst₃
  refine ⟨_, h.of_empty ⟨hs₃, hst⟩ ⟨fun _ => ?_, fun q f hq hne => ?_⟩, hst, fun b => ?_⟩
  · refine ⟨⟨a, 0⟩, { j with openCnt := j.openCnt + 1 }, k₂.dirs.cell_alloc_self _, ?_, hsecj⟩
    change (k₂.inodes.set a _).cell a = _
    rw [Heap.cell_set_self, hj]
    rfl
  · change k₂.files.cell q = some f at hq
    change q ≠ k₂.freeMapFile at hne
    rw [ho.files] at hq
    rw [ho.freeMapFile] at hne
    change k₁.files.cell q = some f at hq
    change q ≠ k₁.freeMapFile at hne
    rw [hc.files] at hq
    rw [hc.freeMapFile] at hne
    exact h.handles.files_of h.sound hst.places hq hne
  · by_cases hb : b = a
    · rw [hb, Function.update_self]
      exact Nat.le_succ _
    · rw [Function.update_of_ne hb]

/-! ### Creating -/

theorem Sound.file_ne_zero (h : Sound k N x) : k.freeMapFile ≠ 0 := by
  obtain ⟨f, -, -, hf, -⟩ := h.map
  exact k.files.ne_null hf

/-- The first two sectors are never free. -/
theorem Laid.two_le_of_clear {B : Buffers} {T : Heap Table} {M : Bitmap} (h : Laid B T M N) (hs : M.bit s = false) : 2 ≤ s := by
  obtain ⟨h0, h1⟩ := h.low
  by_contra hlt
  rcases (by omega : s = 0 ∨ s = 1) with rfl | rfl
  · rw [hs] at h0
    cases h0
  · rw [hs] at h1
    cases h1

/-- A sector is taken from the free map. -/
theorem Sound.allocated {b : ℕ} (h : Sound k N x) (ha : Allocated k N 0 b k') : Sound k' N x ∧ Still ∅ k N k' N := by
  have hsync := ha.sync h.file_ne_zero
  have hw := ha.wf
  have hcontent := ha.content
  have hcap := ha.capacity
  obtain ⟨B, rfl⟩ := ha.frame
  refine ⟨⟨hw, h.map, h.root, ⟨h.counted.files, h.counted.dirs, h.counted.count, h.counted.pos, h.counted.fresh, h.counted.deny⟩,
    h.removed⟩, fun s nd _ hN h0 j hj => ?_, fun _ _ _ hN => .inl hN, fun _ _ _ hN => hN, fun _ _ hr => hr, fun _ => hsync, hcap,
    rfl, (Places.refl k).cell, le_rfl⟩
  unfold byteAt
  rw [hcontent _ (h.wf.laid.notMem_mapBlocks hN (List.mem_cons_of_mem _ (block_mem hj)) (.inl h0))]

/-- The files without the one in sector `s`. -/
theorem update_none_eq_some {t : ℕ} (h : Function.update N s none t = some nd) : t ≠ s ∧ N t = some nd := by
  by_cases hs : t = s
  · rw [hs, Function.update_self] at h
    cases h
  · rw [Function.update_of_ne hs] at h
    exact ⟨hs, h⟩

/-- The sector of a file that no one has open is released, and the file forgotten: the file system stays well formed. -/
theorem Wf.withdraw {B : Buffers} (hw : Wf k N 0) (hm : MapOpen k N) (hN : N s = some nd) (h2 : 2 ≤ s)
    (hnone : ∀ a i, k.inodes.cell a = some i → i.sector ≠ s)
    (hB : Persisted N { k with freeMap := k.freeMap.setMultiple s 1 false } B) :
    Wf { k with freeMap := k.freeMap.setMultiple s 1 false, buffers := B } (Function.update N s none) 0 ∧
      MapOpen { k with freeMap := k.freeMap.setMultiple s 1 false, buffers := B } (Function.update N s none) ∧
      MapSync { k with freeMap := k.freeMap.setMultiple s 1 false, buffers := B } (Function.update N s none) := by
  have h0 : (0 : ℕ) ≠ s := by omega
  have hclear : Cleared k.freeMap [s] (k.freeMap.setMultiple s 1 false) := (Cleared.nil _).cons
  have hw' : Wf { k with freeMap := k.freeMap.setMultiple s 1 false } (Function.update N s none) 0 := by
    refine (hw.forget hnone).of_cleared hclear (fun b hb => ?_) fun s' nd' hN' b hb hmem => ?_
    · rw [List.mem_singleton.1 hb]
      exact h2
    · obtain ⟨hs, hN'⟩ := update_none_eq_some hN'
      rw [List.mem_singleton.1 hmem] at hb
      exact hs (hw.laid.disjoint s nd s' nd' hN hN' s List.mem_cons_self hb).symm
  have hmapN : ∀ nd₀, Function.update N s none 0 = some nd₀ ↔ N 0 = some nd₀ := by
    intro nd₀
    rw [Function.update_of_ne h0]
  have hB' : Persisted (Function.update N s none) { k with freeMap := k.freeMap.setMultiple s 1 false } B := by
    refine ⟨hB.wf, hB.capacity, fun b hb => hB.content b ?_, fun nd₀ hN₀ => hB.sync nd₀ ((hmapN nd₀).1 hN₀),
      fun nd₀ hN₀ => hB.rest nd₀ ((hmapN nd₀).1 hN₀)⟩
    rwa [mapBlocks, Function.update_of_ne h0] at hb
  obtain ⟨f, j, nd₀, hf, hj, hsec, hdeny, hN₀, hle⟩ := hm
  refine ⟨hw'.persisted (fun nd₁ hN₁ => ?_) hB', ⟨f, j, nd₀, hf, hj, hsec, hdeny, (hmapN nd₀).2 hN₀, hle⟩, hB'.sync⟩
  rw [hmapN nd₁, hN₀] at hN₁
  cases hN₁
  exact hle

/-- The sector of a file that no one has open is released, and the file forgotten. -/
theorem Sound.withdraw {B : Buffers} (h : Sound k N x) (hN : N s = some nd) (h2 : 2 ≤ s)
    (hnone : ∀ a i, k.inodes.cell a = some i → i.sector ≠ s)
    (hB : Persisted N { k with freeMap := k.freeMap.setMultiple s 1 false } B) :
    Sound { k with freeMap := k.freeMap.setMultiple s 1 false, buffers := B } (Function.update N s none) x ∧
      Still {s} k N { k with freeMap := k.freeMap.setMultiple s 1 false, buffers := B } (Function.update N s none) := by
  obtain ⟨hw, hm, hsync⟩ := h.wf.withdraw h.map hN h2 hnone hB
  refine ⟨⟨hw, hm, ?_, ⟨h.counted.files, h.counted.dirs, h.counted.count, h.counted.pos, h.counted.fresh, h.counted.deny⟩,
    h.removed⟩, fun s' nd' _ hN' h0' l hl => ?_, fun s' nd' hs' hN' => ?_, fun s' nd' hs' hN' => (update_none_eq_some hN').2,
    fun _ _ hr => hr, fun _ => hsync, hB.capacity, rfl, (Places.refl k).cell, le_rfl⟩
  · obtain ⟨nd₁, hN₁⟩ := h.root
    exact ⟨nd₁, by rw [Function.update_of_ne (by omega)]; exact hN₁⟩
  · have hN := (update_none_eq_some hN').2
    unfold byteAt
    rw [hB.content _ (h.wf.laid.notMem_mapBlocks hN (List.mem_cons_of_mem _ (block_mem hl)) (.inl h0'))]
  · rw [Function.update_of_ne fun heq => hs' heq]
    exact .inl hN'

/-- A name is bound to a new file. -/
theorem Catalog.bind {new : List ℕ} {t : ℕ} (h : Catalog k N x m) (hN : N 1 = some nd) (he : Edited k N 1 nd new nd' k')
    (hok : DirOk k'.buffers nd' (Function.update m nm (some t))) (ht : ∀ nm, m nm ≠ some t)
    (htarget : 2 ≤ t ∧ ¬ Removed k t ∧ ∃ ndt, N t = some ndt ∧ ndt.isdir = false) :
    Catalog k' (Function.update N 1 (some nd')) x (Function.update m nm (some t)) := by
  obtain ⟨hs, hst⟩ := h.sound.edited he Nat.one_ne_zero
  obtain ⟨nd₁, hN₁, hdir, -⟩ := h.root
  rw [hN] at hN₁
  cases hN₁
  have hold : ∀ t', 2 ≤ t' ∧ ¬ Removed k t' ∧ (∃ ndt, N t' = some ndt ∧ ndt.isdir = false) →
      2 ≤ t' ∧ ¬ Removed k' t' ∧ ∃ ndt, Function.update N 1 (some nd') t' = some ndt ∧ ndt.isdir = false := by
    rintro t' ⟨h2, hr, ndt, hNt, hfile⟩
    exact ⟨h2, fun hr' => hr (he.steady.removed hr'), ndt, by rw [Function.update_of_ne (by omega)]; exact hNt, hfile⟩
  refine ⟨hs, hst.sync h.sync, ⟨nd', Function.update_self _ _ _, he.isdir.trans hdir, hok⟩, fun nm' t' hm => ?_,
    fun nm₁ nm₂ t' h₁ h₂ => ?_, h.handles.same h.sound hs he.steady.places he.steady.same he.steady.freeMapFile⟩
  · by_cases hnm : nm' = nm
    · rw [hnm, Function.update_self, Option.some.injEq] at hm
      rw [← hm]
      exact hold t htarget
    · rw [Function.update_of_ne hnm] at hm
      exact hold t' (h.target nm' t' hm)
  · rw [Function.update_apply] at h₁ h₂
    split_ifs at h₁ h₂ with hn₁ hn₂ hn₂
    · rw [hn₁, hn₂]
    · rw [← Option.some.inj h₁] at h₂
      exact absurd h₂ (ht nm₂)
    · rw [← Option.some.inj h₂] at h₁
      exact absurd h₁ (ht nm₁)
    · exact h.inj nm₁ nm₂ t' h₁ h₂

theorem Catalog.reads (h : Catalog k N x m) (hr : k.Reads k') : Catalog k' N x m := by
  obtain ⟨hs, hst⟩ := h.sound.reads hr
  refine h.of_empty ⟨hs, hst⟩ (h.handles.same h.sound hs hst.places hr.same ?_)
  obtain ⟨B, -, rfl⟩ := hr
  rfl

/-- The part of `filesys_create` for a sector that was allocated: the file is made and bound, or the sector is
released. -/
theorem createFile_catalog {L : ℤ} (h : Catalog k N x m) (hp : AtRoot k p) (hN : N s = none) (h2 : 2 ≤ s)
    (hlt : s < k.buffers.disk.capacity) (hbit : k.freeMap.bit s = true) (hfree : ∀ s' nd', N s' = some nd' → s ∉ s' :: nd'.blocks)
    (hL : L < 2 ^ 31) {rest : Bool → FsM Bool} {Q : Bool → Fs → Prop}
    (hrest : ∀ added k' N' m', Catalog k' N' x m' → AtRoot k' p → wp (rest added) Q Benign k') :
    wp (do
        let created ← inodeCreate s L false
        let added ← if created then dirAdd p (some nm) s else pure false
        onlyIf (added = false ∧ s ≠ 0) (freeMapRelease persistFreeMap s 1)
        rest added) Q Benign k := by
  have hroom : Laid.Room k.buffers k.freeMap N s (.empty false) := by
    refine ⟨fun b hb => ?_, by rintro _ ⟨⟩, by simp [Node.empty], fun s' nd' hs' _ b hb => ?_, fun _ _ _ _ h0 => absurd rfl h0⟩
    · simp only [Node.empty, List.mem_singleton] at hb
      subst hb
      exact ⟨hlt, hbit⟩
    · simp only [Node.empty, List.mem_singleton] at hb
      subst hb
      exact hfree s' nd' hs'
  have hunbound : ∀ nm, m nm ≠ some s := by
    intro nm hm
    obtain ⟨-, -, ndt, hNt, -⟩ := h.target nm s hm
    rw [hN] at hNt
    cases hNt
  have hclosed : ∀ b j, k.inodes.cell b = some j → j.sector ≠ s := by
    intro b j hj hs
    obtain ⟨ndj, hNj, -⟩ := h.sound.wf.opened.node b j hj
    rw [hs, hN] at hNj
    cases hNj
  rw [wp_bind]
  refine wp_mono (inodeCreate_spec h.sound.wf (fun _ => h.sound.map) hN hroom hL) ?_ fun _ he => he.2
  rintro ok k₁ ⟨rfl, -, new, nds, hc⟩
  have h₁ := h.edited hc.edited h2 fun ndt hNt => by rw [hN] at hNt; cases hNt
  have hp₁ : AtRoot k₁ p := hp.places h₁.sound hc.edited.steady.places (by rw [hc.edited.steady.dirs])
  have hclosed₁ : ∀ b j, k₁.inodes.cell b = some j → j.sector ≠ s := by
    intro b j hj
    obtain ⟨i, hi, heq⟩ := hc.edited.steady.places.cell b j hj
      (by rw [← hc.edited.steady.next]; exact k₁.inodes.lt_next hj)
    rw [← heq]
    exact hclosed b i hi
  obtain ⟨nd₁, hN₁, hdir₁, hok₁⟩ := h₁.root
  obtain ⟨d, i, hd, hi, hsec⟩ := id hp₁
  have hcap := k.buffers.disk.capacity_le
  dsimp only
  rw [if_pos rfl, wp_bind]
  refine wp_mono (dirAdd_spec h₁.sound.wf h₁.sound.map hd hi (by rw [hsec]; exact hN₁) (by rw [hsec]; decide)
    (h₁.sound.counted.deny _ i hi) hok₁ (show s < 2 ^ 32 by omega)) ?_ fun _ he => he.2
  rintro _ k₂ (⟨rfl, -, -, new', nd', he, hok, -⟩ | ⟨rfl, -, hread⟩)
  · -- the file is bound
    rw [hsec] at he
    rw [wp_bind, onlyIf, if_neg (by simp), wp_pure]
    have hnew : ¬ Removed k₁ s := by
      rintro ⟨b, j, hj, hs, -⟩
      exact hclosed₁ b j hj hs
    have h₂ := h₁.bind hN₁ he hok hunbound ⟨h2, hnew, nds, Function.update_self _ _ _, hc.edited.isdir⟩
    exact hrest _ _ _ _ h₂ (hp₁.places h₂.sound he.steady.places (by rw [he.steady.dirs]))
  · -- the name was not valid, or bound: the sector is released
    have h₂ := h₁.reads hread
    have hp₂ : AtRoot k₂ p := hp₁.places h₂.sound (h₁.sound.reads hread).2.places (by rw [hread.same.dirs])
    have hNs : Function.update N s (some nds) s = some nds := Function.update_self _ _ _
    have hmark := h₂.sound.wf.laid.marked s nds hNs s List.mem_cons_self
    obtain ⟨nd₀, hN₀, hfile⟩ := h₂.sound.map.mapFile h₂.sound.wf
    have hclosed₂ : ∀ b j, k₂.inodes.cell b = some j → j.sector ≠ s := by
      intro b j hj
      rw [hread.cell] at hj
      exact hclosed₁ b j hj
    rw [wp_bind, onlyIf, if_pos ⟨rfl, by omega⟩]
    refine wp_mono (freeMapRelease_spec h₂.sound.wf.cache hN₀ hfile (by rw [h₂.sound.wf.laid.size]; exact hmark.1) hmark.2) ?_
      fun _ he => he.2
    rintro - k₃ ⟨B, hB, rfl⟩
    obtain ⟨hs₃, hst₃⟩ := h₂.sound.withdraw hNs h2 hclosed₂ hB
    refine hrest _ _ _ m (h₂.still hs₃ hst₃ (fun heq => ?_) (fun nm t hm heq => ?_)
      (h₂.handles.same h₂.sound hs₃ hst₃.places ⟨rfl, rfl, rfl⟩ rfl)) (hp₂.places hs₃ hst₃.places rfl)
    · have := Set.mem_singleton_iff.1 heq
      omega
    · rw [Set.mem_singleton_iff.1 heq] at hm
      exact hunbound nm hm

/-- **`filesys_create`.** -/
theorem filesysCreate_catalog {L : ℤ} (h : Catalog k N x m) (hL : L < 2 ^ 31) :
    wp (filesysCreate (some nm) L) (fun _ k' => ∃ N' x' m', Catalog k' N' x' m') Benign k := by
  rw [filesysCreate, wp_bind]
  refine wp_post (dirMakesure_catalog h) ?_
  rintro cur k₁ ⟨x₁, h₁, hcur⟩
  rw [wp_bind]
  refine wp_post (dirReopen_catalog h₁ hcur) ?_
  rintro p k₂ ⟨x₂, h₂, hp⟩
  obtain ⟨d, i, hd, hi, hsec⟩ := id hp
  have hnot : i.removed = false := by
    cases hrem : i.removed with
    | false => rfl
    | true => exact absurd (h₂.sound.removed _ i hi hrem) (by rw [hsec]; decide)
  rw [wp_bind]
  refine wp_dirAt hd ?_
  rw [wp_bind]
  refine wp_inodeAt hi ?_
  -- whatever happens to the file, the directory is closed at the end
  have hclose : ∀ success k' N' x' m', Catalog k' N' x' m' → AtRoot k' p →
      wp (do
        dirClose p
        pure success) (fun (_ : Bool) k' => ∃ N' x' m', Catalog k' N' x' m') Benign k' := by
    intro success k' N' x' m' h' hp'
    rw [wp_bind]
    refine wp_post (dirClose_catalog h' hp') ?_
    rintro - k'' ⟨x'', h'', -⟩
    exact ⟨N', x'', m', h''⟩
  dsimp only
  rw [if_neg (by simp [hnot]), wp_bind]
  refine wp_mono (freeMapAllocate_spec persistFreeMap_persists h₂.sound.wf fun _ => h₂.sound.map) ?_ fun _ he => he.2
  rintro _ k₃ (⟨s, rfl, ha⟩ | ⟨rfl, rfl, -⟩)
  · obtain ⟨hs, hst⟩ := h₂.sound.allocated ha
    have hh : SameHandles k₂ k₃ ∧ k₃.freeMapFile = k₂.freeMapFile ∧ k₃.freeMap = k₂.freeMap.setMultiple s 1 true := by
      obtain ⟨B, rfl⟩ := ha.frame
      exact ⟨⟨rfl, rfl, rfl⟩, rfl, rfl⟩
    have h₃ := h₂.of_empty ⟨hs, hst⟩ (h₂.handles.same h₂.sound hs hst.places hh.1 hh.2.1)
    have hfree : ∀ s' nd', N s' = some nd' → s ∉ s' :: nd'.blocks := fun s' nd' hN' =>
      h₂.sound.wf.laid.notMem_of_clear ha.clear hN'
    have h2 : 2 ≤ s := h₂.sound.wf.laid.two_le_of_clear ha.clear
    have hN : N s = none := by
      cases hN : N s with
      | none => rfl
      | some nd => exact absurd List.mem_cons_self (hfree s nd hN)
    exact createFile_catalog h₃ (hp.places hs hst.places (by rw [hh.1.dirs])) hN h2 (by rw [ha.capacity]; exact ha.lt)
      (by rw [hh.2.2, Bitmap.bit_setMultiple_one, if_pos rfl]) hfree hL fun added k' N' m' h' hp' => hclose added k' N' _ m' h' hp'
  · exact hclose false _ N x₂ m h₂ hp

/-! ### Opening -/

/-- An inode to which there is a reference is in memory. -/
theorem Sound.live (h : Sound k N x) (hx : 0 < x a) : ∃ i, k.inodes.cell a = some i := by
  cases hi : k.inodes.cell a with
  | none => exact absurd (h.counted.fresh a hi) (by omega)
  | some i => exact ⟨i, rfl⟩

/-- `file_open` of a file that a name is bound to. -/
theorem fileOpen_catalog (h : Catalog k N x m) (hi : k.inodes.cell a = some i) (h2 : 2 ≤ i.sector) :
    wp (fileOpen a) (fun _ k' => Catalog k' N x m) Benign k := by
  refine wp_mono (fileOpen_spec hi) ?_ fun _ he => he.elim
  rintro _ k' ⟨-, rfl⟩
  obtain ⟨hs, hst⟩ := h.sound.fileOpen hi
  refine h.of_empty ⟨hs, hst⟩ ⟨fun h0 => (h.handles.cur h0).places hs hst.places rfl, fun q f hq hne => ?_⟩
  by_cases hnew : q = k.files.next
  · subst hnew
    change (k.files.alloc _).cell _ = _ at hq
    rw [Heap.cell_alloc_self] at hq
    cases hq
    refine ⟨le_rfl, show (0 : ℤ) < 2 ^ 31 by decide, fun j hj => ?_⟩
    obtain ⟨i', hi', heq⟩ := hst.places.cell a j hj (k.inodes.lt_next hi)
    rw [hi] at hi'
    cases hi'
    rw [← heq]
    exact h2
  · exact h.handles.files_of h.sound hst.places ((k.files.cell_alloc_of_ne _ hnew).symm.trans hq) hne

/-- The root directory is not removed. -/
theorem Sound.root_kept (h : Sound k N x) (hi : k.inodes.cell a = some i) (hsec : i.sector = 1) : i.removed = false := by
  cases hrem : i.removed with
  | false => rfl
  | true => exact absurd (h.removed _ i hi hrem) (by rw [hsec]; decide)

/-- **`filesys_open`.** -/
theorem filesysOpen_catalog (h : Catalog k N x m) :
    wp (filesysOpen (some nm)) (fun _ k' => ∃ x', Catalog k' N x' m) Benign k := by
  rw [filesysOpen, wp_bind]
  refine wp_post (dirMakesure_catalog h) ?_
  rintro cur k₁ ⟨x₁, h₁, hcur⟩
  rw [wp_bind]
  refine wp_post (dirReopen_catalog h₁ hcur) ?_
  rintro p k₂ ⟨x₂, h₂, hp⟩
  obtain ⟨d, i, hd, hi, hsec⟩ := id hp
  rw [wp_bind]
  refine wp_dirAt hd ?_
  rw [wp_bind]
  refine wp_inodeAt hi ?_
  obtain ⟨nd, hN, -, hok⟩ := h₂.root
  have htarget : ∀ t, m nm = some t → ∃ ndt, N t = some ndt := fun t ht => by
    obtain ⟨-, -, ndt, hNt, -⟩ := h₂.target nm t ht
    exact ⟨ndt, hNt⟩
  rw [if_neg (by simp [h₂.sound.root_kept hi hsec]), wp_bind]
  refine wp_mono (dirLookup_spec h₂.sound.wf hd hi (by rw [hsec]; exact hN) hok htarget) ?_ fun _ he => he.2
  rintro b k₃ (⟨-, rfl, hread⟩ | ⟨t, k', hbind, hread, ho⟩)
  · -- there is no such name, and `file_open` is given the null pointer
    have hp₃ : AtRoot k₃ p := hp.places (h₂.reads hread).sound (h₂.sound.reads hread).2.places (by rw [hread.same.dirs])
    rw [wp_bind]
    refine wp_post (dirClose_catalog (h₂.reads hread) hp₃) ?_
    rintro - k₄ ⟨x₄, h₄, -⟩
    exact ⟨x₄, h₄⟩
  · have h₃ := h₂.reads hread
    obtain ⟨h2, -, ndt, hNt, -⟩ := h₃.target nm t hbind
    have h₄ := h₃.opens ho hNt
    have hst := (h₂.sound.reads hread).2.trans (h₃.sound.opens ho hNt).2
    have hp₄ : AtRoot k₃ p := hp.places h₄.sound hst.places (by rw [ho.dirs, hread.same.dirs])
    obtain ⟨j, hj, hsecj, -⟩ := ho.cell_self
    rw [wp_bind]
    refine wp_post (dirClose_catalog h₄ hp₄) ?_
    rintro - k₅ ⟨x₅, h₅, hst₅, hx⟩
    -- closing the directory has not closed the file
    have hpos : 0 < x₅ b := by
      have := hx b
      rw [Function.update_self] at this
      omega
    obtain ⟨j', hj'⟩ := h₅.sound.live hpos
    obtain ⟨j₀, hj₀, heq⟩ := hst₅.places.cell b j' hj' (k₃.inodes.lt_next hj)
    rw [hj] at hj₀
    cases hj₀
    refine wp_post (fileOpen_catalog h₅ hj' (by rw [← heq, hsecj]; exact h2)) ?_
    intro q k₆ h₆
    exact ⟨x₅, h₆⟩

/-! ### Removing -/

/-- A name is no longer bound. -/
theorem Catalog.unbind {t : ℕ} (h : Catalog k N x m) (hm : m nm = some t) (hs : Sound k' N' x') (hst : Still {1, t} k N k' N')
    (hN' : N' 1 = some nd') (hdir : nd'.isdir = true) (hok : DirOk k'.buffers nd' (Function.update m nm none)) (hh : Handles k') :
    Catalog k' N' x' (Function.update m nm none) := by
  refine ⟨hs, hst.sync h.sync, ⟨nd', hN', hdir, hok⟩, fun nm' t' hm' => ?_, fun nm₁ nm₂ t' h₁ h₂ => ?_, hh⟩
  · have hne : nm' ≠ nm := by
      rintro rfl
      rw [Function.update_self] at hm'
      cases hm'
    rw [Function.update_of_ne hne] at hm'
    obtain ⟨h2, hr, ndt, hNt, hfile⟩ := h.target nm' t' hm'
    have hS : t' ∉ ({1, t} : Set ℕ) := by
      rintro (heq | heq)
      · omega
      · rw [Set.mem_singleton_iff.1 heq] at hm'
        exact hne (h.inj nm' nm t hm' hm)
    refine ⟨h2, fun hr' => hr (hst.removed t' hS hr'), ndt, ?_, hfile⟩
    rcases hst.nodes t' ndt hS hNt with hN | ⟨-, hr'⟩
    · exact hN
    · exact absurd hr' hr
  · rw [Function.update_apply] at h₁ h₂
    split_ifs at h₁ h₂
    exact h.inj nm₁ nm₂ t' h₁ h₂

/-- **`filesys_remove`.** -/
theorem filesysRemove_catalog (h : Catalog k N x m) :
    wp (filesysRemove (some nm)) (fun _ k' => ∃ N' x' m', Catalog k' N' x' m') Benign k := by
  rw [filesysRemove, wp_bind]
  refine wp_post (dirMakesure_catalog h) ?_
  rintro p k₁ ⟨x₁, h₁, hp⟩
  obtain ⟨d, i, hd, hi, hsec⟩ := id hp
  obtain ⟨nd, hN, hdir, hok⟩ := h₁.root
  have htarget : ∀ t, m nm = some t → 2 ≤ t ∧ ∃ ndt, N t = some ndt := fun t ht => by
    obtain ⟨h2, -, ndt, hNt, -⟩ := h₁.target nm t ht
    exact ⟨h2, ndt, hNt⟩
  refine wp_mono (dirRemove_spec h₁.sound hd hi (by rw [hsec]; exact hN) (by rw [hsec]; decide) hok htarget) ?_ fun _ he => he.2
  rintro _ k' ⟨hsame, ⟨rfl, hs, hst⟩ | ⟨rfl, t, N', nd', hbind, hs, hst, hN', hdir', hok'⟩⟩
  · exact ⟨N, x₁, m, h₁.of_empty ⟨hs, hst⟩ (h₁.handles.same h₁.sound hs hst.places hsame hst.freeMapFile)⟩
  · rw [hsec] at hst hN'
    exact ⟨N', x₁, _, h₁.unbind hbind hs hst hN' (hdir'.trans hdir) hok'
      (h₁.handles.same h₁.sound hs hst.places hsame hst.freeMapFile)⟩

/-! ### Writing -/

/-- The position of a file is changed. -/
def Fs.seek (k : Fs) (p : ℕ) (pos : ℤ) : Fs := { k with files := k.files.set p fun f => { f with pos := pos } }

theorem Fs.seek_cell {q : ℕ} {g : File} {pos : ℤ} (hg : (k.seek p pos).files.cell q = some g) :
    ∃ f, k.files.cell q = some f ∧ g = if q = p then { f with pos := pos } else f := by
  by_cases hq : q = p
  · subst hq
    rw [Fs.seek, Heap.cell_set_self] at hg
    obtain ⟨f, hf, rfl⟩ := Option.map_eq_some_iff.1 hg
    exact ⟨f, hf, by rw [if_pos rfl]⟩
  · rw [Fs.seek, k.files.cell_set_of_ne _ hq] at hg
    exact ⟨g, hg, by rw [if_neg hq]⟩

theorem Fs.holders_seek {f : File} (hf : k.files.cell p = some f) (pos : ℤ) (b : ℕ) : (k.seek p pos).holders b = k.holders b := by
  have := k.files.count_set (fun f => f.inode == b) (fun f => { f with pos := pos }) hf
  simp only [Nat.add_right_cancel_iff] at this
  simp only [Fs.holders, Fs.seek, this]

theorem MapOpen.seek (h : MapOpen k N) (p : ℕ) (pos : ℤ) : MapOpen (k.seek p pos) N := by
  obtain ⟨g, j, nd₀, hg, hj, hsec, hdeny, hN₀, hle⟩ := h
  by_cases hq : k.freeMapFile = p
  · refine ⟨{ g with pos := pos }, j, nd₀, ?_, hj, hsec, hdeny, hN₀, hle⟩
    change (k.files.set p _).cell k.freeMapFile = _
    rw [hq, Heap.cell_set_self, ← hq, hg]
    rfl
  · exact ⟨g, j, nd₀, (k.files.cell_set_of_ne _ hq).trans hg, hj, hsec, hdeny, hN₀, hle⟩

theorem Sound.seek {f : File} (h : Sound k N x) (hf : k.files.cell p = some f) (pos : ℤ) :
    Sound (k.seek p pos) N x ∧ Still ∅ k N (k.seek p pos) N := by
  refine ⟨⟨⟨h.wf.cache, h.wf.laid, h.wf.opened⟩, h.map.seek p pos, h.root, ⟨fun q g hg => ?_, h.counted.dirs, fun b j hj => ?_, h.counted.pos,
    h.counted.fresh, h.counted.deny⟩, h.removed⟩, .of_keeps (.refl h.wf.cache) rfl rfl (fun _ _ hr => hr) ⟨(Places.refl k).cell, le_rfl⟩⟩
  · obtain ⟨f', hf', rfl⟩ := Fs.seek_cell hg
    have := h.counted.files q f' hf'
    split_ifs <;> exact this
  · rw [Fs.holders_seek hf]
    exact h.counted.count b j hj

theorem Catalog.seek {f : File} {pos : ℤ} (h : Catalog k N x m) (hf : k.files.cell p = some f) (h0 : 0 ≤ pos) (h31 : pos < 2 ^ 31) :
    Catalog (k.seek p pos) N x m := by
  obtain ⟨hs, hst⟩ := h.sound.seek hf pos
  refine h.of_empty ⟨hs, hst⟩ ⟨fun hc => (h.handles.cur hc).places hs hst.places rfl, fun q g hg hne => ?_⟩
  obtain ⟨f', hf', rfl⟩ := Fs.seek_cell hg
  obtain ⟨h0', h31', hsec⟩ := h.handles.files q f' hf' hne
  split_ifs
  · exact ⟨h0, h31, hsec⟩
  · exact ⟨h0', h31', hsec⟩

/-- **`inode_write_at`** on a file of a caller. What is written ends within 512 sectors. -/
theorem inodeWriteAt_catalog {buf : ℕ → UInt8} {size off : ℤ} (h : Catalog k N x m) (hi : k.inodes.cell a = some i)
    (h2 : 2 ≤ i.sector) (hsize : size < 2 ^ 31) (h0 : 0 ≤ off) (hoff : off < 2 ^ 31) :
    wp (inodeWriteAt persistFreeMap a buf size off)
      (fun w k' => ∃ N', Catalog k' N' x m ∧ k'.files = k.files ∧ off + w < 2 ^ 31) Benign k := by
  obtain ⟨nd, hN, hr⟩ := h.sound.wf.opened.node a i hi
  obtain ⟨o, rfl⟩ := Int.eq_ofNat_of_zero_le h0
  have hstops : StopsFor Benign (inodeWriteAt persistFreeMap a buf size o) :=
    .bind (inodeAt_stops a) fun i => .ite (.pure _) (writeLoop_stops persistFreeMap_stops _ _ _ _ _ _)
  refine wp_iff.2 ⟨fun w k' hrun => ?_, fun e he => wp_of_error (hstops k) he⟩
  obtain ⟨new, nd', he, -, -, hlen, -⟩ :=
    inodeWriteAt_result h.sound.wf h.sound.map hi hN (by omega) hsize (by omega) hrun
  refine ⟨_, h.edited he h2 fun ndt hNt => ?_, he.steady.files, ?_⟩
  · rw [hN] at hNt
    exact (Option.some.inj hNt).symm
  · have hlen' := (he.wf.laid.disk i.sector nd' (Function.update_self _ _ _)).length_lt
    split_ifs at hlen with hw
    · rw [hw]
      omega
    · omega

/-- The file at `p` is one that a caller opened. -/
def IsHandle (k : Fs) (p : ℕ) : Prop := p ≠ k.freeMapFile ∧ ∃ f, k.files.cell p = some f

/-- A caller's file, with its inode. -/
theorem Catalog.handle (h : Catalog k N x m) (hp : IsHandle k p) :
    ∃ f i, k.files.cell p = some f ∧ k.inodes.cell f.inode = some i ∧ 2 ≤ i.sector ∧ 0 ≤ f.pos ∧ f.pos < 2 ^ 31 := by
  obtain ⟨hne, f, hf⟩ := hp
  obtain ⟨⟨i, hi⟩, -⟩ := h.sound.counted.files p f hf
  obtain ⟨h0, h31, hsec⟩ := h.handles.files p f hf hne
  exact ⟨f, i, hf, hi, hsec i hi, h0, h31⟩

/-- **`file_write_at`.** -/
theorem fileWriteAt_catalog {buf : ℕ → UInt8} {size ofs : ℤ} (h : Catalog k N x m) (hp : IsHandle k p) (hsize : size < 2 ^ 31)
    (h0 : 0 ≤ ofs) (hofs : ofs < 2 ^ 31) :
    wp (fileWriteAt p buf size ofs) (fun _ k' => ∃ N', Catalog k' N' x m) Benign k := by
  obtain ⟨f, i, hf, hi, h2, -⟩ := h.handle hp
  rw [fileWriteAt, wp_bind]
  refine wp_fileAt hf (wp_post (inodeWriteAt_catalog h hi h2 hsize h0 hofs) ?_)
  rintro w k' ⟨N', h', -⟩
  exact ⟨N', h'⟩

/-- **`file_write`.** -/
theorem fileWrite_catalog {buf : ℕ → UInt8} {size : ℤ} (h : Catalog k N x m) (hp : IsHandle k p) (hsize : size < 2 ^ 31) :
    wp (fileWrite p buf size) (fun _ k' => ∃ N', Catalog k' N' x m) Benign k := by
  obtain ⟨f, i, hf, hi, h2, h0, h31⟩ := h.handle hp
  rw [fileWrite, wp_bind]
  refine wp_fileAt hf ?_
  rw [wp_bind]
  refine wp_post (inodeWriteAt_catalog h hi h2 hsize h0 h31) ?_
  rintro w k' ⟨N', h', hfiles, hend⟩
  have hf' : k'.files.cell p = some f := by rw [hfiles]; exact hf
  have hpos : wrap (f.pos + w) = f.pos + w := wrap_eq ⟨by omega, by omega⟩
  have hseek : k'.files.set p (fun g => { g with pos := wrap (g.pos + w) }) = k'.files.set p fun g => { g with pos := f.pos + w } :=
    k'.files.set_congr hf' (by rw [hpos])
  rw [wp_bind, updateFile, wp_modify, wp_pure, hseek]
  exact ⟨N', h'.seek hf' (by omega) hend⟩

/-! ### Closing -/

/-- **`file_close`.** -/
theorem fileClose_catalog (h : Catalog k N x m) (hp : IsHandle k p) :
    wp (fileClose p) (fun _ k' => ∃ N', Catalog k' N' x m) Benign k := by
  obtain ⟨f, i, hf, hi, -⟩ := h.handle hp
  refine wp_mono (fileClose_closes h.sound hf hi) ?_ fun _ he => he.2
  rintro - k' ⟨k₁, N', hc, rfl⟩
  obtain ⟨hs, hst⟩ := h.sound.fileClose hf hi hp.1 hc
  refine ⟨N', h.of_empty ⟨hs, hst⟩ ⟨fun h0 => ?_, fun q g hq hne => ?_⟩⟩
  · have hcur : k.currDir ≠ 0 := fun hz => h0 (hc.currDir.trans hz)
    refine (h.handles.cur hcur).places hs hst.places ?_
    change k₁.dirs.cell k₁.currDir = _
    rw [hc.dirs, hc.currDir]
  · change q ≠ k₁.freeMapFile at hne
    rw [hc.freeMapFile] at hne
    exact h.handles.files_of h.sound hst.places (k.files.cell_of_free hq) hne

/-- **`inode_close`** of a reference that no file and no directory holds. -/
theorem inodeClose_catalog (h : Catalog k N x m) (hi : k.inodes.cell a = some i) (hx : (k.holders a : ℤ) < i.openCnt) :
    wp (inodeClose a) (fun _ k' => ∃ N' x', Catalog k' N' x' m) Benign k := by
  have hpos : 0 < x a := by
    have := h.sound.counted.count a i hi
    omega
  refine wp_mono (inodeClose_closes h.sound.wf h.sound.map hi (h.sound.removed a i hi)) ?_ fun _ he => he.2
  rintro - k' ⟨N', hc⟩
  obtain ⟨hs, hst⟩ := h.sound.closes hc hi hpos
  exact ⟨N', _, h.of_empty ⟨hs, hst⟩ (h.handles.same h.sound hs hst.places ⟨hc.files, hc.dirs, hc.currDir⟩ hc.freeMapFile)⟩

end Pintos
