import Pintos.Filesys.Tree

/-!
# Looking files up in a tree

`dir_lookup` and `filesys_open` in any directory of a tree. They only read, and stop
only if a directory lies in the last sector of the disk: a sector is read together
with the one after it.
-/

namespace Pintos

open Library Library.Prog

variable {k k' k'' : Fs} {N : Nodes} {H : Bindings} {s t a p : ℕ} {nd : Node} {i : Inode} {d : Dir} {nm : CString}

/-- Every name of a directory is bound to a file. -/
def Linked (N : Nodes) (H : Bindings) : Prop :=
  ∀ s nd, N s = some nd → nd.isdir = true → ∀ nm t, H s nm = some t → ∃ ndt, N t = some ndt

/-- No directory lies in the last sector of the disk. -/
def DirsClear (k : Fs) (N : Nodes) : Prop := ∀ s nd, N s = some nd → nd.isdir = true → nd.Clear k

/-- The file in sector `s` is a directory. -/
def Nodes.isDir (N : Nodes) (s : ℕ) : Bool := (N s).any Node.isdir

/-- The `struct file` at `q` is for the file in sector `t`. -/
def Fs.FileOf (k : Fs) (q t : ℕ) : Prop := ∃ f i, k.files.cell q = some f ∧ k.inodes.cell f.inode = some i ∧ i.sector = t

theorem DirsClear.of_capacity (h : DirsClear k N) (hc : k'.buffers.disk.capacity = k.buffers.disk.capacity) : DirsClear k' N := by
  intro s nd hN hdir b hb
  rw [hc]
  exact h s nd hN hdir b hb

theorem Looked.capacity (h : Looked k N H k') : k'.buffers.disk.capacity = k.buffers.disk.capacity := h.data.keeps.capacity

/-- What stops an operation after files were looked up would have stopped it before. -/
theorem Looked.unless (h : Looked k N H k') (e : Halt) (he : Unless (DirsClear k' N) e) : Unless (DirsClear k N) e :=
  he.mono (fun hc => hc.of_capacity h.capacity) e

theorem Nodes.isDir_iff {N : Nodes} : N.isDir s = true ↔ ∃ nd, N s = some nd ∧ nd.isdir = true := by
  unfold Nodes.isDir
  rw [Option.any_eq_true]

namespace Tree

theorem isDir_eq (h : Tree k N H) (hi : k.inodes.cell a = some i) : N.isDir i.sector = i.data.isdir := by
  obtain ⟨nd, hN, hdir⟩ := h.node hi
  rw [Nodes.isDir, hN, Option.any_some, hdir]

theorem dirOf_node (h : Tree k N H) (hp : k.DirOf p i) : ∃ nd, N i.sector = some nd ∧ nd.isdir = true := by
  obtain ⟨d, hd, hi⟩ := hp
  obtain ⟨nd, hN, hdir⟩ := h.node hi
  exact ⟨nd, hN, by rw [hdir]; exact h.dirs p d i hd hi⟩

/-- A `struct file` is made for an inode. -/
theorem fileOpen (h : Tree k N H) (hi : k.inodes.cell a = some i) :
    Accessed k N H { k.openers a 1 with files := k.files.alloc ⟨a, 0, false⟩ } := by
  have hpos := h.pos a i hi
  have ho := h.openers (n := 1) hi (by omega)
  have hhold := k.openers_holding a (n := 1) (by decide)
  obtain ⟨f, j, nd₀, hf, hj, hrest⟩ := ho.map
  refine ⟨⟨⟨ho.wf.cache, ho.wf.laid, ho.wf.opened⟩, ⟨f, j, nd₀, ?_, hj, hrest⟩, ho.root, ho.plain, ho.pos, ho.deny, ho.dirs,
    ho.live, ho.ok⟩, ⟨rfl, rfl, .refl h.wf.cache⟩, ⟨hhold.inode, hhold.new, hhold.dir, hhold.next⟩⟩
  exact k.files.cell_alloc _ hf

end Tree

/-- **`dir_lookup`** opens the file that a name is bound to. -/
theorem dirLookup_tree (h : Tree k N H) (hl : Linked N H) (hp : k.DirOf p i) :
    wp (dirLookup p (some nm)) (fun a k' => Looked k N H k' ∧ k'.currDir = k.currDir ∧
      (H i.sector nm = none ∧ a = 0 ∨ ∃ j, H i.sector nm = some j.sector ∧ k'.inodes.cell a = some j))
      (Unless (DirsClear k N)) k := by
  obtain ⟨nd, hN, hdir⟩ := h.dirOf_node hp
  obtain ⟨d, hd, hi⟩ := hp
  refine wp_mono (dirLookup_spec h.wf hd hi hN (h.ok _ nd hN hdir) fun t ht => hl _ nd hN hdir nm t ht) ?_
    (Unless.mono fun hc => hc _ nd hN hdir)
  rintro a k' (⟨hnone, rfl, hread⟩ | ⟨t, k₁, hbind, hread, ho⟩)
  · refine ⟨h.looked_reads hread, ?_, .inl ⟨hnone, rfl⟩⟩
    obtain ⟨B, -, rfl⟩ := hread
    rfl
  · obtain ⟨ndt, hNt⟩ := hl _ nd hN hdir nm t hbind
    have h₁ := h.looked_reads hread
    refine ⟨h₁.trans (h₁.tree.looked_opens ho hNt), ?_, ?_⟩
    · rw [ho.currDir]
      obtain ⟨B, -, rfl⟩ := hread
      rfl
    · obtain ⟨j, hj, hsec, -⟩ := ho.cell_self
      exact .inr ⟨j, by rw [hbind, hsec], hj⟩

/-- What `filesys_open` returns for the name `nm` in the directory in sector `s`: a new `struct file` for the file that the
name is bound to, or the null pointer and no `struct file` if there is none or the directory was removed. -/
def FileResult (k : Fs) (H : Bindings) (s : ℕ) (nm : CString) (q : ℕ) (k' : Fs) : Prop :=
  (¬ Removed k s ∧ ∃ t, H s nm = some t ∧ k'.FileOf q t) ∨ (Removed k s ∨ H s nm = none) ∧ q = 0 ∧ k'.files = k.files

/-- The `struct file` that `file_open` makes. -/
theorem Fs.fileOf_opened (hi : k.inodes.cell a = some i) :
    ({ k.openers a 1 with files := k.files.alloc ⟨a, 0, false⟩ } : Fs).FileOf k.files.next i.sector := by
  refine ⟨⟨a, 0, false⟩, { i with openCnt := i.openCnt + 1 }, k.files.cell_alloc_self _, ?_, rfl⟩
  change (k.inodes.set a _).cell a = _
  rw [Heap.cell_set_self, hi]
  rfl

/-- `file_open` of the null pointer. -/
theorem fileOpen_null : wp (fileOpen 0) (fun q k' => q = 0 ∧ k' = k) (fun _ => False) k := by
  rw [fileOpen, if_pos rfl, wp_bind, inodeClose]
  exact ⟨rfl, rfl⟩

/-- **`filesys_open`.** -/
theorem filesysOpen_tree (h : Tree k N H) (hl : Linked N H) (hc : k.Cwd s) :
    wp (filesysOpen (some nm)) (fun q k' => Accessed k N H k' ∧ FileResult k H s nm q k') (Unless (DirsClear k N)) k := by
  rw [filesysOpen]
  refine wp_seq (dirMakesure_cwd h hc) (fun _ => False.elim) ?_
  rintro cur k₁ ⟨hl₁, -, i, ⟨d, hd, hi⟩, hsec⟩
  refine wp_seq (dirReopen_tree hl₁.tree hd hi) (fun _ => False.elim) ?_
  rintro dir k₂ ⟨hl₂, -, hnext, hd₂, hi₂⟩
  have hrem : Removed k s ↔ i.removed = true := by
    rw [← hl₁.holding.removed_iff, ← hsec]
    exact hl₁.tree.removed_iff hi
  rw [wp_bind]
  refine wp_dirAt hd₂ ?_
  rw [wp_bind]
  refine wp_inodeAt hi₂ ?_
  rw [wp_ite]
  refine ⟨fun hremoved => ?_, fun hremoved => ?_⟩
  · exact ⟨(hl₁.trans hl₂).toAccessed, .inr ⟨.inl (hrem.2 hremoved), rfl, (hl₁.trans hl₂).files⟩⟩
  have hkept : ¬ Removed k s := fun hr => hremoved (hrem.1 hr)
  refine wp_seq (dirLookup_tree hl₂.tree hl ⟨_, hd₂, hi₂⟩) (fun e he => hl₁.unless e (hl₂.unless e he)) ?_
  rintro a k₃ ⟨hl₃, -, hfound⟩
  dsimp only at hfound
  rw [hsec] at hfound
  obtain ⟨n, data, hn, hi₃⟩ := hl₃.holding.inode _ _ hi₂
  have hpos := hl₁.tree.pos _ i hi
  refine wp_seq (dirClose_tree hl₃.tree (hl₃.holding.dir _ _ hd₂) hi₃ (by dsimp only; omega)) (fun _ => False.elim) ?_
  rintro - k₄ ⟨hsame, hl₄, -⟩
  -- the directory has the openers that it had, or more
  have hhold := (hl₂.holding.trans hl₃.holding).closed (q := dir) hi hi₃ (by dsimp only; omega) (by omega) (hl₃.holding.dir _ _ hd₂)
  have hlook : Looked k N H k₄ :=
    ⟨⟨hl₄.tree, ((hl₁.data.trans hl₂.data).trans hl₃.data).trans hsame, hl₁.holding.trans (hhold.trans hl₄.holding)⟩,
      hl₄.files.trans ((hl₁.trans hl₂).trans hl₃).files⟩
  rcases hfound with ⟨hnone, rfl⟩ | ⟨j, hbind, hj⟩
  · refine wp_mono fileOpen_null ?_ fun _ => False.elim
    rintro q k' ⟨rfl, rfl⟩
    exact ⟨hlook.toAccessed, .inr ⟨.inr hnone, rfl, hlook.files⟩⟩
  · -- closing the directory has not closed the file
    have hj' : ∃ j', ({ k₃.openers d.inode (-1) with dirs := k₃.dirs.free dir } : Fs).inodes.cell a = some j' ∧
        j'.sector = j.sector := by
      change ∃ j', (k₃.inodes.set d.inode _).cell a = some j' ∧ _
      rw [k₃.inodes.cell_set _ hj]
      refine ⟨_, rfl, ?_⟩
      split_ifs
      · rfl
      · rfl
    obtain ⟨j', hj', hsecj⟩ := hj'
    obtain ⟨m, data', -, hj₄⟩ := hl₄.holding.inode a j' hj'
    refine wp_mono (fileOpen_spec hj₄) ?_ fun _ => False.elim
    rintro q k' ⟨rfl, rfl⟩
    have hfile := Fs.fileOf_opened hj₄
    dsimp only at hfile
    rw [hsecj] at hfile
    exact ⟨hlook.toAccessed.trans (hl₄.tree.fileOpen hj₄), .inl ⟨hkept, j.sector, hbind, hfile⟩⟩

end Pintos
