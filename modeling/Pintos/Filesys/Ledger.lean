import Pintos.Filesys.Contents
import Pintos.Filesys.References

/-!
# Reference counts along runs

Whoever opens and closes inodes, files and directories keeps a ledger: the inode
pointers not yet closed or handed over, and how often each inode was handed over
to a file or a directory. Along every run in which each handle is closed once,
`open_cnt` is the number of references and of the times that the inode was handed
over together (`open_cnt_eq_references_iff`). So it counts the references only of
an inode that no file and no directory has taken over.
-/

namespace Pintos

open Library Library.Prog

variable {N N' : Nodes} {s a p : ℕ} {i : Inode} {x : ℕ → ℕ}

/-- The file system, and what its callers hold. -/
structure Ledger where
  /-- The file system. -/
  fs : Fs
  /-- How many pointers to the inode at an address are neither closed nor handed over. -/
  raw : ℕ → ℕ
  /-- How often the inode at an address was handed over to a file or a directory. -/
  taken : ℕ → ℕ

variable {l l' : Ledger}

namespace Ledger

/-- A pointer is returned. -/
def receive (a : ℕ) (l : Ledger) : Ledger := { l with raw := Function.update l.raw a (l.raw a + 1) }

/-- A pointer is given away. -/
def give (a : ℕ) (l : Ledger) : Ledger := { l with raw := Function.update l.raw a (l.raw a - 1) }

/-- The inode is handed over. -/
def take (a : ℕ) (l : Ledger) : Ledger := { l with taken := Function.update l.taken a (l.taken a + 1) }

/-- The references to the inode at `a`: files, directories and pointers. -/
def references (l : Ledger) (a : ℕ) : ℕ := l.fs.holders a + l.raw a

end Ledger

/-- An operation of the file system. -/
def onFs {α : Type} (m : FsM α) : Prog Ledger Halt α := within Ledger.fs (fun k l => { l with fs := k }) m

/-- The operations on handles. -/
inductive HandleOp where
  /-- `inode_open`. -/
  | inodeOpen (sector : ℕ)
  /-- `inode_reopen`. -/
  | inodeReopen (a : ℕ)
  /-- `inode_close`. -/
  | inodeClose (a : ℕ)
  /-- `inode_remove`. -/
  | inodeRemove (a : ℕ)
  /-- `file_open`. -/
  | fileOpen (a : ℕ)
  /-- `file_reopen`. -/
  | fileReopen (p : ℕ)
  /-- `file_close`. -/
  | fileClose (p : ℕ)
  /-- `dir_open`. -/
  | dirOpen (a : ℕ)
  /-- `dir_reopen`. -/
  | dirReopen (p : ℕ)
  /-- `dir_close`. -/
  | dirClose (p : ℕ)

/-- An operation on handles, with its entry in the ledger. `dir_close` opens the root directory besides, which
takes the root's inode over. -/
def handleStep : HandleOp → Prog Ledger Halt ℕ
  | .inodeOpen s => do
    let a ← onFs (inodeOpen s)
    modify (.receive a)
    pure a
  | .inodeReopen a => do
    let b ← onFs (inodeReopen a)
    modify (.receive b)
    pure b
  | .inodeClose a => do
    onFs (inodeClose a)
    modify (.give a)
    pure 0
  | .inodeRemove a => do
    onFs (inodeRemove a)
    pure 0
  | .fileOpen a => do
    let p ← onFs (fileOpen a)
    modify fun l => (l.give a).take a
    pure p
  | .fileReopen p => do
    let f ← onFs (fileAt p)
    let q ← onFs (fileReopen p)
    modify (.take f.inode)
    pure q
  | .fileClose p => do
    onFs (fileClose p)
    pure 0
  | .dirOpen a => do
    let p ← onFs (dirOpen a)
    modify fun l => (l.give a).take a
    pure p
  | .dirReopen p => do
    let d ← onFs (dirAt p)
    let q ← onFs (dirReopen p)
    modify (.take d.inode)
    pure q
  | .dirClose p => do
    onFs (dirClose p)
    let d ← onFs (do let q ← gets Fs.currDir; dirAt q)
    modify (.take d.inode)
    pure 0

/-- Sector `s` holds the inode of a file. -/
def IsInode (k : Fs) (s : ℕ) : Prop := ∃ N x nd, Sound k N x ∧ N s = some nd

/-- Each handle is used while it is held, and closed once. The free map's file stays open, and neither the
free map nor the root directory is removed. -/
def HandleOp.Guard (l : Ledger) : HandleOp → Prop
  | .inodeOpen s => IsInode l.fs s
  | .inodeReopen a => ∃ i, l.fs.inodes.cell a = some i
  | .inodeClose a => 0 < l.raw a
  | .inodeRemove a => ∃ i, l.fs.inodes.cell a = some i ∧ 2 ≤ i.sector
  | .fileOpen a => 0 < l.raw a
  | .fileReopen p => ∃ f, l.fs.files.cell p = some f
  | .fileClose p => ∃ f, l.fs.files.cell p = some f ∧ p ≠ l.fs.freeMapFile
  | .dirOpen a => 0 < l.raw a
  | .dirReopen p => ∃ d, l.fs.dirs.cell p = some d
  | .dirClose p => ∃ d, l.fs.dirs.cell p = some d

/-- **The ledger balances**: `open_cnt` is the references and the times handed over together. -/
def Balanced (l : Ledger) : Prop := ∃ N, Sound l.fs N fun a => l.raw a + l.taken a

theorem wp_onFs {α : Type} {m : FsM α} {Q : α → Ledger → Prop} {E : Halt → Prop} :
    wp (onFs m) Q E l ↔ wp m (fun r k => Q r { l with fs := k }) E l.fs := wp_within

theorem Sound.congr {k : Fs} {x' : ℕ → ℕ} (h : Sound k N x) (hx : ∀ b, x' b = x b) : Sound k N x' := by
  rw [funext hx]
  exact h

/-- A pointer that is held points to an inode in memory. -/
theorem Balanced.live (h : Balanced l) (hraw : 0 < l.raw a) : ∃ i, l.fs.inodes.cell a = some i := by
  obtain ⟨N, hs⟩ := h
  cases hc : l.fs.inodes.cell a with
  | some i => exact ⟨i, rfl⟩
  | none =>
    have := hs.counted.fresh a hc
    omega

/-! ### One operation -/

theorem inodeRemove_spec {k : Fs} (hi : k.inodes.cell a = some i) :
    wp (inodeRemove a) (fun _ k' => k' = { k with inodes := k.inodes.set a fun i => { i with removed := true } })
      (fun _ => False) k := by
  rw [inodeRemove, wp_bind]
  refine wp_inodeAt hi ?_
  rw [updateInode, wp_modify]

/-- **`inode_remove`** of an inode that is neither the free map's nor the root directory's. -/
theorem Sound.inodeRemove {k : Fs} (h : Sound k N x) (hi : k.inodes.cell a = some i) (hs : 2 ≤ i.sector) :
    Sound { k with inodes := k.inodes.set a fun i => { i with removed := true } } N x := by
  have hcases : ∀ b j, (k.inodes.set a fun i => { i with removed := true }).cell b = some j → ∃ j₀, k.inodes.cell b = some j₀ ∧
      j.sector = j₀.sector ∧ j.openCnt = j₀.openCnt ∧ j.denyWriteCnt = j₀.denyWriteCnt ∧ (b = a ∨ j.removed = j₀.removed) := by
    intro b j hj
    by_cases hb : b = a
    · subst hb
      rw [Heap.cell_set_self] at hj
      obtain ⟨j₀, hj₀, rfl⟩ := Option.map_eq_some_iff.1 hj
      exact ⟨j₀, hj₀, rfl, rfl, rfl, .inl rfl⟩
    · rw [k.inodes.cell_set_of_ne _ hb] at hj
      exact ⟨j, hj, rfl, rfl, rfl, .inr rfl⟩
  have hlive : ∀ b j, k.inodes.cell b = some j →
      ∃ j', (k.inodes.set a fun i => { i with removed := true }).cell b = some j' ∧ j'.sector = j.sector ∧
        j'.denyWriteCnt = j.denyWriteCnt := by
    intro b j hj
    by_cases hb : b = a
    · subst hb
      exact ⟨{ j with removed := true }, by rw [Heap.cell_set_self, hj]; rfl, rfl, rfl⟩
    · exact ⟨j, by rw [k.inodes.cell_set_of_ne _ hb]; exact hj, rfl, rfl⟩
  refine ⟨h.wf.set a fun _ => ⟨rfl, rfl⟩, ?_, h.root, ⟨fun p f hp => ?_, fun p d hp => ?_, fun b j hj => ?_, fun b j hj => ?_,
    fun b hb => ?_, fun b j hj => ?_⟩, fun b j hj hrem => ?_⟩
  · obtain ⟨f, j, nd₀, hf, hj, hsec, hdeny, hrest⟩ := h.map
    obtain ⟨j', hj', hsec', hdeny'⟩ := hlive _ j hj
    exact ⟨f, j', nd₀, hf, hj', hsec'.trans hsec, hdeny'.trans hdeny, hrest⟩
  · obtain ⟨⟨j, hj⟩, hdeny⟩ := h.counted.files p f hp
    obtain ⟨j', hj', -⟩ := hlive _ j hj
    exact ⟨⟨j', hj'⟩, hdeny⟩
  · obtain ⟨j, hj⟩ := h.counted.dirs p d hp
    obtain ⟨j', hj', -⟩ := hlive _ j hj
    exact ⟨j', hj'⟩
  · obtain ⟨j₀, hj₀, -, hcnt, -⟩ := hcases b j hj
    rw [hcnt]
    exact h.counted.count b j₀ hj₀
  · obtain ⟨j₀, hj₀, -, hcnt, -⟩ := hcases b j hj
    rw [hcnt]
    exact h.counted.pos b j₀ hj₀
  · refine h.counted.fresh b (Option.eq_none_iff_forall_ne_some.2 fun j hj => ?_)
    obtain ⟨j', hj', -⟩ := hlive b j hj
    change (k.inodes.set a _).cell b = none at hb
    rw [hb] at hj'
    cases hj'
  · obtain ⟨j₀, hj₀, -, -, hdeny, -⟩ := hcases b j hj
    rw [hdeny]
    exact h.counted.deny b j₀ hj₀
  · obtain ⟨j₀, hj₀, hsec, -, -, rfl | hrem'⟩ := hcases b j hj
    · rw [hi] at hj₀
      cases hj₀
      omega
    · rw [hsec]
      exact h.removed b j₀ hj₀ (hrem' ▸ hrem)

/-- A pointer given to a file or a directory is entered as handed over. -/
theorem Ledger.give_take (l : Ledger) (hraw : 0 < l.raw a) (b : ℕ) :
    ((l.give a).take a).raw b + ((l.give a).take a).taken b = l.raw b + l.taken b := by
  by_cases hb : b = a
  · subst hb
    simp only [Ledger.take, Ledger.give, Function.update_self]
    omega
  · simp only [Ledger.take, Ledger.give, Function.update_of_ne hb]

theorem Ledger.receive_eq (l : Ledger) (a b : ℕ) :
    (l.receive a).raw b + (l.receive a).taken b =
      Function.update (fun b => l.raw b + l.taken b) a (l.raw a + l.taken a + 1) b := by
  by_cases hb : b = a
  · subst hb
    simp only [Ledger.receive, Function.update_self]
    omega
  · simp only [Ledger.receive, Function.update_of_ne hb]

theorem Ledger.take_eq (l : Ledger) (a b : ℕ) :
    (l.take a).raw b + (l.take a).taken b =
      Function.update (fun b => l.raw b + l.taken b) a (l.raw a + l.taken a + 1) b := by
  by_cases hb : b = a
  · subst hb
    simp only [Ledger.take, Function.update_self]
    omega
  · simp only [Ledger.take, Function.update_of_ne hb]

theorem Ledger.give_eq (l : Ledger) (hraw : 0 < l.raw a) (b : ℕ) :
    (l.give a).raw b + (l.give a).taken b =
      Function.update (fun b => l.raw b + l.taken b) a (l.raw a + l.taken a - 1) b := by
  by_cases hb : b = a
  · subst hb
    simp only [Ledger.give, Function.update_self]
    omega
  · simp only [Ledger.give, Function.update_of_ne hb]

theorem handleStep_inodeOpen {nd : Node} (hw : Wf l.fs N 0) (hN : N s = some nd) :
    wp (handleStep (.inodeOpen s)) (fun a l' => ∃ k, Opens l.fs s a k ∧ l' = Ledger.receive a { l with fs := k })
      (fun _ => False) l := by
  rw [handleStep, wp_bind, wp_onFs]
  refine wp_post (inodeOpen_opens hw hN) ?_
  intro a k ho
  rw [wp_bind, wp_modify, wp_pure]
  exact ⟨k, ho, rfl⟩

theorem handleStep_fileOpen (hi : l.fs.inodes.cell a = some i) :
    wp (handleStep (.fileOpen a))
      (fun _ l' => l' = Ledger.take a (Ledger.give a
        { l with fs := { l.fs.openers a 1 with files := l.fs.files.alloc ⟨a, 0, false⟩ } }))
      (fun _ => False) l := by
  rw [handleStep, wp_bind, wp_onFs]
  refine wp_post (fileOpen_spec hi) ?_
  rintro p k ⟨-, rfl⟩
  rw [wp_bind, wp_modify, wp_pure]

/-- **Every operation keeps the ledger balanced.** -/
theorem Balanced.step (h : Balanced l) (op : HandleOp) (hg : op.Guard l) :
    wp (handleStep op) (fun _ l' => Balanced l') (fun _ => True) l := by
  obtain ⟨N, hs⟩ := id h
  cases op with
  | inodeOpen s =>
    obtain ⟨N₁, x₁, nd, hs₁, hN⟩ := hg
    have hs₂ : Sound l.fs N₁ fun a => l.raw a + l.taken a := ⟨hs₁.wf, hs₁.map, hs₁.root, hs.counted, hs₁.removed⟩
    refine wp_mono (handleStep_inodeOpen hs₁.wf hN) ?_ fun _ _ => trivial
    rintro a _ ⟨k, ho, rfl⟩
    exact ⟨N₁, (hs₂.opens ho hN).1.congr (l.receive_eq a)⟩
  | inodeReopen a =>
    obtain ⟨i, hi⟩ := hg
    obtain ⟨nd, hN, -⟩ := hs.wf.opened.node a i hi
    rw [handleStep, wp_bind, wp_onFs]
    refine wp_mono (inodeReopen_spec hi) ?_ fun _ _ => trivial
    rintro b k ⟨rfl, rfl⟩
    rw [wp_bind, wp_modify, wp_pure]
    exact ⟨N, (hs.opens (.found hi rfl) hN).1.congr (l.receive_eq b)⟩
  | inodeClose a =>
    obtain ⟨i, hi⟩ := h.live hg
    rw [handleStep, wp_bind, wp_onFs]
    refine wp_mono (inodeClose_closes hs.wf hs.map hi (hs.removed a i hi)) ?_ fun _ _ => trivial
    rintro - k ⟨N', hc⟩
    rw [wp_bind, wp_modify, wp_pure]
    have hraw : 0 < l.raw a := hg
    exact ⟨N', (hs.closes hc hi (Nat.add_pos_left hraw _)).1.congr (l.give_eq hraw)⟩
  | inodeRemove a =>
    obtain ⟨i, hi, hsec⟩ := hg
    rw [handleStep, wp_bind, wp_onFs]
    refine wp_mono (inodeRemove_spec hi) ?_ fun _ _ => trivial
    rintro - k rfl
    rw [wp_pure]
    exact ⟨N, hs.inodeRemove hi hsec⟩
  | fileOpen a =>
    obtain ⟨i, hi⟩ := h.live hg
    refine wp_mono (handleStep_fileOpen hi) ?_ fun _ _ => trivial
    rintro p _ rfl
    exact ⟨N, (hs.fileOpen hi).1.congr (l.give_take hg)⟩
  | fileReopen p =>
    obtain ⟨f, hf⟩ := hg
    obtain ⟨⟨i, hi⟩, -⟩ := hs.counted.files p f hf
    obtain ⟨nd, hN, -⟩ := hs.wf.opened.node _ i hi
    rw [handleStep, wp_bind, wp_onFs]
    refine wp_fileAt hf ?_
    rw [wp_bind, wp_onFs, fileReopen, wp_bind]
    refine wp_fileAt hf ?_
    rw [wp_bind]
    refine wp_mono (inodeReopen_spec hi) ?_ fun _ _ => trivial
    rintro b k ⟨rfl, rfl⟩
    have ho : Opens l.fs i.sector f.inode (l.fs.openers f.inode 1) := .found hi rfl
    obtain ⟨i', hi', -⟩ := ho.cell_self
    refine wp_mono (fileOpen_spec hi') ?_ fun _ _ => trivial
    rintro q k ⟨-, rfl⟩
    rw [wp_bind, wp_modify, wp_pure]
    exact ⟨N, ((hs.opens ho hN).1.fileOpen hi').1.congr (l.take_eq f.inode)⟩
  | fileClose p =>
    obtain ⟨f, hf, hne⟩ := hg
    obtain ⟨⟨i, hi⟩, -⟩ := hs.counted.files p f hf
    rw [handleStep, wp_bind, wp_onFs]
    refine wp_mono (fileClose_closes hs hf hi) ?_ fun _ _ => trivial
    rintro - k ⟨k₁, N', hc, rfl⟩
    rw [wp_pure]
    exact ⟨N', (hs.fileClose hf hi hne hc).1⟩
  | dirOpen a =>
    obtain ⟨i, hi⟩ := h.live hg
    rw [handleStep, wp_bind, wp_onFs]
    refine wp_mono (dirOpen_spec hi) ?_ fun _ _ => trivial
    rintro p k ⟨-, rfl⟩
    rw [wp_bind, wp_modify, wp_pure]
    exact ⟨N, (hs.enter hi).1.congr (l.give_take hg)⟩
  | dirReopen p =>
    obtain ⟨d, hd⟩ := hg
    obtain ⟨i, hi⟩ := hs.counted.dirs p d hd
    obtain ⟨nd, hN, -⟩ := hs.wf.opened.node _ i hi
    rw [handleStep, wp_bind, wp_onFs]
    refine wp_dirAt hd ?_
    rw [wp_bind, wp_onFs, dirReopen, wp_bind]
    refine wp_dirAt hd ?_
    rw [wp_bind]
    refine wp_mono (inodeReopen_spec hi) ?_ fun _ _ => trivial
    rintro b k ⟨rfl, rfl⟩
    have ho : Opens l.fs i.sector d.inode (l.fs.openers d.inode 1) := .found hi rfl
    obtain ⟨i', hi', -⟩ := ho.cell_self
    refine wp_mono (dirOpen_spec hi') ?_ fun _ _ => trivial
    rintro q k ⟨-, rfl⟩
    rw [wp_bind, wp_modify, wp_pure]
    exact ⟨N, ((hs.opens ho hN).1.enter hi').1.congr (l.take_eq d.inode)⟩
  | dirClose p =>
    obtain ⟨d, hd⟩ := hg
    obtain ⟨i, hi⟩ := hs.counted.dirs p d hd
    rw [handleStep, wp_bind, wp_onFs]
    refine wp_mono (dirClose_spec hs hd hi) ?_ fun _ _ => trivial
    rintro - k ⟨k₁, N', k₂, a, hc, ho, rfl⟩
    have hs₁ := (hs.dirClose hd hi hc).1
    obtain ⟨nd₁, hN₁⟩ := hs₁.root
    have hs₂ := (hs₁.opens ho hN₁).1
    obtain ⟨i₂, hi₂, -⟩ := ho.cell_self
    -- the current directory is the new one
    have hcur : (k₂.enter a).dirs.cell (k₂.enter a).currDir = some ⟨a, 0⟩ := k₂.dirs.cell_alloc_self _
    rw [wp_bind, wp_onFs, wp_bind, wp_gets]
    refine wp_dirAt hcur ?_
    rw [wp_bind, wp_modify, wp_pure]
    exact ⟨N', (hs₂.enter hi₂).1.congr (l.take_eq a)⟩

/-- Every run keeps the ledger balanced. -/
theorem Balanced.run (h : Balanced l) (hrun : Run handleStep (fun op l => op.Guard l) l l') : Balanced l' :=
  hrun.invariant h fun op _ hl hg => hl.step op hg

/-! ### The last handle -/

/-- The operation closes a handle on the inode at `a`. -/
def HandleOp.ClosesOn (l : Ledger) (a : ℕ) : HandleOp → Prop
  | .inodeClose b => b = a ∧ 0 < l.raw a
  | .fileClose p => ∃ f, l.fs.files.cell p = some f ∧ f.inode = a ∧ p ≠ l.fs.freeMapFile
  | .dirClose p => ∃ d, l.fs.dirs.cell p = some d ∧ d.inode = a
  | _ => False

/-- The inode `i` that was at `a` is no longer open, and its sectors are free. -/
def Reclaimed (k : Fs) (a : ℕ) (i : Inode) (k' : Fs) : Prop :=
  a ∉ k'.openInodes ∧ k'.freeMap.bit i.sector = false ∧
    ∀ j b, j < bytesToSectors i.data.length → blockOf k.tables i.data j = some b → k'.freeMap.bit b = false

/-- No block of the free map's file is the disk's last sector. -/
def MapSpared (k : Fs) : Prop :=
  ∀ f i, k.files.cell k.freeMapFile = some f → k.inodes.cell f.inode = some i → SparesLast k i.data

theorem MapSpared.clear {k : Fs} (h : MapSpared k) (hs : Sound k N x) : MapClear k N := by
  obtain ⟨f, i, nd, hf, hi, hsec, -, hN, -⟩ := hs.map
  intro b hb
  rw [mapBlocks_eq hN] at hb
  exact (h f i hf hi).clear (hs.wf.repr hi (by rw [hsec]; exact hN)) b hb

/-- Closing a removed inode that has no other opener reclaims it; with another opener it stays in memory. -/
theorem Closes.reclaimed {k k₁ : Fs} (hc : Closes k N a i k₁ N') (hs : Sound k N x) (hi : k.inodes.cell a = some i)
    (hrem : i.removed = true) (hcnt : i.openCnt = 1) :
    k₁.freeMap.bit i.sector = false ∧
      ∀ j b, j < bytesToSectors i.data.length → blockOf k.tables i.data j = some b → k₁.freeMap.bit b = false := by
  cases hc with
  | more h => exact absurd hcnt h
  | last h h' =>
    rw [hrem] at h'
    cases h'
  | @removed nd M B _ _ hN hM hB =>
    have hr := hs.wf.repr hi hN
    refine ⟨?_, fun j b hj hb => ?_⟩
    · change M.bit i.sector = false
      simp [hM.bit]
    · rw [hr.bytesToSectors] at hj
      rw [hr.blockOf_eq hj, Option.some.injEq] at hb
      have hmem : b ∈ nd.blocks := by
        rw [← hb, List.getD_eq_getElem _ _ hj]
        exact List.getElem_mem hj
      change M.bit b = false
      simp [hM.bit, hmem]

/-- What closing a handle on the inode at `a` leaves of it. -/
theorem Balanced.closesOn (h : Balanced l) (hi : l.fs.inodes.cell a = some i) {op : HandleOp} (hop : op.ClosesOn l a) :
    wp (handleStep op)
      (fun _ l' => (i.openCnt = 1 → i.removed = true → Reclaimed l.fs a i l'.fs) ∧ (i.openCnt ≠ 1 → a ∈ l'.fs.openInodes))
      (fun _ => ¬ MapSpared l.fs) l := by
  obtain ⟨N, hs⟩ := id h
  have hstop : ∀ e, Unless (MapClear l.fs N) e → ¬ MapSpared l.fs := fun e he hm => he.1 (hm.clear hs)
  -- what is said of the inode follows from what became of its memory
  have hmem : ∀ {k₁ : Fs} {N' N₁ : Nodes} {k' : Fs}, Closes l.fs N a i k₁ N' → Wf k' N₁ 0 →
      (k₁.inodes.cell a = none → k'.inodes.cell a = none) → (∀ j, k₁.inodes.cell a = some j → ∃ j', k'.inodes.cell a = some j') →
      k'.freeMap = k₁.freeMap →
      (i.openCnt = 1 → i.removed = true → Reclaimed l.fs a i k') ∧ (i.openCnt ≠ 1 → a ∈ k'.openInodes) := by
    intro k₁ N' N₁ k' hc hw hnone hsome hM
    have hcell := hc.cell_self hi
    refine ⟨fun hcnt hrem => ⟨?_, ?_⟩, fun hcnt => ?_⟩
    · rw [if_pos hcnt] at hcell
      rw [hw.mem_iff, hnone hcell]
      simp
    · rw [hM]
      exact hc.reclaimed hs hi hrem hcnt
    · rw [if_neg hcnt] at hcell
      rw [hw.mem_iff]
      exact hsome _ hcell
  cases op with
  | inodeClose b =>
    obtain ⟨rfl, hraw⟩ := hop
    rw [handleStep, wp_bind, wp_onFs]
    refine wp_mono (inodeClose_closes hs.wf hs.map hi (hs.removed b i hi)) ?_ hstop
    rintro - k ⟨N', hc⟩
    rw [wp_bind, wp_modify, wp_pure]
    exact hmem hc (hc.wf hs.wf hs.map hi (hs.removed b i hi)) (fun h => h) (fun j hj => ⟨j, hj⟩) rfl
  | fileClose p =>
    obtain ⟨f, hf, rfl, hne⟩ := hop
    rw [handleStep, wp_bind, wp_onFs]
    refine wp_mono (fileClose_closes hs hf hi) ?_ hstop
    rintro - k ⟨k₁, N', hc, rfl⟩
    rw [wp_pure]
    exact hmem hc (hs.fileClose hf hi hne hc).1.wf (fun h => h) (fun j hj => ⟨j, hj⟩) rfl
  | dirClose p =>
    obtain ⟨d, hd, rfl⟩ := hop
    rw [handleStep, wp_bind, wp_onFs]
    refine wp_mono (dirClose_spec hs hd hi) ?_ hstop
    rintro - k ⟨k₁, N', k₂, b, hc, ho, rfl⟩
    have hs₁ := (hs.dirClose hd hi hc).1
    obtain ⟨nd₁, hN₁⟩ := hs₁.root
    have hs₂ := (hs₁.opens ho hN₁).1
    obtain ⟨i₂, hi₂, -⟩ := ho.cell_self
    have hcur : (k₂.enter b).dirs.cell (k₂.enter b).currDir = some ⟨b, 0⟩ := k₂.dirs.cell_alloc_self _
    rw [wp_bind, wp_onFs, wp_bind, wp_gets]
    refine wp_dirAt hcur ?_
    rw [wp_bind, wp_modify, wp_pure]
    have hsome : ∀ c j, k₁.inodes.cell c = some j → ∃ j', (k₂.enter b).inodes.cell c = some j' := by
      intro c j hj
      have hj₂ := ho.cell (b := c) (i := j) hj
      have ho₂ : Opens k₂ i₂.sector b (k₂.openers b 1) := .found hi₂ rfl
      exact ⟨_, ho₂.cell hj₂⟩
    refine hmem hc (hs₂.enter hi₂).1.wf (fun hnone => ?_) (hsome _) ho.freeMap
    -- the root directory's inode is not at an address that was just freed
    have hne : d.inode ≠ b := by
      rintro rfl
      rcases ho.addr with ⟨j, hj⟩ | hnext
      · change k₁.inodes.cell d.inode = some j at hj
        rw [hnone] at hj
        cases hj
      · exact l.fs.inodes.ne_next hi (hnext.trans hc.next)
    change (k₂.openers b 1).inodes.cell d.inode = none
    rw [Fs.openers, k₂.inodes.cell_set_of_ne _ hne, ho.cell_of_ne hne]
    exact hnone
  | _ => exact hop.elim

/-! ### Runs -/

/-- **Reference counts and reclamation.** Along every run `open_cnt` of an inode is the number of references to
it exactly if it was never handed over to a file or a directory; and closing the last handle on an inode that
was removed reclaims it exactly then. -/
theorem open_cnt_eq_references_iff (hl : Balanced l) (hrun : Run handleStep (fun op l => op.Guard l) l l')
    (hi : l'.fs.inodes.cell a = some i) :
    (i.openCnt = l'.references a ↔ l'.taken a = 0) ∧
      ∀ op, op.ClosesOn l' a → i.removed = true → l'.references a = 1 →
        (∀ r l'', handleStep op l' = .ok (r, l'') → (Reclaimed l'.fs a i l''.fs ↔ l'.taken a = 0)) ∧
        (MapSpared l'.fs → ∃ r l'', handleStep op l' = .ok (r, l'')) := by
  have hbal := hl.run hrun
  obtain ⟨N, hs⟩ := id hbal
  have hcount := hs.counted.count a i hi
  have hcnt : i.openCnt = (l'.references a + l'.taken a : ℕ) := by
    rw [hcount, Ledger.references, Nat.add_assoc]
  refine ⟨by omega, fun op hop hrem hlast => ⟨fun r l'' hstep => ?_, fun hspared => ?_⟩⟩
  · obtain ⟨hfree, hkeep⟩ := wp_of_ok (hbal.closesOn hi hop) hstep
    refine ⟨fun hrec => ?_, fun h0 => hfree (by omega) hrem⟩
    by_contra h0
    exact hrec.1 (hkeep (by omega))
  · have hspec := wp_mono (hbal.closesOn hi hop) (fun _ _ h => h) fun _ h => h hspared
    obtain ⟨r, l'', hstep, -⟩ := exists_ok hspec
    exact ⟨r, l'', hstep⟩

namespace Sample

/-- The small file system with only the free map's file open, which took its inode over. -/
def ledger : Ledger where
  fs := { fs.drop 2 with files := fs.files.free 2 }
  raw _ := 0
  taken a := if a = 1 then 1 else 0

theorem ledger_inode {a : ℕ} {i : Inode} (h : ledger.fs.inodes.cell a = some i) :
    a = 1 ∧ i = ⟨0, 2, false, 0, mapInode⟩ := by
  have hne : a ≠ 2 := by
    rintro rfl
    have hnone : ledger.fs.inodes.cell 2 = none := fs.inodes.cell_free_self 2
    rw [hnone] at h
    cases h
  have h' : inodes.cell a = some i := (fs.inodes.cell_free_of_ne hne).symm.trans h
  rcases inodes_cases h' with h | h
  · exact h
  · exact absurd h.1 hne

theorem ledger_file {p : ℕ} {f : File} (h : ledger.fs.files.cell p = some f) : p = 1 ∧ f = ⟨1, 0, false⟩ := by
  have hne : p ≠ 2 := by
    rintro rfl
    have hnone : ledger.fs.files.cell 2 = none := fs.files.cell_free_self 2
    rw [hnone] at h
    cases h
  have h' : fs.files.cell p = some f := (fs.files.cell_free_of_ne hne).symm.trans h
  by_cases h1 : p = 1
  · subst h1
    exact ⟨rfl, (Option.some.inj h').symm⟩
  · rw [show fs.files = (Heap.empty.alloc ⟨1, 0, false⟩).alloc ⟨2, 0, false⟩ from rfl, Heap.cell_alloc_of_ne _ _ hne,
      Heap.cell_alloc_of_ne _ _ h1] at h'
    cases h'

theorem ledger_sound : Sound ledger.fs nodes fun a => ledger.raw a + ledger.taken a := by
  have hw := wf.drop 2
  refine ⟨⟨hw.cache, hw.laid, hw.opened⟩, ⟨_, _, _, rfl, rfl, rfl, rfl, rfl, by decide⟩, ⟨_, rfl⟩,
    ⟨fun p f hp => ?_, fun p d hp => (by cases hp), fun a i hi => ?_, fun a i hi => ?_, fun a ha => ?_,
      fun a i hi => ?_⟩, fun a i hi hrem => ?_⟩
  · obtain ⟨-, rfl⟩ := ledger_file hp
    exact ⟨⟨_, rfl⟩, rfl⟩
  · obtain ⟨rfl, rfl⟩ := ledger_inode hi
    rfl
  · obtain ⟨rfl, rfl⟩ := ledger_inode hi
    decide
  · have hne : a ≠ 1 := by
      rintro rfl
      cases ha
    simp [ledger, hne]
  · obtain ⟨rfl, rfl⟩ := ledger_inode hi
    rfl
  · obtain ⟨rfl, rfl⟩ := ledger_inode hi
    cases hrem

theorem ledger_balanced : Balanced ledger := ⟨nodes, ledger_sound⟩

/-- The empty file's inode is opened. -/
theorem ledger_open : ∃ l a i, Run handleStep (fun op l => op.Guard l) ledger l ∧ l.fs.inodes.cell a = some i ∧
    i.openCnt = 1 ∧ l.raw a = 1 ∧ l.taken a = 0 := by
  have hN : nodes 4 = some ⟨0, false, [], 0⟩ := rfl
  obtain ⟨a, _, hstep, k, ho, rfl⟩ := exists_ok (handleStep_inodeOpen ledger_sound.wf hN)
  have hg : HandleOp.Guard ledger (.inodeOpen 4) := ⟨nodes, _, _, ledger_sound, hN⟩
  obtain ⟨i, hi, hs, ⟨j, hj, rfl⟩ | ⟨hnone, hcnt, -⟩⟩ := ho.cell_self
  · obtain ⟨-, rfl⟩ := ledger_inode hj
    cases hs
  have hne : a ≠ 1 := by
    rintro rfl
    cases hnone
  refine ⟨_, a, i, (Run.refl _).tail hg hstep, hi, hcnt, ?_, ?_⟩
  · simp [Ledger.receive, ledger]
  · simp [Ledger.receive, ledger, hne]

end Sample

/-- After `inode_open` there is one reference, and `open_cnt` is `1`. -/
theorem open_cnt_eq_references_opened : ∃ l a i, Run handleStep (fun op l => op.Guard l) Sample.ledger l ∧
    l.fs.inodes.cell a = some i ∧ l.raw a = 1 ∧ i.openCnt = l.references a := by
  obtain ⟨l, a, i, hrun, hi, -, hraw, htaken⟩ := Sample.ledger_open
  exact ⟨l, a, i, hrun, hi, hraw, (open_cnt_eq_references_iff Sample.ledger_balanced hrun hi).1.2 htaken⟩

/-- After `inode_open` and `file_open` there is one reference, the file's, and `open_cnt` is `2`. -/
theorem open_cnt_file_open : ∃ l a i, Run handleStep (fun op l => op.Guard l) Sample.ledger l ∧
    l.fs.inodes.cell a = some i ∧ l.references a = 1 ∧ i.openCnt = 2 := by
  obtain ⟨l, a, i, hrun, hi, hcnt, hraw, htaken⟩ := Sample.ledger_open
  have hg : HandleOp.Guard l (.fileOpen a) := by
    change 0 < l.raw a
    omega
  obtain ⟨p, l', hstep, hl'⟩ := exists_ok (handleStep_fileOpen hi)
  have hi' : l'.fs.inodes.cell a = some { i with openCnt := i.openCnt + 1 } := by
    rw [hl']
    exact (l.fs.inodes.cell_set_self _ _).trans (by rw [hi]; rfl)
  have htaken' : l'.taken a = 1 := by
    rw [hl']
    simp [Ledger.take, Ledger.give, htaken]
  have hrun' := hrun.tail hg hstep
  obtain ⟨N, hs⟩ := Sample.ledger_balanced.run hrun'
  have hcount := hs.counted.count a _ hi'
  refine ⟨l', a, _, hrun', hi', ?_, ?_⟩
  · change i.openCnt + 1 = _ at hcount
    rw [Ledger.references]
    omega
  · change i.openCnt + 1 = 2
    omega

end Pintos
