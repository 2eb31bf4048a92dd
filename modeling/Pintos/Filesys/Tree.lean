import Pintos.Filesys.Owners

/-!
# Trees of directories

A file system with any number of directories: every directory is a map from names to
sectors, and the current directory is any of them. The reference counts need not be
right here, only positive, so that nothing that is open is closed for the last time
while it is used.
-/

namespace Pintos

open Library Library.Prog

/-- What the directories bind their names to, by the sector of the directory. -/
abbrev Bindings := ℕ → CString → Option ℕ

/-- **A file system in use**, with the files `N` and the directories `H`: no one denies writes to a directory, and every
`struct dir` is for a directory. -/
structure Tree (k : Fs) (N : Nodes) (H : Bindings) : Prop where
  wf : Wf k N 0
  map : MapOpen k N
  root : ∃ nd, N 1 = some nd ∧ nd.isdir = true
  plain : ∀ nd, N 0 = some nd → nd.isdir = false
  pos : ∀ a i, k.inodes.cell a = some i → 0 < i.openCnt
  deny : ∀ a i, k.inodes.cell a = some i → i.data.isdir = true → i.denyWriteCnt = 0
  dirs : ∀ p d i, k.dirs.cell p = some d → k.inodes.cell d.inode = some i → i.data.isdir = true
  live : ∀ p d, k.dirs.cell p = some d → d.inode < k.inodes.next
  ok : ∀ s nd, N s = some nd → nd.isdir = true → DirOk k.buffers nd (H s)

/-- The free map, the tables and the contents of the sectors are the same. -/
structure SameData (k k' : Fs) : Prop where
  freeMap : k'.freeMap = k.freeMap
  tables : k'.tables = k.tables
  keeps : Buffers.Keeps k.buffers k'.buffers

variable {k k' k'' : Fs} {N : Nodes} {H : Bindings} {s t a p : ℕ} {nd nd' : Node} {i : Inode} {d : Dir} {nm : CString}

theorem SameData.refl (hc : k.buffers.Wf) : SameData k k := ⟨rfl, rfl, .refl hc⟩

theorem SameData.trans (h : SameData k k') (h' : SameData k' k'') : SameData k k'' :=
  ⟨h'.freeMap.trans h.freeMap, h'.tables.trans h.tables, h.keeps.trans h'.keeps⟩

theorem SameData.contentsAt_eq (h : SameData k k') (s : ℕ) : contentsAt k' s = contentsAt k s := by
  unfold contentsAt contents
  rw [h.tables]
  simp only [h.keeps.content]

theorem Fs.Reads.sameData (h : k.Reads k') : SameData k k' := by
  obtain ⟨B, hB, rfl⟩ := h
  exact ⟨rfl, rfl, hB⟩

theorem Opens.sameData (h : Opens k s a k') (hw : Wf k N 0) : SameData k k' := ⟨h.freeMap, h.tables, h.keeps hw⟩

/-! ### Handles -/

namespace Tree

theorem node (h : Tree k N H) (hi : k.inodes.cell a = some i) : ∃ nd, N i.sector = some nd ∧ nd.isdir = i.data.isdir := by
  obtain ⟨nd, hN, hr⟩ := h.wf.opened.node a i hi
  exact ⟨nd, hN, hr.isdir.symm⟩

/-- The sectors are read. -/
theorem reads (h : Tree k N H) (hr : k.Reads k') : Tree k' N H := by
  have hw := hr.wf h.wf
  have hm := hr.mapOpen h.map
  obtain ⟨B, hB, rfl⟩ := hr
  refine ⟨hw, hm, h.root, h.plain, h.pos, h.deny, h.dirs, h.live, fun s nd hN hdir => ?_⟩
  refine (h.ok s nd hN hdir).congr fun n _ => ?_
  funext j
  exact byteAt_keeps hB ..

/-- An inode is opened. -/
theorem opens (h : Tree k N H) (ho : Opens k s a k') (hN : N s = some nd) : Tree k' N H := by
  have hw := ho.wf h.wf hN
  have hnew : ∀ b j, k'.inodes.cell b = some j →
      (∃ i, k.inodes.cell b = some i ∧ i.data = j.data ∧ i.denyWriteCnt = j.denyWriteCnt ∧ i.openCnt ≤ j.openCnt) ∨
        j.denyWriteCnt = 0 ∧ j.openCnt = 1 ∧ b = k.inodes.next := by
    intro b j hj
    cases ho with
    | found hi hs =>
      by_cases hb : b = a
      · subst hb
        rw [Fs.openers, Heap.cell_set_self, hi] at hj
        cases hj
        exact .inl ⟨_, hi, rfl, rfl, by simp⟩
      · rw [Fs.openers, k.inodes.cell_set_of_ne _ hb] at hj
        exact .inl ⟨j, hj, rfl, rfl, le_rfl⟩
    | loaded hnone hB =>
      by_cases hb : b = k.inodes.next
      · subst hb
        rw [Fs.load, Heap.cell_alloc_self] at hj
        cases hj
        exact .inr ⟨rfl, rfl, rfl⟩
      · rw [Fs.load, k.inodes.cell_alloc_of_ne _ hb] at hj
        exact .inl ⟨j, hj, rfl, rfl, le_rfl⟩
  have hnext : k.inodes.next ≤ k'.inodes.next := by
    cases ho with
    | found => exact le_rfl
    | loaded => exact Nat.le_succ _
  refine ⟨hw, ho.mapOpen h.map, h.root, h.plain, fun b j hj => ?_, fun b j hj hdir => ?_, fun q e j hq hj => ?_,
    fun q e hq => ?_, fun t nd hN hdir => ?_⟩
  · rcases hnew b j hj with ⟨i, hi, -, -, hle⟩ | ⟨-, hone, -⟩
    · have := h.pos b i hi
      omega
    · omega
  · rcases hnew b j hj with ⟨i, hi, hdata, hdeny, -⟩ | ⟨hdeny, -, -⟩
    · rw [← hdeny]
      exact h.deny b i hi (hdata ▸ hdir)
    · exact hdeny
  · rw [ho.dirs] at hq
    rcases hnew e.inode j hj with ⟨i, hi, hdata, -, -⟩ | ⟨-, -, hb⟩
    · rw [← hdata]
      exact h.dirs q e i hq hi
    · exact absurd hb (h.live q e hq).ne
  · rw [ho.dirs] at hq
    exact (h.live q e hq).trans_le hnext
  · refine (h.ok t nd hN hdir).congr fun n _ => ?_
    funext j
    exact byteAt_keeps (ho.keeps h.wf) ..

/-- An inode in memory changes, but not the file it is for, and has an opener at least. -/
theorem setInode (h : Tree k N H) {f : Inode → Inode}
    (hf : ∀ i, (f i).sector = i.sector ∧ (f i).data = i.data ∧ (f i).denyWriteCnt = i.denyWriteCnt)
    (hpos : ∀ i, k.inodes.cell a = some i → 0 < (f i).openCnt) : Tree { k with inodes := k.inodes.set a f } N H := by
  have hcell : ∀ b j, (k.inodes.set a f).cell b = some j →
      ∃ j₀, k.inodes.cell b = some j₀ ∧ j.data = j₀.data ∧ j.denyWriteCnt = j₀.denyWriteCnt ∧ 0 < j.openCnt := by
    intro b j hj
    obtain ⟨j₀, hj₀, rfl⟩ := k.inodes.cell_of_set hj
    refine ⟨j₀, hj₀, ?_⟩
    split_ifs with hb
    · subst hb
      exact ⟨(hf j₀).2.1, (hf j₀).2.2, hpos j₀ hj₀⟩
    · exact ⟨rfl, rfl, h.pos b j₀ hj₀⟩
  obtain ⟨g, j, nd₀, hg, hj, hsec, hdeny, hN₀, hle⟩ := h.map
  have hj' : ∃ j', (k.inodes.set a f).cell g.inode = some j' ∧ j'.sector = 0 ∧ j'.denyWriteCnt = 0 := by
    refine ⟨_, k.inodes.cell_set f hj, ?_⟩
    split_ifs
    · exact ⟨(hf j).1.trans hsec, (hf j).2.2.trans hdeny⟩
    · exact ⟨hsec, hdeny⟩
  obtain ⟨j', hj', hsec', hdeny'⟩ := hj'
  refine ⟨h.wf.set a fun i => ⟨(hf i).1, (hf i).2.1⟩, ⟨g, j', nd₀, hg, hj', hsec', hdeny', hN₀, hle⟩, h.root, h.plain,
    fun b j hj => ?_, fun b j hj hdir => ?_, fun q e j hq hj => ?_, h.live, h.ok⟩
  · obtain ⟨-, -, -, -, hpos⟩ := hcell b j hj
    exact hpos
  · obtain ⟨j₀, hj₀, hdata, hdeny, -⟩ := hcell b j hj
    rw [hdeny]
    exact h.deny b j₀ hj₀ (hdata ▸ hdir)
  · obtain ⟨j₀, hj₀, hdata, -⟩ := hcell e.inode j hj
    rw [hdata]
    exact h.dirs q e j₀ hq hj₀

/-- An inode has more openers, or fewer, but at least one. -/
theorem openers (h : Tree k N H) (hi : k.inodes.cell a = some i) {n : ℤ} (hn : 0 < i.openCnt + n) : Tree (k.openers a n) N H := by
  refine h.setInode (fun _ => ⟨rfl, rfl, rfl⟩) fun j hj => ?_
  rw [hi] at hj
  cases hj
  exact hn

/-- A `struct dir` is made for a directory, and is the current one. -/
theorem enter (h : Tree k N H) (hi : k.inodes.cell a = some i) (hdir : i.data.isdir = true) : Tree (k.enter a) N H := by
  have hpos := h.pos a i hi
  have ho := h.openers (n := 1) hi (by omega)
  refine ⟨⟨ho.wf.cache, ho.wf.laid, ho.wf.opened⟩, ho.map, ho.root, ho.plain, ho.pos, ho.deny, fun q e j hq hj => ?_,
    fun q e hq => ?_, ho.ok⟩
  · by_cases hqn : q = k.dirs.next
    · subst hqn
      change (k.dirs.alloc _).cell _ = _ at hq
      rw [Heap.cell_alloc_self] at hq
      cases hq
      change (k.inodes.set a _).cell a = _ at hj
      rw [Heap.cell_set_self, hi] at hj
      cases hj
      exact hdir
    · exact ho.dirs q e j ((k.dirs.cell_alloc_of_ne _ hqn).symm.trans hq) hj
  · by_cases hqn : q = k.dirs.next
    · subst hqn
      change (k.dirs.alloc _).cell _ = _ at hq
      rw [Heap.cell_alloc_self] at hq
      cases hq
      exact k.inodes.lt_next hi
    · exact h.live q e ((k.dirs.cell_alloc_of_ne _ hqn).symm.trans hq)

/-- A `struct dir` is freed. -/
theorem freeDir (h : Tree k N H) (p : ℕ) : Tree { k with dirs := k.dirs.free p } N H :=
  ⟨⟨h.wf.cache, h.wf.laid, h.wf.opened⟩, h.map, h.root, h.plain, h.pos, h.deny,
    fun q e i hq hi => h.dirs q e i (k.dirs.cell_of_free hq) hi, fun q e hq => h.live q e (k.dirs.cell_of_free hq), h.ok⟩

end Tree

theorem Fs.enter_sameData (hc : k.buffers.Wf) (a : ℕ) : SameData k (k.enter a) := ⟨rfl, rfl, .refl hc⟩

/-! ### Directories in memory -/

/-- The `struct dir` at `p` is for the inode `i`. -/
def Fs.DirOf (k : Fs) (p : ℕ) (i : Inode) : Prop := ∃ d, k.dirs.cell p = some d ∧ k.inodes.cell d.inode = some i

/-- How many `struct dir` are for the inode at `a`. -/
def Fs.dirCount (k : Fs) (a : ℕ) : ℕ := k.dirs.count fun d => d.inode == a

theorem Fs.dirCount_enter (k : Fs) (a b : ℕ) : (k.enter a).dirCount b = k.dirCount b + if b = a then 1 else 0 := by
  refine (k.dirs.count_alloc _ _).trans (congrArg (k.dirCount b + ·) ?_)
  by_cases hb : b = a
  · simp [hb]
  · simp [hb, Ne.symm hb]

theorem Fs.dirCount_free (hd : k.dirs.cell p = some d) (b : ℕ) :
    (k.dirs.free p).count (fun d => d.inode == b) + (if b = d.inode then 1 else 0) = k.dirCount b := by
  rw [Fs.dirCount, ← k.dirs.count_free _ hd]
  by_cases hb : b = d.inode
  · simp [hb]
  · simp [hb, Ne.symm hb]

/-- **What is open stays open**: every inode stays in memory and has at least the openers it had, also those that are no
`struct dir`, every `struct dir` stays, and an inode that is read into memory was not removed. -/
structure Holding (k k' : Fs) : Prop where
  inode : ∀ a i, k.inodes.cell a = some i →
    ∃ (n : ℤ) (data : InodeDisk), 0 ≤ n ∧ k'.inodes.cell a = some { i with openCnt := i.openCnt + n, data := data }
  new : ∀ a j, k'.inodes.cell a = some j →
    (∃ i, k.inodes.cell a = some i ∧ i.openCnt - k.dirCount a ≤ j.openCnt - k'.dirCount a) ∨
      j.removed = false ∧ (k'.dirCount a : ℤ) < j.openCnt
  dir : ∀ p d, k.dirs.cell p = some d → k'.dirs.cell p = some d
  next : k.dirs.next ≤ k'.dirs.next

theorem Holding.refl (k : Fs) : Holding k k :=
  ⟨fun _ i hi => ⟨0, i.data, le_rfl, by rw [add_zero]; exact hi⟩, fun _ _ hj => .inl ⟨_, hj, le_rfl⟩, fun _ _ hd => hd, le_rfl⟩

theorem Holding.trans (h : Holding k k') (h' : Holding k' k'') : Holding k k'' := by
  refine ⟨fun a i hi => ?_, fun a j hj => ?_, fun p d hd => h'.dir p d (h.dir p d hd), h.next.trans h'.next⟩
  · obtain ⟨n, data, hn, hi'⟩ := h.inode a i hi
    obtain ⟨m, data', hm, hi''⟩ := h'.inode a _ hi'
    refine ⟨n + m, data', by omega, ?_⟩
    rw [← add_assoc]
    exact hi''
  · rcases h'.new a j hj with ⟨i', hi', hle'⟩ | hnew
    · rcases h.new a i' hi' with ⟨i, hi, hle⟩ | ⟨hrem, hlt⟩
      · exact .inl ⟨i, hi, hle.trans hle'⟩
      · obtain ⟨m, data, -, hj'⟩ := h'.inode a i' hi'
        rw [hj] at hj'
        cases hj'
        exact .inr ⟨hrem, by omega⟩
    · exact .inr hnew

/-- Files are removed or not as before. -/
theorem Holding.removed_iff (h : Holding k k') : Removed k' s ↔ Removed k s := by
  constructor
  · rintro ⟨a, j, hj, hsec, hrem⟩
    rcases h.new a j hj with ⟨i, hi, -⟩ | ⟨hrem', -⟩
    · obtain ⟨n, data, -, hj'⟩ := h.inode a i hi
      rw [hj] at hj'
      cases hj'
      exact ⟨a, i, hi, hsec, hrem⟩
    · rw [hrem] at hrem'
      cases hrem'
  · rintro ⟨a, i, hi, hsec, hrem⟩
    obtain ⟨n, data, -, hj⟩ := h.inode a i hi
    exact ⟨a, _, hj, hsec, hrem⟩

theorem Holding.dirOf (h : Holding k k') (hp : k.DirOf p i) :
    ∃ (n : ℤ) (data : InodeDisk), 0 ≤ n ∧ k'.DirOf p { i with openCnt := i.openCnt + n, data := data } := by
  obtain ⟨d, hd, hi⟩ := hp
  obtain ⟨n, data, hn, hi'⟩ := h.inode _ i hi
  exact ⟨n, data, hn, d, h.dir p d hd, hi'⟩

theorem Steady.holding (h : Steady k k') : Holding k k' := by
  refine ⟨fun a i hi => ?_, fun a j hj => ?_, fun p d hd => by rw [h.dirs]; exact hd, by rw [h.dirs]⟩
  · obtain ⟨data, hj⟩ := h.cell hi
    exact ⟨0, data, le_rfl, by rw [add_zero]; exact hj⟩
  · have heq := h.inodes a
    rw [hj] at heq
    obtain ⟨i, hi, hhandle⟩ := Option.map_eq_some_iff.1 heq.symm
    have hcnt : i.openCnt = j.openCnt := congrArg (fun x => x.2.1) hhandle
    refine .inl ⟨i, hi, ?_⟩
    unfold Fs.dirCount
    rw [hcnt, h.dirs]

theorem Fs.Reads.holding (h : k.Reads k') : Holding k k' := by
  obtain ⟨B, -, rfl⟩ := h
  have hrefl := Holding.refl k
  exact ⟨hrefl.inode, hrefl.new, hrefl.dir, hrefl.next⟩

/-- An inode is opened; no `struct dir` is for an address not yet given out. -/
theorem Opens.holding (h : Opens k s a k') (hlive : ∀ p d, k.dirs.cell p = some d → d.inode < k.inodes.next) : Holding k k' := by
  have hcount : ∀ b, k'.dirCount b = k.dirCount b := fun b => by rw [Fs.dirCount, h.dirs, Fs.dirCount]
  refine ⟨fun b i hi => ⟨if b = a then 1 else 0, i.data, by split_ifs <;> decide, h.cell hi⟩, fun b j hj => ?_,
    fun p d hd => by rw [h.dirs]; exact hd, by rw [h.dirs]⟩
  rw [hcount]
  by_cases hb : b = a
  · subst hb
    obtain ⟨i', hi', -, ⟨i, hi, rfl⟩ | ⟨hnone, hcnt, hrem, -⟩⟩ := h.cell_self
    · rw [hj] at hi'
      cases hi'
      exact .inl ⟨i, hi, by dsimp only; omega⟩
    · rw [hj] at hi'
      cases hi'
      refine .inr ⟨hrem, ?_⟩
      rcases h.addr with ⟨i, hi⟩ | hnext
      · rw [hi] at hnone
        cases hnone
      · have hzero : k.dirCount b = 0 := k.dirs.count_eq_zero fun p d hd => by
          simpa [hnext] using (hlive p d hd).ne
        omega
  · rw [h.cell_of_ne hb] at hj
    exact .inl ⟨j, hj, le_rfl⟩

/-- An inode gets more openers. -/
theorem Fs.openers_holding (k : Fs) (a : ℕ) {n : ℤ} (hn : 0 ≤ n) : Holding k (k.openers a n) := by
  refine ⟨fun b i hi => ?_, fun b j hj => ?_, fun _ _ hd => hd, le_rfl⟩
  · refine ⟨if b = a then n else 0, i.data, by split_ifs <;> omega, ?_⟩
    rw [Fs.openers, k.inodes.cell_set _ hi]
    split_ifs
    · rfl
    · rw [add_zero]
  · obtain ⟨i, hi, rfl⟩ := k.inodes.cell_of_set hj
    refine .inl ⟨i, hi, ?_⟩
    change i.openCnt - k.dirCount b ≤ _ - k.dirCount b
    split_ifs
    · dsimp only
      omega
    · exact le_rfl

/-- `dir_open` leaves the other directories alone. -/
theorem Fs.enter_holding (k : Fs) (a : ℕ) : Holding k (k.enter a) := by
  have h := k.openers_holding a (n := 1) (by decide)
  refine ⟨h.inode, fun b j hj => ?_, fun p d hd => k.dirs.cell_alloc _ hd, Nat.le_succ _⟩
  obtain ⟨i, hi, rfl⟩ := k.inodes.cell_of_set hj
  refine .inl ⟨i, hi, ?_⟩
  rw [k.dirCount_enter]
  split_ifs
  · dsimp only
    omega
  · omega

/-- A directory is opened once more at least and closed once, and its `struct dir` is freed again. -/
theorem Holding.closed {q : ℕ} {x : ℤ} {j : Inode} (h : Holding k k') (hi : k.inodes.cell a = some i)
    (hj : k'.inodes.cell a = some j) (hcnt : i.openCnt < j.openCnt) (hq : k.dirs.next ≤ q) (hd : k'.dirs.cell q = some ⟨a, x⟩) :
    Holding k { k'.openers a (-1) with dirs := k'.dirs.free q } := by
  refine ⟨fun b y hy => ?_, fun b y hy => ?_, fun p d hd => ?_, h.next⟩
  · by_cases hb : b = a
    · subst hb
      rw [hi] at hy
      cases hy
      obtain ⟨n, data, -, hi'⟩ := h.inode b _ hi
      rw [hj] at hi'
      cases hi'
      dsimp only at hcnt
      refine ⟨n - 1, data, by omega, ?_⟩
      change (k'.inodes.set b _).cell b = _
      rw [Heap.cell_set_self, hj, Option.map_some]
      dsimp only
      rw [show i.openCnt + n + -1 = i.openCnt + (n - 1) by omega]
    · obtain ⟨n, data, hn, hy'⟩ := h.inode b y hy
      refine ⟨n, data, hn, ?_⟩
      change (k'.inodes.set a _).cell b = _
      rw [k'.inodes.cell_set_of_ne _ hb, hy']
  · have hcount := Fs.dirCount_free hd b
    obtain ⟨z, hz, hyz⟩ := k'.inodes.cell_of_set hy
    have hspare : z.openCnt - k'.dirCount b = y.openCnt - (k'.dirs.free q).count fun d => d.inode == b := by
      rw [hyz]
      dsimp only at hcount
      split_ifs at hcount ⊢
      · dsimp only
        omega
      · omega
    have hrem : z.removed = y.removed := by
      rw [hyz]
      split_ifs
      · rfl
      · rfl
    change (∃ i, k.inodes.cell b = some i ∧ i.openCnt - k.dirCount b ≤
      y.openCnt - (k'.dirs.free q).count fun d => d.inode == b) ∨
      y.removed = false ∧ (((k'.dirs.free q).count fun d => d.inode == b : ℕ) : ℤ) < y.openCnt
    rcases h.new b z hz with ⟨i, hi, hle⟩ | ⟨hkept, hlt⟩
    · exact .inl ⟨i, hi, by omega⟩
    · exact .inr ⟨hrem ▸ hkept, by omega⟩
  · have hne : p ≠ q := fun heq => absurd (k.dirs.lt_next hd) (by omega)
    change (k'.dirs.free q).cell p = _
    rw [k'.dirs.cell_free_of_ne hne]
    exact h.dir p d hd

/-- **Files were looked up and opened**: the files and the directories are the same. -/
structure Accessed (k : Fs) (N : Nodes) (H : Bindings) (k' : Fs) : Prop where
  tree : Tree k' N H
  data : SameData k k'
  holding : Holding k k'

/-- **Files were looked up**: besides, there is no new `struct file`. -/
structure Looked (k : Fs) (N : Nodes) (H : Bindings) (k' : Fs) : Prop extends Accessed k N H k' where
  files : k'.files = k.files

theorem Accessed.trans (h : Accessed k N H k') (h' : Accessed k' N H k'') : Accessed k N H k'' :=
  ⟨h'.tree, h.data.trans h'.data, h.holding.trans h'.holding⟩

theorem Looked.refl (h : Tree k N H) : Looked k N H k := ⟨⟨h, .refl h.wf.cache, .refl k⟩, rfl⟩

theorem Looked.trans (h : Looked k N H k') (h' : Looked k' N H k'') : Looked k N H k'' :=
  ⟨h.toAccessed.trans h'.toAccessed, h'.files.trans h.files⟩

theorem Tree.looked_reads (h : Tree k N H) (hr : k.Reads k') : Looked k N H k' :=
  ⟨⟨h.reads hr, hr.sameData, hr.holding⟩, hr.same.files⟩

theorem Tree.looked_opens (h : Tree k N H) (ho : Opens k s a k') (hN : N s = some nd) : Looked k N H k' :=
  ⟨⟨h.opens ho hN, ho.sameData h.wf, ho.holding h.live⟩, ho.files⟩

theorem Tree.looked_enter (h : Tree k N H) (hi : k.inodes.cell a = some i) (hdir : i.data.isdir = true) :
    Looked k N H (k.enter a) :=
  ⟨⟨h.enter hi hdir, Fs.enter_sameData h.wf.cache a, k.enter_holding a⟩, rfl⟩

/-- The directory that `dir_open` makes. -/
theorem Fs.enter_dirOf (hi : k.inodes.cell a = some i) : (k.enter a).DirOf (k.enter a).currDir { i with openCnt := i.openCnt + 1 } := by
  refine ⟨⟨a, 0⟩, k.dirs.cell_alloc_self _, ?_⟩
  change (k.inodes.set a _).cell a = _
  rw [Heap.cell_set_self, hi]
  rfl

/-- An inode in memory is removed if its file is. -/
theorem Tree.removed_iff (h : Tree k N H) (hi : k.inodes.cell a = some i) : Removed k i.sector ↔ i.removed = true := by
  constructor
  · rintro ⟨b, j, hj, hsec, hrem⟩
    have hab : b = a := h.wf.opened.unique b j a i hj hi hsec
    subst hab
    rw [hi] at hj
    cases hj
    exact hrem
  · intro hrem
    exact ⟨a, i, hi, rfl, hrem⟩

theorem Tree.removed_dirOf (h : Tree k N H) (hp : k.DirOf p i) : Removed k i.sector ↔ i.removed = true := by
  obtain ⟨d, -, hi⟩ := hp
  exact h.removed_iff hi

/-- **`dir_open_root`.** -/
theorem dirOpenRoot_tree (h : Tree k N H) :
    wp dirOpenRoot (fun p k' => Looked k N H k' ∧ p = k'.currDir ∧ ∃ i, k'.DirOf p i ∧ i.sector = 1) (fun _ => False) k := by
  obtain ⟨nd, hN, hdir⟩ := h.root
  rw [dirOpenRoot, wp_bind]
  refine wp_post (inodeOpen_opens h.wf hN) fun a k₁ ho => ?_
  obtain ⟨i, hi, hsec, -⟩ := ho.cell_self
  have h₁ := h.looked_opens ho hN
  obtain ⟨nd', hN', hdir'⟩ := h₁.tree.node hi
  rw [hsec, hN] at hN'
  cases hN'
  refine wp_post (dirOpen_spec hi) ?_
  rintro p k' ⟨rfl, rfl⟩
  exact ⟨h₁.trans (h₁.tree.looked_enter hi (hdir' ▸ hdir)), rfl, _, Fs.enter_dirOf hi, hsec⟩

/-- **`dir_reopen`.** -/
theorem dirReopen_tree (h : Tree k N H) (hd : k.dirs.cell p = some d) (hi : k.inodes.cell d.inode = some i) :
    wp (dirReopen p) (fun q k' => Looked k N H k' ∧ q = k'.currDir ∧ q = k.dirs.next ∧ k'.dirs.cell q = some ⟨d.inode, 0⟩ ∧
      k'.inodes.cell d.inode = some { i with openCnt := i.openCnt + 2 }) (fun _ => False) k := by
  have ho : Opens k i.sector d.inode (k.openers d.inode 1) := .found hi rfl
  obtain ⟨nd, hN, -⟩ := h.node hi
  have h₁ := h.looked_opens ho hN
  have hi₁ : (k.openers d.inode 1).inodes.cell d.inode = some { i with openCnt := i.openCnt + 1 } := by
    rw [ho.cell hi, if_pos rfl]
  rw [dirReopen, wp_bind]
  refine wp_dirAt hd ?_
  rw [wp_bind]
  refine wp_post (inodeReopen_spec hi) ?_
  rintro _ k₁ ⟨rfl, rfl⟩
  refine wp_post (dirOpen_spec hi₁) ?_
  rintro q k' ⟨rfl, rfl⟩
  refine ⟨h₁.trans (h₁.tree.looked_enter hi₁ (h.dirs p d i hd hi)), rfl, rfl, Heap.cell_alloc_self _ _, ?_⟩
  change ((k.openers d.inode 1).inodes.set d.inode _).cell d.inode = _
  rw [Heap.cell_set_self, hi₁, Option.map_some]
  dsimp only
  rw [add_assoc, one_add_one_eq_two]

/-- **`dir_close`** of a directory that others have open: the root directory is the current one. -/
theorem dirClose_tree (h : Tree k N H) (hd : k.dirs.cell p = some d) (hi : k.inodes.cell d.inode = some i) (hcnt : 1 < i.openCnt) :
    wp (dirClose p) (fun _ k' => SameData k k' ∧
      Looked { k.openers d.inode (-1) with dirs := k.dirs.free p } N H k' ∧ ∃ j, k'.DirOf k'.currDir j ∧ j.sector = 1)
      (fun _ => False) k := by
  have h₁ := (h.openers (n := -1) hi (by omega)).freeDir p
  rw [dirClose, wp_bind, onlyIf, if_pos (k.dirs.ne_null hd), wp_bind]
  refine wp_dirAt hd ?_
  rw [wp_bind]
  refine wp_post (inodeClose_more hi (by omega)) ?_
  rintro - k₁ rfl
  rw [wp_modify, wp_bind]
  refine wp_post (dirOpenRoot_tree h₁) ?_
  rintro q k' ⟨hl, rfl, hroot⟩
  exact ⟨⟨hl.data.freeMap, hl.data.tables, hl.data.keeps⟩, hl, hroot⟩

/-- The current directory is the one in sector `s`; the root directory, if there is none. -/
def Fs.Cwd (k : Fs) (s : ℕ) : Prop := k.currDir = 0 ∧ s = 1 ∨ ∃ i, k.DirOf k.currDir i ∧ i.sector = s

/-- **`dir_makesure`.** -/
theorem dirMakesure_tree (h : Tree k N H) :
    wp dirMakesure (fun p k' => Looked k N H k' ∧ p = k'.currDir ∧
      (k.currDir ≠ 0 ∧ k' = k ∨ k.currDir = 0 ∧ ∃ i, k'.DirOf p i ∧ i.sector = 1)) (fun _ => False) k := by
  rw [dirMakesure, wp_bind, wp_gets, wp_bind, wp_onlyIf]
  refine ⟨fun h0 => ?_, fun h0 => ?_⟩
  · rw [wp_bind]
    refine wp_post (dirOpenRoot_tree h) ?_
    rintro p k' ⟨hl, rfl, hroot⟩
    exact ⟨hl, rfl, .inr ⟨h0, hroot⟩⟩
  · exact ⟨.refl h, rfl, .inl ⟨h0, rfl⟩⟩

theorem Fs.dirOf_unique {j : Inode} (hp : k.DirOf p i) (hp' : k.DirOf p j) : i = j := by
  obtain ⟨d, hd, hi⟩ := hp
  obtain ⟨d', hd', hj⟩ := hp'
  rw [hd] at hd'
  cases hd'
  rw [hi] at hj
  cases hj
  rfl

theorem Fs.dirOf_ne_zero (hp : k.DirOf p i) : p ≠ 0 := by
  obtain ⟨d, hd, -⟩ := hp
  exact k.dirs.ne_null hd

/-- **`dir_makesure`** makes sure that there is a current directory. -/
theorem dirMakesure_cwd (h : Tree k N H) (hc : k.Cwd s) :
    wp dirMakesure (fun p k' => Looked k N H k' ∧ p = k'.currDir ∧ ∃ i, k'.DirOf p i ∧ i.sector = s) (fun _ => False) k := by
  refine wp_post (dirMakesure_tree h) ?_
  rintro p k' ⟨hl, rfl, hcur⟩
  refine ⟨hl, rfl, ?_⟩
  rcases hc with ⟨h0, rfl⟩ | ⟨i, hi, hsec⟩
  · rcases hcur with ⟨hne, -⟩ | ⟨-, hroot⟩
    · exact absurd h0 hne
    · exact hroot
  · rcases hcur with ⟨-, rfl⟩ | ⟨h0, -⟩
    · exact ⟨i, hi, hsec⟩
    · exact absurd h0 (Fs.dirOf_ne_zero hi)

/-! ### Files that come and change -/

/-- The files but the free map's have the same bytes. -/
def SameBytes (N : Nodes) (B B' : Buffers) : Prop :=
  ∀ s nd, N s = some nd → s ≠ 0 → ∀ j < 512 * nd.blocks.length, byteAt B' nd j = byteAt B nd j

theorem DirOk.of_bytes {B B' : Buffers} {m : CString → Option ℕ} (h : DirOk B nd m) (hlen : nd.length ≤ 512 * nd.blocks.length)
    (hbytes : ∀ j < 512 * nd.blocks.length, byteAt B' nd j = byteAt B nd j) : DirOk B' nd m := by
  refine h.congr fun n hn => ?_
  funext j
  have hj : j.1 < 24 := j.2
  unfold Node.slots at hn
  exact hbytes _ (by omega)

/-- A file that has the same sectors and the same bytes has the same contents. -/
theorem SameBytes.contentsAt_eq {N' : Nodes} (h : SameBytes N k.buffers k'.buffers) (hw : Wf k N 0) (hw' : Wf k' N' 0)
    (hN : N s = some nd) (hN' : N' s = some nd) (hs : s ≠ 0) : contentsAt k' s = contentsAt k s := by
  rw [hw'.contentsAt_eq hN', hw.contentsAt_eq hN]
  have hlen := (hw.laid.disk s nd hN).toRepr.length_le
  refine congrArg some (List.map_congr_left fun j hj => ?_)
  have hlt := List.mem_range.1 hj
  exact h s nd hN hs _ (by omega)

namespace Tree

theorem length_le (h : Tree k N H) (hN : N s = some nd) : nd.length ≤ 512 * nd.blocks.length :=
  (h.wf.laid.disk s nd hN).toRepr.length_le

theorem ne_zero (h : Tree k N H) (hN : N s = some nd) (hdir : nd.isdir = true) : s ≠ 0 := by
  rintro rfl
  rw [h.plain nd hN] at hdir
  cases hdir

/-- The files stay as they are, and so do the inodes in memory. -/
theorem of_same (h : Tree k N H) (hw : Wf k' N 0) (hm : MapOpen k' N) (hi : k'.inodes = k.inodes) (hd : k'.dirs = k.dirs)
    (hb : SameBytes N k.buffers k'.buffers) : Tree k' N H := by
  refine ⟨hw, hm, h.root, h.plain, hi ▸ h.pos, hi ▸ h.deny, hd ▸ hi ▸ h.dirs, hd ▸ hi ▸ h.live, fun s nd hN hdir => ?_⟩
  exact (h.ok s nd hN hdir).of_bytes (h.length_le hN) (hb s nd hN (h.ne_zero hN hdir))

/-- A sector is taken from the free map. -/
theorem allocated {b : ℕ} (h : Tree k N H) (ha : Allocated k N 0 b k') :
    Tree k' N H ∧ SameBytes N k.buffers k'.buffers ∧ k'.dirs = k.dirs ∧ k'.inodes = k.inodes ∧ k'.currDir = k.currDir ∧
      k'.freeMap = k.freeMap.setMultiple b 1 true := by
  have hw := ha.wf
  have hcontent := ha.content
  have hb : SameBytes N k.buffers k'.buffers := by
    intro s nd hN hs j hj
    unfold byteAt
    rw [hcontent _ (h.wf.laid.notMem_mapBlocks hN (List.mem_cons_of_mem _ (block_mem hj)) (.inl hs))]
  obtain ⟨B, rfl⟩ := ha.frame
  exact ⟨h.of_same hw h.map rfl rfl hb, hb, rfl, rfl, rfl, rfl⟩

/-- A file changes, or a new one comes. -/
theorem edited {new : List ℕ} {H' : Bindings} (h : Tree k N H) (he : Edited k N s nd new nd' k') (hs : s ≠ 0)
    (hself : ∀ nd₀, N s = some nd₀ → nd₀ = nd) (hH : ∀ t ≠ s, H' t = H t)
    (hok : nd'.isdir = true → DirOk k'.buffers nd' (H' s)) : Tree k' (Function.update N s (some nd')) H' := by
  have hother : ∀ t nd₁, t ≠ s → Function.update N s (some nd') t = some nd₁ → N t = some nd₁ := by
    intro t nd₁ ht hN
    rwa [Function.update_of_ne ht] at hN
  -- the inodes in memory are directories as before
  have hcell : ∀ a j', k'.inodes.cell a = some j' → ∃ j, k.inodes.cell a = some j ∧ j.handle = j'.handle ∧ j.data.isdir = j'.data.isdir := by
    intro a j' hj'
    have heq := he.steady.inodes a
    rw [hj'] at heq
    obtain ⟨j, hj, hhandle⟩ := Option.map_eq_some_iff.1 heq.symm
    refine ⟨j, hj, hhandle, ?_⟩
    obtain ⟨nd₁, hN₁, hdir₁⟩ := h.node hj
    obtain ⟨nd₂, hN₂, hr₂⟩ := he.wf.opened.node a j' hj'
    have hsec : j.sector = j'.sector := congrArg Prod.fst hhandle
    rw [← hdir₁, hr₂.isdir]
    by_cases hjs : j'.sector = s
    · rw [hjs, Function.update_self] at hN₂
      cases hN₂
      rw [hsec, hjs] at hN₁
      rw [hself nd₁ hN₁, he.isdir]
    · rw [hsec] at hN₁
      have := hother _ nd₂ hjs hN₂
      rw [hN₁] at this
      cases this
      rfl
  have hm : MapOpen k' (Function.update N s (some nd')) := by
    obtain ⟨f, j, nd₀, hf, hj, hsec, hdeny, hN₀, hle⟩ := h.map.steady he.steady he.bitCnt
    exact ⟨f, j, nd₀, hf, hj, hsec, hdeny, by rw [Function.update_of_ne (Ne.symm hs)]; exact hN₀, hle⟩
  refine ⟨he.wf, hm, ?_, fun nd₀ hN₀ => h.plain nd₀ (hother 0 nd₀ hs.symm hN₀), fun a j' hj' => ?_, fun a j' hj' hdir => ?_,
    fun p d j' hd hj' => ?_, fun p d hd => ?_, fun t nd₁ hN₁ hdir => ?_⟩
  · obtain ⟨nd₁, hN₁, hdir⟩ := h.root
    by_cases h1 : s = 1
    · refine ⟨nd', by rw [h1, Function.update_self], ?_⟩
      rw [he.isdir, ← hself nd₁ (h1 ▸ hN₁), hdir]
    · exact ⟨nd₁, by rw [Function.update_of_ne (Ne.symm h1)]; exact hN₁, hdir⟩
  · obtain ⟨j, hj, hhandle, -⟩ := hcell a j' hj'
    have hcnt : j.openCnt = j'.openCnt := congrArg (fun x => x.2.1) hhandle
    rw [← hcnt]
    exact h.pos a j hj
  · obtain ⟨j, hj, hhandle, hdir'⟩ := hcell a j' hj'
    have hdeny : j.denyWriteCnt = j'.denyWriteCnt := congrArg (fun x => x.2.2.2) hhandle
    rw [← hdeny]
    exact h.deny a j hj (hdir'.trans hdir)
  · rw [he.steady.dirs] at hd
    obtain ⟨j, hj, -, hdir'⟩ := hcell d.inode j' hj'
    rw [← hdir']
    exact h.dirs p d j hd hj
  · rw [he.steady.dirs] at hd
    rw [he.steady.next]
    exact h.live p d hd
  · by_cases hts : t = s
    · subst hts
      rw [Function.update_self] at hN₁
      cases hN₁
      exact hok hdir
    · have hN := hother t nd₁ hts hN₁
      rw [hH t hts]
      exact (h.ok t nd₁ hN hdir).of_bytes (h.length_le hN) (he.other t nd₁ hN hts (.inl (h.ne_zero hN hdir)))

/-- The sector of a file that no one has open is released, and the file forgotten. -/
theorem withdraw {B : Buffers} (h : Tree k N H) (hN : N s = some nd) (h2 : 2 ≤ s)
    (hnone : ∀ a i, k.inodes.cell a = some i → i.sector ≠ s)
    (hB : Persisted N { k with freeMap := k.freeMap.setMultiple s 1 false } B) :
    Tree { k with freeMap := k.freeMap.setMultiple s 1 false, buffers := B } (Function.update N s none) H ∧
      SameBytes N k.buffers B := by
  obtain ⟨hw, hm, -⟩ := h.wf.withdraw h.map hN h2 hnone hB
  have hbytes : SameBytes N k.buffers B := by
    intro s' nd' hN' hs' j hj
    unfold byteAt
    rw [hB.content _ (h.wf.laid.notMem_mapBlocks hN' (List.mem_cons_of_mem _ (block_mem hj)) (.inl hs'))]
  obtain ⟨nd₁, hN₁, hdir₁⟩ := h.root
  refine ⟨⟨hw, hm, ⟨nd₁, by rw [Function.update_of_ne (by omega)]; exact hN₁, hdir₁⟩,
    fun nd₂ hN₂ => h.plain nd₂ (update_none_eq_some hN₂).2, h.pos, h.deny, h.dirs, h.live, fun t nd₂ hN₂ hdir => ?_⟩, hbytes⟩
  have hN' := (update_none_eq_some hN₂).2
  exact (h.ok t nd₂ hN' hdir).of_bytes (h.length_le hN') (hbytes t nd₂ hN' (h.ne_zero hN' hdir))

end Tree

/-- **A formatted file system** is a tree with an empty root directory. -/
theorem Formatted.tree (h : Formatted k N) (hplain : ∀ nd, N 0 = some nd → nd.isdir = false) : Tree k N fun _ _ => none := by
  have hs := h.sound
  obtain ⟨nd, hN, hdir, -, hok⟩ := h.root
  have hnone : ∀ p d, k.dirs.cell p ≠ some d := by
    intro p d hd
    rw [h.map.dirs] at hd
    cases hd
  refine ⟨hs.wf, hs.map, ⟨nd, hN, hdir⟩, hplain, hs.counted.pos, fun a i hi _ => hs.counted.deny a i hi,
    fun p d _ hd => absurd hd (hnone p d), fun p d hd => absurd hd (hnone p d), fun s nd' hN' hdir' => ?_⟩
  rcases h.only s nd' hN' with rfl | rfl
  · rw [hplain nd' hN'] at hdir'
    cases hdir'
  · rw [hN] at hN'
    cases hN'
    exact hok

end Pintos
