import Pintos.Userprog.PathRuns

/-!
# Paths that stop the kernel

A path that has a component never stops the kernel for want of a name. A path of slashes
alone has none: `strtok_r` returns the null pointer at once, the walk leaves it over, and it
is passed on to `filesys_create`, `filesys_open`, `filesys_remove` or `dir_add`, whose callees
assert that there is a name. `SYS_OPEN` and `SYS_REMOVE` make an exception for `/`, and
`SYS_CREATE` for more slashes than a name has bytes (`path_calls_stop`).
-/

namespace Pintos

open Library Library.Prog

variable {k k' k₁ : Fs} {N N' : Nodes} {H : Bindings} {s t p : ℕ} {i : Inode} {c path : CString} {cs : List CString} {L : ℤ}

/-- Slashes alone, and one at least. -/
def CString.Hollow (path : CString) : Prop := 0 < path.strlen ∧ path.tokens = []

instance (path : CString) : Decidable path.Hollow := inferInstanceAs (Decidable (_ ∧ _))

theorem CString.Hollow.isAbsolute (h : path.Hollow) : path.isAbsolute = true := by
  obtain ⟨hpos, htok⟩ := h
  rw [CString.tokens_eq] at htok
  rcases CString.strtokR_cases path with ⟨-, hall⟩ | ⟨pre, t, r, -, -, hsome, -⟩
  · rw [CString.isAbsolute, beq_iff_eq, CString.byte, List.getD_eq_getElem _ _ hpos]
    exact hall _ (List.getElem_mem hpos)
  · rw [hsome] at htok
    cases htok

theorem CString.empty_of_not_hollow (h : ¬ path.Hollow) (htok : path.tokens = []) : path.strlen = 0 := by
  by_contra hpos
  exact h ⟨Nat.pos_of_ne_zero hpos, htok⟩

theorem CString.plain_of_empty (h : path.strlen = 0) : path ≠ .root ∧ path.isAbsolute = false ∧ path.hasSlash = false ∧
    path ≠ .dot ∧ path ≠ .dotDot := by
  have hbytes : path.bytes = [] := List.eq_nil_of_length_eq_zero h
  have hpath : path = ⟨[], by simp⟩ := CString.ext hbytes
  subst hpath
  decide

/-! ### Without a name -/

/-- A program that does not return stops. -/
theorem exists_error {σ ε α : Type} {m : Prog σ ε α} {E : ε → Prop} {x : σ} (h : wp m (fun _ _ => False) E x) :
    ∃ e, m x = .error e ∧ E e := by
  cases hm : m x with
  | ok r => exact (wp_of_ok h hm).elim
  | error e => exact ⟨e, rfl, wp_of_error h hm⟩

theorem dirLookup_null (hp : k.DirOf p i) : wp (dirLookup p none) (fun _ _ => False) (· = .nullName) k := by
  obtain ⟨d, hd, -⟩ := hp
  rw [dirLookup, wp_bind]
  exact wp_dirAt hd (wp_bind.2 rfl)

theorem dirAdd_null (hp : k.DirOf p i) : wp (dirAdd p none t) (fun _ _ => False) (· = .nullName) k := by
  obtain ⟨d, hd, -⟩ := hp
  rw [dirAdd, wp_bind]
  exact wp_dirAt hd (wp_bind.2 rfl)

theorem dirRemove_null (hp : k.DirOf p i) : wp (dirRemove p none) (fun _ _ => False) (· = .nullName) k := by
  obtain ⟨d, hd, -⟩ := hp
  rw [dirRemove, wp_bind]
  exact wp_dirAt hd (wp_bind.2 rfl)

theorem filesysRemove_null (h : Tree k N H) (hc : k.Cwd s) : wp (filesysRemove none) (fun _ _ => False) (· = .nullName) k := by
  rw [filesysRemove]
  refine wp_seq (dirMakesure_cwd h hc) (fun _ => False.elim) ?_
  rintro p k₁ ⟨-, -, i, hp, -⟩
  exact dirRemove_null hp

theorem filesysOpen_null (h : Tree k N H) (hc : k.Cwd s) (hkept : ¬ Removed k s) :
    wp (filesysOpen none) (fun _ _ => False) (· = .nullName) k := by
  rw [filesysOpen]
  refine wp_seq (dirMakesure_cwd h hc) (fun _ => False.elim) ?_
  rintro cur k₁ ⟨hl₁, -, i, ⟨d, hd, hi⟩, hsec⟩
  have hopen : i.removed = false := by
    rw [← Bool.not_eq_true, ← hl₁.tree.removed_iff hi, hsec, hl₁.holding.removed_iff]
    exact hkept
  refine wp_seq (dirReopen_tree hl₁.tree hd hi) (fun _ => False.elim) ?_
  rintro dir k₂ ⟨hl₂, -, -, hd₂, hi₂⟩
  rw [wp_bind]
  refine wp_dirAt hd₂ ?_
  rw [wp_bind]
  refine wp_inodeAt hi₂ ?_
  rw [hopen, if_neg (by decide), wp_bind]
  exact wp_mono (dirLookup_null ⟨_, hd₂, hi₂⟩) (fun _ _ hno => hno.elim) fun _ he => he

theorem filesysCreate_null (h : Tree k N H) (hc : k.Cwd s) (hkept : ¬ Removed k s) (h0 : 0 ≤ L) (hmax : L ≤ 512 * 512)
    (hroom : CreateRoom k N s L.toNat) : wp (filesysCreate none L) (fun _ _ => False) (· = .nullName) k := by
  rw [filesysCreate]
  refine wp_seq (dirMakesure_cwd h hc) (fun _ => False.elim) ?_
  rintro cur k₁ ⟨hl₁, -, i, ⟨d, hd, hi⟩, hsec⟩
  have hopen : i.removed = false := by
    rw [← Bool.not_eq_true, ← hl₁.tree.removed_iff hi, hsec, hl₁.holding.removed_iff]
    exact hkept
  refine wp_seq (dirReopen_tree hl₁.tree hd hi) (fun _ => False.elim) ?_
  rintro dir k₂ ⟨hl₂, -, -, hd₂, hi₂⟩
  rw [wp_bind]
  refine wp_dirAt hd₂ ?_
  rw [wp_bind]
  refine wp_inodeAt hi₂ ?_
  have hroom₂ := hroom.looked h (hl₁.trans hl₂)
  rw [hopen, if_neg (by decide)]
  refine wp_seq (freeMapAllocate_spec persistFreeMap_persists hl₂.tree.wf fun _ => hl₂.tree.map)
    (fun e he => (he.1 hroom₂.map).elim) ?_
  rintro _ k₃ (⟨t, rfl, ha⟩ | ⟨rfl, rfl, hfull⟩)
  · obtain ⟨hlast, hgrow⟩ : _ ∧ GrowRoom k₃ N t (.empty false) L.toNat := hroom₂.inode hl₂.tree ha
    refine wp_seq (inodeCreate_tree hl₂.tree ha (by omega) (by simp)) (fun e he => (he.1 ⟨h0, hmax, hlast, fun _ => hgrow⟩).elim) ?_
    rintro _ k₄ ⟨rfl, -, new, nd, hcr, -, -⟩
    obtain ⟨data, hp₄⟩ := (ha.steady.trans hcr.edited.steady).dirOf ⟨_, hd₂, hi₂⟩
    rw [if_pos rfl]
    refine wp_seq (dirAdd_null hp₄) (fun _ he => he) fun _ _ hno => hno.elim
  · exact (hroom₂.not_full hfull).elim

theorem mkdirAdd_null (h : Tree k N H) (hc : k.Cwd s) (ha : Allocated k N 0 t k₁) (hroom : CreateRoom k N s 384) :
    wp (mkdirAdd none t) (fun _ _ => False) (· = .nullName) k₁ := by
  rw [mkdirAdd]
  refine wp_seq (dirCreate_tree (s := s) h ha) (fun e he => (he.1 hroom).elim) ?_
  rintro - k₂ ⟨hst, new, nd, -, hblank, h₂⟩
  refine wp_seq (inodeOpen_opens h₂.wf hblank.node) (fun _ => False.elim) ?_
  intro a k₃ ho
  obtain ⟨j, hj, -⟩ := ho.cell_self
  have hl₃ := h₂.looked_opens ho hblank.node
  have hcwd₃ : k₃.Cwd s := hc.holding (hst.holding.trans hl₃.holding) (ho.currDir.trans hst.currDir)
  rw [if_pos (k₃.inodes.ne_null hj)]
  refine wp_seq (dirMakesure_cwd hl₃.tree hcwd₃) (fun _ => False.elim) ?_
  rintro dir k₄ ⟨-, -, i, hp, -⟩
  exact wp_seq (dirAdd_null hp) (fun _ he => he) fun _ _ hno => hno.elim

/-- The walk over no component leaves no name over. -/
theorem walkThen_hollow (h : path.Hollow) (op : Option CString → FsM Bool) : walkThen path op = op none := by
  rw [walkThen, h.2]
  rfl

/-! ### The calls -/

/-- **`SYS_OPEN`** of slashes. -/
theorem sysOpen_hollow (h : Directories k N H) (hc : k.Cwd s) (hpath : path.Hollow) (hroot : path ≠ .root) :
    wp (sysOpen path) (fun _ _ => False) (· = .nullName) k := by
  rw [sysOpen]
  refine wp_seq (dirMakesure_cwd h.tree hc) (fun _ => False.elim) ?_
  rintro prevdir k₁ ⟨hl₁, -, -⟩
  rw [if_neg hroot, if_pos hpath.isAbsolute, hpath.2]
  refine wp_seq (dirOpenRoot_tree hl₁.tree) (fun _ => False.elim) ?_
  rintro q k₂ ⟨hl₂, rfl, hq⟩
  have hkept : ¬ Removed k₂ 1 := fun hrem => h.kept 1 (.inl rfl) ((hl₁.trans hl₂).holding.removed_iff.1 hrem)
  rw [walk, wp_bind, wp_pure]
  exact wp_seq (filesysOpen_null hl₂.tree (.inr hq) hkept) (fun _ he => he) fun _ _ hno => hno.elim

/-- **`SYS_REMOVE`** of slashes. -/
theorem sysRemove_hollow (h : Tree k N H) (hc : k.Cwd s) (hpath : path.Hollow) (hroot : path ≠ .root) :
    wp (sysRemove path) (fun _ _ => False) (· = .nullName) k := by
  rw [sysRemove]
  refine wp_seq (dirMakesure_cwd h hc) (fun _ => False.elim) ?_
  rintro prevdir k₁ ⟨hl₁, -, -⟩
  rw [if_neg hroot, if_pos hpath.isAbsolute, walkThen_hollow hpath]
  refine wp_seq (dirOpenRoot_tree hl₁.tree) (fun _ => False.elim) ?_
  rintro q k₂ ⟨hl₂, rfl, hq⟩
  exact wp_seq (filesysRemove_null hl₂.tree (.inr hq)) (fun _ he => he) fun _ _ hno => hno.elim

/-- **`SYS_CREATE`** of slashes. -/
theorem sysCreate_hollow (h : Directories k N H) (hc : k.Cwd s) (hkept : ¬ Removed k s) (hpath : path.Hollow) (hshort : path.strlen ≤ 14)
    (h0 : 0 ≤ L) (hmax : L ≤ 512 * 512) (hroom : CreateRoom k N 1 L.toNat) :
    wp (sysCreate path L) (fun _ _ => False) (· = .nullName) k := by
  rw [sysCreate]
  refine wp_seq (dirMakesure_cwd h.tree hc) (fun _ => False.elim) ?_
  rintro prevdir k₁ ⟨hl₁, rfl, i, ⟨d, hd, hi⟩, hsec⟩
  have hopen : i.removed = false := by
    rw [← Bool.not_eq_true, ← hl₁.tree.removed_iff hi, hsec, hl₁.holding.removed_iff]
    exact hkept
  rw [if_pos ⟨hshort, hpath.1⟩, if_pos hpath.isAbsolute, wp_bind, wp_gets]
  refine wp_seq (dirClose_kept hl₁.tree hd hi hopen) (fun _ => False.elim) ?_
  rintro - k₂ ⟨h₂, hsame, -, hrem, hroot⟩
  have hkept₂ : ¬ Removed k₂ 1 := fun hr => h.kept 1 (.inl rfl) (hl₁.holding.removed_iff.1 ((hrem 1).1 hr))
  rw [walkThen_hollow hpath]
  exact wp_seq (filesysCreate_null h₂ (.inr hroot) hkept₂ h0 hmax (hroom.sameData h.tree (hl₁.data.trans hsame))) (fun _ he => he)
    fun _ _ hno => hno.elim

/-- **`SYS_MKDIR`** of slashes. -/
theorem sysMkdir_hollow (h : Tree k N H) (hc : k.Cwd s) (hpath : path.Hollow) (hroom : CreateRoom k N 1 384) :
    wp (sysMkdir path) (fun _ _ => False) (· = .nullName) k := by
  rw [sysMkdir, if_neg hpath.1.ne']
  refine wp_seq (freeMapAllocate_spec persistFreeMap_persists h.wf fun _ => h.map) (fun e he => (he.1 hroom.map).elim) ?_
  rintro _ k₁ (⟨t, rfl, ha⟩ | ⟨rfl, rfl, hfull⟩)
  swap
  · exact (hroom.not_full hfull).elim
  dsimp only
  rw [if_pos hpath.isAbsolute, mkdirAbsolute, hpath.2]
  obtain ⟨h₁, -⟩ := h.allocated ha
  refine wp_seq (dirOpenRoot_tree h₁) (fun _ => False.elim) ?_
  rintro q k₂ ⟨hl₂, rfl, hq⟩
  rw [walk, wp_bind, wp_pure]
  -- the sector might have been taken after the root directory was opened
  obtain ⟨k₀, h₀, ha₀, -, -, hcwd₀, -, hroom₀⟩ := h.allocated_looked ha hl₂
  exact wp_seq (mkdirAdd_null h₀ (hcwd₀ 1 (.inr hq)) ha₀ (hroom₀ 1 h.isDir_root hroom)) (fun _ he => he) fun _ _ hno => hno.elim

/-- **`SYS_OPEN`** of the empty path: the empty name is looked up. -/
theorem sysOpen_empty (h : Directories k N H) (hc : k.Cwd s) (hpath : path.strlen = 0) :
    wp (sysOpen path) (fun _ _ => True) (Unless (DirsClear k N)) k := by
  obtain ⟨hroot, habs, hslash, -⟩ := CString.plain_of_empty hpath
  rw [sysOpen]
  refine wp_seq (dirMakesure_cwd h.tree hc) (fun _ => False.elim) ?_
  rintro prevdir k₁ ⟨hl₁, rfl, i, hi, hsec⟩
  rw [if_neg hroot, habs, if_neg (by decide), hslash, if_neg (by decide)]
  refine wp_seq (filesysOpen_tree hl₁.tree h.linked (.inr ⟨i, hi, hsec⟩)) (fun e he => hl₁.unless e he) ?_
  exact fun _ _ _ => trivial

/-- **`SYS_REMOVE`** of the empty path. -/
theorem sysRemove_empty (h : Directories k N H) (hc : k.Cwd s) (hpath : path.strlen = 0) :
    wp (sysRemove path) (fun _ _ => True) (Unless (DirsClear k N ∧ MapClear k N)) k := by
  obtain ⟨hroot, habs, hslash, hdot, hdotDot⟩ := CString.plain_of_empty hpath
  obtain ⟨nd, hN, hdir⟩ := h.tree.cwd_isDir hc
  rw [sysRemove]
  refine wp_seq (dirMakesure_cwd h.tree hc) (fun _ => False.elim) ?_
  rintro prevdir k₁ ⟨hl₁, rfl, i, hi, hsec⟩
  rw [if_neg hroot, habs, if_neg (by decide), hslash, if_neg (by decide)]
  have htarget : ∀ t, H s path = some t → 2 ≤ t ∧ t ≠ s := fun t =>
    h.below s path t (Nodes.isDir_iff.2 ⟨nd, hN, hdir⟩) hdot hdotDot
  refine wp_seq (filesysRemove_tree hl₁.tree h.linked (.inr ⟨i, hi, hsec⟩) htarget) (Unless.mono fun hall => ?_)
    fun _ _ _ => trivial
  have hroom : RemoveRoom k N nd (H s path) := ⟨hall.1 _ nd hN hdir, hall.2, fun t ndt _ => hall.1 t ndt⟩
  exact ⟨nd, hN, hroom.of_capacity hl₁.capacity⟩

/-- **`SYS_REMOVE`** of the root directory. -/
theorem sysRemove_root (h : Tree k N H) (hc : k.Cwd s) : wp (sysRemove .root) (fun r _ => r = false) (fun _ => False) k := by
  rw [sysRemove]
  refine wp_seq (dirMakesure_cwd h hc) (fun _ => False.elim) ?_
  intro prevdir k₁ _
  rw [if_pos rfl]
  exact rfl

/-- **`SYS_CREATE`** of a path that is empty or too long. -/
theorem sysCreate_refuses (h : Tree k N H) (hc : k.Cwd s) (hpath : ¬ (path.strlen ≤ 14 ∧ 0 < path.strlen)) :
    wp (sysCreate path L) (fun r _ => r = false) (fun _ => False) k := by
  rw [sysCreate]
  refine wp_seq (dirMakesure_cwd h hc) (fun _ => False.elim) ?_
  intro prevdir k₁ _
  rw [if_neg hpath]
  exact rfl

/-- There is room on the disk: no directory and no block of the free map is in the last sector, and a file of `n` bytes fits in with
its name, whatever the directory. -/
def RoomFor (k : Fs) (N : Nodes) (n : ℕ) : Prop := DirsClear k N ∧ MapClear k N ∧ ∀ u, N.isDir u = true → CreateRoom k N u n

/-- The call returns. -/
def Returns {α : Type} (m : FsM α) (k : Fs) : Prop := ∃ a k', m k = .ok (a, k')

theorem returns_of_wp {α : Type} {m : FsM α} {Q : α → Fs → Prop} {P : Prop} (h : wp m Q (Unless P) k) (hP : P) : Returns m k := by
  obtain ⟨a, k', hrun, -⟩ := exists_ok (wp_mono h (fun _ _ hq => hq) fun _ he => (he.1 hP).elim)
  exact ⟨a, k', hrun⟩

/-- **Which paths stop the kernel**, after any sequence of calls and if there is room: slashes alone, for which the calls pass on a null
pointer as the name, but for `/` in `SYS_OPEN` and `SYS_REMOVE` and for more than 14 in `SYS_CREATE`. Besides, `SYS_MKDIR` reads
through a null pointer if no inode was looked up last and the name is free. `SYS_CHDIR` always returns. -/
theorem path_calls_stop (h : Directories k N H) (hc : k.Cwd s) (hkept : ¬ Removed k s) (h0 : 0 ≤ L) (hmax : L ≤ 512 * 512)
    (hroom : RoomFor k N L.toNat) (hroom' : RoomFor k N 384) (path : CString) :
    Returns (sysChdir path) k ∧
    (if path.Hollow ∧ path ≠ .root then sysOpen path k = .error .nullName else Returns (sysOpen path) k) ∧
    (if path.Hollow ∧ path ≠ .root then sysRemove path k = .error .nullName
      else (∀ c ∈ path.tokens.getLast?, c ≠ .dot ∧ c ≠ .dotDot) → Returns (sysRemove path) k) ∧
    (if path.Hollow ∧ path.strlen ≤ 14 then sysCreate path L k = .error .nullName else Returns (sysCreate path L) k) ∧
    (if path.Hollow then sysMkdir path k = .error .nullName
      else Returns (sysMkdir path) k ↔ ∀ c cs, path.tokens = c :: cs → path.isAbsolute = true →
        (H.along N false none (path.start s) c cs).last = none →
          ¬ (ValidName (H.along N false none (path.start s) c cs).name ∧
            H (H.along N false none (path.start s) c cs).place (H.along N false none (path.start s) c cs).name = none)) := by
  obtain ⟨hclear, hmap, hfits⟩ := hroom
  obtain ⟨hs, hdir⟩ := h.placed_cwd hc hkept
  have hnull : ∀ {α : Type} {m : FsM α}, wp m (fun _ _ => False) (· = .nullName) k → m k = .error .nullName := by
    intro α m hm
    obtain ⟨e, hrun, rfl⟩ := exists_error hm
    exact hrun
  have hempty : ∀ {P : Prop}, path.tokens = [] → ¬ (path.Hollow ∧ P) → P → path.strlen = 0 := fun htok hno hP =>
    CString.empty_of_not_hollow (fun hh => hno ⟨hh, hP⟩) htok
  refine ⟨returns_of_wp (sysChdir_tree h.tree h.linked hc) hclear, ?_, ?_, ?_, ?_⟩
  · split_ifs with hpath
    · exact hnull (sysOpen_hollow h hc hpath.1 hpath.2)
    · cases htok : path.tokens with
      | cons c cs => exact returns_of_wp (sysOpen_tree h.tree h.linked hc htok) hclear
      | nil =>
        by_cases hroot : path = .root
        · subst hroot
          exact returns_of_wp (P := True) (wp_mono (sysOpen_root h.tree hc) (fun _ _ hq => hq) fun _ => False.elim) trivial
        · exact returns_of_wp (sysOpen_empty h hc (hempty htok hpath hroot)) hclear
  · split_ifs with hpath
    · exact hnull (sysRemove_hollow h.tree hc hpath.1 hpath.2)
    · intro hlast
      cases htok : path.tokens with
      | cons c cs =>
        have hlast' := hlast ((c :: cs).getLast (List.cons_ne_nil c cs)) (by rw [htok]; exact List.getLast?_eq_some_getLast _)
        exact returns_of_wp (sysRemove_frame h.tree h.linked h.below hc htok hlast') ⟨hclear, hmap⟩
      | nil =>
        by_cases hroot : path = .root
        · subst hroot
          exact returns_of_wp (P := True) (wp_mono (sysRemove_root h.tree hc) (fun _ _ hq => hq) fun _ => False.elim) trivial
        · exact returns_of_wp (sysRemove_empty h hc (hempty htok hpath hroot)) ⟨hclear, hmap⟩
  · split_ifs with hpath
    · exact hnull (sysCreate_hollow h hc hkept hpath.1 hpath.2 h0 hmax (hfits 1 h.tree.isDir_root))
    · cases htok : path.tokens with
      | cons c cs =>
        obtain ⟨hps, hpd⟩ := h.placed_start hs hdir path
        have hpdir : N.isDir (H.along N true none (path.start s) c cs).place = true := (h.placed_along hps hpd).2
        exact returns_of_wp (sysCreate_tree h.tree h.linked hc hkept (by omega) htok) fun _ =>
          ⟨hclear, fun _ _ _ => ⟨h0, hmax, hfits _ hpdir⟩⟩
      | nil =>
        refine returns_of_wp (P := True) (wp_mono (sysCreate_refuses h.tree hc fun hcond => ?_) (fun _ _ hq => hq) fun _ => False.elim) trivial
        have := hempty htok hpath hcond.1
        omega
  · split_ifs with hpath
    · exact hnull (sysMkdir_hollow h.tree hc hpath (hroom'.2.2 1 h.tree.isDir_root))
    · cases htok : path.tokens with
      | cons c cs =>
        obtain ⟨hps, hpd⟩ := h.placed_start hs hdir path
        have hpdir : N.isDir (H.along N false none (path.start s) c cs).place = true := (h.placed_along hps hpd).2
        obtain ⟨-, hreturns, hstops⟩ := sys_mkdir_exact h.tree h.linked hc htok rfl
        constructor
        · rintro ⟨r, k', hrun⟩ c' cs' heq habs hlast ⟨hvalid, hfree⟩
          cases heq
          exact hstops habs hlast hvalid hfree r k' hrun
        · exact fun hno => hreturns ⟨hmap, hclear, fun _ => ⟨hroom'.2.2 _ hpdir, fun habs hlast => hno c cs rfl habs hlast⟩⟩
      | nil =>
        refine ⟨fun _ c cs heq => (by cases heq), fun _ => ⟨false, k, ?_⟩⟩
        rw [sysMkdir, if_pos (CString.empty_of_not_hollow hpath htok)]
        rfl

namespace Sample

/-- On a disk of 16 sectors that was formatted, there is room for a file of a sector. -/
theorem formatted_room : ∃ k N, filesysInit true (Fs.boot (Disk.blank 16 (by decide))) = .ok ((), k) ∧
    (Directories k N fun _ _ => none) ∧ k.Cwd 1 ∧ ∀ n ≤ 512, RoomFor k N n := by
  have hcheck : (filesysInit true).returns (fun _ k => decide (k.buffers.disk.capacity = 16 ∧ 4 ≤ k.freeMap.freeBelow 15 ∧
      k.tables.next = 1 ∧ (blockOf k.tables (InodeDisk.decode (k.buffers.content 1)) 0).all (· + 1 < 16)))
      (Fs.boot (Disk.blank 16 (by decide))) = true := by decide +kernel
  obtain ⟨_, k, hrun, hk⟩ := exists_of_returns hcheck
  obtain ⟨hcap, hfree, hnext, hblock⟩ := of_decide_eq_true hk
  obtain ⟨N, hf, hplain⟩ := wp_of_ok (filesysInit_plain _) hrun
  obtain ⟨-, -, hcwd⟩ := hf.rooted hplain
  obtain ⟨nd, hN, hdir, hlen, -⟩ := hf.root
  have honly : ∀ u nd', N u = some nd' → nd'.isdir = true → u = 1 := by
    intro u nd' hN' hdir'
    rcases hf.only u nd' hN' with rfl | rfl
    · rw [hplain nd' hN'] at hdir'
      cases hdir'
    · rfl
  -- the one block of the root directory
  have hkept := hf.map.wf.laid.disk 1 nd hN
  have hcard : nd.blocks.length = 1 := by
    rw [hkept.card, hlen]
    rfl
  have hclear : nd.Clear k := by
    obtain ⟨b, hb⟩ := List.length_eq_one_iff.1 hcard
    rw [hkept.blockOf_eq (by omega), hb] at hblock
    intro b' hb'
    rw [hb, List.mem_singleton] at hb'
    rw [hb', hcap]
    simpa using hblock
  have hdirs : DirsClear k N := by
    intro u nd' hN' hdir'
    rw [honly u nd' hN' hdir', hN] at hN'
    cases hN'
    exact hclear
  refine ⟨k, N, hrun, hf.directories hplain, hcwd, fun n hn => ⟨hdirs, hf.map.clear, fun u hu => ?_⟩⟩
  obtain ⟨nd', hN', hdir'⟩ := Nodes.isDir_iff.1 hu
  have hu1 := honly u nd' hN' hdir'
  subst hu1
  have hsectors : sectorsFor n ≤ 1 := by
    unfold sectorsFor
    omega
  refine ⟨hf.map.clear, fun nd'' hN'' => hdirs 1 nd'' hN'' ?_, fun _ _ _ => by rw [hcap]; decide, by rw [hnext]; decide, ?_,
    fun nd'' hN'' _ => ?_⟩
  · rw [hN] at hN''
    cases hN''
    exact hdir
  · rw [hcap]
    change 1 + sectorsFor n ≤ k.freeMap.freeBelow 15
    omega
  · rw [hN] at hN''
    cases hN''
    rw [hlen, hcard, hcap]
    change _ ∧ 1 + sectorsFor n + (1 - 1) ≤ k.freeMap.freeBelow 15
    omega

end Sample

/-- `//` on a disk that was formatted. -/
theorem path_calls_stop_slashes : ∃ k, filesysInit true (Fs.boot (Disk.blank 16 (by decide))) = .ok ((), k) ∧
    sysOpen ⟨[slash, slash], by decide⟩ k = .error .nullName ∧ Returns (sysChdir ⟨[slash, slash], by decide⟩) k := by
  obtain ⟨k, N, hrun, hd, hcwd, hroom⟩ := Sample.formatted_room
  obtain ⟨hchdir, hopen, -⟩ := path_calls_stop (L := 0) hd hcwd (hd.kept 1 (.inl rfl)) le_rfl (by decide) (hroom 0 (by decide))
    (hroom 384 (by decide)) ⟨[slash, slash], by decide⟩
  rw [if_pos (by decide)] at hopen
  exact ⟨k, hrun, hopen, hchdir⟩

end Pintos
