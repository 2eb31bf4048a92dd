import Pintos.Filesys.Exhaustion
import Pintos.Filesys.TreeRemovals
import Pintos.Userprog.PathWalks

/-!
# Creating and removing by path

`SYS_CREATE` and `SYS_REMOVE` walk strictly: they give up at a component that is
missing or no directory, and hand the last component to `filesys_create` and
`filesys_remove` in the directory where the walk ended. What `SYS_CREATE` adds to
that is a limit on the whole path: one of more than 14 bytes is refused, however
short its components are (`sys_create_exact`). `SYS_REMOVE` removes what it
should, unless the kernel stops for a read past the end of the disk (`sys_remove_exact`).
-/

namespace Pintos

open Library Library.Prog

variable {k k' k₁ k₂ : Fs} {N N' : Nodes} {H : Bindings} {s t p : ℕ} {i : Inode} {nd : Node} {c path nm : CString}
  {cs : List CString} {L : ℤ} {r : Bool}

/-! ### Strict walks -/

/-- The walk, and then `op` for the component that it leaves over, unless it gave up. -/
theorem wp_walkThen {op : Option CString → FsM Bool} {Q : Bool → Fs → Prop} {E : Halt → Prop} (h : Tree k N H) (hl : Linked N H)
    (hc : k.Cwd s) (htok : path.tokens = c :: cs) (hE : ∀ e, Unless (DirsClear k N) e → E e)
    (hfail : (H.along N true none s c cs).fail = true → ∀ k', Looked k N H k' → Q false k')
    (hop : (H.along N true none s c cs).fail = false → ∀ k', Looked k N H k' → k'.Cwd (H.along N true none s c cs).place →
      wp (op (some (H.along N true none s c cs).name)) Q E k') : wp (walkThen path op) Q E k := by
  rw [walkThen, htok]
  refine wp_seq (walk_tree h hl hc (show k.InodeOf 0 none from rfl) true) hE ?_
  rintro w k₁ ⟨hl₁, hwf, hprev, hcwd, -⟩
  rw [hprev, hwf]
  cases hw : (H.along N true none s c cs).fail with
  | true =>
    rw [if_pos rfl, wp_pure]
    exact hfail hw k₁ hl₁
  | false =>
    rw [if_neg (by decide)]
    exact hop hw k₁ hl₁ hcwd

/-- A path that is its only component is not walked. -/
theorem walkThen_plain (h : path.Plain) (op : Option CString → FsM Bool) : walkThen path op = op (some path) := by
  rw [walkThen, h.tokens_eq]
  rfl

theorem CString.Plain.not_isAbsolute (h : path.Plain) : path.isAbsolute = false := by
  obtain ⟨hpos, hslash⟩ := h
  rw [CString.isAbsolute, beq_eq_false_iff_ne]
  intro hbyte
  refine absurd ?_ (CString.notMem_of_hasSlash hslash)
  rw [← hbyte, CString.byte, List.getD_eq_getElem _ _ hpos]
  exact List.getElem_mem hpos

/-! ### `SYS_CREATE` -/

theorem Tree.setCurrDir (h : Tree k N H) (p : ℕ) : Tree { k with currDir := p } N H :=
  ((Looked.refl h).toAccessed.setCurrDir p).tree

/-- Files were looked up before, and the current directory is set after. -/
theorem CreateResult.within (h : CreateResult k₁ N H s nm L r k₂) (hk : Tree k N H) (hs : SameData k k₁)
    (hrem : Removed k₁ s ↔ Removed k s) (p : ℕ) : CreateResult k N H s nm L r { k₂ with currDir := p } := by
  have hfull : k₁.Full ↔ k.Full := by
    unfold Fs.Full
    rw [hs.freeMap, hs.keeps.capacity]
  have hend : ∀ {N' H'}, Tree k₂ N' H' → SameData k₂ { k₂ with currDir := p } := fun ht => ⟨rfl, rfl, .refl ht.wf.cache⟩
  rcases h with ⟨rfl, hkept, hroom, h0, hvalid, hnone, t, N', hadded⟩ | ⟨rfl, ⟨hwhy, ht, hsame⟩ | ⟨hkept, hroom, h0, hno, t, new, href⟩⟩
  · exact .inl ⟨rfl, mt hrem.2 hkept, mt hfull.2 hroom, h0, hvalid, hnone, t, N',
      hadded.sameData hk hs (hend hadded.tree) (hadded.tree.setCurrDir p)⟩
  · exact .inr ⟨rfl, .inl ⟨hwhy.imp hrem.1 hfull.1, ht.setCurrDir p, (hs.trans hsame).trans (hend ht)⟩⟩
  · exact .inr ⟨rfl, .inr ⟨mt hrem.2 hkept, mt hfull.2 hroom, h0, hno, t, new,
      href.sameData hs (hend href.tree) (href.tree.setCurrDir p)⟩⟩

theorem CreateRoom.looked {n : ℕ} (h : CreateRoom k N s n) (ht : Tree k N H) (hl : Looked k N H k₁) : CreateRoom k₁ N s n :=
  h.sameData ht hl.data

/-- What `filesys_create` needs to return. -/
def CreateFits (k : Fs) (N : Nodes) (s : ℕ) (L : ℤ) : Prop :=
  ¬ Removed k s → ¬ k.Full → 0 ≤ L ∧ L ≤ 512 * 512 ∧ CreateRoom k N s L.toNat

theorem CreateFits.of_data (h : CreateFits k N s L) (ht : Tree k N H) (hs : SameData k k₁) (hrem : Removed k₁ s ↔ Removed k s) :
    CreateFits k₁ N s L := by
  intro hkept hroom
  have hfull : k₁.Full ↔ k.Full := by
    unfold Fs.Full
    rw [hs.freeMap, hs.keeps.capacity]
  obtain ⟨h0, hmax, hr⟩ := h (mt hrem.2 hkept) (mt hfull.2 hroom)
  exact ⟨h0, hmax, hr.sameData ht hs⟩

/-- **`SYS_CREATE`**, with a current directory that was not removed, and what becomes of this directory: an absolute path closes it. -/
theorem sysCreate_frame (h : Tree k N H) (hl : Linked N H) (hc : k.Cwd s) (hkept : ¬ Removed k s) (hL : L < 2 ^ 31)
    (htok : path.tokens = c :: cs) :
    wp (sysCreate path L)
      (fun r k' => ((k.Spared → Retains k k') ∧ (∀ u, Removed k' u ↔ Removed k u) ∧ (path.isAbsolute = false ∨ 14 < path.strlen → k'.Cwd s)) ∧
        ((r = false ∧ (14 < path.strlen ∨ (H.along N true none (path.start s) c cs).fail = true) ∧ Tree k' N H) ∨
          path.strlen ≤ 14 ∧ (H.along N true none (path.start s) c cs).fail = false ∧
            CreateResult k N H (H.along N true none (path.start s) c cs).place (H.along N true none (path.start s) c cs).name L r k'))
      (Unless (path.strlen ≤ 14 → DirsClear k N ∧ ((H.along N true none (path.start s) c cs).fail = false →
        CreateFits k N (H.along N true none (path.start s) c cs).place L))) k := by
  obtain ⟨w, hw⟩ : ∃ w, w = H.along N true none (path.start s) c cs := ⟨_, rfl⟩
  rw [← hw]
  rw [sysCreate]
  refine wp_seq (dirMakesure_cwd h hc) (fun _ => False.elim) ?_
  rintro prevdir k₁ ⟨hl₁, rfl, i, hi, hsec⟩
  have hcwd₁ : k₁.Cwd s := .inr ⟨i, hi, hsec⟩
  by_cases hshort : path.strlen ≤ 14
  swap
  · rw [if_neg fun hcond => hshort hcond.1, wp_bind, wp_pure, wp_bind, setCurrDir, wp_modify, wp_pure]
    exact ⟨⟨fun _ => hl₁.holding.retains, fun u => hl₁.holding.removed_iff, fun _ => hcwd₁⟩,
      .inl ⟨rfl, .inl (Nat.lt_of_not_le hshort), hl₁.tree⟩⟩
  rw [if_pos ⟨hshort, CString.pos_of_tokens htok⟩]
  -- the walk from where the path starts, and the end of the call
  have hwalk : ∀ k₂, Tree k₂ N H → SameData k k₂ → (∀ u, Removed k₂ u ↔ Removed k u) → (k.Spared → Retains k k₂) →
      (path.isAbsolute = false → Holding k₁ k₂) → k₂.Cwd (path.start s) →
      wp (do
        let answer ← walkThen path fun prev => filesysCreate prev L
        setCurrDir k₁.currDir
        pure answer)
        (fun r k' => ((k.Spared → Retains k k') ∧ (∀ u, Removed k' u ↔ Removed k u) ∧ (path.isAbsolute = false ∨ 14 < path.strlen → k'.Cwd s)) ∧
          ((r = false ∧ (14 < path.strlen ∨ w.fail = true) ∧ Tree k' N H) ∨
            path.strlen ≤ 14 ∧ w.fail = false ∧ CreateResult k N H w.place w.name L r k'))
        (Unless (path.strlen ≤ 14 → DirsClear k N ∧ (w.fail = false → CreateFits k N w.place L))) k₂ := by
    intro k₂ h₂ hsame hrem hret hhold hcwd
    have hframe : ∀ k', Holding k₂ k' → (k.Spared → Retains k { k' with currDir := k₁.currDir }) ∧
        (∀ u, Removed { k' with currDir := k₁.currDir } u ↔ Removed k u) ∧
        (path.isAbsolute = false ∨ 14 < path.strlen → ({ k' with currDir := k₁.currDir } : Fs).Cwd s) := by
      intro k' h'
      have hset : Holding k₂ { k' with currDir := k₁.currDir } := ⟨h'.inode, h'.new, h'.dir, h'.next⟩
      exact ⟨fun hs => (hret hs).trans hset.retains, fun u => hset.removed_iff.trans (hrem u),
        fun hrel => hcwd₁.holding ((hhold (hrel.resolve_right (by omega))).trans hset) rfl⟩
    rw [wp_bind]
    refine wp_walkThen h₂ hl hcwd htok (fun e he => he.mono (fun hroom => ?_) e) ?_ ?_
    · exact (hroom hshort).1.of_capacity hsame.keeps.capacity
    · rw [← hw]
      intro hfail k₃ hl₃
      exact ⟨hframe k₃ hl₃.holding, .inl ⟨rfl, .inr hfail, hl₃.tree.setCurrDir _⟩⟩
    · rw [← hw]
      intro hgo k₃ hl₃ hcwd₃
      have hsame₃ := hsame.trans hl₃.data
      have hrem₃ : Removed k₃ w.place ↔ Removed k w.place := hl₃.holding.removed_iff.trans (hrem _)
      refine wp_mono (filesysCreate_tree hl₃.tree hcwd₃ hL) ?_ (Unless.mono fun hroom => ?_)
      · rintro r k' ⟨hhold', -, -, hr⟩
        exact ⟨hframe k' (hl₃.holding.trans hhold'), .inr ⟨hshort, hgo, hr.within h hsame₃ hrem₃ k₁.currDir⟩⟩
      · exact ((hroom hshort).2 hgo).of_data h hsame₃ hrem₃
  have hrem₁ : ∀ u, Removed k₁ u ↔ Removed k u := fun u => hl₁.holding.removed_iff
  by_cases habs : path.isAbsolute = true
  · -- the current directory is closed, and the walk starts in the root directory
    have hstart : path.start s = 1 := if_pos habs
    obtain ⟨d, hd, hi⟩ := hi
    have hkept₁ : i.removed = false := by
      rw [← Bool.not_eq_true, ← hl₁.tree.removed_iff hi, hsec, hrem₁]
      exact hkept
    rw [if_pos habs, wp_bind, wp_gets]
    have hclose : wp (dirClose k₁.currDir) (fun _ k₂ => (Tree k₂ N H ∧ SameData k₁ k₂ ∧ k₂.files = k₁.files ∧
        (∀ u, Removed k₂ u ↔ Removed k₁ u) ∧ ∃ j, k₂.DirOf k₂.currDir j ∧ j.sector = 1) ∧ (k₁.Spared → Retains k₁ k₂))
        (fun _ => False) k₁ := by
      by_cases hs : k₁.Spared
      · exact wp_mono (wp_and (dirClose_kept hl₁.tree hd hi hkept₁) (dirClose_retains hl₁.tree hd hi hs))
          (fun _ _ hpost => ⟨hpost.1, fun _ => hpost.2⟩) fun _ he => he.1
      · exact wp_post (dirClose_kept hl₁.tree hd hi hkept₁) fun _ _ hpost => ⟨hpost, fun hs' => absurd hs' hs⟩
    refine wp_seq hclose (fun _ => False.elim) ?_
    rintro - k₂ ⟨⟨h₂, hsame, -, hrem, hroot⟩, hret⟩
    refine hwalk k₂ h₂ (hl₁.data.trans hsame) (fun u => (hrem u).trans (hrem₁ u)) (fun hs => ?_) (fun hrel => ?_) (hstart ▸ .inr hroot)
    · exact hl₁.holding.retains.trans (hret (hl₁.holding.retains.spared hs))
    · rw [habs] at hrel
      cases hrel
  · have hstart : path.start s = s := if_neg habs
    have hcwd₁' : k₁.Cwd (path.start s) := by
      rw [hstart]
      exact hcwd₁
    rw [if_neg habs]
    by_cases hslash : path.hasSlash = true
    · rw [if_pos hslash]
      exact hwalk k₁ hl₁.tree hl₁.data hrem₁ (fun _ => hl₁.holding.retains) (fun _ => .refl k₁) hcwd₁'
    · rw [if_neg hslash, ← walkThen_plain ⟨CString.pos_of_tokens htok, Bool.eq_false_iff.2 hslash⟩ fun prev => filesysCreate prev L]
      exact hwalk k₁ hl₁.tree hl₁.data hrem₁ (fun _ => hl₁.holding.retains) (fun _ => .refl k₁) hcwd₁'

/-- **`SYS_CREATE`**, with a current directory that was not removed. -/
theorem sysCreate_tree (h : Tree k N H) (hl : Linked N H) (hc : k.Cwd s) (hkept : ¬ Removed k s) (hL : L < 2 ^ 31)
    (htok : path.tokens = c :: cs) :
    wp (sysCreate path L)
      (fun r k' => (r = false ∧ (14 < path.strlen ∨ (H.along N true none (path.start s) c cs).fail = true)) ∨
        path.strlen ≤ 14 ∧ (H.along N true none (path.start s) c cs).fail = false ∧
          CreateResult k N H (H.along N true none (path.start s) c cs).place (H.along N true none (path.start s) c cs).name L r k')
      (Unless (path.strlen ≤ 14 → DirsClear k N ∧ ((H.along N true none (path.start s) c cs).fail = false →
        CreateFits k N (H.along N true none (path.start s) c cs).place L))) k :=
  wp_post (sysCreate_frame h hl hc hkept hL htok) fun _ _ hpost => hpost.2.imp (fun hr => ⟨hr.1, hr.2.1⟩) id

/-- The path is free: all its components but the last lead to directories, and the last is a valid name that is not bound. -/
def PathFree (H : Bindings) (w : Walk ℕ CString) : Prop := w.fail = false ∧ ValidName w.name ∧ H w.place w.name = none

namespace Sample

/-- The name `a`. -/
def a : CString := ⟨[97], CString.noNul_a⟩

theorem filled_linked : Linked nodes fun _ _ => none := fun _ _ _ _ _ _ ht => by cases ht

theorem filled_dirsClear (n : ℕ) : DirsClear (filled n) nodes := by
  intro s nd hN hdir b hb
  rcases nodes_cases hN with ⟨-, rfl⟩ | ⟨-, rfl⟩ | ⟨-, rfl⟩
  · cases hdir
  · cases hb
  · cases hdir

end Sample

/-- **A tree in which every directory has its dots**: but for the root directory, each binds `.` and `..`. Every other name is
bound to a file that is neither the root directory nor the directory itself. -/
structure Dotted (N : Nodes) (H : Bindings) : Prop where
  dots : ∀ t, t ≠ 1 → N.isDir t = true → H t .dot ≠ none ∧ H t .dotDot ≠ none
  below : ∀ s nm t, N.isDir s = true → nm ≠ .dot → nm ≠ .dotDot → H s nm = some t → 2 ≤ t ∧ t ≠ s

/-- The current directory is one. -/
theorem Tree.cwd_isDir (h : Tree k N H) (hc : k.Cwd s) : ∃ nd, N s = some nd ∧ nd.isdir = true := by
  rcases hc with ⟨-, rfl⟩ | ⟨i, hi, rfl⟩
  · exact h.root
  · exact h.dirOf_node hi

/-- **A directory is too full to be removed** if it binds a name other than its dots. -/
theorem Tree.crowded_iff (h : Tree k N H) (hd : Dotted N H) (ht : t ≠ 1) :
    Crowded k N t ↔ N.isDir t = true ∧ ∃ n, n ≠ .dot ∧ n ≠ .dotDot ∧ H t n ≠ none := by
  have hdots : ∀ nd, N t = some nd → nd.isdir = true →
      (2 < entryCount k.buffers nd ↔ ∃ n, n ≠ .dot ∧ n ≠ .dotDot ∧ H t n ≠ none) := by
    intro nd hN hdir
    obtain ⟨hdot, hdotDot⟩ := hd.dots t ht (by rw [Nodes.isDir, hN]; exact hdir)
    exact (h.ok t nd hN hdir).rep.two_lt_card_used (by decide) hdot hdotDot
  constructor
  · rintro ⟨nd, hN, hdir, hcount⟩
    exact ⟨by rw [Nodes.isDir, hN]; exact hdir, (hdots nd hN hdir).1 hcount⟩
  · rintro ⟨hdir, hother⟩
    obtain ⟨nd, hN, hdir⟩ := (Option.any_eq_true _ _).1 hdir
    exact ⟨nd, hN, hdir, (hdots nd hN hdir).2 hother⟩

theorem RemoveResult.setCurrDir (h : RemoveResult k N H s nm r k') (p : ℕ) : RemoveResult k N H s nm r { k' with currDir := p } := by
  rcases h with ⟨rfl, t, N', hbound, hfew, hgone, hstays⟩ | ⟨rfl, hwhy, htree, hsame, hrem⟩
  · exact .inl ⟨rfl, t, N', hbound, hfew, ⟨hgone.tree.setCurrDir p, hgone.gone, hgone.kind, hgone.other, hgone.removed⟩, hstays⟩
  · exact .inr ⟨rfl, hwhy, htree.setCurrDir p, ⟨hsame.freeMap, hsame.tables, hsame.keeps⟩, hrem⟩

/-- The directories and what has changed of them: nothing. -/
structure Unedited (k : Fs) (N : Nodes) (H : Bindings) (k' : Fs) : Prop where
  tree : Tree k' N H
  data : SameData k k'
  removed : ∀ u, Removed k' u ↔ Removed k u

theorem Looked.unedited (h : Looked k N H k') (p : ℕ) : Unedited k N H { k' with currDir := p } :=
  ⟨h.tree.setCurrDir p, ⟨h.data.freeMap, h.data.tables, h.data.keeps⟩, fun _ => h.holding.removed_iff⟩

/-- **`SYS_REMOVE`** of a path whose last component is neither `.` nor `..`, and what stays open. -/
theorem sysRemove_frame (h : Tree k N H) (hl : Linked N H)
    (hbelow : ∀ s nm t, N.isDir s = true → nm ≠ .dot → nm ≠ .dotDot → H s nm = some t → 2 ≤ t ∧ t ≠ s) (hc : k.Cwd s)
    (htok : path.tokens = c :: cs)
    (hlast : (c :: cs).getLast (List.cons_ne_nil c cs) ≠ .dot ∧ (c :: cs).getLast (List.cons_ne_nil c cs) ≠ .dotDot) :
    wp (sysRemove path)
      (fun r k' => (Retains k k' ∧ k'.Cwd s ∧
          ((H.along N true none (path.start s) c cs).fail = false → k'.InMemory (H.along N true none (path.start s) c cs).place)) ∧
        (((H.along N true none (path.start s) c cs).fail = true ∧ r = false ∧ Unedited k N H k') ∨
          (H.along N true none (path.start s) c cs).fail = false ∧
            (∀ t, H (H.along N true none (path.start s) c cs).place (H.along N true none (path.start s) c cs).name = some t → t ≠ 1) ∧
            RemoveResult k N H (H.along N true none (path.start s) c cs).place (H.along N true none (path.start s) c cs).name r k'))
      (Unless (DirsClear k N ∧ MapClear k N)) k := by
  obtain ⟨w, hw⟩ : ∃ w, w = H.along N true none (path.start s) c cs := ⟨_, rfl⟩
  rw [← hw]
  rw [sysRemove]
  refine wp_seq (dirMakesure_cwd h hc) (fun _ => False.elim) ?_
  rintro prevdir k₁ ⟨hl₁, rfl, i, hi, hsec⟩
  rw [if_neg (CString.ne_root htok)]
  -- the current directory is set again
  have hback : ∀ k', Retains k₁ k' → (∀ q d, k₁.dirs.cell q = some d → k'.dirs.cell q = some d) →
      Retains k { k' with currDir := k₁.currDir } ∧ ({ k' with currDir := k₁.currDir } : Fs).Cwd s := by
    intro k' hret hdirs
    have hset : Retains k₁ { k' with currDir := k₁.currDir } := ⟨hret.inode, hret.spared⟩
    obtain ⟨d, hd, hi⟩ := hi
    obtain ⟨j, hj, hjs⟩ := hset.inode _ i hi
    exact ⟨hl₁.holding.retains.trans hset, .inr ⟨j, ⟨d, hdirs _ d hd, hj⟩, hjs.trans hsec⟩⟩
  -- the walk from where the path starts, and the end of the call
  have hwalk : ∀ k₂, Looked k₁ N H k₂ → k₂.Cwd (path.start s) →
      wp (do
        let answer ← walkThen path filesysRemove
        setCurrDir k₁.currDir
        pure answer)
        (fun r k' => (Retains k k' ∧ k'.Cwd s ∧ (w.fail = false → k'.InMemory w.place)) ∧
          ((w.fail = true ∧ r = false ∧ Unedited k N H k') ∨
            w.fail = false ∧ (∀ t, H w.place w.name = some t → t ≠ 1) ∧ RemoveResult k N H w.place w.name r k'))
        (Unless (DirsClear k N ∧ MapClear k N)) k₂ := by
    intro k₂ hl₂ hcwd
    have hl₁₂ := hl₁.trans hl₂
    rw [wp_bind]
    refine wp_walkThen hl₂.tree hl hcwd htok (fun e he => Unless.mono (fun hroom => ?_) e he) ?_ ?_
    · exact hroom.1.of_capacity hl₁₂.data.keeps.capacity
    · rw [← hw]
      intro hfail k₃ hl₃
      obtain ⟨hret, hcwd'⟩ := hback k₃ (hl₂.trans hl₃).holding.retains (hl₂.trans hl₃).holding.dir
      refine ⟨⟨hret, hcwd', fun hgo => ?_⟩, .inl ⟨hfail, rfl, (hl₁₂.trans hl₃).unedited _⟩⟩
      rw [hgo] at hfail
      cases hfail
    · rw [← hw]
      intro hgo k₃ hl₃ hcwd₃
      have hl' := hl₁₂.trans hl₃
      obtain ⟨nd, hN, hdir⟩ := hl₃.tree.cwd_isDir hcwd₃
      have htarget : ∀ t, H w.place w.name = some t → 2 ≤ t ∧ t ≠ w.place := by
        have hname : w.name = (c :: cs).getLast (List.cons_ne_nil c cs) := by
          rw [hw]
          exact Walk.name_of_along (by rw [← Bindings.along, ← hw]; exact hgo)
        refine fun t => hbelow w.place w.name t (by rw [Nodes.isDir, hN]; exact hdir) ?_ ?_
        · rw [hname]
          exact hlast.1
        · rw [hname]
          exact hlast.2
      refine wp_mono (filesysRemove_tree hl₃.tree hl hcwd₃ htarget) ?_ (Unless.mono fun hall => ?_)
      · rintro r k' ⟨hret, hdirs, hmem, hr⟩
        obtain ⟨hret', hcwd'⟩ := hback k' ((hl₂.trans hl₃).holding.retains.trans hret) fun q d hd =>
          hdirs q d ((hl₂.trans hl₃).holding.dir q d hd)
        refine ⟨⟨hret', hcwd', fun _ => hmem⟩, .inr ⟨hgo, fun t ht => ?_, (hr.looked hl').setCurrDir k₁.currDir⟩⟩
        have := (htarget t ht).1
        omega
      · have hroom : RemoveRoom k N nd (H w.place w.name) :=
          ⟨hall.1 _ nd hN hdir, hall.2, fun t ndt _ => hall.1 t ndt⟩
        exact ⟨nd, hN, hroom.of_capacity hl'.capacity⟩
  by_cases habs : path.isAbsolute = true
  · have hstart : path.start s = 1 := if_pos habs
    rw [if_pos habs]
    refine wp_seq (dirOpenRoot_tree hl₁.tree) (fun _ => False.elim) ?_
    rintro q k₂ ⟨hl₂, rfl, hroot⟩
    exact hwalk k₂ hl₂ (hstart ▸ .inr hroot)
  · have hstart : path.start s = s := if_neg habs
    have hcwd₁ : k₁.Cwd (path.start s) := by
      rw [hstart]
      exact .inr ⟨i, hi, hsec⟩
    rw [if_neg habs]
    by_cases hslash : path.hasSlash = true
    · rw [if_pos hslash]
      exact hwalk k₁ (.refl hl₁.tree) hcwd₁
    · rw [if_neg hslash, ← walkThen_plain ⟨CString.pos_of_tokens htok, Bool.eq_false_iff.2 hslash⟩ filesysRemove]
      exact hwalk k₁ (.refl hl₁.tree) hcwd₁

/-- The path is that of the file in sector `t`, and if this is a directory, then it binds no names but its dots. -/
def Removable (N : Nodes) (H : Bindings) (w : Walk ℕ CString) (t : ℕ) : Prop :=
  w.fail = false ∧ H w.place w.name = some t ∧ (N.isDir t = true → ∀ n, n ≠ .dot → n ≠ .dotDot → H t n = none)

theorem RemoveResult.exact {w : Walk ℕ CString} (h : RemoveResult k N H w.place w.name r k') (hk : Tree k N H) (hd : Dotted N H)
    (hgo : w.fail = false) (hroot : ∀ t, H w.place w.name = some t → t ≠ 1) :
    (r = true ↔ ∃ t, Removable N H w t) ∧
    (∀ t, Removable N H w t → ∃ N', FileRemoved k N H w.place w.name t k' N' ∧
      ((∃ a i, k.inodes.cell a = some i ∧ i.sector = t) → N' t ≠ none)) ∧
    (r = false → Unedited k N H k') := by
  have hiff : ∀ t, H w.place w.name = some t → (Removable N H w t ↔ ¬ Crowded k N t) := by
    intro t ht
    rw [hk.crowded_iff hd (hroot t ht)]
    constructor
    · rintro ⟨-, -, hempty⟩ ⟨hdir, n, hdot, hdotDot, hn⟩
      exact hn (hempty hdir n hdot hdotDot)
    · intro hno
      refine ⟨hgo, ht, fun hdir n hdot hdotDot => ?_⟩
      by_contra hn
      exact hno ⟨hdir, n, hdot, hdotDot, hn⟩
  rcases h with ⟨rfl, t, N', hbound, hfew, hgone, hstays⟩ | ⟨rfl, hwhy, htree, hsame, hrem⟩
  · refine ⟨⟨fun _ => ⟨t, (hiff t hbound).2 hfew⟩, fun _ => rfl⟩, fun t' ht' => ?_, fun hr => (by cases hr)⟩
    have heq : t' = t := Option.some.inj (ht'.2.1.symm.trans hbound)
    subst heq
    exact ⟨N', hgone, hstays⟩
  · have hno : ∀ t, ¬ Removable N H w t := fun t ht => (hiff t ht.2.1).1 ht (hwhy t ht.2.1)
    exact ⟨⟨fun hr => (by cases hr), fun ⟨t, ht⟩ => absurd ht (hno t)⟩, fun t ht => absurd ht (hno t), fun _ => ⟨htree, hsame, hrem⟩⟩

namespace Sample

end Sample

/-- **`filesys_create`**, if it returned true. -/
theorem filesysCreate_added (h : Tree k N H) (hc : k.Cwd s) (hL : L < 2 ^ 31)
    (hrun : filesysCreate (some nm) L k = .ok (true, k')) :
    (∃ t N', FileAdded k N H s nm L.toNat t k' N') ∧ k'.Cwd 1 := by
  obtain ⟨-, -, hroot, hres⟩ := wp_of_ok (filesysCreate_tree h hc hL) hrun
  rcases hres with ⟨-, -, -, -, -, -, hadded⟩ | ⟨hfalse, -⟩
  · exact ⟨hadded, .inr hroot⟩
  · cases hfalse

theorem FileAdded.linked {L : ℕ} (h : FileAdded k N H s nm L t k' N') (hl : Linked N H) : Linked N' (H.bind s nm t) := by
  have hkind : ∀ u, N'.kind u = if u = t then some false else N.kind u := fun u => by rw [h.kind, Function.update_apply]
  intro u nd hN hdir n v hv
  have hu : N'.kind u = some true := Nodes.kind_eq_some.2 ⟨nd, hN, hdir⟩
  have hut : u ≠ t := by
    rintro rfl
    rw [hkind, if_pos rfl] at hu
    cases hu
  rw [hkind, if_neg hut] at hu
  obtain ⟨nd₀, hN₀, hdir₀⟩ := Nodes.kind_eq_some.1 hu
  by_cases hvt : v = t
  · obtain ⟨ndt, hNt, -⟩ := h.file
    exact ⟨ndt, hvt ▸ hNt⟩
  · -- the binding is an old one
    have hold : ¬ (u = s ∧ n = nm) := by
      rintro ⟨rfl, rfl⟩
      rw [Bindings.bind_self] at hv
      exact hvt (Option.some.inj hv).symm
    rw [Bindings.bind_of_ne hold] at hv
    obtain ⟨ndv, hNv⟩ := hl u nd₀ hN₀ hdir₀ n v hv
    have hv' : N'.kind v = some ndv.isdir := by
      rw [hkind, if_neg hvt]
      exact Nodes.kind_eq_some.2 ⟨ndv, hNv, rfl⟩
    obtain ⟨ndv', hNv', -⟩ := Nodes.kind_eq_some.1 hv'
    exact ⟨ndv', hNv'⟩

namespace Sample

/-- A file `a` is created on the sample disk with six sectors of eight taken, the last of which then is the root directory's. -/
theorem created : ∃ k₁ t N', filesysCreate (some a) 0 (filled 6) = .ok (true, k₁) ∧
    FileAdded (filled 6) nodes (fun _ _ => none) 1 a 0 t k₁ N' ∧ k₁.Cwd 1 := by
  have hcheck : (filesysCreate (some a) 0).returns (fun r _ => r) (filled 6) = true := by decide +kernel
  obtain ⟨r, k₁, hrun, rfl⟩ := exists_of_returns hcheck
  obtain ⟨⟨t, N', hadded⟩, hcwd⟩ := filesysCreate_added (filled_tree (by decide)) (.inl ⟨rfl, rfl⟩) (by decide) hrun
  exact ⟨k₁, t, N', hrun, hadded, hcwd⟩

end Sample

end Pintos
