import Pintos.Filesys.DirAddresses
import Pintos.Library.NameTrees
import Pintos.Userprog.Listing
import Pintos.Userprog.Mkdir
import Pintos.Userprog.PathReads

/-!
# Runs of system calls that take a path

What a formatted disk is like after any sequence of `SYS_CREATE`, `SYS_REMOVE`, `SYS_OPEN`,
`SYS_CHDIR` and `SYS_MKDIR`, as long as the current directory is not removed. The names
form a tree whose root is the root directory (`path_runs_tree`), and a directory is
removed only if it is empty, and the root directory never (`path_runs_remove`).

Two kinds of directories are not in the tree: one that was made under a name that was then
refused, and that no name leads to; and one that was removed while it was in memory.
The `..` of the second leads to a directory that is in memory as well: so it is
there, even if it was removed.
-/

namespace Pintos

open Library Library.Prog

variable {k k' k₁ k₂ : Fs} {N N' : Nodes} {H : Bindings} {s t u p : ℕ} {nd : Node} {c n nm path : CString} {cs : List CString}

/-! ### The tree -/

/-- Under `n`, the directory in sector `s` has a file that lies below it: not under its dots, but the root directory has none. -/
def Proper (s : ℕ) (n : CString) : Prop := s = 1 ∨ n ≠ .dot ∧ n ≠ .dotDot

/-- The file in sector `t` lies below the directory in sector `s` under the name `n`. -/
def Bindings.Edge (H : Bindings) (N : Nodes) (s : ℕ) (n : CString) (t : ℕ) : Prop := N.isDir s = true ∧ Proper s n ∧ H s n = some t

/-- A directory of the tree: its dots are bound to itself and to the directory that it lies below. -/
def Attached (N : Nodes) (H : Bindings) (u : ℕ) : Prop := H u .dot = some u ∧ ∃ p n, H u .dotDot = some p ∧ H.Edge N p n u

/-- A directory that no name leads to: it binds none. -/
def Detached (N : Nodes) (H : Bindings) (u : ℕ) : Prop := (H u = fun _ => none) ∧ ∀ p n, ¬ H.Edge N p n u

/-- A directory that was removed while it was in memory: it binds its dots alone, and the directory of the second is in memory. -/
def Leftover (k : Fs) (H : Bindings) (u : ℕ) : Prop :=
  Removed k u ∧ (∀ n, n ≠ .dot → n ≠ .dotDot → H u n = none) ∧ H u .dot = some u ∧ ∃ p, H u .dotDot = some p ∧ k.InMemory p

/-- **The files form a tree**, but for directories that no name leads to any more. -/
structure Directories (k : Fs) (N : Nodes) (H : Bindings) : Prop where
  tree : Tree k N H
  linked : Linked N H
  names : NameTree (H.Edge N) 1
  above : ∀ s n t, H.Edge N s n t → 2 ≤ t
  kept : ∀ t, Placed (H.Edge N) 1 t → ¬ Removed k t
  dirs : ∀ u, u ≠ 1 → N.isDir u = true → Attached N H u ∨ Detached N H u ∨ Leftover k H u
  spared : k.Spared
  cwd : ∀ s, k.Cwd s → Placed (H.Edge N) 1 s ∨ Removed k s

theorem linked_iff : Linked N H ↔ ∀ s, N.isDir s = true → ∀ n t, H s n = some t → N t ≠ none := by
  constructor
  · intro hl s hs n t ht
    obtain ⟨nd, hN, hdir⟩ := Nodes.isDir_iff.1 hs
    obtain ⟨ndt, hNt⟩ := hl s nd hN hdir n t ht
    rw [hNt]
    exact Option.some_ne_none ndt
  · intro hl s nd hN hdir n t ht
    exact Option.ne_none_iff_exists'.1 (hl s (Nodes.isDir_iff.2 ⟨nd, hN, hdir⟩) n t ht)

theorem Tree.not_removed_of_none (h : Tree k N H) (hN : N t = none) : ¬ Removed k t := by
  rintro ⟨a, i, hi, rfl, -⟩
  obtain ⟨nd, hN', -⟩ := h.node hi
  rw [hN] at hN'
  cases hN'

theorem Tree.isDir_root (h : Tree k N H) : N.isDir 1 = true := Nodes.isDir_iff.2 h.root

theorem Nodes.ne_none_of_isDir {N : Nodes} (h : N.isDir s = true) : N s ≠ none := by
  obtain ⟨nd, hN, -⟩ := Nodes.isDir_iff.1 h
  rw [hN]
  exact Option.some_ne_none nd

namespace Directories

/-- A directory of the tree has dots, if it is not the root. -/
theorem attached (h : Directories k N H) (hu : Placed (H.Edge N) 1 u) (h1 : u ≠ 1) (hdir : N.isDir u = true) : Attached N H u := by
  rcases h.dirs u h1 hdir with hatt | ⟨-, hno⟩ | ⟨hrem, -⟩
  · exact hatt
  · rcases hu with heq | ⟨p, n, he⟩
    · exact absurd heq h1
    · exact absurd he (hno p n)
  · exact absurd hrem (h.kept u hu)

/-- A name that a directory of the tree does not bind is no dot, or the directory is the root. -/
theorem proper_of_free (h : Directories k N H) (hs : Placed (H.Edge N) 1 s) (hdir : N.isDir s = true) (hfree : H s n = none) :
    Proper s n := by
  by_cases h1 : s = 1
  · exact .inl h1
  · obtain ⟨hdot, p, m, hdotDot, -⟩ := h.attached hs h1 hdir
    refine .inr ⟨?_, ?_⟩
    · rintro rfl
      rw [hfree] at hdot
      cases hdot
    · rintro rfl
      rw [hfree] at hdotDot
      cases hdotDot

/-- **Names lead from the tree to the tree.** -/
theorem placed_of_bound (h : Directories k N H) (hs : Placed (H.Edge N) 1 s) (hdir : N.isDir s = true) (hbound : H s n = some t) :
    Placed (H.Edge N) 1 t := by
  by_cases hp : Proper s n
  · exact .inr ⟨s, n, hdir, hp, hbound⟩
  · unfold Proper at hp
    obtain ⟨h1, hdots⟩ := not_or.1 hp
    obtain ⟨hdot, p, m, hdotDot, he⟩ := h.attached hs h1 hdir
    by_cases hn : n = .dot
    · rw [hn, hdot] at hbound
      cases hbound
      exact hs
    · have hn' : n = .dotDot := by
        by_contra hne
        exact hdots ⟨hn, hne⟩
      rw [hn', hdotDot] at hbound
      cases hbound
      exact h.names.source _ m s he

/-- **A walk stays in the tree.** -/
theorem placed_along (h : Directories k N H) {strict : Bool} {last : Option ℕ} (hs : Placed (H.Edge N) 1 s) (hdir : N.isDir s = true) :
    Placed (H.Edge N) 1 (H.along N strict last s c cs).place ∧ N.isDir (H.along N strict last s c cs).place = true := by
  induction cs generalizing s c last with
  | nil => exact ⟨hs, hdir⟩
  | cons c' cs ih =>
    cases hc : H s c with
    | none =>
      cases strict with
      | true =>
        have halong : H.along N true last s c (c' :: cs) = ⟨true, s, c, none⟩ := by simp [Bindings.along, Walk.along, hc]
        rw [halong]
        exact ⟨hs, hdir⟩
      | false =>
        have halong : H.along N false last s c (c' :: cs) = H.along N false none s c' cs := by simp [Bindings.along, Walk.along, hc]
        rw [halong]
        exact ih hs hdir
    | some t =>
      by_cases ht : N.isDir t = true
      · have halong : H.along N strict last s c (c' :: cs) = H.along N strict (some t) t c' cs := by
          simp [Bindings.along, Walk.along, hc, ht]
        rw [halong]
        exact ih (h.placed_of_bound hs hdir hc) ht
      · have halong : H.along N strict last s c (c' :: cs) = ⟨true, s, c, some t⟩ := by simp [Bindings.along, Walk.along, hc, ht]
        rw [halong]
        exact ⟨hs, hdir⟩

theorem placed_start (h : Directories k N H) (hs : Placed (H.Edge N) 1 s) (hdir : N.isDir s = true) (path : CString) :
    Placed (H.Edge N) 1 (path.start s) ∧ N.isDir (path.start s) = true := by
  unfold CString.start
  split_ifs
  · exact ⟨.inl rfl, h.tree.isDir_root⟩
  · exact ⟨hs, hdir⟩

/-- The current directory is in the tree, if it is not removed. -/
theorem placed_cwd (h : Directories k N H) (hc : k.Cwd s) (hkept : ¬ Removed k s) : Placed (H.Edge N) 1 s ∧ N.isDir s = true :=
  ⟨(h.cwd s hc).resolve_right hkept, Nodes.isDir_iff.2 (h.tree.cwd_isDir hc)⟩

/-! ### What keeps the tree -/

/-- **Nothing but handles changes.** -/
theorem same (h : Directories k N H) (ht : Tree k' N H) (hr : Retains k k') (hrem : ∀ u, Removed k' u ↔ Removed k u)
    (hcwd : ∀ s, k'.Cwd s → Placed (H.Edge N) 1 s ∨ Removed k' s) : Directories k' N H := by
  refine ⟨ht, h.linked, h.names, h.above, fun t hp => ?_, fun u h1 hdir => ?_, hr.spared h.spared, hcwd⟩
  · rw [hrem]
    exact h.kept t hp
  · rcases h.dirs u h1 hdir with hatt | hdet | ⟨hremoved, hno, hdot, p, hp, hmem⟩
    · exact .inl hatt
    · exact .inr (.inl hdet)
    · exact .inr (.inr ⟨(hrem u).2 hremoved, hno, hdot, p, hp, hr.inMemory hmem⟩)

/-- What an edge leads to is a file. -/
theorem ne_none (h : Directories k N H) (hp : Placed (H.Edge N) 1 t) : N t ≠ none := by
  rcases hp with rfl | ⟨s, n, hdir, -, hbound⟩
  · exact Nodes.ne_none_of_isDir h.tree.isDir_root
  · exact linked_iff.1 h.linked s hdir n t hbound

theorem fresh_ge (h : Directories k N H) (ht : N t = none) : 2 ≤ t := by
  have h1 : t ≠ 1 := by
    rintro rfl
    exact Nodes.ne_none_of_isDir h.tree.isDir_root ht
  have h0 : t ≠ 0 := by
    rintro rfl
    obtain ⟨f, i, nd₀, -, -, -, -, hN₀, -⟩ := h.tree.map
    rw [ht] at hN₀
    cases hN₀
  omega

end Directories

theorem Nodes.isDir_of_kind {N N' : Nodes} (h : N'.kind u = N.kind u) : N'.isDir u = N.isDir u := by
  rw [Nodes.isDir_eq_kind, h, ← Nodes.isDir_eq_kind]

theorem Nodes.ne_none_of_kind {N N' : Nodes} (h : N'.kind u = N.kind u) (hN : N u ≠ none) : N' u ≠ none := by
  intro hnone
  rw [← Nodes.kind_eq_none, h, Nodes.kind_eq_none] at hnone
  exact hN hnone

/-- The bindings when the name `nm` of the directory in sector `s` is bound to a new file in sector `t`, which binds `m` itself if
it is a directory. -/
def Bindings.grow (H : Bindings) (s : ℕ) (nm : CString) (t : ℕ) (m : CString → Option ℕ) : Bindings :=
  Function.update (H.bind s nm t) t m

section Growing

variable {m : CString → Option ℕ} {b : Bool}

theorem Bindings.grow_self : H.grow s nm t m t = m := Function.update_self ..

theorem Bindings.grow_of_ne (hu : u ≠ t) : H.grow s nm t m u = H.bind s nm t u := Function.update_of_ne hu ..

theorem dotNames_proper (ht : t ≠ 1) (hp : Proper t n) : dotNames t s n = none := by
  obtain ⟨hdot, hdotDot⟩ := hp.resolve_left ht
  rw [dotNames, Function.update_of_ne hdotDot, Function.update_of_ne hdot]

/-- The tree has one edge more. -/
theorem edge_grow (hdir : N.isDir s = true) (hp : Proper s nm) (hfree : H s nm = none) (hfresh : N t = none) (h2 : 2 ≤ t)
    (hkind : N'.kind = Function.update N.kind t (some b)) (hm : b = true → m = dotNames t s) (a : ℕ) (n : CString) (v : ℕ) :
    (H.grow s nm t m).Edge N' a n v ↔ H.Edge N a n v ∨ a = s ∧ n = nm ∧ v = t := by
  have hst : s ≠ t := by
    rintro rfl
    exact Nodes.ne_none_of_isDir hdir hfresh
  by_cases ha : a = t
  · -- nothing lies below the new file
    subst ha
    have hnot : N.isDir a = false := by
      rw [Nodes.isDir, hfresh]
      rfl
    constructor
    · rintro ⟨hdir', hp', hbound⟩
      rw [Nodes.isDir_eq_kind, hkind, Function.update_self, beq_iff_eq] at hdir'
      rw [Bindings.grow_self, hm (Option.some.inj hdir'), dotNames_proper (by omega) hp'] at hbound
      cases hbound
    · rintro (⟨hdir', -⟩ | ⟨heq, -⟩)
      · rw [hnot] at hdir'
        cases hdir'
      · exact absurd heq.symm hst
  · unfold Bindings.Edge
    rw [Bindings.grow_of_ne ha, Nodes.isDir_of_kind (N := N) (by rw [hkind, Function.update_of_ne ha])]
    by_cases hnew : a = s ∧ n = nm
    · obtain ⟨rfl, rfl⟩ := hnew
      rw [Bindings.bind_self, hfree]
      constructor
      · rintro ⟨-, -, heq⟩
        exact .inr ⟨rfl, rfl, (Option.some.inj heq).symm⟩
      · rintro (⟨-, -, heq⟩ | ⟨-, -, rfl⟩)
        · cases heq
        · exact ⟨hdir, hp, rfl⟩
    · rw [Bindings.bind_of_ne hnew]
      exact ⟨.inl, fun hor => hor.resolve_right fun heq => hnew ⟨heq.1, heq.2.1⟩⟩

/-- **A file or a directory more.** -/
theorem Directories.grow (h : Directories k N H) (ht : Tree k' N' (H.grow s nm t m)) (hr : Retains k k')
    (hrem : ∀ u, Removed k' u ↔ Removed k u) (hcwd : ∀ s, k'.Cwd s → Placed (H.Edge N) 1 s ∨ Removed k' s)
    (hs : Placed (H.Edge N) 1 s) (hdir : N.isDir s = true) (hfree : H s nm = none) (hfresh : N t = none)
    (hkind : N'.kind = Function.update N.kind t (some b)) (hm : b = true → m = dotNames t s) : Directories k' N' (H.grow s nm t m) := by
  have h2 := h.fresh_ge hfresh
  have hp := h.proper_of_free hs hdir hfree
  have hedge := edge_grow hdir hp hfree hfresh h2 hkind hm
  have hkept := h.tree.not_removed_of_none hfresh
  have hnew : ¬ Placed (H.Edge N) 1 t := fun hpt => h.ne_none hpt hfresh
  have hst : s ≠ t := by
    rintro rfl
    exact hnew hs
  have hplaced : ∀ u, Placed (H.Edge N) 1 u → Placed ((H.grow s nm t m).Edge N') 1 u := by
    rintro u (rfl | ⟨a, n, he⟩)
    · exact .inl rfl
    · exact .inr ⟨a, n, (hedge a n u).2 (.inl he)⟩
  have hold : ∀ u, N u ≠ none → u ≠ t := by
    rintro u hu rfl
    exact hu hfresh
  have hnode : ∀ u, N u ≠ none → N' u ≠ none := fun u hu =>
    Nodes.ne_none_of_kind (by rw [hkind, Function.update_of_ne (hold u hu)]) hu
  have hnode' : N' t ≠ none := by
    intro hnone
    have hk := Nodes.kind_eq_none.2 hnone
    rw [hkind, Function.update_self] at hk
    cases hk
  have hisDir : ∀ u, u ≠ t → N'.isDir u = N.isDir u := fun u hu => Nodes.isDir_of_kind (by rw [hkind, Function.update_of_ne hu])
  have hleaf : ∀ n u, ¬ H.Edge N t n u := fun n u he => Nodes.ne_none_of_isDir he.1 hfresh
  -- the dots of the directories that were there
  have hdots : ∀ u n, u ≠ 1 → u ≠ t → n = .dot ∨ n = .dotDot → (H.grow s nm t m) u n = H u n := by
    intro u n h1 hu hn
    rw [Bindings.grow_of_ne hu]
    refine Bindings.bind_of_ne ?_
    rintro ⟨rfl, rfl⟩
    obtain ⟨hdot, hdotDot⟩ := hp.resolve_left h1
    rcases hn with hn | hn
    · exact hdot hn
    · exact hdotDot hn
  refine ⟨ht, linked_iff.2 fun u hu n v hv => ?_, ?_, fun a n v he => ?_, fun v hv => ?_, fun u h1 hu => ?_, hr.spared h.spared,
    fun u hu => (hcwd u hu).imp (hplaced u) id⟩
  · by_cases hut : u = t
    · subst hut
      rw [Nodes.isDir_eq_kind, hkind, Function.update_self, beq_iff_eq] at hu
      rw [Bindings.grow_self, hm (Option.some.inj hu), dotNames] at hv
      by_cases hdotDot : n = .dotDot
      · rw [hdotDot, Function.update_self] at hv
        cases hv
        exact hnode s (Nodes.ne_none_of_isDir hdir)
      · rw [Function.update_of_ne hdotDot] at hv
        by_cases hdot : n = .dot
        · rw [hdot, Function.update_self] at hv
          cases hv
          exact hnode'
        · rw [Function.update_of_ne hdot] at hv
          cases hv
    · rw [Bindings.grow_of_ne hut] at hv
      by_cases hbind : u = s ∧ n = nm
      · rw [hbind.1, hbind.2, Bindings.bind_self] at hv
        cases hv
        exact hnode'
      · rw [Bindings.bind_of_ne hbind] at hv
        exact hnode v (linked_iff.1 h.linked u (by rw [← hisDir u hut]; exact hu) n v hv)
  · refine (h.names.add (n := nm) hs hnew hleaf fun u he => ?_).congr hedge
    have hbound := he.2.2
    rw [hfree] at hbound
    cases hbound
  · rcases (hedge a n v).1 he with he | ⟨-, -, rfl⟩
    · exact h.above a n v he
    · exact h2
  · rw [hrem]
    rcases hv with rfl | ⟨a, n, he⟩
    · exact h.kept 1 (.inl rfl)
    · rcases (hedge a n v).1 he with he | ⟨-, -, rfl⟩
      · exact h.kept v (.inr ⟨a, n, he⟩)
      · exact hkept
  · by_cases hut : u = t
    · -- the new directory
      subst hut
      rw [Nodes.isDir_eq_kind, hkind, Function.update_self, beq_iff_eq] at hu
      refine .inl ⟨?_, s, nm, ?_, (hedge s nm u).2 (.inr ⟨rfl, rfl, rfl⟩)⟩
      · rw [Bindings.grow_self, hm (Option.some.inj hu)]
        rfl
      · rw [Bindings.grow_self, hm (Option.some.inj hu)]
        rfl
    · rw [hisDir u hut] at hu
      rcases h.dirs u h1 hu with ⟨hdot, p, n, hdotDot, he⟩ | ⟨hnone, hno⟩ | ⟨hremoved, hnone, hdot, p, hdotDot, hmem⟩
      · exact .inl ⟨(hdots u _ h1 hut (.inl rfl)).trans hdot, p, n, (hdots u _ h1 hut (.inr rfl)).trans hdotDot,
          (hedge p n u).2 (.inl he)⟩
      · have hus : u ≠ s := by
          rintro rfl
          rcases hs with heq | ⟨p, n, he⟩
          · exact h1 heq
          · exact hno p n he
        refine .inr (.inl ⟨?_, fun p n he => ?_⟩)
        · rw [Bindings.grow_of_ne hut, Bindings.bind, Function.update_of_ne hus]
          exact hnone
        · exact hno p n (((hedge p n u).1 he).resolve_right fun heq => hut heq.2.2)
      · have hus : u ≠ s := by
          rintro rfl
          exact h.kept u hs hremoved
        refine .inr (.inr ⟨(hrem u).2 hremoved, fun n hn hn' => ?_, (hdots u _ h1 hut (.inl rfl)).trans hdot, p,
          (hdots u _ h1 hut (.inr rfl)).trans hdotDot, hr.inMemory hmem⟩)
        rw [Bindings.grow_of_ne hut, Bindings.bind, Function.update_of_ne hus]
        exact hnone n hn hn'

end Growing

/-- **A directory that no name leads to.** -/
theorem Directories.stray (h : Directories k N H) (hst : Stranded k₁ N H t k' N') (hr : Retains k k')
    (hrem : ∀ u, Removed k' u ↔ Removed k u) (hcwd : ∀ s, k'.Cwd s → Placed (H.Edge N) 1 s ∨ Removed k' s) :
    Directories k' N' (Function.update H t fun _ => none) := by
  obtain ⟨hfresh, htree, hkind, -⟩ := hst
  have h2 := h.fresh_ge hfresh
  have hisDir : ∀ u, u ≠ t → N'.isDir u = N.isDir u := fun u hu => Nodes.isDir_of_kind (by rw [hkind, Function.update_of_ne hu])
  have hedge : ∀ a n v, Bindings.Edge (Function.update H t fun _ => none) N' a n v ↔ H.Edge N a n v := by
    intro a n v
    unfold Bindings.Edge
    by_cases ha : a = t
    · subst ha
      rw [Function.update_self]
      constructor
      · rintro ⟨-, -, hbound⟩
        cases hbound
      · rintro ⟨hdir, -⟩
        exact absurd hfresh (Nodes.ne_none_of_isDir hdir)
    · rw [Function.update_of_ne ha, hisDir a ha]
  have hplaced : ∀ u, Placed (Bindings.Edge (Function.update H t fun _ => none) N') 1 u ↔ Placed (H.Edge N) 1 u := by
    intro u
    unfold Placed
    simp only [hedge]
  refine ⟨htree, linked_iff.2 fun u hu n v hv => ?_, h.names.congr hedge, fun a n v he => h.above a n v ((hedge a n v).1 he),
    fun u hu => ?_, fun u h1 hu => ?_, hr.spared h.spared, fun s hs => (hcwd s hs).imp (hplaced s).2 id⟩
  · by_cases hut : u = t
    · rw [hut, Function.update_self] at hv
      cases hv
    · rw [Function.update_of_ne hut] at hv
      have hN := linked_iff.1 h.linked u (by rw [← hisDir u hut]; exact hu) n v hv
      have hvt : v ≠ t := by
        rintro rfl
        exact hN hfresh
      exact Nodes.ne_none_of_kind (by rw [hkind, Function.update_of_ne hvt]) hN
  · rw [hrem]
    exact h.kept u ((hplaced u).1 hu)
  · by_cases hut : u = t
    · subst hut
      refine .inr (.inl ⟨Function.update_self .., fun p n he => ?_⟩)
      exact h.ne_none (.inr ⟨p, n, (hedge p n u).1 he⟩) hfresh
    · rw [hisDir u hut] at hu
      unfold Attached Detached Leftover
      simp only [hedge, Function.update_of_ne hut]
      rcases h.dirs u h1 hu with hatt | hdet | ⟨hremoved, hno, hdot, p, hdotDot, hmem⟩
      · exact .inl hatt
      · exact .inr (.inl hdet)
      · exact .inr (.inr ⟨(hrem u).2 hremoved, hno, hdot, p, hdotDot, hr.inMemory hmem⟩)

/-- A directory of the tree binds no name but its dots if it is not too full to be removed. -/
theorem Directories.empty_of_few (h : Directories k N H) (hp : Placed (H.Edge N) 1 t) (h1 : t ≠ 1) (hdir : N.isDir t = true) :
    ¬ Crowded k N t ↔ ∀ n, n ≠ .dot → n ≠ .dotDot → H t n = none := by
  obtain ⟨hdot, p, m, hdotDot, -⟩ := h.attached hp h1 hdir
  obtain ⟨nd, hN, hd⟩ := Nodes.isDir_iff.1 hdir
  have hiff : 2 < entryCount k.buffers nd ↔ ∃ n, n ≠ .dot ∧ n ≠ .dotDot ∧ H t n ≠ none :=
    (h.tree.ok t nd hN hd).rep.two_lt_card_used (by decide) (by rw [hdot]; exact Option.some_ne_none t)
      (by rw [hdotDot]; exact Option.some_ne_none p)
  constructor
  · intro hfew n hn hn'
    by_contra hbound
    exact hfew ⟨nd, hN, hd, hiff.2 ⟨n, hn, hn', hbound⟩⟩
  · rintro hempty ⟨nd', hN', -, hmany⟩
    rw [hN] at hN'
    cases hN'
    obtain ⟨n, hn, hn', hbound⟩ := hiff.1 hmany
    exact hbound (hempty n hn hn')

theorem Bindings.unbind_of_ne (hne : ¬ (u = s ∧ n = nm)) : H.unbind s nm u n = H u n := by
  unfold Bindings.unbind
  by_cases hu : u = s
  · subst hu
    rw [Function.update_self, Function.update_of_ne fun hn => hne ⟨rfl, hn⟩]
  · rw [Function.update_of_ne hu]

theorem Bindings.unbind_self : H.unbind s nm s nm = none := by
  rw [Bindings.unbind, Function.update_self, Function.update_self]

/-- **A file or an empty directory less.** -/
theorem Directories.shrink (h : Directories k N H) (hgone : FileRemoved k N H s nm t k' N') (hr : Retains k k')
    (hs : Placed (H.Edge N) 1 s) (hdir : N.isDir s = true) (hp : Proper s nm) (hbound : H s nm = some t)
    (hempty : N.isDir t = true → ∀ n, n ≠ .dot → n ≠ .dotDot → H t n = none) (hstays : k.InMemory t → N' t ≠ none)
    (hmem : k'.InMemory s) (hcwd : ∀ u, k'.Cwd u → Placed (H.Edge N) 1 u) : Directories k' N' (H.unbind s nm) := by
  have he : H.Edge N s nm t := ⟨hdir, hp, hbound⟩
  have hst : t ≠ s := h.names.ne he
  have ht1 : t ≠ 1 := by
    have := h.above s nm t he
    omega
  have hleaf : ∀ n u, ¬ H.Edge N t n u := by
    rintro n u ⟨htdir, htp, htu⟩
    obtain ⟨hn, hn'⟩ := htp.resolve_left ht1
    rw [hempty htdir n hn hn'] at htu
    cases htu
  have hisDir : ∀ u, u ≠ t ∨ N' u ≠ none → N'.isDir u = N.isDir u := fun u hu => Nodes.isDir_of_kind (hgone.kind u hu)
  have hedge : ∀ a n v, (H.unbind s nm).Edge N' a n v ↔ H.Edge N a n v ∧ ¬ (a = s ∧ n = nm) := by
    intro a n v
    constructor
    · rintro ⟨hadir, hap, hav⟩
      have hne : ¬ (a = s ∧ n = nm) := by
        rintro ⟨rfl, rfl⟩
        rw [Bindings.unbind_self] at hav
        cases hav
      rw [Bindings.unbind_of_ne hne] at hav
      exact ⟨⟨by rw [← hisDir a (.inr (Nodes.ne_none_of_isDir hadir))]; exact hadir, hap, hav⟩, hne⟩
    · rintro ⟨he', hne⟩
      have hat : a ≠ t := by
        rintro rfl
        exact hleaf n v he'
      refine ⟨by rw [hisDir a (.inl hat)]; exact he'.1, he'.2.1, ?_⟩
      rw [Bindings.unbind_of_ne hne]
      exact he'.2.2
  -- what lay in the tree does still, but for the file that is removed
  have hplaced : ∀ u, u ≠ t → Placed (H.Edge N) 1 u → Placed ((H.unbind s nm).Edge N') 1 u := by
    rintro u hut (rfl | ⟨a, n, hau⟩)
    · exact .inl rfl
    · refine .inr ⟨a, n, (hedge a n u).2 ⟨hau, ?_⟩⟩
      rintro ⟨rfl, rfl⟩
      exact hut (h.names.target a n u t hau he)
  have hother : ∀ a n u, H.Edge N a n u → ¬ (a = s ∧ n = nm) → u ≠ t := by
    rintro a n u hau hne rfl
    exact hne (h.names.parent a n s nm u hau he)
  have hdots : ∀ u n, u ≠ 1 → n = .dot ∨ n = .dotDot → H.unbind s nm u n = H u n := by
    intro u n h1 hn
    refine Bindings.unbind_of_ne ?_
    rintro ⟨rfl, rfl⟩
    obtain ⟨hdot, hdotDot⟩ := hp.resolve_left h1
    rcases hn with hn | hn
    · exact hdot hn
    · exact hdotDot hn
  refine ⟨hgone.tree, linked_iff.2 fun u hu n v hv => ?_, (h.names.remove he hleaf).congr hedge,
    fun a n v hav => h.above a n v ((hedge a n v).1 hav).1, fun u hu => ?_, fun u h1 hu => ?_, hr.spared h.spared, fun u hu => ?_⟩
  · have hu' : N.isDir u = true := by rw [← hisDir u (.inr (Nodes.ne_none_of_isDir hu))]; exact hu
    have hne : ¬ (u = s ∧ n = nm) := by
      rintro ⟨rfl, rfl⟩
      rw [Bindings.unbind_self] at hv
      cases hv
    rw [Bindings.unbind_of_ne hne] at hv
    by_cases hvt : v = t
    swap
    · exact Nodes.ne_none_of_kind (hgone.kind v (.inl hvt)) (linked_iff.1 h.linked u hu' n v hv)
    -- nothing that is left leads to the file, unless it is in memory
    subst hvt
    have hnp : ¬ Proper u n := fun hup => hother u n v ⟨hu', hup, hv⟩ hne rfl
    unfold Proper at hnp
    obtain ⟨h1, hdot⟩ := not_or.1 hnp
    intro hnone
    have hut : u ≠ v := by
      rintro rfl
      exact Nodes.ne_none_of_isDir hu hnone
    have hn : n = .dot ∨ n = .dotDot := by
      by_contra hno
      rw [not_or] at hno
      exact hdot hno
    rcases h.dirs u h1 hu' with ⟨hself, p, m, hup, hpu⟩ | ⟨hnames, -⟩ | ⟨-, -, hself, p, hup, hpmem⟩
    · rcases hn with rfl | rfl
      · rw [hself] at hv
        exact hut (Option.some.inj hv)
      · rw [hup] at hv
        cases hv
        exact hleaf m u hpu
    · rw [hnames] at hv
      cases hv
    · rcases hn with rfl | rfl
      · rw [hself] at hv
        exact hut (Option.some.inj hv)
      · rw [hup] at hv
        cases hv
        exact hstays hpmem hnone
  · have hut : u ≠ t := by
      rintro rfl
      rcases hu with heq | ⟨a, n, hau⟩
      · exact ht1 heq
      · obtain ⟨hau, hne⟩ := (hedge a n u).1 hau
        exact hother a n u hau hne rfl
    rw [hgone.removed u hut]
    rcases hu with rfl | ⟨a, n, hau⟩
    · exact h.kept 1 (.inl rfl)
    · exact h.kept u (.inr ⟨a, n, ((hedge a n u).1 hau).1⟩)
  · have hu' : N.isDir u = true := by rw [← hisDir u (.inr (Nodes.ne_none_of_isDir hu))]; exact hu
    by_cases hut : u = t
    · -- the directory is removed, and is in memory
      subst hut
      obtain ⟨hself, p, m, hup, hpu⟩ := h.attached (.inr ⟨s, nm, he⟩) h1 hu'
      obtain ⟨rfl, -⟩ := h.names.parent p m s nm u hpu he
      refine .inr (.inr ⟨hgone.gone.resolve_left (Nodes.ne_none_of_isDir hu), fun n hn hn' => ?_, ?_, p, ?_, hmem⟩)
      · rw [Bindings.unbind_of_ne fun heq => hst heq.1]
        exact hempty hu' n hn hn'
      · rw [hdots u _ h1 (.inl rfl), hself]
      · rw [hdots u _ h1 (.inr rfl), hup]
    · rcases h.dirs u h1 hu' with ⟨hself, p, m, hup, hpu⟩ | ⟨hnames, hno⟩ | ⟨hremoved, hnames, hself, p, hup, hpmem⟩
      · refine .inl ⟨(hdots u _ h1 (.inl rfl)).trans hself, p, m, (hdots u _ h1 (.inr rfl)).trans hup, (hedge p m u).2 ⟨hpu, ?_⟩⟩
        rintro ⟨rfl, rfl⟩
        exact hut (h.names.target p m u t hpu he)
      · have hus : u ≠ s := by
          rintro rfl
          rcases hs with heq | ⟨p, n, hpu⟩
          · exact h1 heq
          · exact hno p n hpu
        refine .inr (.inl ⟨?_, fun p n hpu => hno p n ((hedge p n u).1 hpu).1⟩)
        rw [Bindings.unbind, Function.update_of_ne hus]
        exact hnames
      · have hus : u ≠ s := by
          rintro rfl
          exact h.kept u hs hremoved
        refine .inr (.inr ⟨(hgone.removed u hut).2 hremoved, fun n hn hn' => ?_, (hdots u _ h1 (.inl rfl)).trans hself, p,
          (hdots u _ h1 (.inr rfl)).trans hup, hr.inMemory hpmem⟩)
        rw [Bindings.unbind_of_ne fun heq => hus heq.1]
        exact hnames n hn hn'
  · by_cases hut : u = t
    · subst hut
      refine .inr (hgone.gone.resolve_left fun hnone => ?_)
      obtain ⟨nd, hN, -⟩ := hgone.tree.cwd_isDir hu
      rw [hnone] at hN
      cases hN
    · exact .inl (hplaced u hut (hcwd u hu))

/-! ### The current directory after `SYS_CREATE` -/

theorem leads_walk (strict : Bool) (rest : List CString) (prev : Option CString) (a : ℕ) : Leads NoReuse (walk strict rest prev a) := by
  induction rest generalizing prev a with
  | nil => exact .pure _
  | cons token rest ih =>
    cases prev with
    | none => exact ih _ _
    | some name =>
      refine .bind leads_dirMakesure fun dir => .bind (leads_dirLookup _ _) fun b => .ite (.ite (.pure _) (ih _ _)) ?_
      exact .bind (leads_inodeAt b) fun i => .ite (.bind (leads_dirOpen b) fun _ => ih _ _) (.pure _)

/-- **`dir_close`** frees the `struct dir` for good. -/
theorem dirClose_frees (hp : k.dirs.cell p ≠ none) :
    wp (dirClose p) (fun _ k' => p < k'.dirs.next ∧ k'.dirs.cell p = none) (fun _ => True) k := by
  obtain ⟨d, hd⟩ := Option.ne_none_iff_exists'.1 hp
  have hlt := k.dirs.lt_next hd
  rw [dirClose, wp_bind, onlyIf, if_pos (k.dirs.ne_null hd), wp_bind]
  refine wp_dirAt hd ?_
  rw [wp_bind]
  refine wp_post (leads_inodeClose d.inode k) ?_
  rintro - k₁ ⟨hnext, -⟩
  rw [wp_modify, wp_bind]
  refine wp_post (leads_dirOpenRoot _) ?_
  rintro - k₂ ⟨hnext₂, hnone⟩
  exact ⟨hlt.trans_le (hnext.trans hnext₂), hnone p (hlt.trans_le hnext) (k₁.dirs.cell_free_self p)⟩

/-- **`SYS_CREATE` of an absolute path** frees the `struct dir` that `curr_dir` then points to. -/
theorem sysCreate_frees {L : ℤ} (h : Tree k N H) (hc : k.Cwd s) (habs : path.isAbsolute = true) (hshort : path.strlen ≤ 14)
    (hpos : 0 < path.strlen) : wp (sysCreate path L) (fun _ k' => ∀ u, ¬ k'.Cwd u) (fun _ => True) k := by
  rw [sysCreate]
  refine wp_seq (dirMakesure_cwd h hc) (fun _ => False.elim) ?_
  rintro prevdir k₁ ⟨-, rfl, i, ⟨d, hd, -⟩, -⟩
  rw [if_pos ⟨hshort, hpos⟩, if_pos habs, wp_bind, wp_gets]
  refine wp_seq (dirClose_frees (by rw [hd]; exact Option.some_ne_none d)) (fun _ he => he) ?_
  rintro - k₂ ⟨hlt, hnone⟩
  have hwalk : Leads NoReuse (walkThen path fun prev => filesysCreate prev L) :=
    .bind (leads_walk _ _ _ _) fun _ => .ite (.pure _) (leads_filesysCreate _ _)
  rw [wp_bind]
  refine wp_post (hwalk k₂) ?_
  rintro r k₃ ⟨-, hkeep⟩
  rw [wp_bind, setCurrDir, wp_modify, wp_pure]
  rintro u (⟨h0, -⟩ | ⟨j, ⟨e, he, -⟩, -⟩)
  · exact k₁.dirs.ne_null hd h0
  · change k₃.dirs.cell k₁.currDir = some e at he
    rw [hkeep _ hlt hnone] at he
    cases he

/-! ### The calls -/

/-- A system call that takes a path. -/
inductive PathCall where
  /-- `SYS_CREATE`. -/
  | create (file : CString) (initialSize : ℤ)
  /-- `SYS_REMOVE`. -/
  | remove (file : CString)
  /-- `SYS_OPEN`. -/
  | opens (file : CString)
  /-- `SYS_CHDIR`. -/
  | chdir (dirname : CString)
  /-- `SYS_MKDIR`. -/
  | mkdir (dirname : CString)

namespace PathCall

/-- The call; `SYS_OPEN` succeeds if it opens a file. -/
def step : PathCall → FsM Bool
  | create file initialSize => sysCreate file initialSize
  | remove file => sysRemove file
  | opens file => do
    let openedfile ← sysOpen file
    pure (openedfile != 0)
  | chdir dirname => sysChdir dirname
  | mkdir dirname => sysMkdir dirname

/-- The path. -/
def argument : PathCall → CString
  | create file _ => file
  | remove file => file
  | opens file => file
  | chdir dirname => dirname
  | mkdir dirname => dirname

/-- **A call that the run admits**: `curr_dir` points to a directory that is not removed, and the path has a component. The size of a
file is an `int`, and the last component of what is removed is no dot. -/
def Ok (call : PathCall) (k : Fs) : Prop :=
  (∃ s, k.Cwd s ∧ ¬ Removed k s) ∧ call.argument.tokens ≠ [] ∧
    match call with
    | create _ initialSize => initialSize < 2 ^ 31
    | remove file => ∀ c ∈ file.tokens.getLast?, c ≠ .dot ∧ c ≠ .dotDot
    | _ => True

end PathCall

namespace Directories

theorem below (h : Directories k N H) (s : ℕ) (n : CString) (t : ℕ) (hdir : N.isDir s = true) (hn : n ≠ .dot) (hn' : n ≠ .dotDot)
    (hbound : H s n = some t) : 2 ≤ t ∧ t ≠ s :=
  ⟨h.above s n t ⟨hdir, .inr ⟨hn, hn'⟩, hbound⟩, h.names.ne ⟨hdir, .inr ⟨hn, hn'⟩, hbound⟩⟩

/-- The current directory is the one of a state in the tree. -/
theorem cwd_of (h : Directories k N H) (hs : Placed (H.Edge N) 1 s) (hc : k'.Cwd s) (u : ℕ) (hu : k'.Cwd u) : Placed (H.Edge N) 1 u := by
  rw [← Fs.cwd_unique hc hu]
  exact hs

/-- **`SYS_CREATE`.** -/
theorem create {L : ℤ} (h : Directories k N H) (hc : k.Cwd s) (hkept : ¬ Removed k s) (htok : path.tokens = c :: cs) (hL : L < 2 ^ 31) :
    wp (sysCreate path L) (fun _ k' => ∃ N' H', Directories k' N' H') (fun _ => True) k := by
  obtain ⟨hs, hdir⟩ := h.placed_cwd hc hkept
  -- an absolute path leaves no current directory
  have hfrees : wp (sysCreate path L) (fun _ k' => path.isAbsolute = true → path.strlen ≤ 14 → ∀ u, ¬ k'.Cwd u) (fun _ => True) k := by
    by_cases hcond : path.isAbsolute = true ∧ path.strlen ≤ 14
    · exact wp_post (sysCreate_frees h.tree hc hcond.1 hcond.2 (CString.pos_of_tokens htok)) fun _ _ hno _ _ => hno
    · exact wp_post wp_true fun _ _ _ habs hshort => absurd ⟨habs, hshort⟩ hcond
  refine wp_mono (wp_and (sysCreate_frame h.tree h.linked hc hkept hL htok) hfrees) ?_ fun _ _ => trivial
  rintro r k' ⟨⟨⟨hret, hrem, hcwd'⟩, hres⟩, hno⟩
  have hr := hret h.spared
  have hcwd : ∀ u, k'.Cwd u → Placed (H.Edge N) 1 u ∨ Removed k' u := by
    intro u hu
    by_cases hcond : path.isAbsolute = false ∨ 14 < path.strlen
    · exact .inl (h.cwd_of hs (hcwd' hcond) u hu)
    · rw [not_or, Bool.not_eq_false] at hcond
      exact absurd hu (hno hcond.1 (by omega) u)
  rcases hres with ⟨-, -, ht⟩ | ⟨-, -, hres⟩
  · exact ⟨N, H, h.same ht hr hrem hcwd⟩
  · obtain ⟨hps, hpd⟩ := h.placed_start hs hdir path
    obtain ⟨hplace, hpdir⟩ : Placed (H.Edge N) 1 (H.along N true none (path.start s) c cs).place ∧
        N.isDir (H.along N true none (path.start s) c cs).place = true := h.placed_along hps hpd
    generalize H.along N true none (path.start s) c cs = w at hres hplace hpdir
    rcases hres with ⟨-, -, -, -, -, hfree, t, N', hadded⟩ | ⟨-, ⟨-, ht, -⟩ | ⟨-, -, -, -, t, new, href⟩⟩
    · -- the file binds what it did, which does not matter
      have htree : Tree k' N' (H.grow w.place w.name t (H.bind w.place w.name t t)) := by
        rw [Bindings.grow, Function.update_eq_self]
        exact hadded.tree
      exact ⟨N', _, h.grow htree hr hrem hcwd hplace hpdir hfree hadded.fresh hadded.kind fun hb => (by cases hb)⟩
    · exact ⟨N, H, h.same ht hr hrem hcwd⟩
    · exact ⟨N, H, h.same href.tree hr hrem hcwd⟩

/-- **`SYS_OPEN`.** -/
theorem opens (h : Directories k N H) (hc : k.Cwd s) (hkept : ¬ Removed k s) (htok : path.tokens = c :: cs) :
    wp (sysOpen path) (fun _ k' => Directories k' N H) (fun _ => True) k := by
  refine wp_mono (sysOpen_tree h.tree h.linked hc htok) ?_ fun _ _ => trivial
  rintro q k' ⟨hl, hcwd, -⟩
  exact h.same hl.tree hl.holding.retains (fun u => hl.holding.removed_iff) fun u hu => .inl (h.cwd_of (h.placed_cwd hc hkept).1 hcwd u hu)

/-- **`SYS_CHDIR`.** -/
theorem chdir (h : Directories k N H) (hc : k.Cwd s) (hkept : ¬ Removed k s) :
    wp (sysChdir path) (fun _ k' => Directories k' N H) (fun _ => True) k := by
  obtain ⟨hs, hdir⟩ := h.placed_cwd hc hkept
  refine wp_mono (sysChdir_tree h.tree h.linked hc) ?_ fun _ _ => trivial
  rintro r k' ⟨hl, hres⟩
  refine h.same hl.tree hl.holding.retains (fun u => hl.holding.removed_iff) fun u hu => .inl ?_
  rcases hres with ⟨-, t, ht, -, hcwd⟩ | ⟨-, -, hcwd⟩
  · exact h.cwd_of (h.placed_of_bound hs hdir ht) hcwd u hu
  · exact h.cwd_of hs hcwd u hu

/-- **`SYS_MKDIR`.** -/
theorem mkdir (h : Directories k N H) (hc : k.Cwd s) (hkept : ¬ Removed k s) (htok : path.tokens = c :: cs) :
    wp (sysMkdir path) (fun _ k' => ∃ N' H', Directories k' N' H') (fun _ => True) k := by
  obtain ⟨hs, hdir⟩ := h.placed_cwd hc hkept
  obtain ⟨hps, hpd⟩ := h.placed_start hs hdir path
  obtain ⟨hplace, hpdir⟩ : Placed (H.Edge N) 1 (H.along N false none (path.start s) c cs).place ∧
      N.isDir (H.along N false none (path.start s) c cs).place = true := h.placed_along hps hpd
  refine wp_mono (sysMkdir_tree h.tree h.linked hc htok) ?_ fun _ _ => trivial
  rintro r k' ⟨hhold, hcwd, hout⟩
  have hrem : ∀ u, Removed k' u ↔ Removed k u := fun u => hhold.removed_iff
  have hcwd' : ∀ u, k'.Cwd u → Placed (H.Edge N) 1 u ∨ Removed k' u := fun u hu => .inl (h.cwd_of hplace hcwd u hu)
  rcases hout with ⟨-, -, ht, -⟩ | ⟨-, hres, -⟩
  · exact ⟨N, H, h.same ht hhold.retains hrem hcwd'⟩
  · rcases hres with ⟨-, -, hfree, t, N', hadded⟩ | ⟨-, -, t, N', hstranded⟩
    · exact ⟨N', _, h.grow hadded.tree hhold.retains hrem hcwd' hplace hpdir hfree hadded.fresh hadded.kind fun _ => rfl⟩
    · exact ⟨N', _, h.stray hstranded hhold.retains hrem hcwd'⟩

/-- **What `SYS_REMOVE` does in the tree**: it returns true exactly if the path leads to a file or to a directory with no names but
its dots. Then it removes this file alone, and this is not the root directory; and otherwise it removes none. -/
structure Removal (k : Fs) (N : Nodes) (H : Bindings) (w : Walk ℕ CString) (r : Bool) (k' : Fs) : Prop where
  answer : r = true ↔ ∃ t, Removable N H w t
  removed : r = true → ∃ t N', Removable N H w t ∧ t ≠ 1 ∧ FileRemoved k N H w.place w.name t k' N'
  kept : r = false → ∀ u, Removed k' u ↔ Removed k u

/-- **`SYS_REMOVE`** of a path that does not end in a dot. -/
theorem remove (h : Directories k N H) (hc : k.Cwd s) (hkept : ¬ Removed k s) (htok : path.tokens = c :: cs)
    (hlast : (c :: cs).getLast (List.cons_ne_nil c cs) ≠ .dot ∧ (c :: cs).getLast (List.cons_ne_nil c cs) ≠ .dotDot) :
    wp (sysRemove path)
      (fun r k' => (∃ N' H', Directories k' N' H') ∧ k'.Cwd s ∧ Removal k N H (H.along N true none (path.start s) c cs) r k')
      (fun _ => True) k := by
  obtain ⟨hs, hdir⟩ := h.placed_cwd hc hkept
  obtain ⟨hps, hpd⟩ := h.placed_start hs hdir path
  obtain ⟨hplace, hpdir⟩ : Placed (H.Edge N) 1 (H.along N true none (path.start s) c cs).place ∧
      N.isDir (H.along N true none (path.start s) c cs).place = true := h.placed_along hps hpd
  have hname : (H.along N true none (path.start s) c cs).fail = false → Proper (H.along N true none (path.start s) c cs).place
      (H.along N true none (path.start s) c cs).name := by
    intro hgo
    have heq : (H.along N true none (path.start s) c cs).name = (c :: cs).getLast (List.cons_ne_nil c cs) := Walk.name_of_along hgo
    rw [heq]
    exact .inr hlast
  refine wp_mono (sysRemove_frame h.tree h.linked h.below hc htok hlast) ?_ fun _ _ => trivial
  generalize H.along N true none (path.start s) c cs = w at hplace hpdir hname
  rintro r k' ⟨⟨hr, hcwd, hmem⟩, hres⟩
  have hcwd' : ∀ u, k'.Cwd u → Placed (H.Edge N) 1 u := h.cwd_of hs hcwd
  rcases hres with ⟨hfail, rfl, ht, -, hrem⟩ | ⟨hgo, -, hres⟩
  · refine ⟨⟨N, H, h.same ht hr hrem fun u hu => .inl (hcwd' u hu)⟩, hcwd, ⟨fun hr => (by cases hr), ?_⟩, fun hr => (by cases hr), fun _ => hrem⟩
    rintro ⟨t, hgo, -⟩
    rw [hfail] at hgo
    cases hgo
  -- a file that the name is bound to lies below the directory
  have hedge : ∀ t, H w.place w.name = some t → H.Edge N w.place w.name t := fun t ht => ⟨hpdir, hname hgo, ht⟩
  have hne : ∀ t, H w.place w.name = some t → t ≠ 1 := fun t ht => by
    have := h.above _ _ _ (hedge t ht)
    omega
  have hempty : ∀ t, H w.place w.name = some t → (¬ Crowded k N t ↔ (N.isDir t = true → ∀ n, n ≠ .dot → n ≠ .dotDot → H t n = none)) := by
    intro t ht
    constructor
    · exact fun hfew htdir => (h.empty_of_few (.inr ⟨_, _, hedge t ht⟩) (hne t ht) htdir).1 hfew
    · rintro hno ⟨nd, hN, hnd, hmany⟩
      have htdir := Nodes.isDir_iff.2 ⟨nd, hN, hnd⟩
      exact (h.empty_of_few (.inr ⟨_, _, hedge t ht⟩) (hne t ht) htdir).2 (hno htdir) ⟨nd, hN, hnd, hmany⟩
  rcases hres with ⟨rfl, t, N', hbound, hfew, hgone, hstays⟩ | ⟨rfl, hwhy, ht, -, hrem⟩
  · have hremovable : Removable N H w t := ⟨hgo, hbound, (hempty t hbound).1 hfew⟩
    refine ⟨⟨N', _, h.shrink hgone hr hplace hpdir (hname hgo) hbound hremovable.2.2 hstays (hmem hgo) hcwd'⟩, hcwd,
      ⟨fun _ => ⟨t, hremovable⟩, fun _ => rfl⟩, fun _ => ⟨t, N', hremovable, hne t hbound, hgone⟩, fun hr => (by cases hr)⟩
  · refine ⟨⟨N, H, h.same ht hr hrem fun u hu => .inl (hcwd' u hu)⟩, hcwd, ⟨fun hr => (by cases hr), ?_⟩, fun hr => (by cases hr), fun _ => hrem⟩
    rintro ⟨t, -, hbound, hno⟩
    exact absurd (hwhy t hbound) ((hempty t hbound).2 hno)

end Directories

/-- **Every call keeps the tree.** -/
theorem PathCall.step_keeps (call : PathCall) (h : Directories k N H) (hok : call.Ok k) :
    wp call.step (fun _ k' => ∃ N' H', Directories k' N' H') (fun _ => True) k := by
  obtain ⟨⟨s, hc, hkept⟩, htok, hcall⟩ := hok
  obtain ⟨c, cs, htok⟩ := List.exists_cons_of_ne_nil htok
  cases call with
  | create file initialSize => exact h.create hc hkept htok hcall
  | remove file =>
    have hlast := hcall ((c :: cs).getLast (List.cons_ne_nil c cs)) (by
      rw [show file.tokens = c :: cs from htok]
      exact List.getLast?_eq_some_getLast _)
    exact wp_post (h.remove hc hkept htok hlast) fun _ _ hpost => hpost.1
  | opens file =>
    refine wp_seq (h.opens hc hkept htok) (fun _ he => he) ?_
    exact fun _ k' hd => ⟨N, H, hd⟩
  | chdir dirname => exact wp_post (h.chdir hc hkept) fun _ k' hd => ⟨N, H, hd⟩
  | mkdir dirname => exact h.mkdir hc hkept htok

/-- A formatted disk. -/
theorem Formatted.directories (h : Formatted k N) (hplain : ∀ nd, N 0 = some nd → nd.isdir = false) : Directories k N fun _ _ => none := by
  obtain ⟨htree, hlinked, hcwd⟩ := h.rooted hplain
  have hno : ∀ s n t, ¬ Bindings.Edge (fun _ _ => none) N s n t := by
    rintro s n t ⟨-, -, hbound⟩
    cases hbound
  refine ⟨htree, hlinked, .alone hno, fun s n t he => (hno s n t he).elim, fun t ht => ?_, fun u h1 hdir => ?_, fun a i hi => ?_,
    fun s hs => .inl (.inl (Fs.cwd_unique hs hcwd))⟩
  · rintro ⟨a, i, hi, hsec, hrem⟩
    obtain ⟨j, hj, -, -, hkept, -⟩ := h.map.inode
    rw [h.map.only a i hi, hj] at hi
    cases hi
    rw [hkept] at hrem
    cases hrem
  · exact .inr (.inl ⟨rfl, fun p n he => hno p n u he⟩)
  · have hpos := htree.pos a i hi
    have hzero : k.dirCount a = 0 := k.dirs.count_eq_zero fun p d hd => by
      rw [h.map.dirs] at hd
      cases hd
    rw [hzero]
    exact hpos

/-- A state that a formatted disk is led to by calls. -/
def Reachable (d : Disk) (k : Fs) : Prop := ∃ k₀, filesysInit true (Fs.boot d) = .ok ((), k₀) ∧ Run PathCall.step PathCall.Ok k₀ k

theorem Reachable.directories {d : Disk} (h : Reachable d k) : ∃ N H, Directories k N H := by
  obtain ⟨k₀, hinit, hrun⟩ := h
  obtain ⟨N, hformatted, hplain⟩ := wp_of_ok (filesysInit_plain d) hinit
  have hstart : ∃ N H, Directories k₀ N H := ⟨N, _, hformatted.directories hplain⟩
  refine Run.invariant (I := fun k => ∃ N H, Directories k N H) hrun hstart fun call k hd hok => ?_
  obtain ⟨N, H, hd⟩ := hd
  exact call.step_keeps hd hok

namespace Sample

/-- A directory `a` is made on a disk of 16 sectors. -/
theorem reached : ∃ k, Reachable (Disk.blank 16 (by decide)) k ∧ k.Cwd 1 ∧ ¬ Removed k 1 := by
  have hcheck : (filesysInit true >>= fun _ => sysMkdir a).returns (fun r _ => r) (Fs.boot (Disk.blank 16 (by decide))) = true := by
    decide +kernel
  obtain ⟨r, k', hrun, rfl⟩ := exists_of_returns hcheck
  obtain ⟨_, k, hformat, hmkdir⟩ := ok_of_bind hrun
  obtain ⟨N, hformatted, hplain⟩ := wp_of_ok (filesysInit_plain _) hformat
  have hd := hformatted.directories hplain
  obtain ⟨-, -, hcwd⟩ := hformatted.rooted hplain
  have hkept := hd.kept 1 (.inl rfl)
  have hok : PathCall.Ok (.mkdir a) k := ⟨⟨1, hcwd, hkept⟩, by decide, trivial⟩
  obtain ⟨hcwd', -⟩ := wp_of_ok (sysMkdir_tree hd.tree hd.linked hcwd (show a.tokens = [a] by decide)) hmkdir |>.2
  have hreach : Reachable (Disk.blank 16 (by decide)) k' := ⟨k, hformat, .tail (.refl k) hok hmkdir⟩
  obtain ⟨N', H', hd'⟩ := hreach.directories
  exact ⟨k', hreach, hcwd', hd'.kept 1 (.inl rfl)⟩

end Sample

/-- **The names form a tree after any sequence of calls.** There is one path to every file of it, and the path leads there; every
directory has the dots that it should have, and no name of a directory is bound to nothing. What is in the tree is not removed, and
the current directory is in the tree unless it is removed. -/
theorem path_runs_tree {d : Disk} (h : Reachable d k) : ∃ N H, Tree k N H ∧
    (∀ t, Placed (H.Edge N) 1 t → ¬ Removed k t ∧ ∃! ns, NamePath (H.Edge N) 1 ns t) ∧
    (∀ c cs t, NamePath (H.Edge N) 1 (c :: cs) t → H.resolve N 1 c cs = some t) ∧
    (∀ u, Placed (H.Edge N) 1 u → u ≠ 1 → N.isDir u = true → H u .dot = some u ∧ ∃ p n, H u .dotDot = some p ∧ H.Edge N p n u) ∧
    (∀ s, N.isDir s = true → ∀ n t, H s n = some t → N t ≠ none) ∧
    ∀ s, k.Cwd s → Removed k s ∨ Placed (H.Edge N) 1 s ∧ N.isDir s = true := by
  obtain ⟨N, H, hd⟩ := h.directories
  refine ⟨N, H, hd.tree, fun t ht => ⟨hd.kept t ht, hd.names.existsUnique_path ht⟩, fun c cs t ht => ?_, fun u hu h1 hdir => ?_,
    linked_iff.1 hd.linked, fun s hs => ?_⟩
  · exact ht.resolve (fun s n t he => he.2.2) fun s n t he => he.1
  · exact hd.attached hu h1 hdir
  · by_cases hrem : Removed k s
    · exact .inl hrem
    · exact .inr (hd.placed_cwd hs hrem)

/-- After a directory was made. -/
theorem path_runs_tree_made : ∃ k N H, Reachable (Disk.blank 16 (by decide)) k ∧ Tree k N H ∧
    ∀ t, Placed (H.Edge N) 1 t → ¬ Removed k t ∧ ∃! ns, NamePath (H.Edge N) 1 ns t := by
  obtain ⟨k, hreach, -⟩ := Sample.reached
  obtain ⟨N, H, htree, hpaths, -⟩ := path_runs_tree hreach
  exact ⟨k, N, H, hreach, htree, hpaths⟩

/-- **A directory is removed only if it is empty, and the root directory never**, after any sequence of calls: `SYS_REMOVE` removes
what its path leads to if this is a file or binds no names but its dots, and otherwise nothing. -/
theorem path_runs_remove {d : Disk} (h : Reachable d k) : ∃ N H, Tree k N H ∧ ¬ Removed k 1 ∧
    ∀ s path c cs r k', k.Cwd s → ¬ Removed k s → path.tokens = c :: cs →
      (c :: cs).getLast (List.cons_ne_nil c cs) ≠ .dot ∧ (c :: cs).getLast (List.cons_ne_nil c cs) ≠ .dotDot →
      sysRemove path k = .ok (r, k') →
      Directories.Removal k N H (H.along N true none (path.start s) c cs) r k' ∧ ¬ Removed k' 1 := by
  obtain ⟨N, H, hd⟩ := h.directories
  refine ⟨N, H, hd.tree, hd.kept 1 (.inl rfl), fun s path c cs r k' hc hkept htok hlast hrun => ?_⟩
  obtain ⟨⟨N', H', hd'⟩, -, hremoval⟩ := wp_of_ok (hd.remove hc hkept htok hlast) hrun
  exact ⟨hremoval, hd'.kept 1 (.inl rfl)⟩

/-- After a directory was made. -/
theorem path_runs_remove_made : ∃ k N H, Reachable (Disk.blank 16 (by decide)) k ∧ Tree k N H ∧ ¬ Removed k 1 := by
  obtain ⟨k, hreach, -⟩ := Sample.reached
  obtain ⟨N, H, htree, hroot, -⟩ := path_runs_remove hreach
  exact ⟨k, N, H, hreach, htree, hroot⟩

/-- **The current directory**, after any sequence of calls: `SYS_OPEN`, `SYS_REMOVE`, `SYS_READDIR` and a `SYS_CHDIR` that fails leave
it, `SYS_CREATE` leaves it unless the path is absolute and not too long, and then there is none; after `SYS_MKDIR`, it is where the
path led. -/
theorem path_runs_cwd {d : Disk} (h : Reachable d k) (hc : k.Cwd s) (hkept : ¬ Removed k s) : ∃ N H, Tree k N H ∧
    (∀ p left r k', LeftToList k N p left → sysReaddir p k = .ok (r, k') → k'.Cwd s) ∧
    (∀ path k', sysChdir path k = .ok (false, k') → k'.Cwd s) ∧
    ∀ path c cs, path.tokens = c :: cs →
      (∀ q k', sysOpen path k = .ok (q, k') → k'.Cwd s) ∧
      (∀ r k', sysMkdir path k = .ok (r, k') → k'.Cwd (H.along N false none (path.start s) c cs).place) ∧
      (∀ r k', (c :: cs).getLast (List.cons_ne_nil c cs) ≠ .dot ∧ (c :: cs).getLast (List.cons_ne_nil c cs) ≠ .dotDot →
        sysRemove path k = .ok (r, k') → k'.Cwd s) ∧
      ∀ L r k', L < 2 ^ 31 → sysCreate path L k = .ok (r, k') →
        if path.isAbsolute = true ∧ path.strlen ≤ 14 then ∀ u, ¬ k'.Cwd u else k'.Cwd s := by
  obtain ⟨N, H, hd⟩ := h.directories
  refine ⟨N, H, hd.tree, fun p left r k' hleft hrun => ?_, fun path k' hrun => ?_, fun path c cs htok => ⟨fun q k' hrun => ?_,
    fun r k' hrun => ?_, fun r k' hlast hrun => ?_, fun L r k' hL hrun => ?_⟩⟩
  · obtain ⟨-, -, hcwd, -⟩ := wp_of_ok (sysReaddir_tree hd.tree hc hleft) hrun
    exact hcwd
  · obtain ⟨-, ⟨htrue, -⟩ | ⟨-, -, hcwd⟩⟩ := wp_of_ok (sysChdir_tree hd.tree hd.linked hc) hrun
    · cases htrue
    · exact hcwd
  · exact (wp_of_ok (sysOpen_tree hd.tree hd.linked hc htok) hrun).2.1
  · exact (wp_of_ok (sysMkdir_tree hd.tree hd.linked hc htok) hrun).2.1
  · exact (wp_of_ok (hd.remove hc hkept htok hlast) hrun).2.1
  · split_ifs with hcond
    · exact wp_of_ok (sysCreate_frees hd.tree hc hcond.1 hcond.2 (CString.pos_of_tokens htok)) hrun
    · refine (wp_of_ok (sysCreate_frame hd.tree hd.linked hc hkept hL htok) hrun).1.2.2 ?_
      by_contra hno
      rw [not_or, Bool.not_eq_false] at hno
      exact hcond ⟨hno.1, by omega⟩

/-- After a directory was made, which is not entered. -/
theorem path_runs_cwd_made : ∃ k, Reachable (Disk.blank 16 (by decide)) k ∧
    ∀ q k', sysOpen Sample.a k = .ok (q, k') → k'.Cwd 1 := by
  obtain ⟨k, hreach, hcwd, hkept⟩ := Sample.reached
  obtain ⟨N, H, -, -, -, hcalls⟩ := path_runs_cwd hreach hcwd hkept
  exact ⟨k, hreach, (hcalls Sample.a Sample.a [] (by decide)).1⟩

end Pintos
