import Pintos.Userprog.PathEdits

/-!
# Opening files and entering directories by path

`SYS_OPEN` does not give up where it should. A component that is missing is passed over,
and at a component that is no directory the walk ends with the name of this component
left over; the flag `fail` is set then, and not looked at. So a path that leads nowhere
may open a file that it is not the path of (`sys_open_exact`).

`SYS_CHDIR` does not walk at all: its argument is looked up in the current directory as
one name, and is a path only if it has one component (`sys_chdir_exact`).
-/

namespace Pintos

open Library Library.Prog

variable {k k' k₁ k₂ : Fs} {N : Nodes} {H : Bindings} {s t p q q' : ℕ} {c n path : CString} {cs : List CString}

/-! ### `SYS_OPEN` -/

/-- Where a path leads, component by component. -/
def Bindings.resolve (H : Bindings) (N : Nodes) (s : ℕ) (c : CString) (cs : List CString) : Option ℕ :=
  Walk.resolve H N.isDir s c cs

theorem Fs.fileOf_unique {u : ℕ} (h : k.FileOf q t) (h' : k.FileOf q u) : t = u := by
  obtain ⟨f, i, hf, hi, rfl⟩ := h
  obtain ⟨f', i', hf', hi', rfl⟩ := h'
  rw [hf] at hf'
  cases hf'
  rw [hi] at hi'
  cases hi'
  rfl

theorem Fs.not_fileOf_null (h : k.FileOf 0 t) : False := by
  obtain ⟨f, i, hf, -⟩ := h
  exact k.files.ne_null hf rfl

/-- The file that `filesys_open` opens. -/
theorem FileResult.fileOf_iff (h : FileResult k H s n q k') : k'.FileOf q t ↔ ¬ Removed k s ∧ H s n = some t := by
  rcases h with ⟨hkept, u, hu, hfile⟩ | ⟨hwhy, rfl, -⟩
  · constructor
    · intro ht
      rw [Fs.fileOf_unique ht hfile]
      exact ⟨hkept, hu⟩
    · rintro ⟨-, ht⟩
      rw [hu] at ht
      cases ht
      exact hfile
  · refine ⟨fun ht => (Fs.not_fileOf_null ht).elim, ?_⟩
    rintro ⟨hkept, ht⟩
    rcases hwhy with hrem | hnone
    · exact absurd hrem hkept
    · rw [hnone] at ht
      cases ht

/-- If there is no file to open, then nothing is opened. -/
theorem FileResult.nothing (h : FileResult k H s n q k') (hno : ∀ t, ¬ k'.FileOf q t) : q = 0 ∧ k'.files = k.files := by
  rcases h with ⟨-, t, -, hfile⟩ | ⟨-, hq, hfiles⟩
  · exact absurd hfile (hno t)
  · exact ⟨hq, hfiles⟩

/-- **`SYS_OPEN` is exact**: it opens the file that the path leads to, or nothing if it leads nowhere. -/
def OpensExactly (k : Fs) (path : CString) (target : Option ℕ) : Prop :=
  ∃ q k', sysOpen path k = .ok (q, k') ∧ (∀ t, k'.FileOf q t ↔ target = some t) ∧ (target = none → q = 0 ∧ k'.files = k.files)

/-- **The walk of `SYS_OPEN` does not go astray**: where a strict walk gives up, the name that the walk leaves over is not bound in
the directory where it ends, or that directory was removed. -/
def StaysOnPath (k : Fs) (N : Nodes) (H : Bindings) (s : ℕ) (c : CString) (cs : List CString) : Prop :=
  (H.along N true none s c cs).fail = true →
    Removed k (H.along N false none s c cs).place ∨ H (H.along N false none s c cs).place (H.along N false none s c cs).name = none

/-- What the walk of `SYS_OPEN` leaves over is what the path leads to, if a strict walk does not give up. -/
theorem Bindings.resolve_lenient (hgo : (H.along N true none s c cs).fail = false) :
    H.resolve N s c cs = H (H.along N false none s c cs).place (H.along N false none s c cs).name := by
  have heq : H.along N false none s c cs = H.along N true none s c cs := Walk.along_lenient hgo
  rw [heq]
  exact Walk.resolve_of_along hgo

/-- **`SYS_OPEN` is exact if and only if** its walk does not go astray and a path that leads somewhere does not end in a directory
that was removed; provided that no directory lies in the disk's last sector. -/
theorem sys_open_exact (h : Tree k N H) (hl : Linked N H) (hc : k.Cwd s) (htok : path.tokens = c :: cs) :
    (OpensExactly k path (H.resolve N (path.start s) c cs) →
      StaysOnPath k N H (path.start s) c cs ∧
        (H.resolve N (path.start s) c cs ≠ none → ¬ Removed k (H.along N false none (path.start s) c cs).place)) ∧
    (StaysOnPath k N H (path.start s) c cs →
      (H.resolve N (path.start s) c cs ≠ none → ¬ Removed k (H.along N false none (path.start s) c cs).place) →
      DirsClear k N → OpensExactly k path (H.resolve N (path.start s) c cs)) := by
  have hspec := sysOpen_tree h hl hc htok
  obtain ⟨u, hu⟩ : ∃ u, u = path.start s := ⟨_, rfl⟩
  rw [← hu] at hspec ⊢
  constructor
  · rintro ⟨q, k', hrun, hiff, -⟩
    obtain ⟨-, -, hres⟩ := wp_of_ok hspec hrun
    constructor
    · intro hfail
      by_contra hno
      rw [not_or] at hno
      obtain ⟨t, ht⟩ := Option.ne_none_iff_exists'.1 hno.2
      have hopened := (hiff t).1 (hres.fileOf_iff.2 ⟨hno.1, ht⟩)
      have hnone : H.resolve N u c cs = none := Walk.resolve_of_fail hfail
      rw [hnone] at hopened
      cases hopened
    · intro hsome
      obtain ⟨t, ht⟩ := Option.ne_none_iff_exists'.1 hsome
      exact (hres.fileOf_iff.1 ((hiff t).2 ht)).1
  · intro hstays hkept hclear
    obtain ⟨q, k', hrun, -, -, hres⟩ := exists_ok (wp_mono hspec (fun _ _ h => h) fun _ => Unless.elim hclear)
    have hiff : ∀ t, k'.FileOf q t ↔ H.resolve N u c cs = some t := by
      intro t
      rw [hres.fileOf_iff]
      cases hfail : (H.along N true none u c cs).fail with
      | true =>
        have hnone : H.resolve N u c cs = none := Walk.resolve_of_fail hfail
        rw [hnone]
        refine ⟨fun ⟨hk, ht⟩ => ?_, fun ht => (by cases ht)⟩
        rcases hstays hfail with hrem | hunbound
        · exact absurd hrem hk
        · rw [hunbound] at ht
          cases ht
      | false =>
        rw [Bindings.resolve_lenient hfail] at hkept ⊢
        exact ⟨And.right, fun ht => ⟨hkept (by rw [ht]; exact Option.some_ne_none t), ht⟩⟩
    refine ⟨q, k', hrun, hiff, fun hnone => hres.nothing fun t ht => ?_⟩
    have := (hiff t).1 ht
    rw [hnone] at this
    cases this

/-- A name that is not bound, in the root directory: nothing is opened. -/
theorem sys_open_exact_a : OpensExactly (Sample.filled 5) Sample.a none :=
  (sys_open_exact (Sample.filled_tree le_rfl) Sample.filled_linked (.inl ⟨rfl, rfl⟩)
    (show Sample.a.tokens = [Sample.a] by decide)).2 (fun hfail => (by cases hfail)) (fun hsome => absurd rfl hsome)
    (Sample.filled_dirsClear 5)

namespace Sample

/-- The path `x/a`. -/
def xSlashA : CString := ⟨[120, slash, 97], by decide⟩

end Sample

/-- **A file is opened by a path that leads nowhere**: with a file `a` in the root directory and no `x`, the path `x/a` opens `a`. -/
theorem sys_open_astray : ∃ k N H q k', Tree k N H ∧ Linked N H ∧ k.Cwd 1 ∧ Sample.xSlashA.tokens = [⟨[120], by decide⟩, Sample.a] ∧
    H.resolve N 1 ⟨[120], by decide⟩ [Sample.a] = none ∧ sysOpen Sample.xSlashA k = .ok (q, k') ∧ q ≠ 0 := by
  obtain ⟨k₁, t, N', hrun, hadded, hcwd⟩ := Sample.created
  have hcheck : (filesysCreate (some Sample.a) 0 >>= fun _ => sysOpen Sample.xSlashA).returns (fun q _ => q != 0)
      (Sample.filled 6) = true := by decide +kernel
  obtain ⟨q, k', hopen, hq⟩ := exists_of_returns hcheck
  rw [bind_of_ok hrun] at hopen
  refine ⟨k₁, N', _, q, k', hadded.tree, hadded.linked Sample.filled_linked, hcwd, by decide, ?_, hopen, bne_iff_ne.1 hq⟩
  have hx : Bindings.bind (fun _ _ => none) 1 Sample.a t 1 ⟨[120], by decide⟩ = none := Bindings.bind_of_ne (by decide)
  unfold Bindings.resolve
  simp [Walk.resolve, hx]

/-! ### `SYS_CHDIR` -/

theorem CString.isAbsolute_slashed (h : 0 < path.strlen) : (path.slashed n).isAbsolute = path.isAbsolute := by
  unfold CString.isAbsolute CString.byte CString.slashed
  rw [List.getD_append _ _ _ _ h]

theorem CString.start_slashed (h : 0 < path.strlen) : (path.slashed n).start s = path.start s := by
  rw [CString.start, CString.start, CString.isAbsolute_slashed h]

/-- **`SYS_CHDIR` is exact**: it returns true exactly if the path leads to a directory. Then every walk along the path and a name
more ends in the new current directory with this name left over, and `SYS_OPEN` opens by the name what it opened by the path. -/
structure Enters (k : Fs) (N : Nodes) (H : Bindings) (s : ℕ) (c : CString) (cs : List CString) (path : CString) (r : Bool) (k' : Fs) :
    Prop where
  answer : r = true ↔ ∃ t, H.resolve N s c cs = some t ∧ N.isDir t = true
  entry : r = true → ∃ t, k'.Cwd t ∧ ∀ strict n, ∃ last, H.along N strict none s c (cs ++ [n]) = ⟨false, t, n, last⟩
  opens : r = true → ∀ n, n.Plain → ∀ q k₁ q' k₂, sysOpen (path.slashed n) k = .ok (q, k₁) → sysOpen n k' = .ok (q', k₂) →
    ∀ t, k₁.FileOf q t ↔ k₂.FileOf q' t

theorem Fs.cwd_unique {u : ℕ} (h : k.Cwd s) (h' : k.Cwd u) : s = u := by
  rcases h with ⟨h0, rfl⟩ | ⟨i, hi, rfl⟩
  · rcases h' with ⟨-, rfl⟩ | ⟨j, hj, -⟩
    · rfl
    · exact absurd h0 (Fs.dirOf_ne_zero hj)
  · rcases h' with ⟨h0, -⟩ | ⟨j, hj, rfl⟩
    · exact absurd h0 (Fs.dirOf_ne_zero hi)
    · rw [Fs.dirOf_unique hi hj]

/-- A walk along a path to a directory and one name more. -/
theorem Bindings.along_more (h : H.resolve N s c cs = some t) (ht : N.isDir t = true) (strict : Bool) :
    H.along N strict none s c (cs ++ [n]) = ⟨false, t, n, some t⟩ := by
  have htrue : H.along N true none s c (cs ++ [n]) = ⟨false, t, n, some t⟩ := Walk.along_append h ht
  cases strict with
  | true => exact htrue
  | false =>
    rw [← htrue]
    exact Walk.along_lenient (by rw [← Bindings.along, htrue])

/-- **`SYS_CHDIR` is exact if and only if** the path as one name is bound in the current directory to the directory that the path
leads to, or is bound to no directory and the path leads to none; provided that no directory lies in the disk's last sector. -/
theorem sys_chdir_exact (h : Tree k N H) (hl : Linked N H) (hc : k.Cwd s) (htok : path.tokens = c :: cs) :
    ((∃ r k', sysChdir path k = .ok (r, k') ∧ Enters k N H (path.start s) c cs path r k') →
      ∀ t, N.isDir t = true → (H s path = some t ↔ H.resolve N (path.start s) c cs = some t)) ∧
    ((∀ t, N.isDir t = true → (H s path = some t ↔ H.resolve N (path.start s) c cs = some t)) → DirsClear k N →
      ∃ r k', sysChdir path k = .ok (r, k') ∧ Enters k N H (path.start s) c cs path r k') := by
  have hspec : wp (sysChdir path) _ _ k := sysChdir_tree h hl hc
  constructor
  · rintro ⟨r, k', hrun, hent⟩ t ht
    rcases wp_of_ok hspec hrun with ⟨-, ⟨rfl, u, hu, hudir, hcwd⟩ | ⟨rfl, hno, -⟩⟩
    · obtain ⟨v, hv, hvdir⟩ := hent.answer.1 rfl
      obtain ⟨v', hv', hwalk⟩ := hent.entry rfl
      obtain ⟨last, hlast⟩ := hwalk true c
      rw [Bindings.along_more hv hvdir] at hlast
      cases hlast
      rw [hu, hv, Fs.cwd_unique hcwd hv']
    · refine ⟨fun hbound => ?_, fun hres => ?_⟩
      · rw [hno t hbound] at ht
        cases ht
      · exact absurd (hent.answer.2 ⟨t, hres, ht⟩) (by decide)
  · intro hiff hclear
    obtain ⟨r, k', hrun, hlook, hres⟩ := exists_ok (wp_mono hspec (fun _ _ h => h) fun _ => Unless.elim hclear)
    refine ⟨r, k', hrun, ?_⟩
    rcases hres with ⟨rfl, t, ht, htdir, hcwd⟩ | ⟨rfl, hno, -⟩
    · have hresolve := (hiff t htdir).1 ht
      refine ⟨⟨fun _ => ⟨t, hresolve, htdir⟩, fun _ => rfl⟩, fun _ => ⟨t, hcwd, fun strict n => ?_⟩, fun _ n hn q k₁ q' k₂ hold hnew u => ?_⟩
      · exact ⟨_, Bindings.along_more hresolve htdir strict⟩
      · have htok' : (path.slashed n).tokens = c :: (cs ++ [n]) := by
          rw [CString.tokens_slashed, htok, hn.tokens_eq, List.cons_append]
        obtain ⟨-, -, hres⟩ := wp_of_ok (sysOpen_tree h hl hc htok') hold
        obtain ⟨-, -, hres'⟩ := wp_of_ok (sysOpen_tree hlook.tree hl hcwd hn.tokens_eq) hnew
        rw [CString.start_slashed (CString.pos_of_tokens htok), Bindings.along_more hresolve htdir] at hres
        have hstart : n.start t = t := if_neg (Bool.eq_false_iff.1 hn.not_isAbsolute)
        rw [hstart] at hres'
        rw [hres.fileOf_iff, (show FileResult k' H t n q' k₂ from hres').fileOf_iff, hlook.holding.removed_iff]
    · refine ⟨⟨fun hr => (by cases hr), fun ⟨t, ht, htdir⟩ => ?_⟩, fun hr => (by cases hr), fun hr => (by cases hr)⟩
      rw [hno t ((hiff t htdir).2 ht)] at htdir
      cases htdir

/-- A name that is not bound, in the root directory. -/
theorem sys_chdir_exact_a : ∃ r k', sysChdir Sample.a (Sample.filled 5) = .ok (r, k') ∧
    Enters (Sample.filled 5) Sample.nodes (fun _ _ => none) 1 Sample.a [] Sample.a r k' :=
  (sys_chdir_exact (Sample.filled_tree le_rfl) Sample.filled_linked (.inl ⟨rfl, rfl⟩) (show Sample.a.tokens = [Sample.a] by decide)).2
    (fun _ _ => Iff.rfl) (Sample.filled_dirsClear 5)

end Pintos
