import Pintos.Filesys.Lookups
import Pintos.Library.Walks
import Pintos.Userprog.Paths

/-!
# Walks along paths

The loop over the components of a path, in a tree of directories: the current
directory moves as a walk along the names does (`Walk.along`), and the component that
is left over is the one that the walk leaves over. Then `SYS_OPEN` and `SYS_CHDIR`,
which read only.
-/

namespace Pintos

open Library Library.Prog

/-! ### Components -/

namespace CString

/-- The path `p/n`. -/
def slashed (p n : CString) : CString :=
  ⟨p.bytes ++ slash :: n.bytes, by
    simp only [List.mem_append, List.mem_cons, not_or]
    exact ⟨p.noNul, by decide, n.noNul⟩⟩

/-- A name without a separator, and not the empty one. -/
def Plain (n : CString) : Prop := 0 < n.strlen ∧ n.hasSlash = false

variable {p n s r t : CString} {pre : List UInt8}

theorem notMem_of_hasSlash (h : n.hasSlash = false) : slash ∉ n.bytes := by
  unfold hasSlash at h
  simpa using h

theorem bytes_ne_nil (h : 0 < s.strlen) : s.bytes ≠ [] := List.ne_nil_of_length_pos h

theorem strtokR_slashes (h : ∀ b ∈ s.bytes, b = slash) : s.strtokR = none := by
  have hnil : s.bytes.dropWhile (· == slash) = [] := List.dropWhile_eq_nil_iff.2 fun b hb => by simp [h b hb]
  simp [strtokR, strlen, dropWhile, hnil]

/-- The bytes from a token on that starts the string, after separators. -/
theorem dropWhile_token (hpre : ∀ b ∈ pre, b = slash) (ht : t.Plain) (l : List UInt8) :
    (pre ++ (t.bytes ++ l)).dropWhile (· == slash) = t.bytes ++ l := by
  rw [List.dropWhile_append_of_pos fun b hb => by simp [hpre b hb]]
  have hnot := notMem_of_hasSlash ht.2
  cases hb : t.bytes with
  | nil => exact absurd hb (bytes_ne_nil ht.1)
  | cons b l' =>
    rw [hb] at hnot
    rw [List.cons_append, List.dropWhile_cons_of_neg]
    simp only [List.mem_cons, not_or] at hnot
    simpa using Ne.symm hnot.1

theorem takeWhile_token (ht : t.Plain) : t.bytes.takeWhile (· != slash) = t.bytes := by
  refine List.takeWhile_eq_self_iff.2 fun b hb => ?_
  have hnot := notMem_of_hasSlash ht.2
  rw [bne_iff_ne]
  rintro rfl
  exact hnot hb

/-- The token ends at a separator. -/
theorem strtokR_token (hpre : ∀ b ∈ pre, b = slash) (ht : t.Plain) (hs : s.bytes = pre ++ (t.bytes ++ slash :: r.bytes)) :
    s.strtokR = some (t, r) := by
  have hdrop : s.dropWhile (· == slash) = t.slashed r := CString.ext (by
    change s.bytes.dropWhile _ = _
    rw [hs, dropWhile_token hpre ht]
    rfl)
  have htake : (t.slashed r).takeWhile (· != slash) = t := CString.ext (by
    change (t.bytes ++ slash :: r.bytes).takeWhile _ = _
    rw [List.takeWhile_append_of_pos fun b hb => ?_, List.takeWhile_cons_of_neg (by simp), List.append_nil]
    have := notMem_of_hasSlash ht.2
    rw [bne_iff_ne]
    rintro rfl
    exact this hb)
  have hrest : (t.slashed r).drop (t.strlen + 1) = r := CString.ext (by
    change (t.bytes ++ slash :: r.bytes).drop _ = _
    exact List.drop_length_add_append 1)
  have hlen : (t.slashed r).strlen ≠ 0 := by
    unfold strlen slashed
    simp
  simp only [strtokR, hdrop, htake, hrest]
  rw [if_neg hlen]

/-- The token ends the string. -/
theorem strtokR_last (hpre : ∀ b ∈ pre, b = slash) (ht : t.Plain) (hs : s.bytes = pre ++ t.bytes) :
    s.strtokR = some (t, ⟨[], by simp⟩) := by
  have hdrop : s.dropWhile (· == slash) = t := CString.ext (by
    change s.bytes.dropWhile _ = _
    have h := dropWhile_token hpre ht []
    rw [List.append_nil] at h
    rw [hs, h])
  have htake : t.takeWhile (· != slash) = t := CString.ext (takeWhile_token ht)
  have hrest : t.drop (t.strlen + 1) = ⟨[], by simp⟩ := CString.ext (List.drop_eq_nil_of_le (Nat.le_succ _))
  have hlen : t.strlen ≠ 0 := ht.1.ne'
  simp only [strtokR, hdrop, htake, hrest]
  rw [if_neg hlen]

/-- Separators, a token, and a separator and the rest of the string unless it ends there. -/
theorem exists_cut (l : List UInt8) : (∀ b ∈ l, b = slash) ∨ ∃ pre t : List UInt8, (∀ b ∈ pre, b = slash) ∧ t ≠ [] ∧
    slash ∉ t ∧ (l = pre ++ t ∨ ∃ r, l = pre ++ (t ++ slash :: r)) := by
  induction l with
  | nil => exact .inl (by simp)
  | cons b l ih =>
    by_cases hb : b = slash
    · rcases ih with hall | ⟨pre, t, hpre, ht, hnot, hl⟩
      · exact .inl (by simpa [hb] using hall)
      · refine .inr ⟨b :: pre, t, by simpa [hb] using hpre, ht, hnot, ?_⟩
        rcases hl with rfl | ⟨r, rfl⟩
        · exact .inl rfl
        · exact .inr ⟨r, rfl⟩
    · by_cases hmem : slash ∈ l
      · obtain ⟨t, r, rfl, hnot⟩ := List.eq_append_cons_of_mem hmem
        exact .inr ⟨[], b :: t, by simp, by simp, by simpa [Ne.symm hb] using hnot, .inr ⟨r, rfl⟩⟩
      · exact .inr ⟨[], b :: l, by simp, by simp, by simpa [Ne.symm hb] using hmem, .inl rfl⟩

/-- **What `strtok_r` does**: there is no token, or one that ends the string, or one that ends at a separator. -/
theorem strtokR_cases (s : CString) : (s.strtokR = none ∧ ∀ b ∈ s.bytes, b = slash) ∨ ∃ pre t r, (∀ b ∈ pre, b = slash) ∧ t.Plain ∧
    s.strtokR = some (t, r) ∧ (s.bytes = pre ++ t.bytes ∧ r.bytes = [] ∨ s.bytes = pre ++ (t.bytes ++ slash :: r.bytes)) := by
  rcases exists_cut s.bytes with hall | ⟨pre, l, hpre, hne, hnot, hs⟩
  · exact .inl ⟨strtokR_slashes hall, hall⟩
  have hl : 0 ∉ l := by
    intro h0
    refine s.noNul ?_
    rcases hs with hs | ⟨r, hs⟩
    · rw [hs]
      exact List.mem_append_right _ h0
    · rw [hs]
      exact List.mem_append_right _ (List.mem_append_left _ h0)
  have ht : Plain ⟨l, hl⟩ := ⟨List.length_pos_of_ne_nil hne, by simpa [hasSlash] using hnot⟩
  rcases hs with hs | ⟨r, hs⟩
  · exact .inr ⟨pre, ⟨l, hl⟩, ⟨[], by simp⟩, hpre, ht, strtokR_last hpre ht hs, .inl ⟨hs, rfl⟩⟩
  · have hr : 0 ∉ r := by
      intro h0
      refine s.noNul ?_
      rw [hs]
      exact List.mem_append_right _ (List.mem_append_right _ (List.mem_cons_of_mem _ h0))
    exact .inr ⟨pre, ⟨l, hl⟩, ⟨r, hr⟩, hpre, ht, strtokR_token hpre ht hs, .inr hs⟩

/-- Separators at the start of a string are passed over. -/
theorem strtokR_separators (hp : ∀ b ∈ p.bytes, b = slash) : (p.slashed n).strtokR = n.strtokR := by
  have hsep : ∀ pre : List UInt8, (∀ b ∈ pre, b = slash) → ∀ b ∈ p.bytes ++ slash :: pre, b = slash := by
    intro pre hpre b hb
    rcases List.mem_append.1 hb with hb | hb
    · exact hp b hb
    · rcases List.mem_cons.1 hb with rfl | hb
      · rfl
      · exact hpre b hb
  rcases strtokR_cases n with ⟨hnone, hall⟩ | ⟨pre, t, r, hpre, ht, hsome, hn⟩
  · rw [hnone]
    exact strtokR_slashes (hsep _ hall)
  · rw [hsome]
    rcases hn with ⟨hn, hr⟩ | hn
    · have hr' : r = ⟨[], by simp⟩ := CString.ext hr
      rw [hr']
      refine strtokR_last (hsep pre hpre) ht ?_
      change p.bytes ++ slash :: n.bytes = _
      rw [hn, List.append_assoc, List.cons_append]
    · refine strtokR_token (hsep pre hpre) ht ?_
      change p.bytes ++ slash :: n.bytes = _
      rw [hn, List.append_assoc, List.cons_append]

theorem strlen_strtokR (h : s.strtokR = some (t, r)) : r.strlen < s.strlen := by
  rcases strtokR_cases s with ⟨hnone, -⟩ | ⟨pre, t', r', -, ht, hsome, hs⟩
  · rw [h] at hnone
    cases hnone
  · rw [h] at hsome
    cases hsome
    have hpos := ht.1
    unfold strlen at hpos ⊢
    rcases hs with ⟨hs, hr⟩ | hs
    · rw [hs, hr, List.length_append, List.length_nil]
      omega
    · rw [hs, List.length_append, List.length_append, List.length_cons]
      omega

theorem tokensUpTo_empty (m : ℕ) (h : s.strlen = 0) : tokensUpTo m s = [] := by
  cases m with
  | zero => rfl
  | succ m => rw [tokensUpTo, strtokR_slashes (by rw [List.eq_nil_of_length_eq_zero h]; simp)]

/-- Enough calls of `strtok_r` find all tokens. -/
theorem tokensUpTo_eq {m k : ℕ} (hm : s.strlen ≤ m) (hk : s.strlen ≤ k) : tokensUpTo m s = tokensUpTo k s := by
  induction m generalizing s k with
  | zero => rw [tokensUpTo_empty k (by omega), tokensUpTo_empty 0 (by omega)]
  | succ m ih =>
    cases k with
    | zero => rw [tokensUpTo_empty (m + 1) (by omega), tokensUpTo_empty 0 (by omega)]
    | succ k =>
      rw [tokensUpTo, tokensUpTo]
      cases h : s.strtokR with
      | none => rfl
      | some tr =>
        obtain ⟨t, r⟩ := tr
        have hlt := strlen_strtokR h
        exact congrArg (t :: ·) (ih (by omega) (by omega))

/-- **The tokens of a string**, one call of `strtok_r` at a time. -/
theorem tokens_eq (s : CString) : s.tokens = match s.strtokR with
    | none => []
    | some (t, r) => t :: r.tokens := by
  cases h : s.strtokR with
  | none =>
    unfold tokens
    cases s.strlen with
    | zero => rfl
    | succ m => rw [tokensUpTo, h]
  | some tr =>
    obtain ⟨t, r⟩ := tr
    have hlt := strlen_strtokR h
    rw [tokens, tokensUpTo_eq le_rfl (Nat.le_succ _), tokensUpTo, h]
    exact congrArg (t :: ·) (tokensUpTo_eq (by omega) le_rfl)

/-- A name without separators is its own token. -/
theorem Plain.tokens_eq (h : n.Plain) : n.tokens = [n] := by
  rw [CString.tokens_eq, strtokR_last (show ∀ b ∈ [], b = slash by simp) h rfl]
  rfl

/-- Every token is a plain name. -/
theorem plain_of_mem_tokens (h : t ∈ s.tokens) : t.Plain := by
  induction hn : s.strlen using Nat.strong_induction_on generalizing s with
  | _ n ih =>
    rw [CString.tokens_eq] at h
    rcases strtokR_cases s with ⟨hnone, -⟩ | ⟨pre, t', r, -, ht, hsome, -⟩
    · rw [hnone] at h
      cases h
    · rw [hsome] at h
      rcases List.mem_cons.1 h with rfl | hmem
      · exact ht
      · exact ih _ (hn ▸ strlen_strtokR hsome) hmem rfl

/-- **The tokens of `p/n`** are those of `p` and then those of `n`. -/
theorem tokens_slashed (p n : CString) : (p.slashed n).tokens = p.tokens ++ n.tokens := by
  induction hp : p.strlen using Nat.strong_induction_on generalizing p with
  | _ m ih =>
    rw [CString.tokens_eq p]
    rcases strtokR_cases p with ⟨hnone, hall⟩ | ⟨pre, t, r, hpre, ht, hsome, hs⟩
    · -- the separators of `p` come before the first token of `n`
      have hsep : (p.slashed n).strtokR = n.strtokR := strtokR_separators hall
      rw [hnone, List.nil_append, CString.tokens_eq, CString.tokens_eq n, hsep]
    · rw [hsome]
      rcases hs with ⟨hs, hr⟩ | hs
      · have htok : (p.slashed n).strtokR = some (t, n) := strtokR_token hpre ht (by
          change p.bytes ++ slash :: n.bytes = _
          rw [hs, List.append_assoc])
        have hrest : r.tokens = [] := by
          rw [CString.tokens_eq, strtokR_slashes (by rw [hr]; simp)]
        rw [CString.tokens_eq, htok]
        dsimp only
        rw [hrest]
        rfl
      · have htok : (p.slashed n).strtokR = some (t, r.slashed n) := strtokR_token hpre ht (by
          change p.bytes ++ slash :: n.bytes = pre ++ (t.bytes ++ slash :: (r.bytes ++ slash :: n.bytes))
          rw [hs]
          simp only [List.append_assoc, List.cons_append])
        rw [CString.tokens_eq, htok]
        exact congrArg (t :: ·) (ih _ (hp ▸ strlen_strtokR hsome) r rfl)

end CString

/-! ### The walk -/

variable {k k' : Fs} {N : Nodes} {H : Bindings} {s a p : ℕ} {i : Inode} {c n path : CString} {cs : List CString}

/-- The walk of the system calls along the components `c :: cs`. -/
def Bindings.along (H : Bindings) (N : Nodes) (strict : Bool) (last : Option ℕ) (s : ℕ) (c : CString) (cs : List CString) :
    Walk ℕ CString :=
  Walk.along H N.isDir strict last s c cs

/-- `a` is the inode of the file in a sector, if there is one. -/
def Fs.InodeOf (k : Fs) (a : ℕ) : Option ℕ → Prop
  | none => a = 0
  | some t => ∃ i, k.inodes.cell a = some i ∧ i.sector = t

theorem Fs.Cwd.holding (hc : k.Cwd s) (h : Holding k k') (hcur : k'.currDir = k.currDir) : k'.Cwd s := by
  rcases hc with ⟨h0, hs⟩ | ⟨i, hi, hs⟩
  · exact .inl ⟨hcur.trans h0, hs⟩
  · obtain ⟨m, data, -, hi'⟩ := h.dirOf hi
    rw [← hcur] at hi'
    exact .inr ⟨_, hi', hs⟩

/-- `curr_dir` is set. -/
theorem Accessed.setCurrDir (h : Accessed k N H k') (p : ℕ) : Accessed k N H { k' with currDir := p } :=
  ⟨⟨⟨h.tree.wf.cache, h.tree.wf.laid, h.tree.wf.opened⟩, h.tree.map, h.tree.root, h.tree.plain, h.tree.pos, h.tree.deny,
    h.tree.dirs, h.tree.live, h.tree.ok⟩, ⟨h.data.freeMap, h.data.tables, h.data.keeps⟩,
    ⟨h.holding.inode, h.holding.new, h.holding.dir, h.holding.next⟩⟩

/-- **`dir_open`** of a directory. -/
theorem dirOpen_tree (h : Tree k N H) (hi : k.inodes.cell a = some i) (hdir : i.data.isdir = true) :
    wp (dirOpen a) (fun p k' => Looked k N H k' ∧ p = k'.currDir ∧ k'.inodes.cell a = some { i with openCnt := i.openCnt + 1 } ∧
      k'.DirOf p { i with openCnt := i.openCnt + 1 }) (fun _ => False) k := by
  refine wp_post (dirOpen_spec hi) ?_
  rintro p k' ⟨rfl, rfl⟩
  refine ⟨h.looked_enter hi hdir, rfl, ?_, Fs.enter_dirOf hi⟩
  change (k.inodes.set a _).cell a = _
  rw [Heap.cell_set_self, hi]
  rfl

/-- **The loop over the components**: the current directory goes along. -/
theorem walk_tree (h : Tree k N H) (hl : Linked N H) (hc : k.Cwd s) {last : Option ℕ} (hlast : k.InodeOf a last) (strict : Bool) :
    wp (walk strict cs (some c) a)
      (fun w k' => Looked k N H k' ∧ w.fail = (H.along N strict last s c cs).fail ∧
        w.prev = some (H.along N strict last s c cs).name ∧ k'.Cwd (H.along N strict last s c cs).place ∧
        k'.InodeOf w.inode (H.along N strict last s c cs).last)
      (Unless (DirsClear k N)) k := by
  induction cs generalizing k s c a last with
  | nil => exact ⟨.refl h, rfl, rfl, hc, hlast⟩
  | cons c' cs ih =>
    rw [walk]
    refine wp_seq (dirMakesure_cwd h hc) (fun _ => False.elim) ?_
    rintro dir k₁ ⟨hl₁, rfl, i, hi, hsec⟩
    refine wp_seq (dirLookup_tree hl₁.tree hl hi) (fun e he => hl₁.unless e he) ?_
    rintro b k₂ ⟨hl₂, hcur, hfound⟩
    rw [hsec] at hfound
    have hl₁₂ := hl₁.trans hl₂
    have hcwd : k₂.Cwd s := (show k₁.Cwd s from .inr ⟨i, hi, hsec⟩).holding hl₂.holding hcur
    rcases hfound with ⟨hnone, rfl⟩ | ⟨j, hbind, hj⟩
    · -- there is no such component
      rw [if_pos rfl]
      cases strict with
      | true =>
        have halong : H.along N true last s c (c' :: cs) = ⟨true, s, c, none⟩ := by
          simp [Bindings.along, Walk.along, hnone]
        rw [halong, if_pos rfl]
        exact ⟨hl₁₂, rfl, rfl, hcwd, rfl⟩
      | false =>
        have halong : H.along N false last s c (c' :: cs) = H.along N false none s c' cs := by
          simp [Bindings.along, Walk.along, hnone]
        rw [halong, if_neg (by decide)]
        refine wp_mono (ih hl₂.tree hcwd (show k₂.InodeOf 0 none from rfl)) ?_ fun e he => hl₁₂.unless e he
        rintro w k' ⟨hl', hw⟩
        exact ⟨hl₁₂.trans hl', hw⟩
    · rw [if_neg (k₂.inodes.ne_null hj), wp_bind]
      refine wp_inodeAt hj ?_
      have hisdir := hl₂.tree.isDir_eq hj
      cases hdir : j.data.isdir with
      | true =>
        have halong : H.along N strict last s c (c' :: cs) = H.along N strict (some j.sector) j.sector c' cs := by
          simp [Bindings.along, Walk.along, hbind, hisdir, hdir]
        rw [halong, if_pos rfl]
        refine wp_seq (dirOpen_tree hl₂.tree hj hdir) (fun _ => False.elim) ?_
        rintro q k₃ ⟨hl₃, rfl, hj₃, hq⟩
        refine wp_mono (ih hl₃.tree (.inr ⟨_, hq, rfl⟩) (show k₃.InodeOf b (some j.sector) from ⟨_, hj₃, rfl⟩)) ?_
          fun e he => hl₁₂.unless e (hl₃.unless e he)
        rintro w k' ⟨hl', hw⟩
        exact ⟨(hl₁₂.trans hl₃).trans hl', hw⟩
      | false =>
        have halong : H.along N strict last s c (c' :: cs) = ⟨true, s, c, some j.sector⟩ := by
          simp [Bindings.along, Walk.along, hbind, hisdir, hdir]
        rw [halong, if_neg (by decide)]
        exact ⟨hl₁₂, rfl, rfl, hcwd, j, hj, rfl⟩

/-- Where a path starts: in the root directory, or in the current one. -/
def CString.start (path : CString) (s : ℕ) : ℕ := if path.isAbsolute then 1 else s

theorem FileResult.looked {nm : CString} {q : ℕ} {k₁ : Fs} (h : FileResult k₁ H s nm q k') (hl : Looked k N H k₁) :
    FileResult k H s nm q k' := by
  unfold FileResult at h ⊢
  rwa [hl.holding.removed_iff, hl.files] at h

/-- The walk, and then `filesys_open` for the component that it leaves over. -/
theorem wp_walkOpen {α : Type} {f : ℕ → FsM α} {Q : α → Fs → Prop} {E : Halt → Prop} (h : Tree k N H) (hl : Linked N H)
    (hc : k.Cwd s) (hE : ∀ e, Unless (DirsClear k N) e → E e)
    (hf : ∀ q k', Accessed k N H k' → FileResult k H (H.along N false none s c cs).place (H.along N false none s c cs).name q k' →
      wp (f q) Q E k') :
    wp (do
      let w ← walk false (c :: cs) none 0
      let q ← filesysOpen w.prev
      f q) Q E k := by
  refine wp_seq (walk_tree h hl hc (show k.InodeOf 0 none from rfl) false) hE ?_
  rintro w k₁ ⟨hl₁, -, hprev, hcwd, -⟩
  rw [hprev]
  refine wp_seq (filesysOpen_tree hl₁.tree hl hcwd) (fun e he => hE e (hl₁.unless e he)) ?_
  rintro q k' ⟨hl', hres⟩
  exact hf q k' (hl₁.toAccessed.trans hl') (hres.looked hl₁)

theorem CString.pos_of_tokens (h : path.tokens = c :: cs) : 0 < path.strlen := by
  by_contra h0
  rw [CString.tokens, CString.tokensUpTo_empty _ (by omega)] at h
  cases h

theorem CString.ne_root (h : path.tokens = c :: cs) : path ≠ .root := by
  rintro rfl
  rw [CString.tokens_eq, CString.strtokR_slashes fun b hb => List.mem_singleton.1 hb] at h
  cases h

/-- **`SYS_OPEN`** of a path that has a component. -/
theorem sysOpen_tree (h : Tree k N H) (hl : Linked N H) (hc : k.Cwd s) (htok : path.tokens = c :: cs) :
    wp (sysOpen path)
      (fun q k' => Accessed k N H k' ∧ k'.Cwd s ∧ FileResult k H (H.along N false none (path.start s) c cs).place
        (H.along N false none (path.start s) c cs).name q k')
      (Unless (DirsClear k N)) k := by
  rw [sysOpen]
  refine wp_seq (dirMakesure_cwd h hc) (fun _ => False.elim) ?_
  rintro prevdir k₁ ⟨hl₁, rfl, i, hi, hsec⟩
  have hcwd₁ : k₁.Cwd s := .inr ⟨i, hi, hsec⟩
  rw [if_neg (CString.ne_root htok)]
  obtain ⟨w, hw⟩ : ∃ w, w = H.along N false none (path.start s) c cs := ⟨_, rfl⟩
  rw [← hw]
  -- the end of the call
  have hend : ∀ q k₂, Accessed k₁ N H k₂ → FileResult k₁ H w.place w.name q k₂ → wp (do
        setCurrDir k₁.currDir
        pure q) (fun q k' => Accessed k N H k' ∧ k'.Cwd s ∧ FileResult k H w.place w.name q k') (Unless (DirsClear k N)) k₂ := by
    intro q k₂ hl₂ hres
    rw [wp_bind, setCurrDir, wp_modify, wp_pure]
    have hhold : Holding k₁ { k₂ with currDir := k₁.currDir } := (hl₂.setCurrDir _).holding
    exact ⟨(hl₁.toAccessed.trans hl₂).setCurrDir k₁.currDir, hcwd₁.holding hhold rfl, hres.looked hl₁⟩
  by_cases habs : path.isAbsolute = true
  · rw [CString.start, if_pos habs] at hw
    rw [if_pos habs, htok]
    refine wp_seq (dirOpenRoot_tree hl₁.tree) (fun _ => False.elim) ?_
    rintro q k₂ ⟨hl₂, rfl, hroot⟩
    refine wp_walkOpen hl₂.tree hl (.inr hroot) (fun e he => hl₁.unless e (hl₂.unless e he)) fun q k₃ hl₃ hres => ?_
    rw [← hw] at hres
    exact hend q k₃ (hl₂.toAccessed.trans hl₃) (hres.looked hl₂)
  · rw [CString.start, if_neg habs] at hw
    rw [if_neg habs]
    by_cases hslash : path.hasSlash = true
    · rw [if_pos hslash, htok]
      refine wp_walkOpen hl₁.tree hl hcwd₁ (fun e he => hl₁.unless e he) fun q k₃ hl₃ hres => ?_
      rw [← hw] at hres
      exact hend q k₃ hl₃ hres
    · -- the path is its only component
      have hplain : path.tokens = [path] := CString.Plain.tokens_eq ⟨CString.pos_of_tokens htok, Bool.eq_false_iff.2 hslash⟩
      rw [hplain] at htok
      cases htok
      subst hw
      rw [if_neg hslash]
      refine wp_seq (filesysOpen_tree hl₁.tree hl hcwd₁) (fun e he => hl₁.unless e he) ?_
      rintro q k₃ ⟨hl₃, hres⟩
      exact hend q k₃ hl₃ hres

/-- **`SYS_CHDIR`**: the whole string is looked up in the current directory. -/
theorem sysChdir_tree (h : Tree k N H) (hl : Linked N H) (hc : k.Cwd s) :
    wp (sysChdir path)
      (fun r k' => Looked k N H k' ∧ ((r = true ∧ ∃ t, H s path = some t ∧ N.isDir t = true ∧ k'.Cwd t) ∨
        r = false ∧ (∀ t, H s path = some t → N.isDir t = false) ∧ k'.Cwd s))
      (Unless (DirsClear k N)) k := by
  rw [sysChdir]
  refine wp_seq (dirMakesure_cwd h hc) (fun _ => False.elim) ?_
  rintro dir k₁ ⟨hl₁, rfl, i, hi, hsec⟩
  refine wp_seq (dirLookup_tree hl₁.tree hl hi) (fun e he => hl₁.unless e he) ?_
  rintro b k₂ ⟨hl₂, hcur, hfound⟩
  rw [hsec] at hfound
  have hl₁₂ := hl₁.trans hl₂
  have hcwd : k₂.Cwd s := (show k₁.Cwd s from .inr ⟨i, hi, hsec⟩).holding hl₂.holding hcur
  rcases hfound with ⟨hnone, rfl⟩ | ⟨j, hbind, hj⟩
  · rw [if_pos rfl]
    refine ⟨hl₁₂, .inr ⟨rfl, fun t ht => ?_, hcwd⟩⟩
    rw [hnone] at ht
    cases ht
  · rw [if_neg (k₂.inodes.ne_null hj), wp_bind]
    refine wp_inodeAt hj ?_
    have hisdir := hl₂.tree.isDir_eq hj
    cases hdir : j.data.isdir with
    | true =>
      rw [if_pos rfl]
      refine wp_seq (dirOpen_tree hl₂.tree hj hdir) (fun _ => False.elim) ?_
      rintro q k₃ ⟨hl₃, rfl, -, hq⟩
      exact ⟨hl₁₂.trans hl₃, .inl ⟨rfl, j.sector, hbind, hisdir.trans hdir, .inr ⟨_, hq, rfl⟩⟩⟩
    | false =>
      rw [if_neg (by decide)]
      refine ⟨hl₁₂, .inr ⟨rfl, fun t ht => ?_, hcwd⟩⟩
      rw [hbind] at ht
      cases ht
      exact hisdir.trans hdir

end Pintos
