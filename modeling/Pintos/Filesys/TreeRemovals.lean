import Pintos.Filesys.TreeEdits

/-!
# Removing from a tree

`dir_remove` and `filesys_remove` in any directory of a tree. The binding goes, and the
file is marked removed; it is there no more if no one has it open. A directory is
removed only if it has no more than two entries, which are counted (`countDir_exact`).
-/

namespace Pintos

open Library Library.Prog Library.Bytes

variable {k k' k₁ k₂ : Fs} {N N' : Nodes} {H : Bindings} {s t a p n : ℕ} {nd nd' : Node} {i : Inode} {d : Dir} {nm : CString}

/-! ### Closing -/

namespace Tree

/-- An inode is closed. If it was removed, it is neither the free map's nor the root directory's. -/
theorem closes (h : Tree k N H) (hc : Closes k N a i k' N') (hi : k.inodes.cell a = some i) (h0 : i.sector ≠ 0)
    (h2 : i.removed = true → 2 ≤ i.sector) : Tree k' N' H := by
  have hback : ∀ b j, k'.inodes.cell b = some j → ∃ j₀, k.inodes.cell b = some j₀ ∧ j.data = j₀.data ∧
      j.denyWriteCnt = j₀.denyWriteCnt ∧ 0 < j.openCnt := by
    intro b j hj
    by_cases hb : b = a
    · subst hb
      have hpos := h.pos b i hi
      rw [hc.cell_self hi] at hj
      split_ifs at hj with hone
      cases hj
      exact ⟨i, hi, rfl, rfl, by dsimp only; omega⟩
    · rw [hc.cell_of_ne hb] at hj
      exact ⟨j, hj, rfl, rfl, h.pos b j hj⟩
  have hold : ∀ u nd, N' u = some nd → N u = some nd := by
    intro u nd hN
    rw [hc.nodes] at hN
    split_ifs at hN
    exact hN
  obtain ⟨nd₁, hN₁, hdir₁⟩ := h.root
  refine ⟨hc.wf h.wf h.map hi h2, hc.mapOpen h.map hi (absurd · h0), ⟨nd₁, ?_, hdir₁⟩, fun nd hN => h.plain nd (hold 0 nd hN),
    fun b j hj => ?_, fun b j hj hdir => ?_, fun q e j hq hj => ?_, fun q e hq => ?_, fun u nd hN hdir => ?_⟩
  · rw [hc.nodes, if_neg]
    · exact hN₁
    · rintro ⟨h1, -, hrem⟩
      have := h2 hrem
      omega
  · obtain ⟨-, -, -, -, hpos⟩ := hback b j hj
    exact hpos
  · obtain ⟨j₀, hj₀, hdata, hdeny, -⟩ := hback b j hj
    rw [hdeny]
    exact h.deny b j₀ hj₀ (hdata ▸ hdir)
  · obtain ⟨j₀, hj₀, hdata, -⟩ := hback e.inode j hj
    rw [hdata]
    rw [hc.dirs] at hq
    exact h.dirs q e j₀ hq hj₀
  · rw [hc.dirs] at hq
    rw [hc.next]
    exact h.live q e hq
  · have hN' := hold u nd hN
    exact (h.ok u nd hN' hdir).of_bytes (h.length_le hN') fun j hj => hc.bytes h.wf hN' (h.ne_zero hN' hdir) hj

/-- What is in memory for a directory is not the free map's. -/
theorem dir_sector_ne_zero (h : Tree k N H) (hd : k.dirs.cell p = some d) (hi : k.inodes.cell d.inode = some i) : i.sector ≠ 0 := by
  obtain ⟨nd, hN, hdir⟩ := h.dirOf_node ⟨d, hd, hi⟩
  exact h.ne_zero hN hdir

end Tree

/-- What was removed stays so, unless it was closed for the last time. -/
theorem Closes.removed_iff {u : ℕ} (hc : Closes k N a i k' N') (hi : k.inodes.cell a = some i)
    (hu : u = i.sector → i.openCnt = 1 → i.removed = false) : Removed k' u ↔ Removed k u := by
  constructor
  · rintro ⟨b, j, hj, hsec, hrem⟩
    by_cases hb : b = a
    · subst hb
      rw [hc.cell_self hi] at hj
      split_ifs at hj
      cases hj
      exact ⟨b, i, hi, hsec, hrem⟩
    · rw [hc.cell_of_ne hb] at hj
      exact ⟨b, j, hj, hsec, hrem⟩
  · rintro ⟨b, j, hj, hsec, hrem⟩
    by_cases hb : b = a
    · subst hb
      rw [hi] at hj
      cases hj
      have hmore : i.openCnt ≠ 1 := fun hone => by
        rw [hu hsec.symm hone] at hrem
        cases hrem
      have hcell := hc.cell_self hi
      rw [if_neg hmore] at hcell
      exact ⟨b, _, hcell, hsec, hrem⟩
    · exact ⟨b, j, by rw [hc.cell_of_ne hb]; exact hj, hsec, hrem⟩

/-- Only a removed file is forgotten when it is closed. -/
theorem Closes.kept (hc : Closes k N a i k' N') (hw : k.buffers.Wf) (hkept : i.openCnt = 1 → i.removed = false) :
    N' = N ∧ SameData k k' := by
  cases hc with
  | more => exact ⟨rfl, rfl, rfl, .refl hw⟩
  | last => exact ⟨rfl, rfl, rfl, .refl hw⟩
  | removed hone hrem =>
    rw [hkept hone] at hrem
    cases hrem

/-- **`dir_close`** of a directory that was not removed, perhaps for the last time: the root directory is the current one. -/
theorem dirClose_kept (h : Tree k N H) (hd : k.dirs.cell p = some d) (hi : k.inodes.cell d.inode = some i)
    (hkept : i.removed = false) :
    wp (dirClose p) (fun _ k' => Tree k' N H ∧ SameData k k' ∧ k'.files = k.files ∧ (∀ u, Removed k' u ↔ Removed k u) ∧
      ∃ j, k'.DirOf k'.currDir j ∧ j.sector = 1) (fun _ => False) k := by
  have h0 := h.dir_sector_ne_zero hd hi
  have hclose : wp (inodeClose d.inode) (fun _ k₁ => Closes k N d.inode i k₁ N ∧ SameData k k₁) (fun _ => False) k := by
    by_cases hone : i.openCnt = 1
    · refine wp_post (inodeClose_last hi hone hkept) ?_
      rintro - k₁ rfl
      exact ⟨.last hone hkept, rfl, rfl, .refl h.wf.cache⟩
    · refine wp_post (inodeClose_more hi hone) ?_
      rintro - k₁ rfl
      exact ⟨.more hone, rfl, rfl, .refl h.wf.cache⟩
  rw [dirClose, wp_bind, onlyIf, if_pos (k.dirs.ne_null hd), wp_bind]
  refine wp_dirAt hd ?_
  refine wp_seq hclose (fun _ => False.elim) ?_
  rintro - k₁ ⟨hc, hsame⟩
  have h₁ := (h.closes hc hi h0 fun hrem => absurd hrem (by simp [hkept])).freeDir p
  rw [wp_modify, wp_bind]
  refine wp_post (dirOpenRoot_tree h₁) ?_
  rintro q k' ⟨hl, rfl, hroot⟩
  refine ⟨hl.tree, hsame.trans ⟨hl.data.freeMap, hl.data.tables, hl.data.keeps⟩, hl.files.trans hc.files, fun u => ?_, hroot⟩
  rw [hl.holding.removed_iff, ← hc.removed_iff hi fun _ _ => hkept]
  rfl

/-! ### What stays open -/

/-- The file in sector `s` is in memory. -/
def Fs.InMemory (k : Fs) (s : ℕ) : Prop := ∃ a i, k.inodes.cell a = some i ∧ i.sector = s

/-- Every inode in memory has an opener that is no `struct dir`. -/
def Fs.Spared (k : Fs) : Prop := ∀ a i, k.inodes.cell a = some i → (k.dirCount a : ℤ) < i.openCnt

/-- **Every inode in memory stays there**, and still has openers that are no `struct dir`. -/
structure Retains (k k' : Fs) : Prop where
  inode : ∀ a i, k.inodes.cell a = some i → ∃ j, k'.inodes.cell a = some j ∧ j.sector = i.sector
  spared : k.Spared → k'.Spared

theorem Retains.trans (h : Retains k k₁) (h' : Retains k₁ k') : Retains k k' := by
  refine ⟨fun a i hi => ?_, fun hs => h'.spared (h.spared hs)⟩
  obtain ⟨i₁, hi₁, hsec⟩ := h.inode a i hi
  obtain ⟨j, hj, hsec'⟩ := h'.inode a i₁ hi₁
  exact ⟨j, hj, hsec'.trans hsec⟩

theorem Retains.inMemory (h : Retains k k') (hs : k.InMemory s) : k'.InMemory s := by
  obtain ⟨a, i, hi, hsec⟩ := hs
  obtain ⟨j, hj, hsec'⟩ := h.inode a i hi
  exact ⟨a, j, hj, hsec'.trans hsec⟩

theorem Holding.retains (h : Holding k k') : Retains k k' := by
  refine ⟨fun a i hi => ?_, fun hs a j hj => ?_⟩
  · obtain ⟨n, data, -, hj⟩ := h.inode a i hi
    exact ⟨_, hj, rfl⟩
  · rcases h.new a j hj with ⟨i, hi, hle⟩ | ⟨-, hlt⟩
    · have := hs a i hi
      omega
    · exact hlt

/-- What `inode_open` and `inode_close` count. -/
def Inode.opening (i : Inode) : ℕ × ℤ := (i.sector, i.openCnt)

/-- **The same inodes are in memory**, with the same openers, and the same `struct dir`. -/
structure SameOpen (k k' : Fs) : Prop where
  inodes : ∀ b, (k'.inodes.cell b).map Inode.opening = (k.inodes.cell b).map Inode.opening
  dirs : k'.dirs = k.dirs

/-- The inode at `a` has one opener less, and leaves the memory with the last one. -/
structure Dropped (k : Fs) (a : ℕ) (k' : Fs) : Prop where
  other : ∀ b ≠ a, (k'.inodes.cell b).map Inode.opening = (k.inodes.cell b).map Inode.opening
  self : ∀ i, k.inodes.cell a = some i →
    (k'.inodes.cell a).map Inode.opening = if i.openCnt = 1 then none else some (i.sector, i.openCnt - 1)
  dirs : k'.dirs = k.dirs

theorem SameOpen.trans (h : SameOpen k k₁) (h' : SameOpen k₁ k') : SameOpen k k' :=
  ⟨fun b => (h'.inodes b).trans (h.inodes b), h'.dirs.trans h.dirs⟩

theorem SameOpen.cell (h : SameOpen k k') (hi : k.inodes.cell a = some i) :
    ∃ j, k'.inodes.cell a = some j ∧ j.sector = i.sector ∧ j.openCnt = i.openCnt := by
  have heq := h.inodes a
  rw [hi] at heq
  obtain ⟨j, hj, hsame⟩ := Option.map_eq_some_iff.1 heq
  exact ⟨j, hj, congrArg Prod.fst hsame, congrArg Prod.snd hsame⟩

theorem SameOpen.retains (h : SameOpen k k') : Retains k k' := by
  refine ⟨fun a i hi => ?_, fun hs a j hj => ?_⟩
  · obtain ⟨j, hj, hsec, -⟩ := h.cell hi
    exact ⟨j, hj, hsec⟩
  · have heq := h.inodes a
    rw [hj] at heq
    obtain ⟨i, hi, hsame⟩ := Option.map_eq_some_iff.1 heq.symm
    have hcnt : i.openCnt = j.openCnt := congrArg Prod.snd hsame
    have hlt := hs a i hi
    unfold Fs.dirCount at hlt ⊢
    rwa [h.dirs, ← hcnt]

theorem Steady.sameOpen (h : Steady k k') : SameOpen k k' := by
  refine ⟨fun b => ?_, h.dirs⟩
  have heq := congrArg (Option.map fun x : ℕ × ℤ × Bool × ℤ => (x.1, x.2.1)) (h.inodes b)
  rwa [Option.map_map, Option.map_map] at heq

theorem Fs.Reads.sameOpen (h : k.Reads k') : SameOpen k k' := by
  obtain ⟨B, -, rfl⟩ := h
  exact ⟨fun _ => rfl, rfl⟩

theorem SameOpen.dropped (h : SameOpen k k₁) (hd : Dropped k₁ a k') (hi : k.inodes.cell a = some i) : Dropped k a k' := by
  obtain ⟨j, hj, hsec, hcnt⟩ := h.cell hi
  refine ⟨fun b hb => (hd.other b hb).trans (h.inodes b), fun i' hi' => ?_, hd.dirs.trans h.dirs⟩
  rw [hi] at hi'
  cases hi'
  rw [hd.self j hj, hsec, hcnt]

theorem Closes.dropped (h : Closes k N a i k' N') (hi : k.inodes.cell a = some i) : Dropped k a k' := by
  refine ⟨fun b hb => by rw [h.cell_of_ne hb], fun j hj => ?_, h.dirs⟩
  rw [hi] at hj
  cases hj
  rw [h.cell_self hi]
  split_ifs
  · rfl
  · rfl

/-- **`dir_close`** takes no inode out of memory. -/
theorem dirClose_retains (h : Tree k N H) (hd : k.dirs.cell p = some d) (hi : k.inodes.cell d.inode = some i) (hs : k.Spared) :
    wp (dirClose p) (fun _ k' => Retains k k') (fun _ => False) k := by
  have hspare := hs _ i hi
  have hcount := Fs.dirCount_free hd d.inode
  rw [if_pos rfl] at hcount
  have hmore : i.openCnt ≠ 1 := by omega
  rw [dirClose, wp_bind, onlyIf, if_pos (k.dirs.ne_null hd), wp_bind]
  refine wp_dirAt hd ?_
  refine wp_seq (inodeClose_more hi hmore) (fun _ => False.elim) ?_
  rintro - k₁ rfl
  rw [wp_modify, wp_bind]
  refine wp_post (dirOpenRoot_tree ((h.openers hi (by omega)).freeDir p)) ?_
  rintro q k' ⟨hl, -, -⟩
  refine Retains.trans ⟨fun a j hj => ?_, fun _ a j hj => ?_⟩ hl.holding.retains
  · refine ⟨_, k.inodes.cell_set _ hj, ?_⟩
    split_ifs
    · rfl
    · rfl
  · obtain ⟨x, hx, hjx⟩ := k.inodes.cell_of_set hj
    have hother := Fs.dirCount_free hd a
    have hlt := hs a x hx
    change ((k.dirs.free p).count (fun e => e.inode == a) : ℤ) < j.openCnt
    rw [hjx]
    split_ifs at hother ⊢
    · dsimp only
      omega
    · omega

/-- An inode was opened, and was closed again. -/
theorem Opens.dropped (h : Opens k s a k₁) (hd : Dropped k₁ a k') (hpos : ∀ i, k.inodes.cell a = some i → 0 < i.openCnt) :
    SameOpen k k' := by
  refine ⟨fun b => ?_, hd.dirs.trans h.dirs⟩
  by_cases hb : b = a
  · subst hb
    obtain ⟨j, hj, -, ⟨i, hi, rfl⟩ | ⟨hnone, hone, -⟩⟩ := h.cell_self
    · have := hpos i hi
      rw [hd.self _ hj, if_neg (by dsimp only; omega), hi]
      simp [Inode.opening]
    · rw [hd.self j hj, if_pos hone, hnone]
      rfl
  · rw [hd.other b hb, h.cell_of_ne hb]

/-! ### Counting -/

/-- How many of the first `n` entries are in use. -/
def usedBelow (B : Buffers) (nd : Node) (n : ℕ) : ℕ := ((Finset.range n).filter fun j => (slotAt B nd j).inUse = true).card

theorem usedBelow_succ (B : Buffers) (nd : Node) (n : ℕ) :
    usedBelow B nd (n + 1) = if (slotAt B nd n).inUse = true then usedBelow B nd n + 1 else usedBelow B nd n := by
  unfold usedBelow
  rw [Finset.range_add_one, Finset.filter_insert]
  split_ifs
  · exact Finset.card_insert_of_notMem (by simp)
  · rfl

/-- How many names a directory binds. -/
noncomputable def entryCount (B : Buffers) (nd : Node) : ℕ := (Slots.used nd.slots fun n => (slotAt B nd n).binding).card

theorem DirOk.usedBelow_slots {B : Buffers} {m : CString → Option ℕ} (h : DirOk B nd m) : usedBelow B nd nd.slots = entryCount B nd := by
  unfold usedBelow entryCount Slots.used
  refine congrArg Finset.card (Finset.filter_congr fun j hj => ?_)
  have hiff := h.inUse_iff (Finset.mem_range.1 hj)
  rw [← not_iff_not, Bool.not_eq_true, hiff, Bool.not_eq_true, Option.isSome_eq_false_iff, Option.isNone_iff_eq_none]

/-- The loop over the entries counts those in use. -/
theorem countEntries_exact {fuel : ℕ} (hw : Wf k N 0) (hi : k.inodes.cell a = some i) (hN : N i.sector = some nd)
    (hal : 24 ∣ nd.length) (hn : n ≤ nd.slots) (hfuel : nd.slots < n + fuel) :
    wp (countEntries a fuel (24 * n) (usedBelow k.buffers nd n))
      (fun r k' => r = usedBelow k.buffers nd nd.slots ∧ k.Reads k') (Unless (nd.Clear k)) k := by
  induction fuel generalizing k n with
  | zero => omega
  | succ fuel ih =>
    rw [countEntries]
    by_cases hend : n = nd.slots
    · subst hend
      refine wp_seq (readEntry_end hw hi hN hal) (fun _ he => he) ?_
      rintro _ k₁ ⟨rfl, hk₁⟩
      exact ⟨rfl, hk₁⟩
    · refine wp_seq (readEntry_spec hw hi hN (n := n) (by omega)) (fun _ he => he) ?_
      rintro _ k₁ ⟨rfl, hk₁⟩
      obtain ⟨B, hB, rfl⟩ := id hk₁
      have hslot := slotAt_keeps hB nd
      have hused : ∀ m, usedBelow B nd m = usedBelow k.buffers nd m := fun m => by
        unfold usedBelow
        simp only [hslot]
      have hnext := ih (n := n + 1) (hw.keeps hB) hi (by omega) (by omega)
      dsimp only at hnext ⊢
      rw [if_pos rfl, ← usedBelow_succ]
      rw [hused, hused] at hnext
      refine wp_mono hnext (fun r k' hr => ⟨hr.1, hk₁.trans hr.2⟩) ?_
      exact Unless.mono hk₁.clear

/-- **`dir_remove` counts** the names that the directory to be removed binds. -/
theorem countDir_exact {m : CString → Option ℕ} (hw : Wf k N 0) (hi : k.inodes.cell a = some i) (hN : N i.sector = some nd)
    (hok : DirOk k.buffers nd m) :
    wp (countDir a) (fun r k' => r = entryCount k.buffers nd ∧ k.Reads k') (Unless (nd.Clear k)) k := by
  have hloop : wp (countEntries a (nd.slots + 1) (24 * 0) (usedBelow k.buffers nd 0)) _ _ k :=
    countEntries_exact hw hi hN hok.aligned (Nat.zero_le _) (by omega)
  rw [hok.usedBelow_slots] at hloop
  rw [countDir, wp_bind, inodeLength, wp_bind]
  refine wp_inodeAt hi ?_
  rw [wp_pure, (hw.repr hi hN).length]
  exact hloop

/-! ### Removing -/

/-- **A file less**: the name `nm` of the directory in sector `s` is bound to nothing, and the file in sector `t` is marked
removed, or there no more. No other file is removed or changes, but for the directory itself; nor does the file, if it is
there. -/
structure FileRemoved (k : Fs) (N : Nodes) (H : Bindings) (s : ℕ) (nm : CString) (t : ℕ) (k' : Fs) (N' : Nodes) : Prop where
  tree : Tree k' N' (H.unbind s nm)
  gone : N' t = none ∨ Removed k' t
  kind : ∀ u, u ≠ t ∨ N' u ≠ none → N'.kind u = N.kind u
  other : ∀ u nd, N u = some nd → u ≠ s → u ≠ t ∨ N' u ≠ none → N' u = some nd ∧
    (u ≠ 0 → ∀ j < 512 * nd.blocks.length, byteAt k'.buffers nd j = byteAt k.buffers nd j)
  removed : ∀ u ≠ t, Removed k' u ↔ Removed k u

/-- The file in sector `t` is a directory that binds more than two names. -/
def Crowded (k : Fs) (N : Nodes) (t : ℕ) : Prop := ∃ nd, N t = some nd ∧ nd.isdir = true ∧ 2 < entryCount k.buffers nd

/-- **What `dir_remove` returns**: true, and a file less, which is still there if anyone has it open; or false, because the name
is not bound or is that of a directory that binds more than two names. -/
def RemoveResult (k : Fs) (N : Nodes) (H : Bindings) (s : ℕ) (nm : CString) (r : Bool) (k' : Fs) : Prop :=
  (r = true ∧ ∃ t N', H s nm = some t ∧ ¬ Crowded k N t ∧ FileRemoved k N H s nm t k' N' ∧
      ((∃ a i, k.inodes.cell a = some i ∧ i.sector = t) → N' t ≠ none)) ∨
    r = false ∧ (∀ t, H s nm = some t → Crowded k N t) ∧ Tree k' N H ∧ SameData k k' ∧ ∀ u, Removed k' u ↔ Removed k u

/-- The entry is erased, and then the file is removed and closed. -/
theorem Tree.removeEnd {j : Inode} (h : Tree k N H) (hi : k.inodes.cell d.inode = some i) (hN : N i.sector = some nd)
    (hdir : nd.isdir = true) (hn : n < nd.slots) (hbind : (slotAt k.buffers nd n).binding = some (nm, j.sector))
    (hj : k.inodes.cell a = some j) (h2 : 2 ≤ j.sector) (hne : j.sector ≠ i.sector) (hdeny : i.denyWriteCnt = 0) :
    wp (do
        let written ← inodeWriteAt persistFreeMap d.inode (fun b => (slotAt k.buffers nd n).erase (Fin.ofNat entrySize b))
          entrySize (24 * n : ℕ)
        if written = entrySize then do
          inodeRemove a
          inodeClose a
          pure true
        else do
          inodeClose a
          pure false)
      (fun r k' => Dropped k a k' ∧ r = true ∧
        ∃ N', FileRemoved k N H i.sector nm j.sector k' N' ∧ (j.openCnt ≠ 1 → N' j.sector ≠ none))
      (Unless (nd.Clear k ∧ MapClear k N)) k := by
  have hs := h.ne_zero hN hdir
  have hok := h.ok _ nd hN hdir
  have hlt : 24 * n + 24 ≤ nd.length := by
    unfold Node.slots at hn
    omega
  have hwrite : wp (inodeWriteAt persistFreeMap d.inode (fun b => (slotAt k.buffers nd n).erase (Fin.ofNat entrySize b))
      entrySize (24 * n : ℕ)) _ _ k := writeEntry_spec h.wf h.map hi hN hs hdeny (by omega)
  refine wp_seq hwrite (Unless.mono fun hclear => ?_) ?_
  · refine ⟨fun b _ _ hb => hclear.1 _ ?_, fun hlong => absurd hlong (by omega)⟩
    rw [List.getD_eq_getElem _ _ hb]
    exact List.getElem_mem hb
  rintro w k₁ ⟨rfl, new, nd', he, hf⟩
  have hok₁ := hf.erase hok hn hbind DirEntry.inUse_erase
  have h₁ : Tree k₁ (Function.update N i.sector (some nd')) (H.unbind i.sector nm) := by
    refine h.edited he hs (fun nd₀ hN₀ => ?_) (fun u hu => ?_) fun _ => ?_
    · rw [hN] at hN₀
      cases hN₀
      rfl
    · rw [Bindings.unbind, Function.update_of_ne hu]
    · rw [Bindings.unbind, Function.update_self]
      exact hok₁
  obtain ⟨dj, hj₁⟩ := he.steady.cell hj
  rw [if_pos rfl]
  refine wp_seq (inodeRemove_spec hj₁) (fun _ => False.elim) ?_
  rintro - _ rfl
  -- the file is marked
  obtain ⟨k₂, hk₂⟩ : ∃ k₂ : Fs, k₂ = { k₁ with inodes := k₁.inodes.set a fun i => { i with removed := true } } := ⟨_, rfl⟩
  have h₂ : Tree k₂ (Function.update N i.sector (some nd')) (H.unbind i.sector nm) := by
    rw [hk₂]
    exact h₁.setInode (fun _ => ⟨rfl, rfl, rfl⟩) fun i hi => h₁.pos a i hi
  have hj₂ : k₂.inodes.cell a = some { j with data := dj, removed := true } := by
    rw [hk₂]
    dsimp only
    rw [Heap.cell_set_self, hj₁]
    rfl
  have hmarked : ∀ u ≠ j.sector, Removed k₂ u ↔ Removed k u := by
    intro u hu
    rw [← he.steady.holding.removed_iff]
    constructor
    · rintro ⟨b, x, hx, hsec, hrem⟩
      rw [hk₂] at hx
      obtain ⟨y, hy, rfl⟩ := k₁.inodes.cell_of_set hx
      split_ifs at hsec hrem with hb
      · subst hb
        rw [hj₁] at hy
        cases hy
        exact absurd hsec.symm hu
      · exact ⟨b, y, hy, hsec, hrem⟩
    · rintro ⟨b, x, hx, hsec, hrem⟩
      have hb : b ≠ a := by
        rintro rfl
        rw [hj₁] at hx
        cases hx
        exact hu hsec.symm
      refine ⟨b, x, ?_, hsec, hrem⟩
      rw [hk₂]
      exact (k₁.inodes.cell_set_of_ne _ hb).trans hx
  rw [← hk₂]
  refine wp_seq (inodeClose_closes h₂.wf h₂.map hj₂ fun _ => h2) (Unless.mono fun hclear b hb => ?_) ?_
  · rw [mapBlocks, Function.update_of_ne (Ne.symm hs)] at hb
    rw [hk₂]
    change b + 1 < k₁.buffers.disk.capacity
    rw [he.capacity]
    exact hclear.2 b hb
  rintro - k' ⟨N', hc⟩
  have hN' : ∀ u, u ≠ j.sector ∨ N' u ≠ none → N' u = Function.update N i.sector (some nd') u := by
    intro u hu
    have hnodes := hc.nodes (s := u)
    split_ifs at hnodes with hcond
    · rcases hu with hu | hu
      · exact absurd hcond.1 hu
      · exact absurd hnodes hu
    · exact hnodes
  have hmark : SameOpen k₁ k₂ := by
    refine ⟨fun b => ?_, by rw [hk₂]⟩
    by_cases hb : b = a
    · subst hb
      rw [hj₂, hj₁]
      rfl
    · rw [hk₂]
      exact congrArg (Option.map Inode.opening) (k₁.inodes.cell_set_of_ne _ hb)
  refine ⟨(he.steady.sameOpen.trans hmark).dropped (hc.dropped hj₂) hj, rfl, N', ⟨h₂.closes hc hj₂ (by dsimp only; omega) fun _ => h2,
    ?_, fun u hu => ?_, fun u ndu hNu hus hu => ?_, fun u hu => ?_⟩, fun hopen hnone => ?_⟩
  · by_cases hone : j.openCnt = 1
    · left
      rw [hc.nodes, if_pos ⟨rfl, hone, rfl⟩]
    · right
      have hcell := hc.cell_self hj₂
      rw [if_neg hone] at hcell
      exact ⟨a, _, hcell, rfl, rfl⟩
  · rw [Nodes.kind, hN' u hu]
    exact congrFun (Nodes.kind_update_self hN he.isdir) u
  · refine ⟨by rw [hN' u hu, Function.update_of_ne hus]; exact hNu, fun h0 b hb => ?_⟩
    have hNu' : Function.update N i.sector (some nd') u = some ndu := by rw [Function.update_of_ne hus]; exact hNu
    rw [hc.bytes h₂.wf hNu' h0 hb, hk₂]
    exact he.other u ndu hNu hus (.inl h0) b hb
  · rw [← hmarked u hu, hc.removed_iff hj₂ fun heq => absurd heq hu]
  · rw [hc.nodes, if_neg (fun hcond => hopen hcond.2.1), Function.update_of_ne hne] at hnone
    obtain ⟨ndj, hNj, -⟩ := h.node hj
    rw [hnone] at hNj
    cases hNj

theorem FileRemoved.sameData (h : FileRemoved k₁ N H s nm t k' N') (hs : SameData k k₁) (hrem : ∀ u, Removed k₁ u ↔ Removed k u) :
    FileRemoved k N H s nm t k' N' := by
  refine ⟨h.tree, h.gone, h.kind, fun u nd hN hus hu => ⟨(h.other u nd hN hus hu).1, fun h0 j hj => ?_⟩, fun u hu => ?_⟩
  · rw [(h.other u nd hN hus hu).2 h0 j hj, byteAt_keeps hs.keeps]
  · rw [h.removed u hu, hrem]

theorem RemoveRoom.of_capacity {target : Option ℕ} (h : RemoveRoom k N nd target)
    (hcap : k'.buffers.disk.capacity = k.buffers.disk.capacity) : RemoveRoom k' N nd target := by
  refine ⟨fun b hb => ?_, fun b hb => ?_, fun t ndt ht hN hdir b hb => ?_⟩
  · rw [hcap]
    exact h.clear b hb
  · rw [hcap]
    exact h.map b hb
  · rw [hcap]
    exact h.target t ndt ht hN hdir b hb

/-- **`dir_remove`** of a name that is bound neither to the root directory nor to the directory itself, and what stays open. -/
theorem dirRemove_tree (h : Tree k N H) (hl : Linked N H) (hp : k.DirOf p i)
    (htarget : ∀ t, H i.sector nm = some t → 2 ≤ t ∧ t ≠ i.sector) :
    wp (dirRemove p (some nm)) (fun r k' => SameOpen k k' ∧ RemoveResult k N H i.sector nm r k')
      (Unless (∃ nd, N i.sector = some nd ∧ RemoveRoom k N nd (H i.sector nm))) k := by
  obtain ⟨nd, hN, hdir⟩ := h.dirOf_node hp
  obtain ⟨d, hd, hi⟩ := hp
  have hok := h.ok _ nd hN hdir
  have hroom : ∀ {P : Prop}, (RemoveRoom k N nd (H i.sector nm) → P) →
      (∃ nd, N i.sector = some nd ∧ RemoveRoom k N nd (H i.sector nm)) → P := by
    rintro P hP ⟨nd', hN', hroom⟩
    rw [hN] at hN'
    cases hN'
    exact hP hroom
  rw [dirRemove, wp_bind]
  refine wp_dirAt hd ?_
  rw [wp_bind, wp_orStop_some]
  refine wp_seq (lookup_spec h.wf hi hN hok.aligned) (Unless.mono (hroom RemoveRoom.clear)) ?_
  rintro _ k₁ ⟨⟨n, t, hn, hbind, rfl⟩ | ⟨rfl, hno⟩, hread₁⟩
  swap
  · rw [wp_pure]
    refine ⟨hread₁.sameOpen, .inr ⟨rfl, fun t ht => ?_, h.reads hread₁, hread₁.sameData, fun u => hread₁.holding.removed_iff⟩⟩
    rw [hok.rep.eq_none_iff.2 hno] at ht
    cases ht
  have hbound : H i.sector nm = some t := (hok.rep.binds nm t).2 ⟨n, hn, hbind⟩
  obtain ⟨h2, hts⟩ := htarget t hbound
  obtain ⟨ndt, hNt⟩ := hl _ nd hN hdir nm t hbound
  obtain ⟨-, -, hsec⟩ := DirEntry.binding_eq_some_iff.1 hbind
  have hl₁ := h.looked_reads hread₁
  dsimp only
  rw [hsec]
  refine wp_seq (inodeOpen_opens hl₁.tree.wf hNt) (fun _ => False.elim) ?_
  intro a k₂ ho
  have hl₂ := hl₁.trans (hl₁.tree.looked_opens ho hNt)
  obtain ⟨j, hj, rfl, hjcases⟩ := ho.cell_self
  rw [wp_bind]
  refine wp_inodeAt hj ?_
  have hdirs₂ : k₂.inodes.cell d.inode = some i := by
    have ha : d.inode ≠ a := by
      rintro heq
      have hcell := ho.cell ((hread₁.cell d.inode).trans hi)
      rw [heq, hj] at hcell
      cases hcell
      exact hts rfl
    rw [ho.cell_of_ne ha, hread₁.cell]
    exact hi
  -- counting the entries of a directory changes nothing
  have hrest : ∀ (many : ℕ) k₃, k₂.Reads k₃ → (j.data.isdir = true ∧ 3 ≤ many ↔ Crowded k N j.sector) → wp
      (if j.data.isdir = true ∧ 3 ≤ many then do
        inodeClose a
        pure false
      else do
        let written ← inodeWriteAt persistFreeMap d.inode (fun b => (slotAt k.buffers nd n).erase (Fin.ofNat entrySize b))
          entrySize (24 * n : ℕ)
        if written = entrySize then do
          inodeRemove a
          inodeClose a
          pure true
        else do
          inodeClose a
          pure false)
      (fun r k' => SameOpen k k' ∧ RemoveResult k N H i.sector nm r k')
      (Unless (∃ nd, N i.sector = some nd ∧ RemoveRoom k N nd (H i.sector nm))) k₃ := by
    intro many k₃ hread₃ hcrowd
    have hopen : ∀ k', Dropped k₃ a k' → SameOpen k k' := fun k' hdrop =>
      hread₁.sameOpen.trans (ho.dropped (hread₃.sameOpen.dropped hdrop hj) fun i hi => hl₁.tree.pos a i hi)
    have hl₃ := hl₂.trans (hl₂.tree.looked_reads hread₃)
    have hj₃ : k₃.inodes.cell a = some j := (hread₃.cell a).trans hj
    have hi₃ : k₃.inodes.cell d.inode = some i := (hread₃.cell d.inode).trans hdirs₂
    have hmap : RemoveRoom k N nd (H i.sector nm) → MapClear k₃ N := fun hroom b hb => by
      rw [hl₃.capacity]
      exact hroom.map b hb
    rw [wp_ite]
    refine ⟨fun hmany => ?_, fun hfew => ?_⟩
    · -- the file was opened, and is closed again
      refine wp_seq (inodeClose_closes hl₃.tree.wf hl₃.tree.map hj₃ fun _ => h2) (Unless.mono (hroom hmap)) ?_
      rintro - k' ⟨N', hc⟩
      have hopened : j.openCnt = 1 → j.removed = false := by
        intro hone
        rcases hjcases with ⟨j₀, hj₀, rfl⟩ | ⟨-, -, hkept, -⟩
        · have := hl₁.tree.pos a j₀ hj₀
          dsimp only at hone
          omega
        · exact hkept
      obtain ⟨rfl, hsame⟩ := hc.kept hl₃.tree.wf.cache hopened
      refine ⟨hopen k' (hc.dropped hj₃), .inr ⟨rfl, fun t ht => ?_, hl₃.tree.closes hc hj₃ (by omega) fun _ => h2,
        hl₃.data.trans hsame, fun u => ?_⟩⟩
      · rw [hbound] at ht
        cases ht
        exact hcrowd.1 hmany
      · rw [hc.removed_iff hj₃ fun _ => hopened, hl₃.holding.removed_iff]
    · have hslot : ∀ n < nd.slots, slotAt k₃.buffers nd n = slotAt k.buffers nd n := fun n hn =>
        slotAt_keeps hl₃.data.keeps nd n
      have hend := hl₃.tree.removeEnd hi₃ hN hdir hn ((congrArg DirEntry.binding (hslot n hn)).trans hbind) hj₃ h2 hts
        (h.deny _ i hi (h.dirs p d i hd hi))
      rw [hslot n hn] at hend
      refine wp_mono hend ?_ (Unless.mono (hroom fun hroom => ⟨fun b hb => ?_, hmap hroom⟩))
      · rintro r k' ⟨hdrop, rfl, N', hfr, hstays⟩
        refine ⟨hopen k' hdrop, .inl ⟨rfl, j.sector, N', hbound, fun hc => hfew (hcrowd.2 hc),
          hfr.sameData hl₃.data fun u => hl₃.holding.removed_iff, ?_⟩⟩
        rintro ⟨b, x, hx, hxsec⟩
        refine hstays fun hone => ?_
        -- it was in memory
        rcases hjcases with ⟨j₀, hj₀, rfl⟩ | ⟨hnone, -⟩
        · have := hl₁.tree.pos a j₀ hj₀
          dsimp only at hone
          omega
        · have hx₁ : k₁.inodes.cell b = some x := (hread₁.cell b).trans hx
          have hab : b = a := hl₂.tree.wf.opened.unique b _ a j (ho.cell hx₁) hj hxsec
          rw [← hab, hx₁] at hnone
          cases hnone
      · rw [hl₃.capacity]
        exact hroom.clear b hb
  have hisdir : ndt.isdir = j.data.isdir := by
    obtain ⟨nd', hN', hdir'⟩ := hl₂.tree.node hj
    rw [hNt] at hN'
    cases hN'
    exact hdir'
  have hcrowded : ∀ many, many = entryCount k₂.buffers ndt → (j.data.isdir = true ∧ 3 ≤ many ↔ Crowded k N j.sector) := by
    rintro many rfl
    have hcount : entryCount k₂.buffers ndt = entryCount k.buffers ndt := by
      unfold entryCount
      simp only [slotAt_keeps hl₂.data.keeps ndt]
    rw [hcount, ← hisdir]
    constructor
    · exact fun hd => ⟨ndt, hNt, hd⟩
    · rintro ⟨nd', hN', hd, hmany⟩
      rw [hNt] at hN'
      cases hN'
      exact ⟨hd, hmany⟩
  rw [wp_ite]
  refine ⟨fun htrue => ?_, fun hfalse => ?_⟩
  · have hcount : wp (countDir a) _ _ k₂ :=
      countDir_exact hl₂.tree.wf hj hNt (hl₂.tree.ok _ ndt hNt (hisdir.trans htrue))
    refine wp_seq hcount (Unless.mono (hroom fun hroom b hb => ?_)) ?_
    · rw [hl₂.capacity]
      exact hroom.target _ ndt hbound hNt (hisdir.trans htrue) b hb
    · rintro many k₃ ⟨hmany, hread₃⟩
      exact hrest many k₃ hread₃ (hcrowded many hmany)
  · rw [wp_bind, wp_pure]
    refine hrest 0 k₂ (.refl hl₂.tree.wf.cache) ⟨fun hc => absurd hc.1 hfalse, ?_⟩
    rintro ⟨nd', hN', hd, -⟩
    rw [hNt] at hN'
    cases hN'
    exact absurd (hisdir.symm.trans hd) hfalse

theorem RemoveResult.looked {r : Bool} (h : RemoveResult k₁ N H s nm r k') (hl : Looked k N H k₁) : RemoveResult k N H s nm r k' := by
  have hrem : ∀ u, Removed k₁ u ↔ Removed k u := fun u => hl.holding.removed_iff
  have hcrowd : ∀ t, Crowded k₁ N t ↔ Crowded k N t := fun t => by
    unfold Crowded entryCount
    simp only [slotAt_keeps hl.data.keeps]
  rcases h with ⟨rfl, t, N', hbound, hfew, hfr, hstays⟩ | ⟨rfl, hwhy, htree, hsame, hrem'⟩
  · refine .inl ⟨rfl, t, N', hbound, by rwa [← hcrowd], hfr.sameData hl.data hrem, fun ⟨a, i, hi, hsec⟩ => ?_⟩
    obtain ⟨n, data, -, hi'⟩ := hl.holding.inode a i hi
    exact hstays ⟨a, _, hi', hsec⟩
  · exact .inr ⟨rfl, fun t ht => (hcrowd t).1 (hwhy t ht), htree, hl.data.trans hsame, fun u => (hrem' u).trans (hrem u)⟩

/-- **`filesys_remove`**, and what stays open. -/
theorem filesysRemove_tree (h : Tree k N H) (hl : Linked N H) (hc : k.Cwd s) (htarget : ∀ t, H s nm = some t → 2 ≤ t ∧ t ≠ s) :
    wp (filesysRemove (some nm))
      (fun r k' => Retains k k' ∧ (∀ q d, k.dirs.cell q = some d → k'.dirs.cell q = some d) ∧ k'.InMemory s ∧
        RemoveResult k N H s nm r k')
      (Unless (∃ nd, N s = some nd ∧ RemoveRoom k N nd (H s nm))) k := by
  rw [filesysRemove]
  refine wp_seq (dirMakesure_cwd h hc) (fun _ => False.elim) ?_
  rintro p k₁ ⟨hl₁, -, i, hp, rfl⟩
  refine wp_mono (dirRemove_tree hl₁.tree hl hp htarget) (fun r k' hr => ?_) (Unless.mono fun hall => ?_)
  · obtain ⟨d, -, hi⟩ := hp
    refine ⟨hl₁.holding.retains.trans hr.1.retains, fun q e he => ?_, hr.1.retains.inMemory ⟨_, i, hi, rfl⟩, hr.2.looked hl₁⟩
    rw [hr.1.dirs]
    exact hl₁.holding.dir q e he
  · obtain ⟨nd, hN, hroom⟩ := hall
    exact ⟨nd, hN, hroom.of_capacity hl₁.capacity⟩

end Pintos
