import Pintos.Filesys.DirSpec
import Pintos.Filesys.Ledger

/-!
# Runs over one directory

`dir_lookup` and `dir_remove` open the inode that a name is bound to, so they are
described in a sound file system in which the names are bound to inodes.

Along a run of `dir_add`, `dir_remove` and `dir_lookup` on one directory, its
entries represent the map that the same run makes of the empty one.
-/

namespace Pintos

open Library Library.Prog Library.Bytes

variable {k k' : Fs} {N N' : Nodes} {s a p : ℕ} {i : Inode} {nd : Node} {x : ℕ → ℕ} {nm : CString}
  {m : CString → Option ℕ} {d : Dir}

theorem Sound.reads (h : Sound k N x) (hr : k.Reads k') : Sound k' N x ∧ Still ∅ k N k' N := by
  obtain ⟨B, hB, rfl⟩ := hr
  refine ⟨⟨h.wf.keeps hB, h.map, h.root, ?_, h.removed⟩, .of_keeps hB rfl rfl (fun _ _ hr => hr) ⟨?_, le_rfl⟩⟩
  · exact ⟨h.counted.files, h.counted.dirs, h.counted.count, h.counted.pos, h.counted.fresh, h.counted.deny⟩
  · exact (Places.refl k).cell

/-! ### Looking up -/

/-- **`dir_lookup`** opens the inode that a name is bound to. -/
theorem dirLookup_spec (hw : Wf k N 0) (hd : k.dirs.cell p = some d) (hi : k.inodes.cell d.inode = some i)
    (hN : N i.sector = some nd) (hok : DirOk k.buffers nd m) (htarget : ∀ t, m nm = some t → ∃ ndt, N t = some ndt) :
    wp (dirLookup p (some nm))
      (fun b k' => m nm = none ∧ b = 0 ∧ k.Reads k' ∨ ∃ t k₁, m nm = some t ∧ k.Reads k₁ ∧ Opens k₁ t b k')
      (Unless (nd.Clear k)) k := by
  rw [dirLookup, wp_bind]
  refine wp_dirAt hd ?_
  rw [wp_bind, wp_orStop_some, wp_bind]
  refine wp_post (lookup_spec hw hi hN hok.aligned) ?_
  rintro _ k₁ ⟨⟨n, t, hn, hbind, rfl⟩ | ⟨rfl, hno⟩, hread⟩
  · have hbound : m nm = some t := (hok.rep.binds nm t).2 ⟨n, hn, hbind⟩
    obtain ⟨ndt, hNt⟩ := htarget t hbound
    obtain ⟨-, -, hsec⟩ := DirEntry.binding_eq_some_iff.1 hbind
    dsimp only
    rw [hsec]
    refine wp_mono (inodeOpen_opens (hread.wf hw) hNt) ?_ fun _ he => he.elim
    intro b k' ho
    exact .inr ⟨t, k₁, hbound, hread, ho⟩
  · rw [wp_pure]
    exact .inl ⟨hok.rep.eq_none_iff.2 hno, rfl, hread⟩

/-! ### Removing -/

/-- The loop that counts entries only reads. -/
theorem countEntries_spec {fuel pos many : ℕ} (hw : Wf k N 0) (hi : k.inodes.cell a = some i) (hN : N i.sector = some nd)
    (hpos : pos + 24 * fuel < 2 ^ 31) :
    wp (countEntries a fuel pos many) (fun _ k' => k.Reads k') (Unless (nd.Clear k)) k := by
  induction fuel generalizing k pos many with
  | zero =>
    rw [countEntries, wp_pure]
    exact .refl hw.cache
  | succ fuel ih =>
    have hread : wp (inodeReadAt persistFreeMap a entrySize pos) _ _ k :=
      inodeReadAt_spec hw hi hN (by decide : 24 < 2 ^ 31) (by omega)
    rw [countEntries, wp_bind, readEntry, wp_bind]
    refine wp_post hread ?_
    rintro bytes k₁ ⟨-, hk₁⟩
    have hreads : k.Reads k₁ := hk₁
    rw [wp_pure]
    dsimp only
    rw [wp_ite]
    refine ⟨fun _ => ?_, fun _ => hreads⟩
    refine wp_mono (ih (hreads.wf hw) ((hreads.cell a).trans hi) ?_) (fun _ _ hk' => hreads.trans hk') ?_
    · unfold entrySize
      omega
    · exact Unless.mono hreads.clear

theorem countDir_spec (hw : Wf k N 0) (hi : k.inodes.cell a = some i) (hN : N i.sector = some nd) :
    wp (countDir a) (fun _ k' => k.Reads k') (Unless (nd.Clear k)) k := by
  have hr := hw.repr hi hN
  have hlen := hr.length_lt
  rw [countDir, wp_bind, inodeLength, wp_bind]
  refine wp_inodeAt hi ?_
  rw [wp_pure, hr.length]
  refine countEntries_spec hw hi hN ?_
  unfold entrySize
  omega

/-- Closing what `inode_open` has opened forgets no file. -/
theorem Opens.closes_eq {k₁ k₂ : Fs} {i₁ : Inode} (ho : Opens k s a k₁) (h : Counted k x) (hr : k₁.inodes.cell a = some i₁)
    (hc : Closes k₂ N a i₁ k' N') : N' = N := by
  obtain ⟨i', hi', -, ⟨j, hj, rfl⟩ | ⟨-, -, hnot, -⟩⟩ := ho.cell_self
  · rw [hr] at hi'
    cases hi'
    have hpos := h.pos a j hj
    funext t
    rw [hc.nodes, if_neg fun hcond => ?_]
    have h1 : j.openCnt + 1 = 1 := hcond.2.1
    omega
  · rw [hr] at hi'
    cases hi'
    funext t
    rw [hc.nodes, if_neg fun hcond => ?_]
    rw [hnot] at hcond
    cases hcond.2.2

/-- **When `dir_remove` returns**: the last sector is no block of the directory, of the free map's file or of the
directory to be removed. -/
structure RemoveRoom (k : Fs) (N : Nodes) (nd : Node) (target : Option ℕ) : Prop where
  clear : nd.Clear k
  map : MapClear k N
  target : ∀ t ndt, target = some t → N t = some ndt → ndt.isdir = true → ndt.Clear k

/-- A directory that has not changed represents the same map. -/
theorem Still.dirOk {S : Set ℕ} (h : Still S k N k' N') (hs : s ∉ S) (h0 : s ≠ 0) (hw : Wf k' N' 0) (hN' : N' s = some nd)
    (hok : DirOk k.buffers nd m) : DirOk k'.buffers nd m := by
  have hlen := (hw.laid.disk s nd hN').length_le
  refine hok.congr fun n hn => slotAt_congr fun j hj => h.bytes s nd hs hN' h0 _ ?_
  unfold Node.slots at hn
  omega

theorem Still.inodeRemove (hc : k.buffers.Wf) (hi : k.inodes.cell a = some i) :
    Still {i.sector} k N { k with inodes := k.inodes.set a fun i => { i with removed := true } } N := by
  have hback : ∀ b j, (k.inodes.set a fun i => { i with removed := true }).cell b = some j →
      ∃ j₀, k.inodes.cell b = some j₀ ∧ j₀.sector = j.sector ∧ (b = a ∨ j₀.removed = j.removed) := by
    intro b j hj
    by_cases hb : b = a
    · subst hb
      rw [Heap.cell_set_self] at hj
      obtain ⟨j₀, hj₀, rfl⟩ := Option.map_eq_some_iff.1 hj
      exact ⟨j₀, hj₀, rfl, .inl rfl⟩
    · rw [k.inodes.cell_set_of_ne _ hb] at hj
      exact ⟨j, hj, rfl, .inr rfl⟩
  refine .of_keeps (.refl hc) rfl rfl (fun t ht hr => ?_) ⟨fun b j hj _ => ?_, le_rfl⟩
  · obtain ⟨b, j, hj, rfl, hrem⟩ := hr
    obtain ⟨j₀, hj₀, hsec, rfl | hrem'⟩ := hback b j hj
    · rw [hi] at hj₀
      cases hj₀
      exact absurd hsec.symm ht
    · exact ⟨b, j₀, hj₀, hsec, hrem'.trans hrem⟩
  · obtain ⟨j₀, hj₀, hsec, -⟩ := hback b j hj
    exact ⟨j₀, hj₀, hsec⟩

/-- `k'` has the same files and directories open as `k`. -/
structure SameHandles (k k' : Fs) : Prop where
  files : k'.files = k.files
  dirs : k'.dirs = k.dirs
  currDir : k'.currDir = k.currDir

theorem SameHandles.trans {k'' : Fs} (h : SameHandles k k') (h' : SameHandles k' k'') : SameHandles k k'' :=
  ⟨h'.files.trans h.files, h'.dirs.trans h.dirs, h'.currDir.trans h.currDir⟩

theorem Fs.Reads.same (h : k.Reads k') : SameHandles k k' := by
  obtain ⟨B, -, rfl⟩ := h
  exact ⟨rfl, rfl, rfl⟩

/-- The second half of `dir_remove`: the entry is erased, and the inode removed and closed. -/
theorem removeEnd_spec {n t : ℕ} {j : Inode} (h : Sound k N x) (hi : k.inodes.cell d.inode = some i)
    (hN : N i.sector = some nd) (hs : i.sector ≠ 0) (hok : DirOk k.buffers nd m) (hn : n < nd.slots)
    (hbind : (slotAt k.buffers nd n).binding = some (nm, t)) (hj : k.inodes.cell a = some j) (h2 : 2 ≤ j.sector)
    (hx : 0 < x a) (hpin : j.sector = i.sector → j.openCnt ≠ 1) :
    wp (do
        let written ← inodeWriteAt persistFreeMap d.inode (fun b => (slotAt k.buffers nd n).erase (Fin.ofNat entrySize b))
          entrySize (24 * n : ℕ)
        if written = entrySize then do
          inodeRemove a
          inodeClose a
          pure true
        else do
          inodeClose a
          pure false)
      (fun ok k' => ok = true ∧ SameHandles k k' ∧ ∃ N' nd', Sound k' N' (Function.update x a (x a - 1)) ∧
        Still {i.sector, j.sector} k N k' N' ∧ N' i.sector = some nd' ∧ nd'.isdir = nd.isdir ∧
        DirOk k'.buffers nd' (Function.update m nm none))
      (Unless (nd.Clear k ∧ MapClear k N)) k := by
  have hlt : 24 * n + 24 ≤ nd.length := by
    unfold Node.slots at hn
    omega
  have hwrite : wp (inodeWriteAt persistFreeMap d.inode (fun b => (slotAt k.buffers nd n).erase (Fin.ofNat entrySize b))
      entrySize (24 * n : ℕ)) _ _ k :=
    writeEntry_spec h.wf h.map hi hN hs (h.counted.deny _ i hi) (by omega)
  refine wp_seq hwrite (Unless.mono fun hclear => ?_) ?_
  · refine ⟨fun b _ _ hb => hclear.1 _ ?_, fun hlong => absurd hlong (by omega)⟩
    rw [List.getD_eq_getElem _ _ hb]
    exact List.getElem_mem hb
  rintro w k₁ ⟨rfl, new, nd', he, hf⟩
  obtain ⟨hs₁, hstill₁⟩ := h.edited he hs
  have hok₁ := hf.erase hok hn hbind DirEntry.inUse_erase
  obtain ⟨dj, hj₁⟩ := he.steady.cell hj
  rw [if_pos rfl, wp_bind]
  refine wp_mono (inodeRemove_spec hj₁) ?_ fun _ hfalse => hfalse.elim
  rintro - k₂ rfl
  have hs₂ := hs₁.inodeRemove hj₁ h2
  have hstill₂ := Still.inodeRemove (N := Function.update N i.sector (some nd')) hs₁.wf.cache hj₁
  have hj₂ : (k₁.inodes.set a fun i => { i with removed := true }).cell a =
      some { j with data := dj, removed := true } := by
    rw [Heap.cell_set_self, hj₁]
    rfl
  rw [wp_bind]
  refine wp_mono (inodeClose_closes hs₂.wf hs₂.map hj₂ fun _ => h2) ?_ (Unless.mono fun hclear b hb => ?_)
  swap
  · rw [mapBlocks, Function.update_of_ne (Ne.symm hs)] at hb
    change b + 1 < k₁.buffers.disk.capacity
    rw [he.capacity]
    exact hclear.2 b hb
  rintro - k' ⟨N', hc⟩
  obtain ⟨hs', hstill'⟩ := hs₂.closes hc hj₂ hx
  have hN' : N' i.sector = some nd' := by
    rw [hc.nodes, if_neg fun hcond => hpin hcond.1.symm hcond.2.1]
    exact Function.update_self _ _ _
  rw [wp_pure]
  refine ⟨rfl, ⟨?_, ?_, ?_⟩, N', nd', hs', ?_, hN', he.isdir, hstill'.dirOk (Set.notMem_empty _) hs hs'.wf hN' hok₁⟩
  · exact hc.files.trans he.steady.files
  · exact hc.dirs.trans he.steady.dirs
  · exact hc.currDir.trans he.steady.currDir
  · refine ((hstill₁.mono ?_).trans (hstill₂.mono ?_)).trans (hstill'.mono (Set.empty_subset _))
    · exact Set.singleton_subset_iff.2 (Set.mem_insert _ _)
    · exact Set.singleton_subset_iff.2 (Set.mem_insert_of_mem _ rfl)

/-- **`dir_remove`** deletes a binding, or it fails and does nothing. -/
theorem dirRemove_spec (h : Sound k N x) (hd : k.dirs.cell p = some d) (hi : k.inodes.cell d.inode = some i)
    (hN : N i.sector = some nd) (hs : i.sector ≠ 0) (hok : DirOk k.buffers nd m)
    (htarget : ∀ t, m nm = some t → 2 ≤ t ∧ ∃ ndt, N t = some ndt) :
    wp (dirRemove p (some nm))
      (fun ok k' => SameHandles k k' ∧ (ok = false ∧ Sound k' N x ∧ Still ∅ k N k' N ∨
        ok = true ∧ ∃ t N' nd', m nm = some t ∧ Sound k' N' x ∧ Still {i.sector, t} k N k' N' ∧ N' i.sector = some nd' ∧
          nd'.isdir = nd.isdir ∧ DirOk k'.buffers nd' (Function.update m nm none)))
      (Unless (RemoveRoom k N nd (m nm))) k := by
  rw [dirRemove, wp_bind]
  refine wp_dirAt hd ?_
  rw [wp_bind, wp_orStop_some]
  refine wp_seq (lookup_spec h.wf hi hN hok.aligned) (Unless.mono RemoveRoom.clear) ?_
  rintro _ k₁ ⟨⟨n, t, hn, hbind, rfl⟩ | ⟨rfl, hno⟩, hread₁⟩
  swap
  · rw [wp_pure]
    exact ⟨hread₁.same, .inl ⟨rfl, h.reads hread₁⟩⟩
  have hbound : m nm = some t := (hok.rep.binds nm t).2 ⟨n, hn, hbind⟩
  obtain ⟨h2, ndt, hNt⟩ := htarget t hbound
  obtain ⟨-, -, hsec⟩ := DirEntry.binding_eq_some_iff.1 hbind
  obtain ⟨hs₁, hstill₁⟩ := h.reads hread₁
  dsimp only
  rw [hsec, wp_bind]
  refine wp_mono (inodeOpen_opens hs₁.wf hNt) ?_ fun _ he => he.elim
  intro a k₂ ho
  obtain ⟨hs₂, hstill₂⟩ := hs₁.opens ho hNt
  obtain ⟨j, hj, hjt, hjcases⟩ := ho.cell_self
  rw [wp_bind]
  refine wp_inodeAt hj ?_
  have hcount : wp (countDir a) (fun _ k' => k₂.Reads k') (Unless (ndt.Clear k₂)) k₂ := countDir_spec hs₂.wf hj (hjt ▸ hNt)
  -- counting the entries of a directory changes nothing
  have hrest : ∀ (many : ℕ) k₃, k₂.Reads k₃ → wp
      (if j.data.isdir = true ∧ 3 ≤ many then do
        inodeClose a
        pure false
      else do
        let written ← inodeWriteAt persistFreeMap d.inode (fun b => (slotAt k.buffers nd n).erase (Fin.ofNat entrySize b))
          entrySize (24 * n : ℕ)
        if written = entrySize then do
          inodeRemove a
          inodeClose a
          pure true
        else do
          inodeClose a
          pure false)
      (fun ok k' => SameHandles k k' ∧ (ok = false ∧ Sound k' N x ∧ Still ∅ k N k' N ∨
        ok = true ∧ ∃ t N' nd', m nm = some t ∧ Sound k' N' x ∧ Still {i.sector, t} k N k' N' ∧ N' i.sector = some nd' ∧
          nd'.isdir = nd.isdir ∧ DirOk k'.buffers nd' (Function.update m nm none)))
      (Unless (RemoveRoom k N nd (m nm))) k₃ := by
    intro many k₃ hread₃
    obtain ⟨hs₃, hstill₃⟩ := hs₂.reads hread₃
    have hj₃ : k₃.inodes.cell a = some j := (hread₃.cell a).trans hj
    have hstill : Still ∅ k N k₃ N := (hstill₁.trans hstill₂).trans hstill₃
    have hsame : SameHandles k k₃ := (hread₁.same.trans ⟨ho.files, ho.dirs, ho.currDir⟩).trans hread₃.same
    have hx : Function.update x a (x a + 1) a = x a + 1 := Function.update_self _ _ _
    have hback : Function.update (Function.update x a (x a + 1)) a (Function.update x a (x a + 1) a - 1) = x := by
      rw [hx, Nat.add_sub_cancel, Function.update_idem, Function.update_eq_self]
    have hmap : RemoveRoom k N nd (m nm) → MapClear k₃ N := fun hroom b hb => by
      rw [hstill.capacity]
      exact hroom.map b hb
    rw [wp_ite]
    refine ⟨fun hmany => ?_, fun hfew => ?_⟩
    · -- the directory to be removed is in use
      rw [wp_bind]
      refine wp_mono (inodeClose_closes hs₃.wf hs₃.map hj₃ fun _ => hjt ▸ h2) ?_ (Unless.mono hmap)
      rintro - k' ⟨N', hc⟩
      obtain rfl : N' = N := ho.closes_eq hs₁.counted hj hc
      obtain ⟨hs', hstill'⟩ := hs₃.closes hc hj₃ (by omega)
      rw [hback] at hs'
      rw [wp_pure]
      exact ⟨hsame.trans ⟨hc.files, hc.dirs, hc.currDir⟩, .inl ⟨rfl, hs', hstill.trans hstill'⟩⟩
    · have hi₃ : k₃.inodes.cell d.inode = some { i with openCnt := i.openCnt + if d.inode = a then 1 else 0 } := by
        rw [hread₃.cell]
        exact ho.cell ((hread₁.cell _).trans hi)
      have hslot : ∀ n < nd.slots, slotAt k₃.buffers nd n = slotAt k.buffers nd n := fun n hn =>
        slotAt_congr fun b hb => hstill.bytes i.sector nd (Set.notMem_empty _) hN hs _ (by
          have := (h.wf.repr hi hN).length_le
          unfold Node.slots at hn
          omega)
      have hpin : j.sector = i.sector → j.openCnt ≠ 1 := by
        intro hsec'
        have ha : a = d.inode := hs₃.wf.opened.unique a j d.inode _ hj₃ hi₃ hsec'
        have hi₁ : k₁.inodes.cell a = some i := by
          rw [ha, hread₁.cell]
          exact hi
        rcases hjcases with ⟨j₀, hj₀, rfl⟩ | ⟨hnone, -⟩
        · have := hs₁.counted.pos a j₀ hj₀
          change j₀.openCnt + 1 ≠ 1
          omega
        · rw [hi₁] at hnone
          cases hnone
      have hend := removeEnd_spec hs₃ hi₃ hN hs (hok.congr hslot) hn ((congrArg DirEntry.binding (hslot n hn)).trans hbind) hj₃
        (hjt ▸ h2) (by omega) hpin
      rw [hslot n hn] at hend
      refine wp_mono hend ?_ (Unless.mono fun hroom => ⟨fun b hb => ?_, hmap hroom⟩)
      · rintro ok k' ⟨rfl, hsame', N', nd', hs', hstill', hN', hdir', hok'⟩
        rw [hback] at hs'
        rw [hjt] at hstill'
        exact ⟨hsame.trans hsame', .inr ⟨rfl, t, N', nd', hbound, hs', (hstill.mono (Set.empty_subset _)).trans hstill', hN',
          hdir', hok'⟩⟩
      · rw [hstill.capacity]
        exact hroom.clear b hb
  rw [wp_ite]
  refine ⟨fun hdir => wp_seq hcount (Unless.mono fun hroom b hb => ?_) hrest, fun _ => ?_⟩
  · rw [hstill₂.capacity, hstill₁.capacity]
    refine hroom.target t ndt hbound hNt ?_ b hb
    rw [← (hs₂.wf.repr hj (hjt ▸ hNt)).isdir]
    exact hdir
  · rw [wp_bind, wp_pure]
    exact hrest 0 k₂ (.refl hs₂.wf.cache)

/-! ### A directory and its map -/

/-- **The open directory at `p` is the map `m`**: each entry in use has a name of 1 to 14 bytes and its terminator,
no name is in two entries, and `m` binds exactly the names of the entries in use, to their sectors. -/
def Directory (k : Fs) (p : ℕ) (m : CString → Option ℕ) : Prop :=
  ∃ N x d i nd, Sound k N x ∧ k.dirs.cell p = some d ∧ k.inodes.cell d.inode = some i ∧ i.sector ≠ 0 ∧
    N i.sector = some nd ∧ DirOk k.buffers nd m

/-- Two nodes of one inode have the same bytes. -/
theorem Repr.byteAt_eq {T : Heap Table} {B : Buffers} {e : InodeDisk} {nd' : Node} (h : Repr T e nd) (h' : Repr T e nd') {j : ℕ}
    (hj : j < nd.length) : byteAt B nd' j = byteAt B nd j := by
  have hlen : nd'.length = nd.length := by
    have := h.length
    have := h'.length
    omega
  have hlt := h.length_le
  have hblock := (h'.blockOf_eq (j := j / 512) (by rw [h'.card, hlen, ← h.card]; omega)).symm.trans
    (h.blockOf_eq (j := j / 512) (by omega))
  unfold byteAt
  rw [Option.some.inj hblock]

/-- The entries do not depend on how the files are described. -/
theorem DirOk.of_repr {T : Heap Table} {B : Buffers} {e : InodeDisk} {nd' : Node} (hok : DirOk B nd m) (h : Repr T e nd)
    (h' : Repr T e nd') : DirOk B nd' m := by
  have hlen : nd'.length = nd.length := by
    have := h.length
    have := h'.length
    omega
  have hslots : nd'.slots = nd.slots := by rw [Node.slots, hlen, Node.slots]
  have hslot : ∀ n < nd.slots, slotAt B nd' n = slotAt B nd n := fun n hn =>
    slotAt_congr fun b hb => h.byteAt_eq h' (by unfold Node.slots at hn; omega)
  refine ⟨by rw [hlen]; exact hok.aligned, fun n hn => ?_, ?_⟩
  · rw [hslots] at hn
    rw [hslot n hn]
    exact hok.named n hn
  · rw [hslots]
    exact hok.rep.congr fun n hn => by simp only [hslot n hn]

/-- The directory in a file system whose files are described by `N`. -/
theorem Directory.exists_node (h : Directory k p m) (hs : Sound k N x) :
    ∃ x d i nd, Sound k N x ∧ k.dirs.cell p = some d ∧ k.inodes.cell d.inode = some i ∧ i.sector ≠ 0 ∧
      N i.sector = some nd ∧ DirOk k.buffers nd m := by
  obtain ⟨N₀, x₀, d, i, nd₀, hs₀, hd, hi, h0, hN₀, hok⟩ := h
  obtain ⟨nd, hN, hr⟩ := hs.wf.opened.node _ i hi
  exact ⟨x, d, i, nd, hs, hd, hi, h0, hN, hok.of_repr (hs₀.wf.repr hi hN₀) hr⟩

/-! ### Creating a directory -/

/-- Sector `s` is marked and belongs to no file, as `free_map_allocate` leaves it. -/
def Unused (k : Fs) (s : ℕ) : Prop :=
  ∃ N x, Sound k N x ∧ N s = none ∧ s < k.buffers.disk.capacity ∧ k.freeMap.bit s = true ∧
    ∀ s' nd, N s' = some nd → s ∉ s' :: nd.blocks

/-- `dir_create` in sector `s`, and the new directory is opened. -/
def dirMake (s entryCnt : ℕ) : FsM ℕ := do
  let _ ← dirCreate s entryCnt
  let a ← inodeOpen s
  dirOpen a

/-- The entries of a new directory are free. -/
theorem DirOk.empty {B : Buffers} (hal : 24 ∣ nd.length) (hzero : ∀ j < nd.length, byteAt B nd j = 0) :
    DirOk B nd fun _ => none := by
  have hslot : ∀ n < nd.slots, slotAt B nd n = fun _ => 0 := by
    intro n hn
    funext b
    have hb : b.1 < 24 := b.2
    unfold Node.slots at hn
    exact hzero _ (by omega)
  refine ⟨hal, fun n hn huse => ?_, .empty fun n hn => ?_⟩
  · rw [hslot n hn] at huse
    cases huse
  · simp only [hslot n hn]
    exact DirEntry.binding_of_free rfl

/-- **A new directory is the empty map.** -/
theorem dirMake_spec {n : ℕ} (h : Unused k s) (hn : n * entrySize ≤ 512 * 512) :
    wp (dirMake s n) (fun p k' => Directory k' p fun _ => none) (fun _ => True) k := by
  obtain ⟨N, x, hs, hN, hcap, hbit, hfree⟩ := h
  have h0 : s ≠ 0 := by
    rintro rfl
    obtain ⟨-, -, nd₀, -, -, -, -, hN₀, -⟩ := hs.map
    rw [hN] at hN₀
    cases hN₀
  have hwrap : wrap (n * entrySize : ℕ) = ((n * entrySize : ℕ) : ℤ) := wrap_eq ⟨by omega, by omega⟩
  have hroom : Laid.Room k.buffers k.freeMap N s (.empty true) := by
    refine ⟨fun b hb => ?_, fun b hb => (by cases hb), List.nodup_singleton s, fun s' nd' hN' _ b hb => ?_,
      fun _ _ _ _ ht => absurd rfl ht⟩
    · rw [List.mem_singleton.1 hb]
      exact ⟨hcap, hbit⟩
    · rw [List.mem_singleton.1 hb]
      exact hfree s' nd' hN'
  rw [dirMake, wp_bind, dirCreate, hwrap]
  refine wp_mono (inodeCreate_spec hs.wf (fun _ => hs.map) hN hroom (by omega)) ?_ fun _ _ => trivial
  rintro ok k₁ ⟨-, -, new, nd, hc⟩
  obtain ⟨hs₁, -⟩ := hs.edited hc.edited h0
  have hself : Function.update N s (some nd) s = some nd := Function.update_self _ _ _
  have hok : DirOk k₁.buffers nd fun _ => none := by
    refine .empty ?_ hc.zero
    rw [hc.length, Int.toNat_natCast]
    exact Nat.dvd_mul_left _ _
  rw [wp_bind]
  refine wp_mono (inodeOpen_opens hs₁.wf hself) ?_ fun _ _ => trivial
  intro a k₂ ho
  obtain ⟨hs₂, hstill₂⟩ := hs₁.opens ho hself
  obtain ⟨i, hi, hsec, -⟩ := ho.cell_self
  refine wp_mono (dirOpen_spec hi) ?_ fun _ _ => trivial
  rintro p k₃ ⟨rfl, rfl⟩
  obtain ⟨hs₃, hstill₃⟩ := hs₂.enter hi
  have hi₃ : (k₂.enter a).inodes.cell a = some { i with openCnt := i.openCnt + 1 } := by simp [Fs.enter, Fs.openers, hi]
  subst hsec
  refine ⟨_, _, ⟨a, 0⟩, _, nd, hs₃, k₂.dirs.cell_alloc_self _, hi₃, h0, hself, ?_⟩
  exact (hstill₂.trans hstill₃).dirOk (Set.notMem_empty _) h0 hs₃.wf hself hok

/-! ### Runs -/

/-- The operations on a directory. -/
inductive DirOp where
  /-- `dir_add`. -/
  | add (name : CString) (sector : ℕ)
  /-- `dir_remove`. -/
  | remove (name : CString)
  /-- `dir_lookup`. -/
  | lookup (name : CString)

/-- An operation on the open directory at `p`; what it returns is `1` or `0`, and for `dir_lookup` the inode. -/
def DirOp.run (p : ℕ) : DirOp → FsM ℕ
  | .add nm t => do
    let ok ← dirAdd p (some nm) t
    pure ok.toNat
  | .remove nm => do
    let ok ← dirRemove p (some nm)
    pure ok.toNat
  | .lookup nm => dirLookup p (some nm)

/-- What an operation that has returned `r` does to a map. -/
def DirOp.apply (m : CString → Option ℕ) (r : ℕ) : DirOp → CString → Option ℕ
  | .add nm t => if r = 0 then m else Function.update m nm (some t)
  | .remove nm => if r = 0 then m else Function.update m nm none
  | .lookup _ => m

/-- **What an operation returns** for a map `m`, leaving the file system `k'`. -/
def DirOp.Answers (m : CString → Option ℕ) (r : ℕ) (k' : Fs) : DirOp → Prop
  | .add nm _ => r ≠ 0 ↔ ValidName nm ∧ m nm = none
  | .remove nm => r ≠ 0 → ∃ t, m nm = some t
  | .lookup nm => ∀ t, (∃ i, k'.inodes.cell r = some i ∧ i.sector = t) ↔ m nm = some t

/-- A directory and a map side by side: the map follows what the operations on the directory return. -/
def dirStep (p : ℕ) (op : DirOp) : Prog (Fs × (CString → Option ℕ)) Halt ℕ := do
  let r ← within Prod.fst (fun k s => (k, s.2)) (op.run p)
  modify fun s => (s.1, op.apply s.2 r)
  pure r

/-- `dir_add` to the directory with the inode `i` spares the disk's last sector: it is no block of the directory,
and if all entries are in use, so that the directory grows, neither its inode nor the free map's file is in the last
sector, and enough others are free. -/
structure AddSpared (k : Fs) (i : Inode) : Prop where
  blocks : SparesLast k i.data
  grow : ∀ nd, Repr k.tables i.data nd → Full k.buffers nd → nd.length + 48 ≤ 512 * 512 ∧
    i.sector + 1 < k.buffers.disk.capacity ∧ MapSpared k ∧
    sectorsFor (nd.length + 48) - nd.blocks.length ≤ k.freeMap.freeBelow (k.buffers.disk.capacity - 1) ∧
    (122 < sectorsFor (nd.length + 48) → k.tables.next < 2 ^ 32)

/-- **An operation spares the disk's last sector**, with the directory in 512 sectors and enough sectors free; and
the names that are looked up or removed are bound to inodes of files other than the free map's and the root
directory's. -/
def DirOp.Guard (p : ℕ) (op : DirOp) (s : Fs × (CString → Option ℕ)) : Prop :=
  ∀ d i, s.1.dirs.cell p = some d → s.1.inodes.cell d.inode = some i →
    match op with
    | .add _ t => t < 2 ^ 32 ∧ AddSpared s.1 i
    | .remove nm => SparesLast s.1 i.data ∧ MapSpared s.1 ∧ ∀ t, s.2 nm = some t →
        2 ≤ t ∧ IsInode s.1 t ∧ ((InodeDisk.decode (s.1.buffers.content t)).isdir = true →
          SparesLast s.1 (InodeDisk.decode (s.1.buffers.content t)))
    | .lookup nm => SparesLast s.1 i.data ∧ ∀ t, s.2 nm = some t → IsInode s.1 t

theorem AddSpared.room (h : AddSpared k i) (hs : Sound k N x) (hi : k.inodes.cell a = some i) (hN : N i.sector = some nd) :
    AddRoom k N i.sector nd := by
  have hr := hs.wf.repr hi hN
  refine ⟨h.blocks.clear hr, fun hfull => ?_⟩
  obtain ⟨hlong, hsec, hmap, hfree, htable⟩ := h.grow nd hr hfull
  exact ⟨hlong, hs.map.capacity_le hs.wf, hsec, fun _ => hmap.clear hs, hfree, fun hl _ => htable hl⟩

/-- The file system in which a name that is looked up is bound to an inode. -/
theorem Directory.exists_target (h : Directory k p m) (ht : ∀ t, m nm = some t → IsInode k t) :
    ∃ N x d i nd, Sound k N x ∧ k.dirs.cell p = some d ∧ k.inodes.cell d.inode = some i ∧ i.sector ≠ 0 ∧
      N i.sector = some nd ∧ DirOk k.buffers nd m ∧ ∀ t, m nm = some t → ∃ ndt, N t = some ndt := by
  cases hm : m nm with
  | none =>
    obtain ⟨N, x, d, i, nd, hs, hd, hi, h0, hN, hok⟩ := h
    exact ⟨N, x, d, i, nd, hs, hd, hi, h0, hN, hok, fun t ht => by cases ht⟩
  | some t =>
    obtain ⟨N, x₀, ndt, hs₀, hNt⟩ := ht t hm
    obtain ⟨x, d, i, nd, hs, hd, hi, h0, hN, hok⟩ := h.exists_node hs₀
    exact ⟨N, x, d, i, nd, hs, hd, hi, h0, hN, hok, fun t' ht' => ⟨ndt, by cases ht'; exact hNt⟩⟩

/-- The directory is still at its address. -/
theorem Directory.of_still {N' : Nodes} {x' : ℕ → ℕ} (hs : Sound k' N' x') (hd : k'.dirs.cell p = some d)
    (hi : k.inodes.cell d.inode = some i) (hp : Places k k') (h0 : i.sector ≠ 0) (hN : N' i.sector = some nd)
    (hok : DirOk k'.buffers nd m) : Directory k' p m := by
  obtain ⟨j, hj⟩ := hs.counted.dirs p d hd
  obtain ⟨i', hi', hsec⟩ := hp.cell _ j hj (k.inodes.lt_next hi)
  rw [hi] at hi'
  cases hi'
  rw [hsec] at h0 hN
  exact ⟨N', x', d, j, nd, hs, hd, hj, h0, hN, hok⟩

/-- **One operation** returns what the map answers, and then the directory is the map after it. -/
theorem DirOp.run_spec (op : DirOp) (h : Directory k p m) (hg : op.Guard p (k, m)) :
    wp (op.run p) (fun r k' => op.Answers m r k' ∧ Directory k' p (op.apply m r)) (fun _ => False) k := by
  cases op with
  | add nm t =>
    obtain ⟨N, x, d, i, nd, hs, hd, hi, h0, hN, hok⟩ := id h
    obtain ⟨ht, hspared⟩ := hg d i hd hi
    rw [DirOp.run, wp_bind]
    refine wp_mono (dirAdd_spec hs.wf hs.map hd hi hN h0 (hs.counted.deny _ i hi) hok ht) ?_
      fun _ he => he.elim (hspared.room hs hi hN)
    rintro _ k' (⟨rfl, hvalid, habsent, new, nd', he, hok', -⟩ | ⟨rfl, hnot, hread⟩)
    · obtain ⟨hs', hstill⟩ := hs.edited he h0
      have hd' : k'.dirs.cell p = some d := by rw [he.steady.dirs]; exact hd
      rw [wp_pure]
      exact ⟨⟨fun _ => ⟨hvalid, habsent⟩, fun _ => Nat.one_ne_zero⟩,
        .of_still hs' hd' hi hstill.places h0 (Function.update_self _ _ _) hok'⟩
    · obtain ⟨hs', hstill⟩ := hs.reads hread
      have hd' : k'.dirs.cell p = some d := by rw [hread.same.dirs]; exact hd
      rw [wp_pure]
      exact ⟨⟨fun hr => absurd rfl hr, fun hyes => absurd hyes hnot⟩,
        .of_still hs' hd' hi hstill.places h0 hN (hstill.dirOk (Set.notMem_empty _) h0 hs'.wf hN hok)⟩
  | remove nm =>
    have htarget : ∀ t, m nm = some t → IsInode k t := by
      obtain ⟨-, -, d, i, -, -, hd, hi, -⟩ := h
      exact fun t ht => ((hg d i hd hi).2.2 t ht).2.1
    obtain ⟨N, x, d, i, nd, hs, hd, hi, h0, hN, hok, hNt⟩ := h.exists_target htarget
    obtain ⟨hdir, hmap, hbound⟩ := hg d i hd hi
    rw [DirOp.run, wp_bind]
    refine wp_mono (dirRemove_spec hs hd hi hN h0 hok fun t ht => ⟨(hbound t ht).1, hNt t ht⟩) ?_ fun _ he => he.elim ?_
    · rintro _ k' ⟨hsame, ⟨rfl, hs', hstill⟩ | ⟨rfl, t, N', nd', hbind, hs', hstill, hN', -, hok'⟩⟩
      all_goals have hd' : k'.dirs.cell p = some d := by rw [hsame.dirs]; exact hd
      · rw [wp_pure]
        exact ⟨fun hr => absurd rfl hr,
          .of_still hs' hd' hi hstill.places h0 hN (hstill.dirOk (Set.notMem_empty _) h0 hs'.wf hN hok)⟩
      · rw [wp_pure]
        exact ⟨fun _ => ⟨t, hbind⟩, .of_still hs' hd' hi hstill.places h0 hN' hok'⟩
    · refine ⟨hdir.clear (hs.wf.repr hi hN), hmap.clear hs, fun t ndt ht hndt hisdir => ?_⟩
      have hr := (hs.wf.laid.disk t ndt hndt).toRepr
      exact ((hbound t ht).2.2 (hr.isdir.trans hisdir)).clear hr
  | lookup nm =>
    have htarget : ∀ t, m nm = some t → IsInode k t := by
      obtain ⟨-, -, d, i, -, -, hd, hi, -⟩ := h
      exact (hg d i hd hi).2
    obtain ⟨N, x, d, i, nd, hs, hd, hi, h0, hN, hok, hNt⟩ := h.exists_target htarget
    rw [DirOp.run]
    refine wp_mono (dirLookup_spec hs.wf hd hi hN hok hNt) ?_ fun _ he => he.elim ((hg d i hd hi).1.clear (hs.wf.repr hi hN))
    rintro r k' (⟨hnone, rfl, hread⟩ | ⟨t, k₁, hbind, hread, ho⟩)
    · obtain ⟨hs', hstill⟩ := hs.reads hread
      have hd' : k'.dirs.cell p = some d := by rw [hread.same.dirs]; exact hd
      refine ⟨fun t => ⟨fun ⟨i, hi, _⟩ => absurd rfl (k'.inodes.ne_null hi), fun ht => ?_⟩,
        .of_still hs' hd' hi hstill.places h0 hN (hstill.dirOk (Set.notMem_empty _) h0 hs'.wf hN hok)⟩
      rw [hnone] at ht
      cases ht
    · obtain ⟨hs₁, hstill₁⟩ := hs.reads hread
      obtain ⟨ndt, hndt⟩ := hNt t hbind
      obtain ⟨hs', hstill'⟩ := hs₁.opens ho hndt
      have hstill := hstill₁.trans hstill'
      have hd' : k'.dirs.cell p = some d := by rw [ho.dirs, hread.same.dirs]; exact hd
      obtain ⟨j, hj, hsec, -⟩ := ho.cell_self
      refine ⟨fun t' => ?_, .of_still hs' hd' hi hstill.places h0 hN (hstill.dirOk (Set.notMem_empty _) h0 hs'.wf hN hok)⟩
      rw [hbind, hj]
      exact ⟨fun ⟨i, hi, hsec'⟩ => by cases hi; rw [← hsec, hsec'], fun ht' => ⟨j, rfl, by cases ht'; exact hsec⟩⟩

theorem dirStep_spec (op : DirOp) {s : Fs × (CString → Option ℕ)} (h : Directory s.1 p s.2) (hg : op.Guard p s) :
    wp (dirStep p op) (fun r s' => op.Answers s.2 r s'.1 ∧ s'.2 = op.apply s.2 r ∧ Directory s'.1 p s'.2)
      (fun _ => False) s := by
  rw [dirStep, wp_bind, wp_within]
  refine wp_post (op.run_spec h hg) ?_
  rintro r k' ⟨hans, hdir⟩
  rw [wp_bind, wp_modify, wp_pure]
  exact ⟨hans, rfl, hdir⟩

/-- **Directories refine maps.** Along every run of operations on a new directory that spare the disk's last
sector, the directory is the map that the run makes of the empty one; and the next such operation returns, with
the answer of the map. -/
theorem directory_refines_map {t n : ℕ} {k₀ : Fs} {s : Fs × (CString → Option ℕ)} (ht : Unused k t)
    (hn : n * entrySize ≤ 512 * 512) (hmake : dirMake t n k = .ok (p, k₀))
    (hrun : Run (dirStep p) (DirOp.Guard p) (k₀, fun _ => none) s) :
    Directory s.1 p s.2 ∧ ∀ op : DirOp, op.Guard p s →
      ∃ r s', dirStep p op s = .ok (r, s') ∧ op.Answers s.2 r s'.1 ∧ s'.2 = op.apply s.2 r ∧ Directory s'.1 p s'.2 := by
  have hdir : Directory s.1 p s.2 := by
    refine hrun.invariant (I := fun s => Directory s.1 p s.2) (wp_of_ok (dirMake_spec ht hn) hmake) fun op u hu hg => ?_
    exact wp_mono (dirStep_spec op hu hg) (fun _ _ hpost => hpost.2.2) fun _ _ => trivial
  refine ⟨hdir, fun op hg => ?_⟩
  exact exists_ok (dirStep_spec op hdir hg)

namespace Sample

/-- The small file system with its first `n` sectors marked, and only the free map's file open. -/
def marked (n : ℕ) : Fs := { ledger.fs with freeMap := ⟨8, fun j => j < n⟩ }

/-- The name `a`. -/
def nameA : CString := ⟨[97], CString.noNul_a⟩

theorem marked_unused {n : ℕ} (hn : 5 ≤ n) : Unused (marked n) 3 := by
  have hs := ledger_sound
  have hlow : ∀ s nd, nodes s = some nd → ∀ b ∈ s :: nd.blocks, b < n ∧ b ≠ 3 := by
    intro s nd hN b hb
    rcases nodes_cases hN with ⟨rfl, rfl⟩ | ⟨rfl, rfl⟩ | ⟨rfl, rfl⟩
    all_goals
      simp at hb
      omega
  have hlaid : Laid ledger.fs.buffers ledger.fs.tables ⟨8, fun j => j < n⟩ nodes :=
    hs.wf.laid.of_map rfl ⟨decide_eq_true (by omega), decide_eq_true (by omega)⟩ fun s nd hN b hb _ =>
      decide_eq_true (hlow s nd hN b hb).1
  have hcounted : Counted (marked n) fun a => ledger.raw a + ledger.taken a :=
    ⟨hs.counted.files, hs.counted.dirs, hs.counted.count, hs.counted.pos, hs.counted.fresh, hs.counted.deny⟩
  refine ⟨nodes, _, ⟨⟨hs.wf.cache, hlaid, hs.wf.opened⟩, ?_, hs.root, hcounted, hs.removed⟩, rfl, ?_, ?_, ?_⟩
  · obtain ⟨f, i, nd, hf, hi, hsec, hdeny, hN, hle⟩ := hs.map
    exact ⟨f, i, nd, hf, hi, hsec, hdeny, hN, hle⟩
  · change 3 < 8
    decide
  · exact decide_eq_true (by omega)
  · intro s' nd hN hmem
    exact (hlow s' nd hN 3 hmem).2 rfl

/-- What is needed to know of the new directory: it is empty and in sector 3, the free map's file is in sector 2,
and a sector other than the last is free. -/
def madeCheck (p : ℕ) (k : Fs) : Bool :=
  ((k.dirs.cell p).bind fun d => k.inodes.cell d.inode).any (fun i => i.sector == 3 && i.data.length == 0) &&
    ((k.files.cell k.freeMapFile).bind fun f => k.inodes.cell f.inode).any
      (fun i => i.data.length == 4 && i.data.start 0 == 2) &&
    k.buffers.disk.capacity == 8 && decide (1 ≤ k.freeMap.freeBelow 7)

theorem made : ∃ p k, dirMake 3 0 (marked 5) = .ok (p, k) ∧ madeCheck p k = true := by
  have hrun : (match dirMake 3 0 (marked 5) with
    | .ok (p, k) => madeCheck p k
    | .error _ => false) = true := by decide +kernel
  cases hm : dirMake 3 0 (marked 5) with
  | error e =>
    rw [hm] at hrun
    cases hrun
  | ok r =>
    rw [hm] at hrun
    exact ⟨r.1, r.2, rfl, hrun⟩

/-- The first entry of the new directory can be added without the disk's last sector. -/
theorem made_guard {p : ℕ} {k : Fs} (h : madeCheck p k = true) : DirOp.Guard p (.add nameA 4) (k, fun _ => none) := by
  simp only [madeCheck, Bool.and_eq_true, beq_iff_eq, decide_eq_true_eq, Option.any_eq_true, Option.bind_eq_some_iff] at h
  obtain ⟨⟨⟨⟨i, ⟨d, hd, hi⟩, hsec, hlen⟩, j, ⟨f, hf, hj⟩, hlen', hstart⟩, hcap⟩, hfree⟩ := h
  intro d' i' hd' hi'
  dsimp only at hd' hi'
  rw [hd] at hd'
  cases hd'
  rw [hi] at hi'
  cases hi'
  refine ⟨by decide, fun n b hn _ => ?_, fun nd hr _ => ⟨?_, ?_, fun g l hg hl n b hn hb => ?_, ?_, ?_⟩⟩
  · rw [hlen] at hn
    cases hn
  · have := hr.length
    omega
  · dsimp only
    omega
  · dsimp only at hg hl
    rw [hf] at hg
    cases hg
    rw [hj] at hl
    cases hl
    have h1 : bytesToSectors 4 = 1 := by decide
    rw [blockOf, hlen', h1, if_pos (by decide)] at hb
    rw [hlen', h1, Nat.lt_one_iff] at hn
    subst hn
    rw [dif_pos (by decide), Option.some.injEq] at hb
    have h2 : b = 2 := hb.symm.trans hstart
    change b + 1 < k.buffers.disk.capacity
    omega
  · have hnd := hr.length
    have hle : sectorsFor (nd.length + 48) ≤ 1 := by
      unfold sectorsFor
      omega
    rw [show (k, fun _ => none).1 = k from rfl, hcap]
    exact (Nat.sub_le _ _).trans (hle.trans hfree)
  · intro hl
    have := hr.length
    unfold sectorsFor at hl
    omega

end Sample

/-- A binding is added to a new directory. -/
theorem directory_refines_map_add : ∃ p k r s, dirMake 3 0 (Sample.marked 5) = .ok (p, k) ∧
    dirStep p (.add Sample.nameA 4) (k, fun _ => none) = .ok (r, s) ∧ r ≠ 0 ∧
    Directory s.1 p (Function.update (fun _ => none) Sample.nameA (some 4)) := by
  obtain ⟨p, k, hmake, hcheck⟩ := Sample.made
  obtain ⟨-, hnext⟩ := directory_refines_map (Sample.marked_unused le_rfl) (by decide) hmake (.refl _)
  obtain ⟨r, s, hstep, hans, hmap, hdir⟩ := hnext _ (Sample.made_guard hcheck)
  have hr : r ≠ 0 := hans.2 ⟨by decide, rfl⟩
  rw [hmap, DirOp.apply, if_neg hr] at hdir
  exact ⟨p, k, r, s, hmake, hstep, hr, hdir⟩

/-- With one free sector left, the last of the disk, a name that is valid and not bound is not added. -/
theorem directory_add_last_sector : Unused (Sample.marked 7) 3 ∧ (Sample.marked 7).freeMap.freeBelow 8 = 1 ∧
    ValidName Sample.nameA ∧ ∃ p k, dirMake 3 0 (Sample.marked 7) = .ok (p, k) ∧ Directory k p (fun _ => none) ∧
      dirAdd p (some Sample.nameA) 4 k = .error .sectorOutOfRange := by
  refine ⟨Sample.marked_unused (by decide), by decide, by decide, ?_⟩
  have hrun : (match dirMake 3 0 (Sample.marked 7) with
    | .ok (p, k) => (match dirAdd p (some Sample.nameA) 4 k with
      | .ok _ => false
      | .error e => decide (e = .sectorOutOfRange))
    | .error _ => false) = true := by decide +kernel
  cases hm : dirMake 3 0 (Sample.marked 7) with
  | error e =>
    rw [hm] at hrun
    cases hrun
  | ok r =>
    rw [hm] at hrun
    refine ⟨r.1, r.2, rfl, wp_of_ok (dirMake_spec (Sample.marked_unused (by decide)) (by decide)) hm, ?_⟩
    dsimp only at hrun
    cases ha : dirAdd r.1 (some Sample.nameA) 4 r.2 with
    | ok _ =>
      rw [ha] at hrun
      cases hrun
    | error e =>
      rw [ha] at hrun
      rw [of_decide_eq_true hrun]

end Pintos
