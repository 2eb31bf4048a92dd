import Pintos.Filesys.Catalog

/-!
# Sectors and their owners

After a fresh format, callers create, open, write, remove and close files by their
names. In every state they reach, a sector has one owner and one place there: it
is the inode sector of one inode, or one block of one file, and it is marked in
the free map. No operation stops at an assertion of `free_map_release`.

The owners are read off the state: the inodes in memory, the root directory, and
what the entries in use of a directory name.
-/

namespace Pintos

open Library Library.Prog Library.Bytes

variable {k k' : Fs} {N : Nodes} {x : ℕ → ℕ} {m : CString → Option ℕ} {s p a n : ℕ} {i : Inode} {nd : Node} {nm : CString}

/-! ### Runs -/

/-- What callers do with files. -/
inductive FileOp where
  /-- `filesys_create`. -/
  | create (name : CString) (initialSize : ℤ)
  /-- `filesys_open`. -/
  | openName (name : CString)
  /-- `filesys_remove`. -/
  | remove (name : CString)
  /-- `file_write`. -/
  | write (p : ℕ) (buffer : ℕ → UInt8) (size : ℤ)
  /-- `file_write_at`. -/
  | writeAt (p : ℕ) (buffer : ℕ → UInt8) (size ofs : ℤ)
  /-- `file_close`. -/
  | close (p : ℕ)
  /-- `inode_close`. -/
  | closeInode (a : ℕ)

/-- One operation, with its result. -/
def fileStep : FileOp → FsM ℕ
  | .create name initialSize => do
    let ok ← filesysCreate (some name) initialSize
    pure ok.toNat
  | .openName name => filesysOpen (some name)
  | .remove name => do
    let ok ← filesysRemove (some name)
    pure ok.toNat
  | .write p buffer size => fileWrite p buffer size
  | .writeAt p buffer size ofs => fileWriteAt p buffer size ofs
  | .close p => do
    fileClose p
    pure 0
  | .closeInode a => do
    inodeClose a
    pure 0

/-- What a caller may do: the arguments are an `off_t`, a file is one that was opened and not closed yet, an offset is not
negative, and an inode is closed by a reference that neither a file nor a directory holds. -/
def FileOp.Ok (k : Fs) : FileOp → Prop
  | .create _ initialSize => InRange initialSize
  | .openName _ | .remove _ => True
  | .write p _ size => IsHandle k p ∧ InRange size
  | .writeAt p _ size ofs => IsHandle k p ∧ InRange size ∧ 0 ≤ ofs ∧ InRange ofs
  | .close p => IsHandle k p
  | .closeInode a => ∃ i, k.inodes.cell a = some i ∧ (k.holders a : ℤ) < i.openCnt

/-- Every operation keeps a catalog, and none stops at an assertion of `free_map_release`. -/
theorem fileStep_catalog (h : Catalog k N x m) (op : FileOp) (hop : op.Ok k) :
    wp (fileStep op) (fun _ k' => ∃ N' x' m', Catalog k' N' x' m') Benign k := by
  cases op with
  | create name initialSize =>
    rw [fileStep, wp_bind]
    exact filesysCreate_catalog h hop.2
  | openName name =>
    refine wp_post (filesysOpen_catalog h) ?_
    rintro p k' ⟨x', h'⟩
    exact ⟨N, x', m, h'⟩
  | remove name =>
    rw [fileStep, wp_bind]
    exact filesysRemove_catalog h
  | write p buffer size =>
    refine wp_post (fileWrite_catalog h hop.1 hop.2.2) ?_
    rintro w k' ⟨N', h'⟩
    exact ⟨N', x, m, h'⟩
  | writeAt p buffer size ofs =>
    refine wp_post (fileWriteAt_catalog h hop.1 hop.2.1.2 hop.2.2.1 hop.2.2.2.2) ?_
    rintro w k' ⟨N', h'⟩
    exact ⟨N', x, m, h'⟩
  | close p =>
    rw [fileStep, wp_bind]
    refine wp_post (fileClose_catalog h hop) ?_
    rintro - k' ⟨N', h'⟩
    exact ⟨N', x, m, h'⟩
  | closeInode a =>
    obtain ⟨i, hi, hx⟩ := hop
    rw [fileStep, wp_bind]
    refine wp_post (inodeClose_catalog h hi hx) ?_
    rintro - k' ⟨N', x', h'⟩
    exact ⟨N', x', m, h'⟩

/-- **Every state reached from a fresh format is a catalog.** -/
theorem reachable_catalog {d : Disk} {k₀ : Fs} (hformat : filesysInit true (Fs.boot d) = .ok ((), k₀))
    (hrun : Run fileStep (fun op k => op.Ok k) k₀ k) : ∃ N x m, Catalog k N x m := by
  obtain ⟨N₀, h₀⟩ := wp_of_ok (filesysInit_format d) hformat
  refine Run.invariant (I := fun k => ∃ N x m, Catalog k N x m) hrun ⟨_, _, _, h₀.catalog⟩ ?_
  rintro op t ⟨N, x, m, h⟩ hop
  exact wp_mono (fileStep_catalog h op hop) (fun _ _ h' => h') fun _ _ => trivial

/-! ### Owners -/

/-- The inode in sector `s`, through the cache. -/
def Fs.inodeIn (k : Fs) (s : ℕ) : InodeDisk := InodeDisk.decode (k.buffers.content s)

/-- Entry `n` of a directory whose bytes are given. -/
def entryOf (bytes : List UInt8) (n : ℕ) : DirEntry := fun j => bytes.getD (24 * n + j.1) 0

/-- Entry `n` of the directory in sector `s` is in use and names sector `t`. -/
def Names (k : Fs) (s n t : ℕ) : Prop :=
  ∃ bytes, contentsAt k s = some bytes ∧ 24 * n + 24 ≤ bytes.length ∧ (entryOf bytes n).inUse = true ∧
    (entryOf bytes n).inodeSector = t

/-- The root directory, and what the entries of directories name. -/
inductive Listed (k : Fs) : ℕ → Prop
  /-- The root directory. -/
  | root : Listed k 1
  /-- An entry in use. -/
  | entry {s n t : ℕ} : Listed k s → (k.inodeIn s).isdir = true → Names k s n t → Listed k t

/-- **The inodes in use**: those that are listed in a directory and those in memory. -/
def Owner (k : Fs) (s : ℕ) : Prop := Listed k s ∨ ∃ a i, k.inodes.cell a = some i ∧ i.sector = s

/-- Sector `b` is block `j` of the inode in sector `s`. -/
def HasBlock (k : Fs) (s j b : ℕ) : Prop := j < bytesToSectors (k.inodeIn s).length ∧ blockOf k.tables (k.inodeIn s) j = some b

/-- **Every sector in use has one owner**, one role there and its mark in the free map. -/
structure Exclusive (k : Fs) : Prop where
  inode : ∀ s, Owner k s → s < k.buffers.disk.capacity ∧ k.freeMap.bit s = true
  blocks : ∀ s, Owner k s → ∀ j < bytesToSectors (k.inodeIn s).length, ∃ b, HasBlock k s j b
  block : ∀ s j b, Owner k s → HasBlock k s j b → b < k.buffers.disk.capacity ∧ k.freeMap.bit b = true
  role : ∀ s j b, Owner k s → HasBlock k s j b → ¬ Owner k b
  position : ∀ s j s' j' b, Owner k s → Owner k s' → HasBlock k s j b → HasBlock k s' j' b → s = s' ∧ j = j'
  memory : ∀ a i a' i', k.inodes.cell a = some i → k.inodes.cell a' = some i' → i.sector = i'.sector → a = a'
  coherent : ∀ a i, k.inodes.cell a = some i → i.data = k.inodeIn i.sector
  entry : ∀ s n s' n' t, Listed k s → Listed k s' → (k.inodeIn s).isdir = true → (k.inodeIn s').isdir = true →
    Names k s n t → Names k s' n' t → s = s' ∧ n = n'
  low : k.freeMap.bit 0 = true ∧ k.freeMap.bit 1 = true

namespace Catalog

/-- Entries read from the contents of a directory are its slots. -/
theorem names (h : Catalog k N x m) (hN : N s = some nd) {t : ℕ} (hn : Names k s n t) :
    n < nd.slots ∧ (slotAt k.buffers nd n).inUse = true ∧ (slotAt k.buffers nd n).inodeSector = t := by
  obtain ⟨bytes, hbytes, hlen, huse, hsec⟩ := hn
  rw [h.sound.wf.contentsAt_eq hN, Option.some.injEq] at hbytes
  subst hbytes
  rw [length_fileBytes] at hlen
  have hslot : entryOf (fileBytes k.buffers nd 0 nd.length) n = slotAt k.buffers nd n := by
    funext j
    have hj : j.1 < 24 := j.2
    rw [entryOf, getD_fileBytes, if_pos (by omega), slotAt]
  rw [hslot] at huse hsec
  refine ⟨?_, huse, hsec⟩
  unfold Node.slots
  omega

theorem isdir_eq (h : Catalog k N x m) (hN : N s = some nd) : (k.inodeIn s).isdir = nd.isdir :=
  (h.sound.wf.laid.disk s nd hN).isdir

/-- The root directory's entries in use bind the names of the map. -/
theorem names_root (h : Catalog k N x m) {t : ℕ} (hn : Names k 1 n t) :
    ∃ nd nm, N 1 = some nd ∧ DirOk k.buffers nd m ∧ n < nd.slots ∧ (slotAt k.buffers nd n).binding = some (nm, t) ∧
      m nm = some t := by
  obtain ⟨nd, hN, -, hok⟩ := h.root
  obtain ⟨hlt, huse, hsec⟩ := h.names hN hn
  obtain ⟨nm, t', hbind, -⟩ := hok.named n hlt huse
  obtain ⟨-, -, hsec'⟩ := DirEntry.binding_eq_some_iff.1 hbind
  rw [hsec] at hsec'
  subst hsec'
  exact ⟨nd, nm, hN, hok, hlt, hbind, (hok.rep.binds nm t).2 ⟨n, hlt, hbind⟩⟩

/-- A listed sector is the root directory's, or a name is bound to it. -/
theorem listed (h : Catalog k N x m) (hl : Listed k s) : s = 1 ∨ ∃ nm, m nm = some s := by
  induction hl with
  | root => exact .inl rfl
  | entry hs hdir hn ih =>
    rcases ih with rfl | ⟨nm, hm⟩
    · obtain ⟨-, nm, -, -, -, -, hm⟩ := h.names_root hn
      exact .inr ⟨nm, hm⟩
    · -- what a name is bound to is not a directory
      obtain ⟨-, -, ndt, hNt, hfile⟩ := h.target nm _ hm
      rw [h.isdir_eq hNt, hfile] at hdir
      cases hdir

/-- A listed directory is the root directory. -/
theorem listed_dir (h : Catalog k N x m) (hl : Listed k s) (hdir : (k.inodeIn s).isdir = true) : s = 1 := by
  rcases h.listed hl with rfl | ⟨nm, hm⟩
  · rfl
  · obtain ⟨-, -, ndt, hNt, hfile⟩ := h.target nm _ hm
    rw [h.isdir_eq hNt, hfile] at hdir
    cases hdir

/-- An owner is a file of the catalog. -/
theorem owner (h : Catalog k N x m) (ho : Owner k s) : ∃ nd, N s = some nd := by
  rcases ho with hl | ⟨a, i, hi, rfl⟩
  · rcases h.listed hl with rfl | ⟨nm, hm⟩
    · exact h.sound.root
    · obtain ⟨-, -, ndt, hNt, -⟩ := h.target nm _ hm
      exact ⟨ndt, hNt⟩
  · obtain ⟨nd, hN, -⟩ := h.sound.wf.opened.node a i hi
    exact ⟨nd, hN⟩

theorem hasBlock_iff (h : Catalog k N x m) (hN : N s = some nd) {j b : ℕ} : HasBlock k s j b ↔ nd.blocks[j]? = some b := by
  have hr := (h.sound.wf.laid.disk s nd hN).toRepr
  unfold HasBlock Fs.inodeIn
  rw [hr.bytesToSectors]
  constructor
  · rintro ⟨hj, hb⟩
    rw [hr.blockOf_eq hj, List.getD_eq_getElem _ _ hj] at hb
    rw [List.getElem?_eq_getElem hj, hb]
  · intro hb
    obtain ⟨hj, heq⟩ := List.getElem?_eq_some_iff.1 hb
    exact ⟨hj, by rw [hr.blockOf_eq hj, List.getD_eq_getElem _ _ hj, heq]⟩

/-- **The sectors of a catalog have one owner each.** -/
theorem exclusive (h : Catalog k N x m) : Exclusive k := by
  have hl := h.sound.wf.laid
  refine ⟨fun s hs => ?_, fun s hs j hj => ?_, fun s j b hs hb => ?_, fun s j b hs hb hb' => ?_,
    fun s j s' j' b hs hs' hb hb' => ?_, h.sound.wf.opened.unique, fun a i hi => ?_,
    fun s n s' n' t hs hs' hdir hdir' hn hn' => ?_, hl.low⟩
  · obtain ⟨nd, hN⟩ := h.owner hs
    exact hl.marked s nd hN s List.mem_cons_self
  · obtain ⟨nd, hN⟩ := h.owner hs
    have hcard : bytesToSectors (k.inodeIn s).length = nd.blocks.length := (hl.disk s nd hN).bytesToSectors
    rw [hcard] at hj
    exact ⟨_, (h.hasBlock_iff hN).2 (List.getElem?_eq_getElem hj)⟩
  · obtain ⟨nd, hN⟩ := h.owner hs
    have hmem := List.mem_of_getElem? ((h.hasBlock_iff hN).1 hb)
    exact hl.marked s nd hN b (List.mem_cons_of_mem _ hmem)
  · obtain ⟨nd, hN⟩ := h.owner hs
    obtain ⟨nd', hN'⟩ := h.owner hb'
    exact hl.inode_notMem hN' hN (List.mem_of_getElem? ((h.hasBlock_iff hN).1 hb))
  · obtain ⟨nd, hN⟩ := h.owner hs
    obtain ⟨nd', hN'⟩ := h.owner hs'
    rw [h.hasBlock_iff hN] at hb
    rw [h.hasBlock_iff hN'] at hb'
    have heq := hl.disjoint s nd s' nd' hN hN' b (List.mem_cons_of_mem _ (List.mem_of_getElem? hb))
      (List.mem_cons_of_mem _ (List.mem_of_getElem? hb'))
    subst heq
    rw [hN] at hN'
    cases hN'
    obtain ⟨hj, hbj⟩ := List.getElem?_eq_some_iff.1 hb
    obtain ⟨hj', hbj'⟩ := List.getElem?_eq_some_iff.1 hb'
    exact ⟨rfl, ((List.nodup_cons.1 (hl.nodup s nd hN)).2.getElem_inj_iff).1 (hbj.trans hbj'.symm)⟩
  · exact h.sound.wf.opened.sync a i hi (k.inodes.ne_null hi)
  · have h1 := h.listed_dir hs hdir
    have h1' := h.listed_dir hs' hdir'
    subst h1 h1'
    obtain ⟨nd, nm, hN, hok, hlt, hbind, hm⟩ := h.names_root hn
    obtain ⟨nd', nm', hN', -, hlt', hbind', hm'⟩ := h.names_root hn'
    rw [hN] at hN'
    cases hN'
    have heq := h.inj nm nm' t hm hm'
    subst heq
    exact ⟨rfl, hok.rep.distinct n n' nm t t hlt hlt' hbind hbind'⟩

end Catalog

/-- **Sector exclusivity**: in every state reached from a fresh format, each sector in use has one owner, one role there and
its mark in the free map; `free_map_allocate` does not hand out sectors 0 and 1; and no operation stops at an assertion of
`free_map_release`. -/
theorem sectors_exclusive {d : Disk} {k₀ : Fs} (hformat : filesysInit true (Fs.boot d) = .ok ((), k₀))
    (hrun : Run fileStep (fun op k => op.Ok k) k₀ k) :
    Exclusive k ∧ (∀ b k', freeMapAllocate persistFreeMap 1 k = .ok (some b, k') → 2 ≤ b) ∧
      ∀ op : FileOp, op.Ok k → ∀ e, fileStep op k = .error e → e ≠ .sectorNotAllocated ∧ e ≠ .bitOutOfRange := by
  obtain ⟨N, x, m, h⟩ := reachable_catalog hformat hrun
  refine ⟨h.exclusive, fun b k' hb => ?_, fun op hop e he => wp_of_error (fileStep_catalog h op hop) he⟩
  have hspec := freeMapAllocate_spec persistFreeMap_persists h.sound.wf fun _ => h.sound.map
  rcases wp_of_ok hspec hb with ⟨b', hb', ha⟩ | ⟨hnone, -⟩
  · cases hb'
    exact h.sound.wf.laid.two_le_of_clear ha.clear
  · cases hnone

/-- A disk of sixteen sectors is formatted, and a file of 600 bytes is created and opened: its second block is marked, and no
block of the free map. -/
theorem sectors_exclusive_new_file : ∃ k₀ k s b, filesysInit true (Fs.boot (Disk.blank 16 (by decide))) = .ok ((), k₀) ∧
    Run fileStep (fun op k => op.Ok k) k₀ k ∧ Owner k s ∧ 2 ≤ s ∧ HasBlock k s 1 b ∧ k.freeMap.bit b = true ∧
    ∀ j, ¬ HasBlock k 0 j b := by
  have hcheck : (filesysInit true).returns (fun _ k₀ => (fileStep (.create ⟨[97], by decide⟩ 600)).returns (fun _ k₁ =>
      (fileStep (.openName ⟨[97], by decide⟩)).returns (fun p k => (k.files.cell p).any fun f => (k.inodes.cell f.inode).any fun i =>
        decide (2 ≤ i.sector) && decide (1 < bytesToSectors (k.inodeIn i.sector).length) &&
          (blockOf k.tables (k.inodeIn i.sector) 1).isSome) k₁) k₀) (Fs.boot (Disk.blank 16 (by decide))) = true := by
    decide +kernel
  obtain ⟨⟨⟩, k₀, hformat, hcheck⟩ := exists_of_returns hcheck
  obtain ⟨r, k₁, h₁, hcheck⟩ := exists_of_returns hcheck
  obtain ⟨p, k, h₂, hcheck⟩ := exists_of_returns hcheck
  obtain ⟨f, -, hcheck⟩ := (Option.any_eq_true _ _).1 hcheck
  obtain ⟨i, hi, hcheck⟩ := (Option.any_eq_true _ _).1 hcheck
  simp only [Bool.and_eq_true, decide_eq_true_eq] at hcheck
  obtain ⟨⟨h2, hlt⟩, hblock⟩ := hcheck
  obtain ⟨b, hb⟩ := Option.isSome_iff_exists.1 hblock
  have hrun : Run fileStep (fun op k => op.Ok k) k₀ k :=
    .tail (i := .openName ⟨[97], by decide⟩) (.tail (i := .create ⟨[97], by decide⟩ 600) (.refl _) ⟨by decide, by decide⟩ h₁)
      trivial h₂
  obtain ⟨hex, -⟩ := sectors_exclusive hformat hrun
  have hown : Owner k i.sector := .inr ⟨_, i, hi, rfl⟩
  obtain ⟨N, x, m, h⟩ := reachable_catalog hformat hrun
  obtain ⟨f₀, i₀, -, -, hi₀, hsec₀, -⟩ := h.sound.map
  refine ⟨k₀, k, i.sector, b, hformat, hrun, hown, h2, ⟨hlt, hb⟩, (hex.block _ 1 b hown ⟨hlt, hb⟩).2, fun j hj => ?_⟩
  have := (hex.position i.sector 1 0 j b hown (.inr ⟨_, i₀, hi₀, hsec₀⟩) ⟨hlt, hb⟩ hj).1
  omega

end Pintos
