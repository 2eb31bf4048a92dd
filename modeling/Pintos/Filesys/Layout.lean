import Pintos.Filesys.CacheSpec
import Pintos.Filesys.File

/-!
# The layout of the files

What the inodes on disk stand for. A *node* is a file without its bytes: its
length and the list of its sectors. `Laid` says that the inodes of a family of
nodes `N`, by inode sector, are on disk and do not share anything: no sector
plays two roles, and no table of sectors belongs to two inodes. `Opened` says
that the inodes in memory are those of the family, and `Wf` puts the two
together. The inode that is just being grown is not written back yet, and `Wf`
makes an exception for one inode in memory.

The bytes of a file are read through the cache by `byteAt`.
-/

namespace Pintos

open Library Library.Prog Library.Bytes

/-! ### Nodes -/

/-- How many sectors hold `n` bytes. -/
def sectorsFor (n : ℕ) : ℕ := (n + 511) / 512

theorem bytesToSectors_natCast {n : ℕ} (h : n + 511 < 2 ^ 31) : bytesToSectors n = sectorsFor n := by
  have hdiv : ((n : ℤ) + 511).tdiv 512 = (sectorsFor n : ℕ) := by
    rw [Int.tdiv_eq_ediv_of_nonneg (by omega)]
    unfold sectorsFor
    omega
  have hle : sectorsFor n ≤ n := by
    unfold sectorsFor
    omega
  rw [bytesToSectors, wrap_eq ⟨by omega, by omega⟩, hdiv, ofSigned_of_nonneg (by omega) (by omega)]
  simp

/-- A file without its bytes. -/
@[ext]
structure Node where
  /-- The length in bytes. -/
  length : ℕ
  /-- Whether it is a directory. -/
  isdir : Bool
  /-- The sectors that hold the bytes. -/
  blocks : List ℕ
  /-- The address of the table of sectors, if there is one. -/
  table : ℕ

/-- A family of nodes, by the sector of the inode. -/
abbrev Nodes : Type := ℕ → Option Node

/-- Byte `j` of a file, through the cache. -/
def byteAt (B : Buffers) (nd : Node) (j : ℕ) : UInt8 :=
  B.content (nd.blocks.getD (j / 512) 0) (Fin.ofNat sectorSize j)

/-- The inode `d` has the length and the sectors of `nd`. -/
structure Repr (T : Heap Table) (d : InodeDisk) (nd : Node) : Prop where
  fits : d.Fits
  length : d.length = nd.length
  isdir : d.isdir = nd.isdir
  card : nd.blocks.length = sectorsFor nd.length
  short : nd.blocks.length ≤ 512
  direct : nd.blocks.length ≤ 122 → ∀ (i : Fin directPointers) b, nd.blocks[i.1]? = some b → d.start i = b
  indirect : 122 < nd.blocks.length → d.indirect = nd.table ∧
    ∃ t, T.cell nd.table = some t ∧ ∀ (i : Fin 512) b, nd.blocks[i.1]? = some b → t i = b

/-- The inode `d` of the node `nd` is complete: it also has the node's table, and a short file has none. -/
structure Kept (T : Heap Table) (d : InodeDisk) (nd : Node) : Prop extends Repr T d nd where
  table : d.indirect = nd.table
  small : nd.blocks.length ≤ 122 → nd.table = 0

/-- The tables keep what the nodes of `N` have in them. -/
def KeepsTables (N : Nodes) (T T' : Heap Table) : Prop :=
  ∀ s nd t, N s = some nd → 122 < nd.blocks.length → T.cell nd.table = some t →
    ∃ t', T'.cell nd.table = some t' ∧ ∀ i : Fin 512, i.1 < nd.blocks.length → t' i = t i

variable {B B' : Buffers} {T T' : Heap Table} {M M' : Bitmap} {N N' : Nodes} {d : InodeDisk} {nd : Node} {s : ℕ}

theorem KeepsTables.refl : KeepsTables N T T := fun _ _ t _ _ ht => ⟨t, ht, fun _ _ => rfl⟩

theorem Repr.length_le (h : Repr T d nd) : nd.length ≤ 512 * nd.blocks.length := by
  rw [h.card]
  unfold sectorsFor
  omega

theorem Repr.length_lt (h : Repr T d nd) : nd.length ≤ 512 * 512 :=
  h.length_le.trans (Nat.mul_le_mul_left _ h.short)

theorem Repr.bytesToSectors (h : Repr T d nd) : bytesToSectors d.length = nd.blocks.length := by
  have := h.length_lt
  rw [h.length, bytesToSectors_natCast (by omega), h.card]

theorem Repr.of_tables (h : Repr T d nd) (hN : N s = some nd) (hT : KeepsTables N T T') : Repr T' d nd := by
  refine ⟨h.fits, h.length, h.isdir, h.card, h.short, h.direct, fun hlong => ?_⟩
  obtain ⟨htab, t, ht, hblocks⟩ := h.indirect hlong
  obtain ⟨t', ht', heq⟩ := hT s nd t hN hlong ht
  refine ⟨htab, t', ht', fun i b hb => ?_⟩
  rw [heq i (List.getElem?_eq_some_iff.1 hb).1]
  exact hblocks i b hb

theorem Kept.of_tables (h : Kept T d nd) (hN : N s = some nd) (hT : KeepsTables N T T') : Kept T' d nd :=
  ⟨h.toRepr.of_tables hN hT, h.table, h.small⟩

/-- The sector of byte `j` of a file is one of its blocks. -/
theorem block_mem {nd : Node} {j : ℕ} (hj : j < 512 * nd.blocks.length) : nd.blocks.getD (j / 512) 0 ∈ nd.blocks := by
  rw [List.getD_eq_getElem _ _ (by omega)]
  exact List.getElem_mem _

/-! ### Files on disk -/

/-- **The files of `N` are on disk, and apart.** -/
structure Laid (B : Buffers) (T : Heap Table) (M : Bitmap) (N : Nodes) : Prop where
  disk : ∀ s nd, N s = some nd → Kept T (InodeDisk.decode (B.content s)) nd
  marked : ∀ s nd, N s = some nd → ∀ b ∈ s :: nd.blocks, b < B.disk.capacity ∧ M.bit b = true
  two_le : ∀ s nd, N s = some nd → ∀ b ∈ nd.blocks, 2 ≤ b
  nodup : ∀ s nd, N s = some nd → (s :: nd.blocks).Nodup
  disjoint : ∀ s nd s' nd', N s = some nd → N s' = some nd' → ∀ b ∈ s :: nd.blocks, b ∈ s' :: nd'.blocks → s = s'
  tables : ∀ s nd s' nd', N s = some nd → N s' = some nd' → nd.table ≠ 0 → nd.table = nd'.table → s = s'
  tail : ∀ s nd, N s = some nd → ∀ j, nd.length ≤ j → j < 512 * nd.blocks.length → byteAt B nd j = 0
  low : M.bit 0 = true ∧ M.bit 1 = true
  size : M.bitCnt = B.disk.capacity

namespace Laid

/-- Change bytes of files, and neither inodes nor what lies after the end of a file. -/
theorem of_content (h : Laid B T M N) (hcap : B'.disk.capacity = B.disk.capacity)
    (hinode : ∀ s nd, N s = some nd → B'.content s = B.content s)
    (htail : ∀ s nd, N s = some nd → ∀ j, nd.length ≤ j → j < 512 * nd.blocks.length →
      byteAt B' nd j = byteAt B nd j) : Laid B' T M N := by
  refine ⟨fun s nd hN => ?_, fun s nd hN b hb => ?_, h.two_le, h.nodup, h.disjoint, h.tables, fun s nd hN j h1 h2 => ?_,
    h.low, ?_⟩
  · rw [hinode s nd hN]
    exact h.disk s nd hN
  · rw [hcap]
    exact h.marked s nd hN b hb
  · rw [htail s nd hN j h1 h2]
    exact h.tail s nd hN j h1 h2
  · rw [hcap]
    exact h.size

/-- Change the free map, leaving the sectors of the files marked. -/
theorem of_map (h : Laid B T M N) (hsize : M'.bitCnt = M.bitCnt) (hlow : M'.bit 0 = true ∧ M'.bit 1 = true)
    (hbit : ∀ s nd, N s = some nd → ∀ b ∈ s :: nd.blocks, M.bit b = true → M'.bit b = true) : Laid B T M' N := by
  refine ⟨h.disk, fun s nd hN b hb => ?_, h.two_le, h.nodup, h.disjoint, h.tables, h.tail, hlow, hsize.trans h.size⟩
  exact ⟨(h.marked s nd hN b hb).1, hbit s nd hN b hb (h.marked s nd hN b hb).2⟩

/-- Change tables where no file uses them. -/
theorem of_tables (h : Laid B T M N) (hT : KeepsTables N T T') : Laid B T' M N :=
  ⟨fun s nd hN => (h.disk s nd hN).of_tables hN hT, h.marked, h.two_le, h.nodup, h.disjoint, h.tables, h.tail, h.low,
    h.size⟩

/-- What a sector and the blocks of a node must be to be added to the family. -/
structure Room (B : Buffers) (M : Bitmap) (N : Nodes) (s : ℕ) (nd : Node) : Prop where
  marked : ∀ b ∈ s :: nd.blocks, b < B.disk.capacity ∧ M.bit b = true
  two_le : ∀ b ∈ nd.blocks, 2 ≤ b
  nodup : (s :: nd.blocks).Nodup
  disjoint : ∀ s' nd', N s' = some nd' → s' ≠ s → ∀ b ∈ s :: nd.blocks, b ∉ s' :: nd'.blocks
  tables : ∀ s' nd', N s' = some nd' → s' ≠ s → nd.table ≠ 0 → nd.table ≠ nd'.table

/-- Write the inode of a new or a changed node to its sector. -/
theorem put (h : Laid B T M N) (hcap : B'.disk.capacity = B.disk.capacity)
    (hcontent : ∀ b, b ≠ s → B'.content b = B.content b) (hd : Kept T (InodeDisk.decode (B'.content s)) nd)
    (hroom : Room B M N s nd)
    (htail : ∀ j, nd.length ≤ j → j < 512 * nd.blocks.length → byteAt B' nd j = 0) :
    Laid B' T M (Function.update N s (some nd)) := by
  have hcases : ∀ s' nd', Function.update N s (some nd) s' = some nd' → s' = s ∧ nd' = nd ∨ s' ≠ s ∧ N s' = some nd' := by
    intro s' nd' hN
    by_cases hs : s' = s
    · subst hs
      rw [Function.update_self] at hN
      exact .inl ⟨rfl, (Option.some.inj hN).symm⟩
    · rw [Function.update_of_ne hs] at hN
      exact .inr ⟨hs, hN⟩
  refine ⟨?_, ?_, ?_, ?_, ?_, ?_, ?_, h.low, h.size.trans hcap.symm⟩
  · intro s' nd' hN
    rcases hcases s' nd' hN with ⟨rfl, rfl⟩ | ⟨hs, hN⟩
    · exact hd
    · rw [hcontent s' hs]
      exact h.disk s' nd' hN
  · intro s' nd' hN b hb
    rw [hcap]
    rcases hcases s' nd' hN with ⟨rfl, rfl⟩ | ⟨hs, hN⟩
    · exact hroom.marked b hb
    · exact h.marked s' nd' hN b hb
  · intro s' nd' hN
    rcases hcases s' nd' hN with ⟨rfl, rfl⟩ | ⟨hs, hN⟩
    · exact hroom.two_le
    · exact h.two_le s' nd' hN
  · intro s' nd' hN
    rcases hcases s' nd' hN with ⟨rfl, rfl⟩ | ⟨hs, hN⟩
    · exact hroom.nodup
    · exact h.nodup s' nd' hN
  · intro s₁ nd₁ s₂ nd₂ hN₁ hN₂ b hb₁ hb₂
    rcases hcases s₁ nd₁ hN₁ with ⟨rfl, rfl⟩ | ⟨hs₁, h₁⟩ <;> rcases hcases s₂ nd₂ hN₂ with ⟨rfl, rfl⟩ | ⟨hs₂, h₂⟩
    · rfl
    · exact absurd hb₂ (hroom.disjoint s₂ nd₂ h₂ hs₂ b hb₁)
    · exact absurd hb₁ (hroom.disjoint s₁ nd₁ h₁ hs₁ b hb₂)
    · exact h.disjoint s₁ nd₁ s₂ nd₂ h₁ h₂ b hb₁ hb₂
  · intro s₁ nd₁ s₂ nd₂ hN₁ hN₂ h0 heq
    rcases hcases s₁ nd₁ hN₁ with ⟨rfl, rfl⟩ | ⟨hs₁, h₁⟩ <;> rcases hcases s₂ nd₂ hN₂ with ⟨rfl, rfl⟩ | ⟨hs₂, h₂⟩
    · rfl
    · exact absurd heq (hroom.tables s₂ nd₂ h₂ hs₂ h0)
    · exact absurd heq.symm (hroom.tables s₁ nd₁ h₁ hs₁ (heq ▸ h0))
    · exact h.tables s₁ nd₁ s₂ nd₂ h₁ h₂ h0 heq
  · intro s' nd' hN j hj hlt
    rcases hcases s' nd' hN with ⟨rfl, rfl⟩ | ⟨hs, hN⟩
    · exact htail j hj hlt
    · -- the block of another file is not the sector of this inode
      have hne : nd'.blocks.getD (j / 512) 0 ≠ s := fun heq =>
        hroom.disjoint s' nd' hN hs s List.mem_cons_self (List.mem_cons_of_mem _ (heq ▸ block_mem hlt))
      unfold byteAt
      rw [hcontent _ hne]
      exact h.tail s' nd' hN j hj hlt

/-- Forget a node, and with it the reason for which its sectors are marked. -/
theorem remove (h : Laid B T M N) (s : ℕ) : Laid B T M (Function.update N s none) := by
  have hsome : ∀ s' nd', Function.update N s none s' = some nd' → N s' = some nd' := by
    intro s' nd' hN
    by_cases hs : s' = s
    · rw [hs, Function.update_self] at hN
      cases hN
    · rwa [Function.update_of_ne hs] at hN
  exact ⟨fun s' nd' hN => h.disk s' nd' (hsome s' nd' hN), fun s' nd' hN => h.marked s' nd' (hsome s' nd' hN),
    fun s' nd' hN => h.two_le s' nd' (hsome s' nd' hN), fun s' nd' hN => h.nodup s' nd' (hsome s' nd' hN),
    fun s₁ nd₁ s₂ nd₂ h₁ h₂ => h.disjoint s₁ nd₁ s₂ nd₂ (hsome s₁ nd₁ h₁) (hsome s₂ nd₂ h₂),
    fun s₁ nd₁ s₂ nd₂ h₁ h₂ => h.tables s₁ nd₁ s₂ nd₂ (hsome s₁ nd₁ h₁) (hsome s₂ nd₂ h₂),
    fun s' nd' hN => h.tail s' nd' (hsome s' nd' hN), h.low, h.size⟩

/-- The node of an inode on disk is a node of its own: it fits in the family. -/
theorem room (h : Laid B T M N) (hN : N s = some nd) : Room B M N s nd := by
  refine ⟨h.marked s nd hN, h.two_le s nd hN, h.nodup s nd hN, fun s' nd' hN' hs b hb hb' => ?_,
    fun s' nd' hN' hs h0 heq => ?_⟩
  · exact hs (h.disjoint s nd s' nd' hN hN' b hb hb').symm
  · exact hs (h.tables s nd s' nd' hN hN' h0 heq).symm

/-- A sector that is not marked belongs to no file. -/
theorem notMem_of_clear (h : Laid B T M N) {b : ℕ} (hb : M.bit b = false) (hN : N s = some nd) : b ∉ s :: nd.blocks := by
  intro hmem
  have := (h.marked s nd hN b hmem).2
  rw [hb] at this
  cases this

/-- The inode of a file is not in a data sector. -/
theorem inode_notMem (h : Laid B T M N) {s' : ℕ} {nd' : Node} (hN : N s = some nd) (hN' : N s' = some nd') :
    s ∉ nd'.blocks := by
  intro hmem
  have hs := h.disjoint s nd s' nd' hN hN' s List.mem_cons_self (List.mem_cons_of_mem _ hmem)
  subst hs
  exact (List.nodup_cons.1 (h.nodup s nd' hN')).1 hmem

end Laid

/-! ### Inodes in memory -/

/-- **The inodes in memory are inodes of `N`**, and all but the one at `u` equal their sectors. -/
structure Opened (I : Heap Inode) (l : List ℕ) (B : Buffers) (T : Heap Table) (N : Nodes) (u : ℕ) : Prop where
  listed : ∀ a i, I.cell a = some i → a ∈ l
  live : ∀ a ∈ l, ∃ i, I.cell a = some i
  nodup : l.Nodup
  unique : ∀ a i a' i', I.cell a = some i → I.cell a' = some i' → i.sector = i'.sector → a = a'
  node : ∀ a i, I.cell a = some i → ∃ nd, N i.sector = some nd ∧ Repr T i.data nd
  sync : ∀ a i, I.cell a = some i → a ≠ u → i.data = InodeDisk.decode (B.content i.sector)

/-- What of an inode in memory is not on disk. -/
def Inode.handle (i : Inode) : ℕ × ℤ × Bool × ℤ := (i.sector, i.openCnt, i.removed, i.denyWriteCnt)

/-- **A well-formed file system**, with the files `N`. -/
structure Wf (k : Fs) (N : Nodes) (u : ℕ) : Prop where
  cache : k.buffers.Wf
  laid : Laid k.buffers k.tables k.freeMap N
  opened : Opened k.inodes k.openInodes k.buffers k.tables N u

/-- Change bytes of files, and neither inodes nor what lies after the end of a file. -/
theorem Wf.of_content {k : Fs} {u : ℕ} (hw : Wf k N u) (hB : B.Wf) (hcap : B.disk.capacity = k.buffers.disk.capacity)
    (hinode : ∀ s nd, N s = some nd → B.content s = k.buffers.content s)
    (htail : ∀ s nd, N s = some nd → ∀ j, nd.length ≤ j → j < 512 * nd.blocks.length →
      byteAt B nd j = byteAt k.buffers nd j) : Wf { k with buffers := B } N u := by
  have ho := hw.opened
  refine ⟨hB, hw.laid.of_content hcap hinode htail, ho.listed, ho.live, ho.nodup, ho.unique, ho.node, fun a i hi hu => ?_⟩
  obtain ⟨nd, hN, -⟩ := ho.node a i hi
  change i.data = InodeDisk.decode (B.content i.sector)
  rw [hinode _ nd hN]
  exact ho.sync a i hi hu

/-- Change tables where no file uses them. -/
theorem Wf.of_tables {k : Fs} {u : ℕ} (hw : Wf k N u) (hT : KeepsTables N k.tables T) : Wf { k with tables := T } N u := by
  have ho := hw.opened
  refine ⟨hw.cache, hw.laid.of_tables hT, ho.listed, ho.live, ho.nodup, ho.unique, fun a i hi => ?_, ho.sync⟩
  obtain ⟨nd, hN, hr⟩ := ho.node a i hi
  exact ⟨nd, hN, hr.of_tables hN hT⟩

/-- `k'` has the same files and directories open as `k`, and the same inodes but for their data. -/
structure Steady (k k' : Fs) : Prop where
  files : k'.files = k.files
  dirs : k'.dirs = k.dirs
  openInodes : k'.openInodes = k.openInodes
  freeMapFile : k'.freeMapFile = k.freeMapFile
  currDir : k'.currDir = k.currDir
  inodes : ∀ a, (k'.inodes.cell a).map Inode.handle = (k.inodes.cell a).map Inode.handle
  next : k'.inodes.next = k.inodes.next

theorem Steady.refl (k : Fs) : Steady k k := ⟨rfl, rfl, rfl, rfl, rfl, fun _ => rfl, rfl⟩

theorem Steady.trans {k k' k'' : Fs} (h : Steady k k') (h' : Steady k' k'') : Steady k k'' :=
  ⟨h'.files.trans h.files, h'.dirs.trans h.dirs, h'.openInodes.trans h.openInodes, h'.freeMapFile.trans h.freeMapFile,
    h'.currDir.trans h.currDir, fun a => (h'.inodes a).trans (h.inodes a), h'.next.trans h.next⟩

theorem Steady.cell {k k' : Fs} (h : Steady k k') {a : ℕ} {i : Inode} (hi : k.inodes.cell a = some i) :
    ∃ d, k'.inodes.cell a = some { i with data := d } := by
  have := h.inodes a
  rw [hi] at this
  obtain ⟨i', hi', heq⟩ := Option.map_eq_some_iff.1 this
  refine ⟨i'.data, ?_⟩
  rw [hi']
  simp only [Inode.handle, Prod.mk.injEq] at heq
  obtain ⟨h1, h2, h3, h4⟩ := heq
  rw [← h1, ← h2, ← h3, ← h4]

/-- The sectors of the free map's file. -/
def mapBlocks (N : Nodes) : List ℕ := (N 0).elim [] Node.blocks

/-- The free map's file is open for writing, and long enough for the map. -/
def MapOpen (k : Fs) (N : Nodes) : Prop :=
  ∃ f i nd, k.files.cell k.freeMapFile = some f ∧ k.inodes.cell f.inode = some i ∧ i.sector = 0 ∧
    i.denyWriteCnt = 0 ∧ N 0 = some nd ∧ k.freeMap.fileSize ≤ nd.length

/-- The free map's file holds the free map. -/
def MapSync (k : Fs) (N : Nodes) : Prop :=
  ∀ nd, N 0 = some nd → ∀ j < k.freeMap.fileSize, byteAt k.buffers nd j = k.freeMap.bytes j

end Pintos
