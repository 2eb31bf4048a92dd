import Mathlib.Order.Interval.Finset.Nat
import Pintos.Filesys.DirMap
import Pintos.Filesys.Filesys

/-!
# Formatting

`filesys_init (true)` on any disk, if it returns, leaves two files: the free map
and an empty root directory. The free map's file is open, and holds the map; no
other file is. The map is read back from its file at the end, and is the map that
was written there.
-/

namespace Pintos

open Library Library.Prog

variable {k k' : Fs} {N : Nodes} {s : ℕ} {nd nd' : Node} {n : ℤ}

/-- A write outside the disk does not return. -/
theorem cachedWrite_out {src : ℕ → UInt8} {ofs n : ℕ} {Q : Unit → Fs → Prop} (hc : k.buffers.Wf)
    (hs : k.buffers.disk.capacity ≤ s) : wp (cached (bufferCacheWrite s src ofs n)) Q Benign k := by
  rw [cached, wp_within, bufferCacheWrite, wp_bind]
  refine wp_post (bufferCacheCheck_spec hc fun _ => by decide) ?_
  intro a st hst
  exact absurd hst.range (Nat.not_lt.2 hs)

/-- A write to the disk's last sector, which is not in the cache, reads ahead past the end and does not return. -/
theorem bufferCacheWrite_last {st : Buffers} {src : ℕ → UInt8} {ofs n : ℕ} {Q : Unit → Buffers → Prop} (hc : st.Wf)
    (hsec : ∀ b ∈ st.list, b.secNo ≠ s) (hs : st.disk.capacity ≤ s + 1) : wp (bufferCacheWrite s src ofs n) Q Benign st := by
  have hnone : st.list.find? (fun b => b.secNo == s) = none := List.find?_eq_none.2 fun b hb => by simpa using hsec b hb
  rw [bufferCacheWrite, wp_bind, bufferCacheCheck, fetch, wp_bind, wp_gets, hnone]
  change wp (load s >>= _) _ _ _
  rw [wp_bind]
  refine wp_post (load_spec hc hsec fun _ => by decide) ?_
  intro a st₁ h₁
  rw [wp_bind, wp_bind]
  refine wp_post (fetch_spec h₁.keeps.wf fun _ => by decide) ?_
  intro a' st₂ h₂
  have hlt := h₂.1.range
  rw [h₁.keeps.capacity] at hlt
  exact absurd hlt (Nat.not_lt.2 hs)

/-! ### With the free map's file alone -/

/-- **Only the free map's inode is in memory**, at address `1` with `n` openers, and its file holds the map. -/
structure MapOnly (k : Fs) (N : Nodes) (n : ℤ) : Prop where
  wf : Wf k N 0
  inode : ∃ i, k.inodes.cell 1 = some i ∧ i.sector = 0 ∧ i.openCnt = n ∧ i.removed = false ∧ i.denyWriteCnt = 0
  only : ∀ a i, k.inodes.cell a = some i → a = 1
  dirs : k.dirs = .empty
  currDir : k.currDir = 0
  size : ∀ nd, N 0 = some nd → k.freeMap.fileSize ≤ nd.length
  bound : ∀ j, k.freeMap.bit j = true → j < k.freeMap.bitCnt
  sync : MapSync k N
  clear : MapClear k N
  capacity : 2 < k.buffers.disk.capacity

/-- The free map's file is the only one that is open. -/
structure OneFile (k : Fs) : Prop where
  cell : ∀ p f, k.files.cell p = some f ↔ p = k.freeMapFile ∧ f = ⟨1, 0, false⟩
  count : k.files.count (fun f => f.inode == 1) = 1

theorem OneFile.open_file (h : OneFile k) : k.files.cell k.freeMapFile = some ⟨1, 0, false⟩ := (h.cell _ _).2 ⟨rfl, rfl⟩

theorem OneFile.ne_zero (h : OneFile k) : k.freeMapFile ≠ 0 := k.files.ne_null h.open_file

namespace MapOnly

theorem node (h : MapOnly k N n) : ∃ nd, N 0 = some nd := by
  obtain ⟨i, hi, hs, -⟩ := h.inode
  obtain ⟨nd, hN, -⟩ := h.wf.opened.node 1 i hi
  exact ⟨nd, by rw [← hs]; exact hN⟩

theorem mapOpen (h : MapOnly k N n) (hf : OneFile k) : MapOpen k N := by
  obtain ⟨i, hi, hs, -, -, hdeny⟩ := h.inode
  obtain ⟨nd, hN⟩ := h.node
  exact ⟨_, i, nd, hf.open_file, hi, hs, hdeny, hN, h.size nd hN⟩

/-- A file other than the free map's comes or changes. -/
theorem edited {new : List ℕ} (h : MapOnly k N n) (hf : OneFile k) (he : Edited k N s nd new nd' k') (hs : s ≠ 0) :
    MapOnly k' (Function.update N s (some nd')) n ∧ OneFile k' := by
  obtain ⟨i, hi, hsec, hcnt, hrem, hdeny⟩ := h.inode
  obtain ⟨d, hd⟩ := he.steady.cell hi
  refine ⟨⟨he.wf, ⟨_, hd, hsec, hcnt, hrem, hdeny⟩, fun a j hj => ?_, he.steady.dirs.trans h.dirs,
    he.steady.currDir.trans h.currDir, fun nd₀ hN => ?_, fun j hj => ?_, he.sync hs hf.ne_zero h.sync, fun b hb => ?_, ?_⟩, ?_⟩
  · have hcell := he.steady.inodes a
    rw [hj] at hcell
    obtain ⟨j', hj', -⟩ := Option.map_eq_some_iff.1 hcell.symm
    exact h.only a j' hj'
  · rw [Function.update_of_ne (Ne.symm hs)] at hN
    unfold Bitmap.fileSize
    rw [he.bitCnt]
    exact h.size nd₀ hN
  · rw [he.bits j, Bool.or_eq_true, decide_eq_true_eq] at hj
    rw [he.bitCnt]
    rcases hj with hj | hj
    · exact h.bound j hj
    · rw [h.wf.laid.size]
      exact (he.fresh j hj).1
  · rw [mapBlocks, Function.update_of_ne (Ne.symm hs)] at hb
    rw [he.capacity]
    exact h.clear b hb
  · rw [he.capacity]
    exact h.capacity
  · refine ⟨fun p f => ?_, ?_⟩
    · rw [he.steady.files, he.steady.freeMapFile]
      exact hf.cell p f
    · rw [he.steady.files]
      exact hf.count

/-- With a root directory, the file system is sound. -/
theorem sound {c : ℕ} (h : MapOnly k N (1 + c : ℕ)) (hf : OneFile k) (hroot : ∃ nd, N 1 = some nd) :
    Sound k N fun a => if a = 1 then c else 0 := by
  obtain ⟨i, hi, hsec, hcnt, hrem, hdeny⟩ := h.inode
  have hself : ∀ a j, k.inodes.cell a = some j → a = 1 ∧ j = i := by
    intro a j hj
    have ha := h.only a j hj
    subst ha
    rw [hi] at hj
    exact ⟨rfl, (Option.some.inj hj).symm⟩
  refine ⟨h.wf, h.mapOpen hf, hroot, ⟨fun p f hp => ?_, fun p d hp => ?_, fun a j hj => ?_, fun a j hj => ?_,
    fun a ha => ?_, fun a j hj => ?_⟩, fun a j hj hr => ?_⟩
  · obtain ⟨-, rfl⟩ := (hf.cell p f).1 hp
    exact ⟨⟨i, hi⟩, rfl⟩
  · rw [h.dirs] at hp
    cases hp
  · obtain ⟨rfl, rfl⟩ := hself a j hj
    rw [hcnt, Fs.holders, hf.count, h.dirs]
    rfl
  · obtain ⟨rfl, rfl⟩ := hself a j hj
    rw [hcnt]
    omega
  · refine if_neg fun h1 => ?_
    rw [h1, hi] at ha
    cases ha
  · obtain ⟨rfl, rfl⟩ := hself a j hj
    exact hdeny
  · obtain ⟨rfl, rfl⟩ := hself a j hj
    rw [hrem] at hr
    cases hr

end MapOnly

/-! ### The free map's file -/

/-- The file system once `free_map_init` has made a free map with two sectors marked. -/
def Fs.blank (d : Disk) : Fs := { Fs.boot d with freeMap := ((Bitmap.create d.capacity).mark 0).mark 1 }

theorem Fs.blank_bit (d : Disk) (j : ℕ) : (Fs.blank d).freeMap.bit j = decide (j < 2) := by
  change (((Bitmap.create d.capacity).setMultiple 0 1 true).setMultiple 1 1 true).bit j = _
  rw [Bitmap.bit_setMultiple_one, Bitmap.bit_setMultiple_one]
  rcases j with - | - | j <;> simp [Bitmap.create]

theorem Fs.blank_wf (d : Disk) : Wf (Fs.blank d) (fun _ => none) 0 where
  cache := Buffers.wf_init d
  laid := ⟨by rintro _ _ ⟨⟩, by rintro _ _ ⟨⟩, by rintro _ _ ⟨⟩, by rintro _ _ ⟨⟩, by rintro _ _ _ _ ⟨⟩,
    by rintro _ _ _ _ ⟨⟩, by rintro _ _ ⟨⟩, ⟨Fs.blank_bit d 0, Fs.blank_bit d 1⟩, rfl⟩
  opened := ⟨by rintro _ _ ⟨⟩, by rintro _ ⟨⟩, List.nodup_nil, by rintro _ _ _ _ ⟨⟩, by rintro _ _ ⟨⟩,
    by rintro _ _ ⟨⟩⟩

/-- The size of the free map's file. -/
theorem Fs.blank_fileSize (d : Disk) : (Fs.blank d).freeMap.fileSize = 4 * ((d.capacity + 31) / 32) := rfl

theorem Fs.blank_freeBelow (d : Disk) (c : ℕ) : (Fs.blank d).freeMap.freeBelow c = c - 2 := by
  have heq : ((Finset.range c).filter fun j => (Fs.blank d).freeMap.bit j = false) = Finset.Ico 2 c := by
    ext j
    rw [Finset.mem_filter, Finset.mem_range, Finset.mem_Ico, Fs.blank_bit, decide_eq_false_iff_not]
    omega
  rw [Bitmap.freeBelow, heq, Nat.card_Ico]

/-- On a disk of three sectors, the only free one is the last. -/
theorem createMap_small {Q : Bool → Fs → Prop} (d : Disk) (hpos : 0 < d.capacity) (hsmall : d.capacity ≤ 3) :
    wp (inodeCreate 0 (Fs.blank d).freeMap.fileSize false) Q Benign (Fs.blank d) := by
  have hsize : (Fs.blank d).freeMap.fileSize = 4 := by rw [Fs.blank_fileSize]; omega
  have hneeded : bytesToSectors ((4 : ℕ) : ℤ) = 1 := by decide
  have hcurrent : bytesToSectors 0 = 0 := by decide
  rw [hsize, inodeCreate, if_pos (by decide), wp_bind, wp_modify]
  obtain ⟨k₁, hk₁⟩ : ∃ k₁ : Fs, k₁ = { Fs.blank d with temp := { InodeDisk.zero with magic := inodeMagic, isdir := false } } :=
    ⟨_, rfl⟩
  have hlen : k₁.temp.length = 0 := by rw [hk₁]; rfl
  have hmap : k₁.freeMap = (Fs.blank d).freeMap := by rw [hk₁]
  have hfile : k₁.freeMapFile = 0 := by rw [hk₁]; rfl
  have hbuf : k₁.buffers = Buffers.init d := by rw [hk₁]; rfl
  rw [← hk₁, wp_bind, inodeGrow, wp_bind, readData, wp_gets, hlen, if_neg (by decide), wp_bind, wp_gets, wp_ite, wp_stop]
  refine ⟨fun _ => by decide, fun _ => ?_⟩
  rw [hneeded, hcurrent]
  dsimp only
  rw [if_pos (by decide), wp_bind, growLoop, wp_bind, wp_pure, wp_bind, allocateSlot, wp_bind, freeMapAllocate, wp_bind, wp_gets]
  cases hscan : k₁.freeMap.scan 0 1 false with
  | none =>
    rw [wp_pure, wp_bind, wp_orStop]
    exact ⟨by simp, fun _ => by decide⟩
  | some b =>
    obtain ⟨hlt, hclear, -⟩ := Bitmap.scan_one_eq_some hscan
    rw [hmap] at hlt hclear
    have h2 : ¬ b < 2 := by simpa [Fs.blank_bit] using hclear
    have hlast : d.capacity ≤ b + 1 := by change b < d.capacity at hlt; omega
    rw [wp_bind, wp_modify, wp_bind, wp_gets, if_pos hfile, wp_pure, wp_bind, wp_orStop_some, wp_bind, storeSlot,
      dif_pos (by decide), updateData, wp_modify, cached, wp_within, hbuf]
    exact bufferCacheWrite_last (Buffers.wf_init d) (fun _ h => by cases h) hlast

/-- The free map's file is created: a file of zeros, the only one, before the disk's last sector. -/
theorem createMap_spec (d : Disk) :
    wp (inodeCreate 0 (Fs.blank d).freeMap.fileSize false)
      (fun ok k => ok = true ∧ ∃ new nd, Created (Fs.blank d) (fun _ => none) 0 (Fs.blank d).freeMap.fileSize false new nd k ∧
        2 < d.capacity ∧ ∀ b ∈ nd.blocks, b + 1 < d.capacity) Benign (Fs.blank d) := by
  have hsize := Fs.blank_fileSize d
  have hcap := d.capacity_le
  rcases Nat.eq_zero_or_pos d.capacity with h0 | hpos
  · -- a disk without sectors has no sector 0 to write
    rw [inodeCreate, if_pos (by omega), wp_bind, wp_modify, wp_bind, inodeGrow, wp_bind, readData, wp_gets,
      if_pos (by simp only [InodeDisk.zero]; omega), wp_pure, wp_bind, onlyIf, if_pos rfl, wp_bind, wp_gets]
    exact cachedWrite_out (Buffers.wf_init d) h0.le
  rcases Nat.lt_or_ge 3 d.capacity with hbig | hsmall
  · have hroom : Laid.Room (Fs.blank d).buffers (Fs.blank d).freeMap (fun _ => none) 0 (.empty false) := by
      refine ⟨fun b hb => ?_, by rintro _ ⟨⟩, by simp [Node.empty], by rintro _ _ ⟨⟩, by rintro _ _ ⟨⟩⟩
      simp only [Node.empty, List.mem_singleton] at hb
      subst hb
      exact ⟨hpos, Fs.blank_bit d 0⟩
    refine wp_mono (inodeCreate_spec (Fs.blank_wf d) (fun h => absurd rfl h) rfl hroom (by omega)) ?_ fun _ he => he.2
    rintro ok k ⟨rfl, -, new, nd, hc⟩
    rw [Int.toNat_natCast] at hc
    refine ⟨rfl, new, nd, hc, by omega, ?_⟩
    -- the file has the first free sectors, and there are more
    have hnode : Function.update (fun _ => none) 0 (some nd) 0 = some nd := Function.update_self _ _ _
    have hcard := (hc.edited.wf.laid.disk 0 nd hnode).card
    have hblocks : nd.blocks = new := hc.edited.blocks
    rw [hc.length, sectorsFor, hblocks] at hcard
    rw [hblocks]
    refine hc.edited.new_clear ?_
    rw [Fs.blank_freeBelow]
    change new.length ≤ d.capacity - 1 - 2
    omega
  · exact createMap_small d hpos hsmall

/-- The file system with the free map's inode just opened, and a file for it. -/
def Fs.mapFile (k : Fs) (a : ℕ) : Fs :=
  { k.openers a 1 with files := k.files.alloc ⟨a, 0, false⟩, freeMapFile := k.files.next }

/-- `free_map_file = file_open (inode_open (FREE_MAP_SECTOR))`. -/
theorem openFreeMapFile_spec (hw : Wf k N 0) (hN : N 0 = some nd) :
    wp openFreeMapFile (fun _ k' => ∃ a k₁, Opens k 0 a k₁ ∧ k' = k₁.mapFile a) Benign k := by
  rw [openFreeMapFile, wp_bind]
  refine wp_mono (inodeOpen_opens hw hN) ?_ fun _ he => he.elim
  intro a k₁ ho
  obtain ⟨i, hi, -⟩ := ho.cell_self
  rw [wp_bind]
  refine wp_mono (fileOpen_spec hi) ?_ fun _ he => he.elim
  rintro p k₂ ⟨rfl, rfl⟩
  rw [wp_bind, wp_modify, wp_ite, wp_stop, wp_pure]
  exact ⟨fun hp => absurd hp k₁.files.pos.ne', fun _ => ⟨a, k₁, ho, rfl⟩⟩

/-- The file that was opened is the only one, if there was none before. -/
theorem oneFile_mapFile (hcell : ∀ p, k.files.cell p = none) : OneFile (k.mapFile 1) := by
  refine ⟨fun p f => ?_, ?_⟩
  · change (k.files.alloc _).cell p = some f ↔ p = k.files.next ∧ _
    by_cases hp : p = k.files.next
    · rw [hp, Heap.cell_alloc_self, Option.some.injEq]
      exact ⟨fun h => ⟨rfl, h.symm⟩, fun h => h.2.symm⟩
    · rw [Heap.cell_alloc_of_ne _ _ hp, hcell p]
      exact ⟨nofun, fun h => absurd h.1 hp⟩
  · change (k.files.alloc _).count _ = 1
    rw [Heap.count_alloc, Heap.count_eq_zero _ fun p f hp => by rw [hcell p] at hp; cases hp]
    rfl

/-- **`free_map_create`** on a blank disk. -/
theorem freeMapCreate_spec (d : Disk) :
    wp freeMapCreate (fun _ k => ∃ N, MapOnly k N 2 ∧ OneFile k ∧ ∀ s nd, N s = some nd → s = 0 ∧ nd.isdir = false) Benign
      (Fs.blank d) := by
  rw [freeMapCreate, wp_bind, wp_gets, wp_bind]
  refine wp_post (createMap_spec d) ?_
  rintro - k₁ ⟨rfl, new, nd, hc, hcap, hlast⟩
  have he := hc.edited
  have hnode : Function.update (fun _ => none) 0 (some nd) 0 = some nd := Function.update_self _ _ _
  have hnone : ∀ b, k₁.inodes.cell b = none := by
    intro b
    have := he.steady.inodes b
    rwa [show (Fs.blank d).inodes.cell b = none from rfl, Option.map_none, Option.map_eq_none_iff] at this
  rw [if_pos rfl, wp_bind]
  refine wp_post (openFreeMapFile_spec he.wf hnode) ?_
  rintro - k₂ ⟨a, k₃, ho, rfl⟩
  -- the inode is read from its sector, to the first address
  cases ho with
  | found hi => rw [hnone] at hi; cases hi
  | @loaded B hother hB =>
    have hnext : k₁.inodes.next = 1 := he.steady.next
    rw [hnext]
    have hw₂ : Wf ((k₁.load 0 B).mapFile 1) (Function.update (fun _ => none) 0 (some nd)) 0 := by
      have := (Wf.load he.wf hnode hB hother (f := ⟨0, 1, false, 0, _⟩) rfl rfl).openers 1 1
      exact ⟨this.cache, this.laid, this.opened⟩
    have hfile : OneFile ((k₁.load 0 B).mapFile 1) := by
      refine oneFile_mapFile fun p => ?_
      change k₁.files.cell p = none
      rw [he.steady.files]
      rfl
    have hcell : ((k₁.load 0 B).mapFile 1).inodes.cell 1 =
        some ⟨0, 2, false, 0, InodeDisk.decode (k₁.buffers.content 0)⟩ := by
      change ((k₁.inodes.alloc _).set 1 _).cell 1 = _
      rw [Heap.cell_set_self, ← hnext, Heap.cell_alloc_self]
      rfl
    have hsize : k₁.freeMap.fileSize = nd.length := by
      rw [hc.length]
      exact congrArg Bitmap.byteCnt he.bitCnt
    have hopen : MapOpen ((k₁.load 0 B).mapFile 1) (Function.update (fun _ => none) 0 (some nd)) :=
      ⟨_, _, nd, hfile.open_file, hcell, rfl, rfl, hnode, hsize.le⟩
    rw [wp_bind]
    refine wp_mono (persistFreeMap_persists _ _ 0 hw₂ hopen) ?_ fun _ hE => hE.2
    rintro - k₄ ⟨rfl, B', hB', rfl⟩
    have hcapacity : B'.disk.capacity = d.capacity := hB'.capacity.trans (hB.capacity.trans he.capacity)
    rw [if_pos rfl, wp_pure]
    refine ⟨_, ⟨hw₂.persisted (fun nd₀ h => ?_) hB', ⟨_, hcell, rfl, rfl, rfl, rfl⟩, fun b i hi => ?_, he.steady.dirs,
      he.steady.currDir, fun nd₀ h => ?_, fun j hj => ?_, hB'.sync, fun b hb => ?_, ?_⟩, ⟨hfile.cell, hfile.count⟩,
      fun s nd₀ h => ?_⟩
    · rw [hnode] at h
      cases h
      exact hsize.le
    · by_contra hb
      change ((k₁.inodes.alloc _).set 1 _).cell b = _ at hi
      rw [Heap.cell_set_of_ne _ _ hb, Heap.cell_alloc_of_ne _ _ (by rw [hnext]; exact hb), hnone] at hi
      cases hi
    · rw [hnode] at h
      cases h
      exact hsize.le
    · change k₁.freeMap.bit j = true at hj
      change j < k₁.freeMap.bitCnt
      rw [he.bits, Fs.blank_bit, Bool.or_eq_true, decide_eq_true_eq, decide_eq_true_eq] at hj
      rw [he.wf.laid.size, he.capacity]
      rcases hj with hj | hj
      · exact hj.trans (by exact hcap)
      · exact (he.fresh j hj).1
    · rw [mapBlocks_eq hnode] at hb
      rw [hcapacity]
      exact hlast b hb
    · rw [hcapacity]
      exact hcap
    · by_cases hs : s = 0
      · rw [hs, hnode] at h
        cases h
        exact ⟨hs, he.isdir⟩
      · rw [Function.update_of_ne hs] at h
        cases h

/-! ### The root directory -/

/-- **A formatted file system**: the free map in a file that is open, and an empty root directory. -/
structure Formatted (k : Fs) (N : Nodes) : Prop where
  map : MapOnly k N 3
  file : OneFile k
  only : ∀ s nd, N s = some nd → s = 0 ∨ s = 1
  root : ∃ nd, N 1 = some nd ∧ nd.isdir = true ∧ nd.length = 384 ∧ DirOk k.buffers nd fun _ => none

theorem Formatted.sound (h : Formatted k N) : Sound k N fun a => if a = 1 then 2 else 0 := by
  obtain ⟨nd, hN, -⟩ := h.root
  exact MapOnly.sound (c := 2) h.map h.file ⟨nd, hN⟩

/-- The root directory is created. -/
theorem createRoot_spec (h : MapOnly k N 2) (hf : OneFile k) (honly : ∀ s nd, N s = some nd → s = 0) :
    wp (dirCreate 1 16)
      (fun ok k' => ok = true ∧ ∃ nd, MapOnly k' (Function.update N 1 (some nd)) 2 ∧ OneFile k' ∧ nd.isdir = true ∧
        nd.length = 384 ∧ DirOk k'.buffers nd fun _ => none) Benign k := by
  have hN : N 1 = none := by
    cases hN : N 1 with
    | none => rfl
    | some nd => exact absurd (honly 1 nd hN) (by decide)
  have hroom : Laid.Room k.buffers k.freeMap N 1 (.empty true) := by
    refine ⟨fun b hb => ?_, by rintro _ ⟨⟩, by simp [Node.empty], fun s nd hs _ b hb hmem => ?_, fun _ _ _ _ h0 => absurd rfl h0⟩
    · simp only [Node.empty, List.mem_singleton] at hb
      subst hb
      exact ⟨by have := h.capacity; omega, h.wf.laid.low.2⟩
    · simp only [Node.empty, List.mem_singleton] at hb
      subst hb
      have hs0 := honly s nd hs
      subst hs0
      rcases List.mem_cons.1 hmem with h0 | hmem
      · cases h0
      · exact absurd (h.wf.laid.two_le 0 nd hs 1 hmem) (by decide)
  rw [dirCreate]
  refine wp_mono (inodeCreate_spec h.wf (fun _ => h.mapOpen hf) hN hroom (by decide)) ?_ fun _ he => he.2
  rintro ok k' ⟨rfl, -, new, nd, hc⟩
  have hlen : nd.length = 384 := hc.length
  obtain ⟨hmap, hfile⟩ := h.edited hf hc.edited (by decide)
  refine ⟨rfl, nd, hmap, hfile, hc.edited.isdir, hlen, .empty ?_ hc.zero⟩
  rw [hlen]
  decide

/-- **`do_format`** leaves the free map and the root directory, and no file open. -/
theorem doFormat_spec (d : Disk) :
    wp doFormat
      (fun _ k => ∃ N, MapOnly k N 1 ∧ (∀ p, k.files.cell p = none) ∧ (∀ s nd, N s = some nd → s = 0 ∧ nd.isdir = false ∨ s = 1) ∧
        ∃ nd, N 1 = some nd ∧ nd.isdir = true ∧ nd.length = 384 ∧ DirOk k.buffers nd fun _ => none)
      Benign (Fs.blank d) := by
  rw [doFormat, wp_bind]
  refine wp_post (freeMapCreate_spec d) ?_
  rintro - k₁ ⟨N, h₁, hf₁, honly⟩
  rw [wp_bind]
  refine wp_post (createRoot_spec h₁ hf₁ fun s nd hN => (honly s nd hN).1) ?_
  rintro - k₂ ⟨rfl, nd, h, hf, hdir, hlen, hok⟩
  have hroot : Function.update N 1 (some nd) 1 = some nd := Function.update_self _ _ _
  have hs := MapOnly.sound (c := 1) h hf ⟨nd, hroot⟩
  obtain ⟨i, hi, hsec, hcnt, hrem, hdeny⟩ := h.inode
  rw [if_pos rfl, freeMapClose, wp_bind, wp_gets]
  refine wp_mono (fileClose_closes hs hf.open_file hi) ?_ fun _ he => he.2
  rintro - k₃ ⟨k₄, N', hc, rfl⟩
  cases hc with
  | last h1 => rw [hcnt] at h1; cases h1
  | removed h1 => rw [hcnt] at h1; cases h1
  | more =>
    have hw := h.wf.openers 1 (-1)
    have hcell : (k₂.openers 1 (-1)).inodes.cell 1 = some { i with openCnt := i.openCnt + -1 } := by
      rw [Fs.openers, Heap.cell_set_self, hi]
      rfl
    refine ⟨_, ⟨⟨hw.cache, hw.laid, hw.opened⟩, ⟨_, hcell, hsec, ?_, hrem, hdeny⟩, fun a j hj => ?_, h.dirs, h.currDir, h.size,
      h.bound, h.sync, h.clear, h.capacity⟩, fun p => ?_, fun s nd' hN => ?_, nd, hroot, hdir, hlen, hok⟩
    · change i.openCnt + -1 = 1
      rw [hcnt]
      rfl
    · by_contra ha
      change (k₂.inodes.set 1 _).cell a = _ at hj
      rw [Heap.cell_set_of_ne _ _ ha] at hj
      exact ha (h.only a j hj)
    · change (k₂.files.free _).cell p = none
      by_cases hp : p = k₂.freeMapFile
      · rw [hp, Heap.cell_free_self]
      · rw [Heap.cell_free_of_ne _ hp]
        cases hcell : k₂.files.cell p with
        | none => rfl
        | some f => exact absurd ((hf.cell p f).1 hcell).1 hp
    · by_cases h1 : s = 1
      · exact .inr h1
      · rw [Function.update_of_ne h1] at hN
        exact .inl (honly s nd' hN)

/-! ### The free map is read back -/

/-- The bytes of the free map's file are those of the map. -/
theorem MapSync.ofBytes_eq {m : ℕ → UInt8} (hsync : MapSync k N)
    (hbound : ∀ j, k.freeMap.bit j = true → j < k.freeMap.bitCnt) (hN : N 0 = some nd)
    (hm : ∀ j < k.freeMap.fileSize, m j = byteAt k.buffers nd j) : Bitmap.ofBytes k.freeMap.bitCnt m = k.freeMap := by
  have hbit : (Bitmap.ofBytes k.freeMap.bitCnt m).bit = k.freeMap.bit := by
    funext j
    by_cases hj : j < k.freeMap.bitCnt
    · have hbyte : m (j / 8) = k.freeMap.bytes (j / 8) := by
        have hlt : j / 8 < k.freeMap.fileSize := by
          unfold Bitmap.fileSize Bitmap.byteCnt
          omega
        rw [hm _ hlt]
        exact hsync nd hN _ hlt
      rw [← Bitmap.bit_ofBytes_bytes _ j hj]
      simp only [Bitmap.ofBytes, Bytes.bitOf, hbyte]
    · cases hb : k.freeMap.bit j with
      | true => exact absurd (hbound j hb) hj
      | false => simp [Bitmap.ofBytes, hj]
  exact congrArg (Bitmap.mk k.freeMap.bitCnt) hbit

/-- **`bitmap_read`** gives any map of the same size the bits that are in the file. -/
theorem bitmapRead_spec {M : Bitmap} (hw : Wf k N 0) (hm : MapOpen k N) (hsync : MapSync k N)
    (hbound : ∀ j, k.freeMap.bit j = true → j < k.freeMap.bitCnt) (hM : M.bitCnt = k.freeMap.bitCnt) :
    wp bitmapRead (fun ok k' => ok = true ∧ k.Reads k') (Unless (MapClear k N)) { k with freeMap := M } := by
  obtain ⟨f, i, nd, hf, hi, hsec, -, hN, hsize⟩ := id hm
  have hr := hw.repr hi (by rw [hsec]; exact hN)
  have hlt := hr.length_lt
  have hfile : M.fileSize = k.freeMap.fileSize := congrArg Bitmap.byteCnt hM
  have hsmall : M.fileSize < 2 ^ 31 := by omega
  have hpos : ¬ M.bitCnt = 0 := by
    have := (hw.laid.marked 0 nd hN 0 List.mem_cons_self).1
    rw [hM, hw.laid.size]
    omega
  rw [bitmapRead, wp_bind, wp_gets, wp_bind, wp_gets, if_neg hpos, wp_bind, fileReadAt, wp_bind]
  refine wp_fileAt hf ?_
  refine wp_mono (inodeReadAt_repr hw.cache hi hr hsmall (show (0 : ℕ) < 2 ^ 31 by decide)) ?_
    (Unless.mono fun hclear b hb => hclear b (by rw [mapBlocks_eq hN]; exact hb))
  rintro bytes k' ⟨rfl, B, hB, rfl⟩
  rw [wp_bind, wp_modify, wp_pure, Nat.sub_zero, hfile, Nat.min_eq_left hsize]
  refine ⟨by simp [fileBytes], B, hB, ?_⟩
  rw [hM, hsync.ofBytes_eq hbound hN fun j hj => ?_]
  rw [if_pos (by simpa [fileBytes] using hj), getD_fileBytes, if_pos hj]

/-- **`filesys_init (true)`** formats the disk: the free map is no directory. -/
theorem filesysInit_plain (d : Disk) :
    wp (filesysInit true) (fun _ k => ∃ N, Formatted k N ∧ ∀ nd, N 0 = some nd → nd.isdir = false) Benign (Fs.boot d) := by
  rw [filesysInit, wp_bind, freeMapInit, wp_modify, wp_bind, onlyIf, if_pos rfl]
  refine wp_post (doFormat_spec d) ?_
  rintro - k₁ ⟨N, h₁, hnone, honly, nd, hN, hdir, hlen, hok⟩
  obtain ⟨nd₀, hN₀⟩ := h₁.node
  rw [freeMapOpen, wp_bind]
  refine wp_post (openFreeMapFile_spec h₁.wf hN₀) ?_
  rintro - k₂ ⟨a, k₃, ho, rfl⟩
  obtain ⟨i, hi, hsec, hcnt, hrem, hdeny⟩ := h₁.inode
  cases ho with
  | loaded hother => exact absurd hsec (hother 1 i hi)
  | @found a j hj hs =>
    have ha := h₁.only a j hj
    subst ha
    have hw := (h₁.wf.openers 1 1).openers 1 1
    have hcell : ((k₁.openers 1 1).mapFile 1).inodes.cell 1 = some { i with openCnt := i.openCnt + 1 + 1 } := by
      change ((k₁.inodes.set 1 _).set 1 _).cell 1 = _
      rw [Heap.cell_set_self, Heap.cell_set_self, hi]
      rfl
    have hfile : OneFile ((k₁.openers 1 1).mapFile 1) := oneFile_mapFile hnone
    have hmap : MapOnly ((k₁.openers 1 1).mapFile 1) N 3 := by
      refine ⟨⟨hw.cache, hw.laid, hw.opened⟩, ⟨_, hcell, hsec, ?_, hrem, hdeny⟩, fun a j hj => ?_, h₁.dirs, h₁.currDir, h₁.size,
        h₁.bound, h₁.sync, h₁.clear, h₁.capacity⟩
      · change i.openCnt + 1 + 1 = 3
        rw [hcnt]
        rfl
      · by_contra ha
        change ((k₁.inodes.set 1 _).set 1 _).cell a = _ at hj
        rw [Heap.cell_set_of_ne _ _ ha, Heap.cell_set_of_ne _ _ ha] at hj
        exact ha (h₁.only a j hj)
    rw [wp_bind]
    refine wp_mono (bitmapRead_spec hmap.wf (hmap.mapOpen hfile) hmap.sync hmap.bound rfl) ?_ fun _ he => he.2
    rintro ok k' ⟨rfl, hread⟩
    obtain ⟨B, hB, rfl⟩ := id hread
    rw [if_pos rfl, wp_pure]
    refine ⟨N, ⟨⟨hread.wf hmap.wf, hmap.inode, hmap.only, hmap.dirs, hmap.currDir, hmap.size, hmap.bound, fun nd₀ h j hj => ?_,
      fun b hb => ?_, ?_⟩, ⟨hfile.cell, hfile.count⟩, fun s nd hN => (honly s nd hN).imp And.left id, nd, hN, hdir, hlen,
      hok.congr fun n _ => slotAt_keeps hB nd n⟩, fun nd hN => ?_⟩
    · rw [byteAt_keeps hB]
      exact hmap.sync nd₀ h j hj
    · change b + 1 < B.disk.capacity
      rw [hB.capacity]
      exact hmap.clear b hb
    · change 2 < B.disk.capacity
      rw [hB.capacity]
      exact hmap.capacity
    · rcases honly 0 nd hN with ⟨-, hplain⟩ | h1
      · exact hplain
      · cases h1

/-- **`filesys_init (true)`** formats the disk. -/
theorem filesysInit_format (d : Disk) : wp (filesysInit true) (fun _ k => ∃ N, Formatted k N) Benign (Fs.boot d) :=
  wp_post (filesysInit_plain d) fun _ _ ⟨N, h, _⟩ => ⟨N, h⟩

end Pintos
