import Pintos.Filesys.Directory
import Pintos.Filesys.Handles

/-!
# References to inodes

Every `struct file` and every `struct dir` holds a reference to an inode, and so
does every pointer that `inode_open` and `inode_reopen` return until it is handed
to `inode_close`, `file_open` or `dir_open`. `open_cnt` counts them, and once more
each time that a file or a directory takes an inode over, since `file_open` and
`dir_open` increment it although the reference is the caller's.
-/

namespace Pintos

open Library Library.Prog

variable {k k' : Fs} {N N' : Nodes} {s a p : ℕ} {i : Inode} {nd : Node} {x x' : ℕ → ℕ}

/-! ### Counting -/

/-- How many files and directories have the inode at `a` open. -/
def Fs.holders (k : Fs) (a : ℕ) : ℕ := k.files.count (fun f => f.inode == a) + k.dirs.count fun d => d.inode == a

/-- **The openers of every inode are counted**: its files and its directories, and `x` more. No file denies writes. -/
structure Counted (k : Fs) (x : ℕ → ℕ) : Prop where
  files : ∀ p f, k.files.cell p = some f → (∃ i, k.inodes.cell f.inode = some i) ∧ f.denyWrite = false
  dirs : ∀ p d, k.dirs.cell p = some d → ∃ i, k.inodes.cell d.inode = some i
  count : ∀ a i, k.inodes.cell a = some i → i.openCnt = (k.holders a + x a : ℕ)
  pos : ∀ a i, k.inodes.cell a = some i → 0 < i.openCnt
  fresh : ∀ a, k.inodes.cell a = none → x a = 0
  deny : ∀ a i, k.inodes.cell a = some i → i.denyWriteCnt = 0

theorem Counted.holders_eq_zero (h : Counted k x) (ha : k.inodes.cell a = none) : k.holders a = 0 := by
  have hf : k.files.count (fun f => f.inode == a) = 0 := by
    refine k.files.count_eq_zero fun p f hp => beq_eq_false_iff_ne.2 fun heq => ?_
    obtain ⟨⟨i, hi⟩, -⟩ := h.files p f hp
    rw [heq, ha] at hi
    cases hi
  have hd : k.dirs.count (fun d => d.inode == a) = 0 := by
    refine k.dirs.count_eq_zero fun p d hp => beq_eq_false_iff_ne.2 fun heq => ?_
    obtain ⟨i, hi⟩ := h.dirs p d hp
    rw [heq, ha] at hi
    cases hi
  rw [Fs.holders, hf, hd]

/-- A change at one inode. -/
theorem Counted.step (h : Counted k x) (hcell : ∀ b, b ≠ a → k'.inodes.cell b = k.inodes.cell b)
    (hself : k'.inodes.cell a = none ∧ k'.holders a = 0 ∧ x' a = 0 ∨
      ∃ i, k'.inodes.cell a = some i ∧ i.openCnt = (k'.holders a + x' a : ℕ) ∧ 0 < i.openCnt ∧ i.denyWriteCnt = 0)
    (hhold : ∀ b, b ≠ a → k'.holders b = k.holders b) (hx : ∀ b, b ≠ a → x' b = x b)
    (hfiles : ∀ p f, k'.files.cell p = some f → k.files.cell p = some f ∨ f.inode = a ∧ f.denyWrite = false)
    (hdirs : ∀ p d, k'.dirs.cell p = some d → k.dirs.cell p = some d ∨ d.inode = a) : Counted k' x' := by
  -- what refers to the inode at `a` keeps it in memory
  have hlive : k'.holders a ≠ 0 → ∃ i, k'.inodes.cell a = some i := by
    intro h0
    rcases hself with ⟨-, hzero, -⟩ | ⟨i, hi, -⟩
    · exact absurd hzero h0
    · exact ⟨i, hi⟩
  refine ⟨fun p f hp => ?_, fun p d hp => ?_, fun b i hi => ?_, fun b i hi => ?_, fun b hb => ?_, fun b i hi => ?_⟩
  · by_cases ha : f.inode = a
    · refine ⟨?_, ?_⟩
      · have hpos := k'.files.count_pos (P := fun f => f.inode == a) hp (beq_iff_eq.2 ha)
        rw [ha]
        exact hlive (by unfold Fs.holders; omega)
      · rcases hfiles p f hp with hp | ⟨-, hdeny⟩
        · exact (h.files p f hp).2
        · exact hdeny
    · rcases hfiles p f hp with hp | ⟨heq, -⟩
      · rw [hcell _ ha]
        exact h.files p f hp
      · exact absurd heq ha
  · by_cases ha : d.inode = a
    · have hpos := k'.dirs.count_pos (P := fun d => d.inode == a) hp (beq_iff_eq.2 ha)
      rw [ha]
      exact hlive (by unfold Fs.holders; omega)
    · rcases hdirs p d hp with hp | heq
      · rw [hcell _ ha]
        exact h.dirs p d hp
      · exact absurd heq ha
  · by_cases hb : b = a
    · subst hb
      rcases hself with ⟨hnone, -⟩ | ⟨j, hj, hcnt, -⟩
      · rw [hi] at hnone
        cases hnone
      · rw [hi] at hj
        cases hj
        exact hcnt
    · rw [hhold b hb, hx b hb]
      exact h.count b i (by rw [← hcell b hb]; exact hi)
  · by_cases hb : b = a
    · subst hb
      rcases hself with ⟨hnone, -⟩ | ⟨j, hj, -, hpos, -⟩
      · rw [hi] at hnone
        cases hnone
      · rw [hi] at hj
        cases hj
        exact hpos
    · exact h.pos b i (by rw [← hcell b hb]; exact hi)
  · by_cases hba : b = a
    · subst hba
      rcases hself with ⟨-, -, hzero⟩ | ⟨j, hj, -⟩
      · exact hzero
      · rw [hb] at hj
        cases hj
    · rw [hx b hba]
      exact h.fresh b (by rw [← hcell b hba]; exact hb)
  · by_cases hb : b = a
    · subst hb
      rcases hself with ⟨hnone, -⟩ | ⟨j, hj, -, -, hdeny⟩
      · rw [hi] at hnone
        cases hnone
      · rw [hi] at hj
        cases hj
        exact hdeny
    · exact h.deny b i (by rw [← hcell b hb]; exact hi)

/-- `inode_open` gives its caller a reference. -/
theorem Opens.counted (ho : Opens k s a k') (h : Counted k x) : Counted k' (Function.update x a (x a + 1)) := by
  have hholders : ∀ b, k'.holders b = k.holders b := fun b => by rw [Fs.holders, Fs.holders, ho.files, ho.dirs]
  refine h.step (fun b hb => ho.cell_of_ne hb) (.inr ?_) (fun b _ => hholders b) (fun b hb => Function.update_of_ne hb _ _)
    (fun p f hp => .inl (by rw [← ho.files]; exact hp)) fun p d hp => .inl (by rw [← ho.dirs]; exact hp)
  obtain ⟨i', hi', -, ⟨i, hi, rfl⟩ | ⟨hnone, hcnt, -, hdeny⟩⟩ := ho.cell_self
  · have hcount := h.count a i hi
    have hpos := h.pos a i hi
    refine ⟨_, hi', ?_, ?_, h.deny a i hi⟩
    · rw [hholders, Function.update_self]
      change i.openCnt + 1 = _
      omega
    · change 0 < i.openCnt + 1
      omega
  · refine ⟨i', hi', ?_, by omega, hdeny⟩
    rw [hholders, Function.update_self, h.holders_eq_zero hnone, h.fresh a hnone, hcnt]
    rfl

/-- A reference to an inode goes, its own or that of a file or a directory. -/
theorem Closes.counted {k₁ : Fs} (hc : Closes k N a i k₁ N') (h : Counted k x) (hi : k.inodes.cell a = some i)
    (hcell : k'.inodes = k₁.inodes) (hself : k'.holders a + x' a + 1 = k.holders a + x a)
    (hhold : ∀ b, b ≠ a → k'.holders b = k.holders b) (hx : ∀ b, b ≠ a → x' b = x b)
    (hfiles : ∀ p f, k'.files.cell p = some f → k.files.cell p = some f)
    (hdirs : ∀ p d, k'.dirs.cell p = some d → k.dirs.cell p = some d) : Counted k' x' := by
  have hcount := h.count a i hi
  have hpos := h.pos a i hi
  refine h.step (fun b hb => by rw [hcell]; exact hc.cell_of_ne hb) ?_ hhold hx (fun p f hp => .inl (hfiles p f hp))
    fun p d hp => .inl (hdirs p d hp)
  rw [hcell, hc.cell_self hi]
  by_cases h1 : i.openCnt = 1
  · rw [if_pos h1]
    exact .inl ⟨rfl, by omega, by omega⟩
  · rw [if_neg h1]
    refine .inr ⟨_, rfl, ?_, ?_, h.deny a i hi⟩
    · change i.openCnt - 1 = _
      omega
    · change 0 < i.openCnt - 1
      omega

/-! ### Sound file systems -/

/-- **A file system in use**: it is well formed, the free map's file is open, there is a root directory, the
openers are counted, and neither the free map nor the root directory was removed. -/
structure Sound (k : Fs) (N : Nodes) (x : ℕ → ℕ) : Prop where
  wf : Wf k N 0
  map : MapOpen k N
  root : ∃ nd, N 1 = some nd
  counted : Counted k x
  removed : ∀ a i, k.inodes.cell a = some i → i.removed = true → 2 ≤ i.sector

/-- The inode of sector `s` is in memory, and removed. -/
def Removed (k : Fs) (s : ℕ) : Prop := ∃ a i, k.inodes.cell a = some i ∧ i.sector = s ∧ i.removed = true

/-- **An inode in memory stays at its address** as long as it is there. -/
structure Places (k k' : Fs) : Prop where
  cell : ∀ b j, k'.inodes.cell b = some j → b < k.inodes.next → ∃ i, k.inodes.cell b = some i ∧ i.sector = j.sector
  next : k.inodes.next ≤ k'.inodes.next

theorem Places.refl (k : Fs) : Places k k := ⟨fun _ j hj _ => ⟨j, hj, rfl⟩, le_rfl⟩

theorem Places.trans {k'' : Fs} (h : Places k k') (h' : Places k' k'') : Places k k'' := by
  refine ⟨fun b j hj hb => ?_, h.next.trans h'.next⟩
  obtain ⟨j', hj', hs'⟩ := h'.cell b j hj (hb.trans_le h.next)
  obtain ⟨i, hi, hs⟩ := h.cell b j' hj' hb
  exact ⟨i, hi, hs.trans hs'⟩

/-- **No file but those in `S` has changed**; removed ones may have gone. -/
structure Still (S : Set ℕ) (k : Fs) (N : Nodes) (k' : Fs) (N' : Nodes) : Prop where
  bytes : ∀ s nd, s ∉ S → N' s = some nd → s ≠ 0 → ∀ j < 512 * nd.blocks.length,
    byteAt k'.buffers nd j = byteAt k.buffers nd j
  nodes : ∀ s nd, s ∉ S → N s = some nd → N' s = some nd ∨ N' s = none ∧ Removed k s
  back : ∀ s nd, s ∉ S → N' s = some nd → N s = some nd
  removed : ∀ s, s ∉ S → Removed k' s → Removed k s
  sync : MapSync k N → MapSync k' N'
  capacity : k'.buffers.disk.capacity = k.buffers.disk.capacity
  freeMapFile : k'.freeMapFile = k.freeMapFile
  places : Places k k'

namespace Still

variable {S S' : Set ℕ} {k'' : Fs} {N'' : Nodes}

theorem refl (S : Set ℕ) (k : Fs) (N : Nodes) : Still S k N k N :=
  ⟨fun _ _ _ _ _ _ _ => rfl, fun _ _ _ hN => .inl hN, fun _ _ _ hN => hN, fun _ _ h => h, fun h => h, rfl, rfl, .refl k⟩

theorem mono (h : Still S k N k' N') (hS : S ⊆ S') : Still S' k N k' N' :=
  ⟨fun s nd hs => h.bytes s nd fun hm => hs (hS hm), fun s nd hs => h.nodes s nd fun hm => hs (hS hm),
    fun s nd hs => h.back s nd fun hm => hs (hS hm), fun s hs => h.removed s fun hm => hs (hS hm), h.sync, h.capacity,
    h.freeMapFile, h.places⟩

theorem trans (h : Still S k N k' N') (h' : Still S k' N' k'' N'') : Still S k N k'' N'' := by
  refine ⟨fun s nd hs hN h0 j hj => ?_, fun s nd hs hN => ?_, fun s nd hs hN => h.back s nd hs (h'.back s nd hs hN),
    fun s hs hr => h.removed s hs (h'.removed s hs hr), fun hsync => h'.sync (h.sync hsync), h'.capacity.trans h.capacity,
    h'.freeMapFile.trans h.freeMapFile, h.places.trans h'.places⟩
  · exact (h'.bytes s nd hs hN h0 j hj).trans (h.bytes s nd hs (h'.back s nd hs hN) h0 j hj)
  · rcases h.nodes s nd hs hN with hN' | ⟨hN', hr⟩
    · rcases h'.nodes s nd hs hN' with hN'' | ⟨hN'', hr⟩
      · exact .inl hN''
      · exact .inr ⟨hN'', h.removed s hs hr⟩
    · refine .inr ⟨Option.eq_none_iff_forall_ne_some.2 fun nd' hN'' => ?_, hr⟩
      have := h'.back s nd' hs hN''
      rw [hN'] at this
      cases this

/-- Only handles have changed. -/
theorem of_keeps (hB : Buffers.Keeps k.buffers k'.buffers) (hM : k'.freeMap = k.freeMap)
    (hf : k'.freeMapFile = k.freeMapFile) (hr : ∀ s, s ∉ S → Removed k' s → Removed k s) (hp : Places k k') :
    Still S k N k' N := by
  refine ⟨fun s nd _ _ _ j _ => byteAt_keeps hB nd j, fun _ _ _ hN => .inl hN, fun _ _ _ hN => hN, hr, fun hsync nd₀ hN₀ j hj => ?_,
    hB.capacity, hf, hp⟩
  rw [hM] at hj ⊢
  rw [byteAt_keeps hB]
  exact hsync nd₀ hN₀ j hj

end Still

/-! ### Opening and closing inodes -/

theorem Opens.removed_of (h : Opens k s a k') {t : ℕ} (hr : Removed k' t) : Removed k t := by
  obtain ⟨b, j, hj, hs, hrem⟩ := hr
  by_cases hb : b = a
  · subst hb
    obtain ⟨i', hi', -, ⟨i, hi, rfl⟩ | ⟨-, -, hnot, -⟩⟩ := h.cell_self
    · rw [hj] at hi'
      cases hi'
      exact ⟨b, i, hi, hs, hrem⟩
    · rw [hj] at hi'
      cases hi'
      rw [hrem] at hnot
      cases hnot
  · rw [h.cell_of_ne hb] at hj
    exact ⟨b, j, hj, hs, hrem⟩

theorem Opens.places (h : Opens k s a k') : Places k k' := by
  refine ⟨fun b j hj hb => ?_, ?_⟩
  · by_cases hba : b = a
    · subst hba
      obtain ⟨i', hi', -, ⟨i, hi, rfl⟩ | ⟨hnone, -⟩⟩ := h.cell_self
      · rw [hj] at hi'
        cases hi'
        exact ⟨i, hi, rfl⟩
      · rcases h.addr with ⟨i, hi⟩ | rfl
        · rw [hi] at hnone
          cases hnone
        · exact absurd hb (lt_irrefl _)
    · rw [h.cell_of_ne hba] at hj
      exact ⟨j, hj, rfl⟩
  · cases h with
    | found => exact le_rfl
    | loaded => exact Nat.le_succ _

theorem Sound.removed_le (h : Sound k N x) {t : ℕ} (hr : Removed k t) : 2 ≤ t := by
  obtain ⟨b, j, hj, rfl, hrem⟩ := hr
  exact h.removed b j hj hrem

/-- **`inode_open`** in a sound file system. -/
theorem Sound.opens (h : Sound k N x) (ho : Opens k s a k') (hN : N s = some nd) :
    Sound k' N (Function.update x a (x a + 1)) ∧ Still ∅ k N k' N := by
  refine ⟨⟨ho.wf h.wf hN, ho.mapOpen h.map, h.root, ho.counted h.counted, fun b j hj hrem => ?_⟩, ?_⟩
  · exact h.removed_le (ho.removed_of ⟨b, j, hj, rfl, hrem⟩)
  · exact .of_keeps (ho.keeps h.wf) ho.freeMap ho.freeMapFile (fun t _ => ho.removed_of) ho.places

theorem Closes.removed_of (h : Closes k N a i k' N') (hi : k.inodes.cell a = some i) {t : ℕ} (hr : Removed k' t) : Removed k t := by
  obtain ⟨b, j, hj, hs, hrem⟩ := hr
  by_cases hb : b = a
  · subst hb
    rw [h.cell_self hi] at hj
    split_ifs at hj
    cases hj
    exact ⟨b, i, hi, hs, hrem⟩
  · rw [h.cell_of_ne hb] at hj
    exact ⟨b, j, hj, hs, hrem⟩

theorem Closes.places (h : Closes k N a i k' N') (hi : k.inodes.cell a = some i) : Places k k' := by
  refine ⟨fun b j hj _ => ?_, h.next.ge⟩
  by_cases hb : b = a
  · subst hb
    rw [h.cell_self hi] at hj
    split_ifs at hj
    cases hj
    exact ⟨i, hi, rfl⟩
  · rw [h.cell_of_ne hb] at hj
    exact ⟨j, hj, rfl⟩

theorem Closes.still (h : Closes k N a i k' N') (hw : Wf k N 0) (hi : k.inodes.cell a = some i)
    (h0 : i.sector = 0 → i.openCnt ≠ 1) : Still ∅ k N k' N' := by
  have hback : ∀ s nd, N' s = some nd → N s = some nd := by
    intro s nd hN
    rw [h.nodes] at hN
    split_ifs at hN
    exact hN
  refine ⟨fun s nd _ hN hs j hj => h.bytes hw (hback s nd hN) hs hj, fun s nd _ hN => ?_, fun s nd _ hN => hback s nd hN,
    fun s _ hr => h.removed_of hi hr, fun hsync => h.mapSync hsync h0, h.capacity, h.freeMapFile, h.places hi⟩
  rw [h.nodes]
  by_cases hc : s = i.sector ∧ i.openCnt = 1 ∧ i.removed = true
  · rw [if_pos hc]
    exact .inr ⟨rfl, a, i, hi, hc.1.symm, hc.2.2⟩
  · rw [if_neg hc]
    exact .inl hN

/-- The free map's file holds a reference to the inode in sector 0. -/
theorem Sound.holders_pos (h : Sound k N x) (hi : k.inodes.cell a = some i) (hs : i.sector = 0) :
    0 < k.files.count fun f => f.inode == a := by
  obtain ⟨f, j, nd₀, hf, hj, hsec, -⟩ := h.map
  have ha : f.inode = a := h.wf.opened.unique _ j a i hj hi (hsec.trans hs.symm)
  exact k.files.count_pos hf (beq_iff_eq.2 ha)

/-- A reference goes: the inode is closed and `k'` is what the caller then leaves. -/
theorem Sound.release {k₁ : Fs} (h : Sound k N x) (hc : Closes k N a i k₁ N') (hi : k.inodes.cell a = some i)
    (h0 : i.sector = 0 → i.openCnt ≠ 1) (hI : k'.inodes = k₁.inodes) (hl : k'.openInodes = k₁.openInodes)
    (hB : k'.buffers = k₁.buffers) (hM : k'.freeMap = k₁.freeMap) (hT : k'.tables = k₁.tables)
    (hf : k'.freeMapFile = k.freeMapFile) (hmap : k'.files.cell k.freeMapFile = k.files.cell k.freeMapFile)
    (hself : k'.holders a + x' a + 1 = k.holders a + x a) (hhold : ∀ b, b ≠ a → k'.holders b = k.holders b)
    (hx : ∀ b, b ≠ a → x' b = x b) (hfiles : ∀ p f, k'.files.cell p = some f → k.files.cell p = some f)
    (hdirs : ∀ p d, k'.dirs.cell p = some d → k.dirs.cell p = some d) : Sound k' N' x' ∧ Still ∅ k N k' N' := by
  have hw := hc.wf h.wf h.map hi (h.removed a i hi)
  have hstill₁ := hc.still h.wf hi h0
  have hstill : Still ∅ k N k' N' := by
    refine ⟨?_, hstill₁.nodes, hstill₁.back, ?_, ?_, ?_, hf, ?_, ?_⟩
    · rw [hB]
      exact hstill₁.bytes
    · unfold Removed at hstill₁ ⊢
      rw [hI]
      exact hstill₁.removed
    · unfold MapSync
      rw [hB, hM]
      exact hstill₁.sync
    · rw [hB]
      exact hstill₁.capacity
    · rw [hI]
      exact hstill₁.places.cell
    · rw [hI]
      exact hstill₁.places.next
  refine ⟨⟨⟨by rw [hB]; exact hw.cache, by rw [hB, hT, hM]; exact hw.laid, ?_⟩, ?_, ?_,
    hc.counted h.counted hi hI hself hhold hx hfiles hdirs, fun b j hj hrem => ?_⟩, hstill⟩
  · rw [hI, hl, hB, hT]
    exact hw.opened
  · obtain ⟨g, j, nd₀, hg, hj, hsec, hdeny, hN₀, hle⟩ := hc.mapOpen h.map hi h0
    refine ⟨g, j, nd₀, ?_, by rw [hI]; exact hj, hsec, hdeny, hN₀, by rw [hM]; exact hle⟩
    rw [hf, hmap, ← hc.files, ← hc.freeMapFile]
    exact hg
  · obtain ⟨nd₁, hN₁⟩ := h.root
    rcases hstill.nodes 1 nd₁ (Set.notMem_empty _) hN₁ with hN | ⟨-, hr⟩
    · exact ⟨nd₁, hN⟩
    · have := h.removed_le hr
      omega
  · exact h.removed_le (hstill.removed j.sector (Set.notMem_empty _) ⟨b, j, hj, rfl, hrem⟩)

/-- **`inode_close`** of a reference that is neither a file's nor a directory's. -/
theorem Sound.closes (h : Sound k N x) (hc : Closes k N a i k' N') (hi : k.inodes.cell a = some i) (hx : 0 < x a) :
    Sound k' N' (Function.update x a (x a - 1)) ∧ Still ∅ k N k' N' := by
  have hholders : ∀ b, k'.holders b = k.holders b := fun b => by rw [Fs.holders, Fs.holders, hc.files, hc.dirs]
  refine h.release hc hi (fun hs => ?_) rfl rfl rfl rfl rfl hc.freeMapFile (by rw [hc.files]) ?_ (fun b _ => hholders b)
    (fun b hb => Function.update_of_ne hb _ _) (fun p f hp => by rw [← hc.files]; exact hp) fun p d hp => by
      rw [← hc.dirs]; exact hp
  · have hcount := h.counted.count a i hi
    have := h.holders_pos hi hs
    unfold Fs.holders at hcount
    omega
  · rw [hholders, Function.update_self]
    omega

/-! ### Changes to one file -/

theorem Steady.removed (h : Steady k k') {t : ℕ} (hr : Removed k' t) : Removed k t := by
  obtain ⟨b, j, hj, hs, hrem⟩ := hr
  have := h.inodes b
  rw [hj] at this
  obtain ⟨j₀, hj₀, heq⟩ := Option.map_eq_some_iff.1 this.symm
  simp only [Inode.handle, Prod.mk.injEq] at heq
  exact ⟨b, j₀, hj₀, heq.1.trans hs, heq.2.2.1.trans hrem⟩

theorem Steady.places (h : Steady k k') : Places k k' := by
  refine ⟨fun b j hj _ => ?_, h.next.ge⟩
  have := h.inodes b
  rw [hj] at this
  obtain ⟨i, hi, heq⟩ := Option.map_eq_some_iff.1 this.symm
  exact ⟨i, hi, congrArg Prod.fst heq⟩

theorem Steady.counted (h : Steady k k') (hc : Counted k x) : Counted k' x := by
  have hlive : ∀ a, (∃ i, k.inodes.cell a = some i) → ∃ i, k'.inodes.cell a = some i := by
    rintro a ⟨i, hi⟩
    obtain ⟨d, hd⟩ := h.cell hi
    exact ⟨_, hd⟩
  have hback : ∀ a i, k'.inodes.cell a = some i →
      ∃ j, k.inodes.cell a = some j ∧ i.openCnt = j.openCnt ∧ i.denyWriteCnt = j.denyWriteCnt := by
    intro a i hi
    have := h.inodes a
    rw [hi] at this
    obtain ⟨j, hj, heq⟩ := Option.map_eq_some_iff.1 this.symm
    simp only [Inode.handle, Prod.mk.injEq] at heq
    exact ⟨j, hj, heq.2.1.symm, heq.2.2.2.symm⟩
  have hholders : ∀ a, k'.holders a = k.holders a := fun a => by rw [Fs.holders, Fs.holders, h.files, h.dirs]
  refine ⟨fun p f hp => ?_, fun p d hp => ?_, fun a i hi => ?_, fun a i hi => ?_, fun a ha => ?_, fun a i hi => ?_⟩
  · rw [h.files] at hp
    exact ⟨hlive _ (hc.files p f hp).1, (hc.files p f hp).2⟩
  · rw [h.dirs] at hp
    exact hlive _ (hc.dirs p d hp)
  · obtain ⟨j, hj, hcnt, -⟩ := hback a i hi
    rw [hcnt, hholders]
    exact hc.count a j hj
  · obtain ⟨j, hj, hcnt, -⟩ := hback a i hi
    rw [hcnt]
    exact hc.pos a j hj
  · refine hc.fresh a (Option.eq_none_iff_forall_ne_some.2 fun i hi => ?_)
    obtain ⟨j, hj⟩ := hlive a ⟨i, hi⟩
    rw [ha] at hj
    cases hj
  · obtain ⟨j, hj, -, hdeny⟩ := hback a i hi
    rw [hdeny]
    exact hc.deny a j hj

/-- A file other than the free map's is changed, or a new one comes. -/
theorem Sound.edited {new : List ℕ} {nd' : Node} (h : Sound k N x) (he : Edited k N s nd new nd' k') (hs : s ≠ 0) :
    Sound k' (Function.update N s (some nd')) x ∧ Still {s} k N k' (Function.update N s (some nd')) := by
  have hne : ∀ t, t ∉ ({s} : Set ℕ) → t ≠ s := fun t ht heq => ht heq
  have hfile : k.freeMapFile ≠ 0 := by
    obtain ⟨f, -, -, hf, -⟩ := h.map
    exact k.files.ne_null hf
  refine ⟨⟨he.wf, ?_, ?_, he.steady.counted h.counted, fun b j hj hrem => ?_⟩, fun t nd₁ ht hN₁ h0 j hj => ?_, fun t nd₁ ht hN₁ => ?_,
    fun t nd₁ ht hN₁ => ?_, fun t _ hr => he.steady.removed hr, fun hsync => he.sync hs hfile hsync, he.capacity,
    he.steady.freeMapFile, he.steady.places⟩
  · obtain ⟨f, j, nd₀, hf, hj, hsec, hdeny, hN₀, hle⟩ := h.map.steady he.steady he.bitCnt
    exact ⟨f, j, nd₀, hf, hj, hsec, hdeny, by rw [Function.update_of_ne (Ne.symm hs)]; exact hN₀, hle⟩
  · obtain ⟨nd₁, hN₁⟩ := h.root
    by_cases h1 : 1 = s
    · exact ⟨nd', by rw [h1, Function.update_self]⟩
    · exact ⟨nd₁, by rw [Function.update_of_ne h1]; exact hN₁⟩
  · exact h.removed_le (he.steady.removed ⟨b, j, hj, rfl, hrem⟩)
  · rw [Function.update_of_ne (hne t ht)] at hN₁
    exact he.other t nd₁ hN₁ (hne t ht) (.inl h0) j hj
  · rw [Function.update_of_ne (hne t ht)]
    exact .inl hN₁
  · rwa [Function.update_of_ne (hne t ht)] at hN₁

/-! ### Files -/

theorem Still.openers (k : Fs) (N : Nodes) (a : ℕ) (n : ℤ) {k' : Fs} (hw : k.buffers.Wf) (hI : k'.inodes = (k.openers a n).inodes)
    (hB : k'.buffers = k.buffers) (hM : k'.freeMap = k.freeMap) (hf : k'.freeMapFile = k.freeMapFile) : Still ∅ k N k' N := by
  have hback : ∀ b j, k'.inodes.cell b = some j → ∃ i, k.inodes.cell b = some i ∧ i.sector = j.sector ∧ i.removed = j.removed := by
    intro b j hj
    rw [hI] at hj
    by_cases hb : b = a
    · subst hb
      rw [Fs.openers, Heap.cell_set_self] at hj
      obtain ⟨i, hi, rfl⟩ := Option.map_eq_some_iff.1 hj
      exact ⟨i, hi, rfl, rfl⟩
    · rw [Fs.openers, k.inodes.cell_set_of_ne _ hb] at hj
      exact ⟨j, hj, rfl, rfl⟩
  refine .of_keeps (by rw [hB]; exact .refl hw) hM hf (fun t _ hr => ?_) ⟨fun b j hj _ => ?_, by rw [hI]; exact le_rfl⟩
  · obtain ⟨b, j, hj, hs, hrem⟩ := hr
    obtain ⟨i, hi, hs', hrem'⟩ := hback b j hj
    exact ⟨b, i, hi, hs'.trans hs, hrem'.trans hrem⟩
  · obtain ⟨i, hi, hs, -⟩ := hback b j hj
    exact ⟨i, hi, hs⟩

/-- One more opener, which is a file or a directory. -/
theorem Sound.holder (h : Sound k N x) (hi : k.inodes.cell a = some i) (hI : k'.inodes = (k.openers a 1).inodes)
    (hl : k'.openInodes = k.openInodes) (hB : k'.buffers = k.buffers) (hM : k'.freeMap = k.freeMap)
    (hT : k'.tables = k.tables) (hf : k'.freeMapFile = k.freeMapFile) (hself : k'.holders a = k.holders a + 1)
    (hother : ∀ b, b ≠ a → k'.holders b = k.holders b)
    (hfiles : ∀ p f, k.files.cell p = some f → k'.files.cell p = some f)
    (hfiles' : ∀ p f, k'.files.cell p = some f → k.files.cell p = some f ∨ f.inode = a ∧ f.denyWrite = false)
    (hdirs : ∀ p d, k'.dirs.cell p = some d → k.dirs.cell p = some d ∨ d.inode = a) :
    Sound k' N x ∧ Still ∅ k N k' N := by
  have hstill : Still ∅ k N k' N := .openers k N a 1 h.wf.cache hI hB hM hf
  have hcell : k'.inodes.cell a = some { i with openCnt := i.openCnt + 1 } := by simp [hI, Fs.openers, hi]
  have hne : ∀ b, b ≠ a → k'.inodes.cell b = k.inodes.cell b := fun b hb => by
    rw [hI, Fs.openers, k.inodes.cell_set_of_ne _ hb]
  refine ⟨⟨?_, ?_, h.root, h.counted.step hne (.inr ⟨_, hcell, ?_, ?_, h.counted.deny a i hi⟩) hother (fun _ _ => rfl) hfiles' hdirs, ?_⟩, hstill⟩
  · have hw := h.wf.openers a 1
    refine ⟨by rw [hB]; exact hw.cache, by rw [hB, hT, hM]; exact hw.laid, ?_⟩
    rw [hI, hl, hB, hT]
    exact hw.opened
  · obtain ⟨f, j, nd₀, hf₀, hj, hsec, hdeny, hN₀, hle⟩ := h.map
    have hfile : k'.files.cell k'.freeMapFile = some f := by rw [hf]; exact hfiles _ f hf₀
    by_cases hfa : f.inode = a
    · rw [hfa, hi] at hj
      cases hj
      rw [← hfa] at hcell
      exact ⟨f, _, nd₀, hfile, hcell, hsec, hdeny, hN₀, by rw [hM]; exact hle⟩
    · exact ⟨f, j, nd₀, hfile, by rw [hne _ hfa]; exact hj, hsec, hdeny, hN₀, by rw [hM]; exact hle⟩
  · have := h.counted.count a i hi
    rw [hself]
    change i.openCnt + 1 = _
    omega
  · have := h.counted.pos a i hi
    change 0 < i.openCnt + 1
    omega
  · intro b j hj hrem
    exact h.removed_le (hstill.removed j.sector (Set.notMem_empty _) ⟨b, j, hj, rfl, hrem⟩)

theorem fileOpen_spec (hi : k.inodes.cell a = some i) :
    wp (fileOpen a) (fun p k' => p = k.files.next ∧ k' = { k.openers a 1 with files := k.files.alloc ⟨a, 0, false⟩ })
      (fun _ => False) k := by
  rw [fileOpen, if_neg (k.inodes.ne_null hi), wp_bind, wp_gets, wp_bind, wp_modify, wp_bind]
  refine wp_inodeAt hi ?_
  rw [wp_bind, incrementOpenCnt, updateInode, wp_modify, wp_pure]
  exact ⟨rfl, rfl⟩

/-- **`file_open`** takes an inode over. -/
theorem Sound.fileOpen (h : Sound k N x) (hi : k.inodes.cell a = some i) :
    Sound { k.openers a 1 with files := k.files.alloc ⟨a, 0, false⟩ } N x ∧
      Still ∅ k N { k.openers a 1 with files := k.files.alloc ⟨a, 0, false⟩ } N := by
  refine h.holder hi rfl rfl rfl rfl rfl rfl ?_ (fun b hb => ?_) (fun p f hp => k.files.cell_alloc _ hp) (fun p f hp => ?_)
    fun p d hp => .inl hp
  · change (k.files.alloc _).count _ + k.dirs.count _ = _
    rw [Heap.count_alloc]
    simp only [beq_self_eq_true, Bool.toNat_true, Fs.holders]
    omega
  · change (k.files.alloc _).count _ + k.dirs.count _ = _
    rw [Heap.count_alloc, beq_eq_false_iff_ne.2 (Ne.symm hb)]
    rfl
  · by_cases hp' : p = k.files.next
    · subst hp'
      change (k.files.alloc _).cell _ = _ at hp
      rw [Heap.cell_alloc_self] at hp
      cases hp
      exact .inr ⟨rfl, rfl⟩
    · exact .inl ((k.files.cell_alloc_of_ne _ hp').symm.trans hp)

/-- `file_close` closes the inode and frees the file. -/
theorem fileClose_closes {f : File} (h : Sound k N x) (hf : k.files.cell p = some f) (hi : k.inodes.cell f.inode = some i) :
    wp (fileClose p)
      (fun _ k' => ∃ k₁ N', Closes k N f.inode i k₁ N' ∧ k' = { k₁ with files := k.files.free p })
      (Unless (MapClear k N)) k := by
  rw [fileClose, onlyIf, if_pos (k.files.ne_null hf), wp_bind, fileAllowWrite, wp_bind]
  refine wp_fileAt hf ?_
  rw [onlyIf, if_neg (by simp [(h.counted.files p f hf).2]), wp_pure, wp_bind]
  refine wp_fileAt hf ?_
  rw [wp_bind]
  refine wp_post (inodeClose_closes h.wf h.map hi (h.removed _ i hi)) ?_
  rintro - k₁ ⟨N', hc⟩
  rw [wp_modify]
  exact ⟨k₁, N', hc, by rw [hc.files]⟩

/-- **`file_close`** of a file other than the free map's. -/
theorem Sound.fileClose {f : File} {k₁ : Fs} (h : Sound k N x) (hf : k.files.cell p = some f)
    (hi : k.inodes.cell f.inode = some i) (hp : p ≠ k.freeMapFile) (hc : Closes k N f.inode i k₁ N') :
    Sound { k₁ with files := k.files.free p } N' x ∧ Still ∅ k N { k₁ with files := k.files.free p } N' := by
  have hfree := fun b => k.files.count_free (fun g => g.inode == b) hf
  have hself := hfree f.inode
  rw [beq_self_eq_true, Bool.toNat_true] at hself
  refine h.release hc hi (fun hs => ?_) rfl rfl rfl rfl rfl hc.freeMapFile (k.files.cell_free_of_ne (Ne.symm hp)) ?_
    (fun b hb => ?_) (fun _ _ => rfl) (fun q g hq => ?_) fun q d hq => by rw [← hc.dirs]; exact hq
  · -- the free map's file is another one
    obtain ⟨g, j, nd₀, hg, hj, hsec, -⟩ := h.map
    have ha : g.inode = f.inode := h.wf.opened.unique _ j _ i hj hi (hsec.trans hs.symm)
    have hpos : 0 < (k.files.free p).count fun g => g.inode == f.inode :=
      (k.files.free p).count_pos ((k.files.cell_free_of_ne (Ne.symm hp)).trans hg) (beq_iff_eq.2 ha)
    have hcount := h.counted.count _ i hi
    unfold Fs.holders at hcount
    omega
  · change (k.files.free p).count _ + k₁.dirs.count _ + _ + 1 = _
    rw [hc.dirs, Fs.holders]
    omega
  · change (k.files.free p).count _ + k₁.dirs.count _ = _
    have := hfree b
    rw [beq_eq_false_iff_ne.2 (Ne.symm hb)] at this
    rw [hc.dirs, Fs.holders, ← this]
    rfl
  · exact k.files.cell_of_free hq

/-! ### Directories -/

theorem wp_dirAt {Q : Dir → Fs → Prop} {d : Dir} {E : Halt → Prop} (hd : k.dirs.cell p = some d) (hQ : Q d k) :
    wp (dirAt p) Q E k := by
  rw [dirAt, wp_bind, wp_gets, wp_orStop]
  refine ⟨fun g hg => ?_, fun hn => ?_⟩
  · rw [hd] at hg
    cases hg
    exact hQ
  · rw [hd] at hn
    cases hn

/-- The inode at `a` has a directory more, which is the current one. -/
def Fs.enter (k : Fs) (a : ℕ) : Fs := { k.openers a 1 with dirs := k.dirs.alloc ⟨a, 0⟩, currDir := k.dirs.next }

theorem dirOpen_spec (hi : k.inodes.cell a = some i) :
    wp (dirOpen a) (fun p k' => p = k.dirs.next ∧ k' = k.enter a) (fun _ => False) k := by
  rw [dirOpen, if_neg (k.inodes.ne_null hi), wp_bind, wp_gets, wp_bind, wp_modify, wp_bind]
  refine wp_inodeAt hi ?_
  rw [wp_bind, incrementOpenCnt, updateInode, wp_modify, wp_pure]
  exact ⟨rfl, rfl⟩

/-- **`dir_open`** takes an inode over. -/
theorem Sound.enter (h : Sound k N x) (hi : k.inodes.cell a = some i) : Sound (k.enter a) N x ∧ Still ∅ k N (k.enter a) N := by
  refine h.holder hi rfl rfl rfl rfl rfl rfl ?_ (fun b hb => ?_) (fun p f hp => hp) (fun p f hp => .inl hp) fun p d hp => ?_
  · change k.files.count _ + (k.dirs.alloc _).count _ = _
    rw [Heap.count_alloc]
    simp only [beq_self_eq_true, Bool.toNat_true, Fs.holders]
    omega
  · change k.files.count _ + (k.dirs.alloc _).count _ = _
    rw [Heap.count_alloc, beq_eq_false_iff_ne.2 (Ne.symm hb)]
    rfl
  · by_cases hp' : p = k.dirs.next
    · subst hp'
      change (k.dirs.alloc _).cell _ = _ at hp
      rw [Heap.cell_alloc_self] at hp
      cases hp
      exact .inr rfl
    · exact .inl ((k.dirs.cell_alloc_of_ne _ hp').symm.trans hp)

/-- `dir_open_root` brings the root directory's inode into memory and makes a directory for it. -/
theorem dirOpenRoot_spec (h : Sound k N x) :
    wp (dirOpenRoot) (fun p k' => ∃ a k₁, Opens k 1 a k₁ ∧ p = k₁.dirs.next ∧ k' = k₁.enter a) (fun _ => False) k := by
  obtain ⟨nd, hN⟩ := h.root
  rw [dirOpenRoot, wp_bind]
  refine wp_post (inodeOpen_opens h.wf hN) ?_
  intro a k₁ ho
  obtain ⟨i, hi, -⟩ := ho.cell_self
  refine wp_post (dirOpen_spec hi) ?_
  rintro p k' ⟨rfl, rfl⟩
  exact ⟨a, k₁, ho, rfl, rfl⟩

/-- The first half of `dir_close` closes the inode and frees the directory. -/
theorem Sound.dirClose {d : Dir} {k₁ : Fs} (h : Sound k N x) (hd : k.dirs.cell p = some d)
    (hi : k.inodes.cell d.inode = some i) (hc : Closes k N d.inode i k₁ N') :
    Sound { k₁ with dirs := k.dirs.free p } N' x ∧ Still ∅ k N { k₁ with dirs := k.dirs.free p } N' := by
  have hfree := fun b => k.dirs.count_free (fun g => g.inode == b) hd
  have hself := hfree d.inode
  rw [beq_self_eq_true, Bool.toNat_true] at hself
  refine h.release hc hi (fun hs => ?_) rfl rfl rfl rfl rfl hc.freeMapFile (by rw [← hc.files]) ?_
    (fun b hb => ?_) (fun _ _ => rfl) (fun q g hq => by rw [← hc.files]; exact hq) fun q d hq => k.dirs.cell_of_free hq
  · have hcount := h.counted.count _ i hi
    have := h.holders_pos hi hs
    unfold Fs.holders at hcount
    omega
  · change k₁.files.count _ + (k.dirs.free p).count _ + _ + 1 = _
    rw [hc.files, Fs.holders]
    omega
  · change k₁.files.count _ + (k.dirs.free p).count _ = _
    have := hfree b
    rw [beq_eq_false_iff_ne.2 (Ne.symm hb)] at this
    rw [hc.files, Fs.holders, ← this]
    rfl

/-- **`dir_close`** closes a directory and opens the root directory. -/
theorem dirClose_spec {d : Dir} (h : Sound k N x) (hd : k.dirs.cell p = some d) (hi : k.inodes.cell d.inode = some i) :
    wp (dirClose p)
      (fun _ k' => ∃ k₁ N' k₂ a, Closes k N d.inode i k₁ N' ∧ Opens { k₁ with dirs := k.dirs.free p } 1 a k₂ ∧ k' = k₂.enter a)
      (Unless (MapClear k N)) k := by
  rw [dirClose, wp_bind, onlyIf, if_pos (k.dirs.ne_null hd), wp_bind]
  refine wp_dirAt hd ?_
  rw [wp_bind]
  refine wp_post (inodeClose_closes h.wf h.map hi (h.removed _ i hi)) ?_
  rintro - k₁ ⟨N', hc⟩
  rw [wp_modify, wp_bind, hc.dirs]
  refine wp_mono (dirOpenRoot_spec (h.dirClose hd hi hc).1) ?_ fun _ he => he.elim
  rintro q k' ⟨a, k₂, ho, -, rfl⟩
  exact ⟨k₁, N', k₂, a, hc, ho, rfl⟩

end Pintos
