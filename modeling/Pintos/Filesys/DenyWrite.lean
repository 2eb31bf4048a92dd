import Pintos.Filesys.Mirror

/-!
# Denied writes

`file_deny_write` and `file_allow_write` along whole runs: the count of an inode
is the number of its files that deny writes, and while it is positive no write
through any file changes the inode (`deny_write_counts`).

The free map's inode may be denied too. Then `free_map_allocate` fails, since the
map cannot be written, and growing an inode by a sector panics; a write that
returns has not allocated anything, and has done just what it would do without a
file for the free map (`Mimics`).
-/

namespace Pintos

open Library Library.Prog

variable {α β : Type} {k k' : Fs} {N : Nodes} {s a p : ℕ} {i : Inode} {f : File} {nd nd' : Node} {own made : Finset ℕ}

/-! ### While writes to the free map are denied -/

/-- Writes to the free map's file are denied. -/
def MapDenied (k : Fs) : Prop :=
  ∃ f i, k.files.cell k.freeMapFile = some f ∧ k.inodes.cell f.inode = some i ∧ i.denyWriteCnt ≠ 0

/-- The same file system without a file for the free map. -/
def Fs.unmapped (k : Fs) : Fs := { k with freeMapFile := 0 }

/-- **While writes to the free map are denied**, what is known of the program without a file for the map is
true if it returns. -/
def Mimics (m : FsM α) : Prop :=
  ∀ k Q, MapDenied k → wp m Q (fun _ => True) k.unmapped →
    wp m (fun r k' => Q r k'.unmapped ∧ MapDenied k' ∧ k'.freeMapFile = k.freeMapFile) (fun _ => True) k

/-- The handles stay as they are. -/
theorem MapDenied.steady (h : MapDenied k) (hs : Steady k k') : MapDenied k' := by
  obtain ⟨f, i, hf, hi, hdeny⟩ := h
  obtain ⟨d, hd⟩ := hs.cell hi
  exact ⟨f, _, by rw [hs.files, hs.freeMapFile]; exact hf, hd, hdeny⟩

namespace Mimics

variable {m n : FsM α} {g : α → FsM β}

theorem pure (x : α) : Mimics (Pure.pure x : FsM α) := fun _ _ h hQ => ⟨hQ, h, rfl⟩

theorem stop (e : Halt) : Mimics (Prog.stop e : FsM α) := fun _ _ _ _ => trivial

theorem gets {q : Fs → α} (hq : ∀ k, q k.unmapped = q k) : Mimics (Prog.gets q) := by
  intro k Q h hQ
  rw [wp_gets, hq] at hQ
  exact ⟨hQ, h, rfl⟩

/-- A change that keeps the handles. -/
theorem modify {q : Fs → Fs} (hs : ∀ k, Steady k (q k)) (hq : ∀ k, q k.unmapped = (q k).unmapped) : Mimics (Prog.modify q) := by
  intro k Q h hQ
  rw [wp_modify, hq] at hQ
  exact ⟨hQ, h.steady (hs k), (hs k).freeMapFile⟩

theorem bind (hm : Mimics m) (hg : ∀ x, Mimics (g x)) : Mimics (m >>= g) := by
  intro k Q h hQ
  rw [wp_bind] at hQ ⊢
  refine wp_post (hm k _ h hQ) ?_
  rintro x k₁ ⟨hQ₁, h₁, hf₁⟩
  refine wp_post (hg x k₁ Q h₁ hQ₁) ?_
  rintro y k₂ ⟨hQ₂, h₂, hf₂⟩
  exact ⟨hQ₂, h₂, hf₂.trans hf₁⟩

theorem ite {c : Prop} [Decidable c] (hm : Mimics m) (hn : Mimics n) : Mimics (if c then m else n) := by
  split_ifs
  · exact hm
  · exact hn

theorem dite {c : Prop} [Decidable c] {m : c → FsM α} {n : ¬ c → FsM α} (hm : ∀ h, Mimics (m h)) (hn : ∀ h, Mimics (n h)) :
    Mimics (if h : c then m h else n h) := by
  split_ifs with h
  · exact hm h
  · exact hn h

theorem onlyIf {c : Prop} [Decidable c] {m : FsM Unit} (hm : Mimics m) : Mimics (Prog.onlyIf c m) := ite hm (pure ())

theorem orStop (o : Option α) (e : Halt) : Mimics (Prog.orStop o e) := by
  cases o with
  | none => exact stop e
  | some x => exact pure x

theorem cached (m : CacheM α) : Mimics (cached m) := by
  intro k Q h hQ
  rw [Pintos.cached, wp_within] at hQ ⊢
  refine wp_post hQ fun x B hB => ⟨hB, ?_, rfl⟩
  exact h.steady ⟨rfl, rfl, rfl, rfl, rfl, fun _ => rfl, rfl⟩

/-- A program that does not return. -/
theorem of_never (hm : ∀ k, MapDenied k → wp m (fun _ _ => False) (fun _ => True) k) : Mimics m := fun k _ h _ =>
  wp_post (hm k h) fun _ _ hf => hf.elim

end Mimics

/-- The free map cannot be written. -/
theorem persistFreeMap_denied (h : MapDenied k) (hpos : 0 < k.freeMap.fileSize) :
    wp persistFreeMap (fun ok k' => ok = false ∧ k' = k) (fun _ => True) k := by
  obtain ⟨f, i, hf, hi, hdeny⟩ := h
  rw [persistFreeMap, bitmapWrite, wp_bind, wp_gets, wp_bind, wp_gets, wp_bind]
  refine wp_fileAt hf ?_
  rw [wp_bind, inodeWriteAt, wp_bind]
  refine wp_inodeAt hi ?_
  rw [if_pos hdeny, wp_pure, wp_pure]
  exact ⟨beq_eq_false_iff_ne.2 hpos.ne, rfl⟩

/-- No sector is allocated. -/
theorem freeMapAllocate_denied (h : MapDenied k) :
    wp (freeMapAllocate persistFreeMap 1) (fun o k' => o = none ∧ k' = k) (fun _ => True) k := by
  rw [freeMapAllocate, wp_bind, wp_gets]
  cases hscan : k.freeMap.scan 0 1 false with
  | none => exact ⟨rfl, rfl⟩
  | some b =>
    obtain ⟨hlt, hclear, -⟩ := Bitmap.scan_one_eq_some hscan
    obtain ⟨f, i, hf, hi, hdeny⟩ := id h
    have hpos : 0 < (k.freeMap.setMultiple b 1 true).fileSize := by
      change 0 < 4 * ((k.freeMap.bitCnt + 31) / 32)
      omega
    rw [wp_bind, wp_modify, wp_bind, wp_gets, if_neg (k.files.ne_null hf), wp_bind]
    have hpersist : wp persistFreeMap _ _ { k with freeMap := k.freeMap.setMultiple b 1 true } :=
      persistFreeMap_denied (k := { k with freeMap := k.freeMap.setMultiple b 1 true }) ⟨f, i, hf, hi, hdeny⟩ hpos
    refine wp_post hpersist ?_
    rintro ok k' ⟨rfl, rfl⟩
    rw [if_neg (by decide), wp_bind, wp_modify, wp_pure, setMultiple_clear hclear]
    exact ⟨rfl, rfl⟩

/-! ### Growing and writing -/

theorem inodeAt_mimics (a : ℕ) : Mimics (inodeAt a) := .bind (.gets fun _ => rfl) fun _ => .orStop _ _

theorem tableAt_mimics (t j : ℕ) : Mimics (tableAt t j) :=
  .bind (.gets fun _ => rfl) fun _ => .bind (.orStop _ _) fun _ => .dite (fun _ => .pure _) fun _ => .stop _

theorem newTable_mimics (T : Table) : Mimics (newTable T) :=
  .bind (.gets fun _ => rfl) fun _ => .ite
    (.bind (.modify (fun _ => ⟨rfl, rfl, rfl, rfl, rfl, fun _ => rfl, rfl⟩) fun _ => rfl) fun _ => .pure _) (.stop _)

theorem readData_mimics (r : DataRef) : Mimics (readData r) := by
  cases r with
  | inode a => exact .bind (inodeAt_mimics a) fun _ => .pure _
  | temp => exact .gets fun _ => rfl

/-- Changing the data of an inode keeps the handles. -/
theorem updateData_mimics (g : InodeDisk → InodeDisk) (r : DataRef) : Mimics (updateData g r) := by
  cases r with
  | temp => exact .modify (fun _ => ⟨rfl, rfl, rfl, rfl, rfl, fun _ => rfl, rfl⟩) fun _ => rfl
  | inode a =>
    refine .modify (fun k => ⟨rfl, rfl, rfl, rfl, rfl, fun b => ?_, rfl⟩) fun _ => rfl
    by_cases hb : b = a
    · subst hb
      rw [Heap.cell_set_self, Option.map_map]
      rfl
    · rw [Heap.cell_set_of_ne _ _ hb]

theorem allocateSlot_mimics (r : DataRef) (slot : Slot) : Mimics (allocateSlot persistFreeMap r slot) := by
  refine .of_never fun k h => ?_
  rw [allocateSlot, wp_bind]
  refine wp_post (freeMapAllocate_denied h) ?_
  rintro o k' ⟨rfl, -⟩
  rw [wp_bind, wp_orStop]
  exact ⟨by simp, fun _ => trivial⟩

theorem indirectTable_mimics (r : DataRef) (n : ℕ) : Mimics (indirectTable r n) :=
  .bind (readData_mimics r) fun _ => .ite
    (.ite (.bind (newTable_mimics _) fun _ => .bind (updateData_mimics _ r) fun _ => .pure _) (.stop _)) (.pure _)

theorem doublyIndirectTable_mimics (r : DataRef) : Mimics (doublyIndirectTable r) :=
  .bind (readData_mimics r) fun _ => .ite
    (.bind (newTable_mimics _) fun _ => .bind (updateData_mimics _ r) fun _ => .pure _) (tableAt_mimics _ _)

theorem doublySlot_mimics (r : DataRef) (i : ℕ) : Mimics (doublySlot r i) :=
  .bind (doublyIndirectTable_mimics r) fun _ => .bind (tableAt_mimics _ _) fun _ =>
    .ite (.bind (newTable_mimics _) fun _ => .pure _) (.pure _)

theorem growLoop_mimics (r : DataRef) {slot : ℕ → FsM Slot} (hslot : ∀ i, Mimics (slot i)) (i n : ℕ) :
    Mimics (growLoop persistFreeMap r slot i n) := by
  induction n generalizing i with
  | zero => exact .pure _
  | succ n ih => exact .bind (hslot i) fun s => .bind (allocateSlot_mimics r s) fun _ => ih (i + 1)

theorem inodeGrow_mimics (s : ℕ) (r : DataRef) (L : ℤ) : Mimics (inodeGrow persistFreeMap s r L) := by
  have hend : Mimics (do
      updateData (fun d => { d with length := L }) r
      let d ← readData r
      cached (bufferCacheWrite s d.bytes 0 sectorSize)
      Pure.pure true) :=
    .bind (updateData_mimics _ r) fun _ => .bind (readData_mimics r) fun _ => .bind (.cached _) fun _ => .pure _
  refine .bind (readData_mimics r) fun d => .ite (.pure _) (.bind (.gets fun _ => rfl) fun _ => .ite (.stop _) ?_)
  refine .ite (.bind (growLoop_mimics r (fun _ => .pure _) _ _) fun _ => hend) (.ite ?_ (.ite ?_ ?_))
  · exact .bind (indirectTable_mimics r _) fun t => .bind (growLoop_mimics r (fun _ => .pure _) _ _) fun _ => hend
  · exact .bind (doublyIndirectTable_mimics r) fun _ => .bind (growLoop_mimics r (doublySlot_mimics r) _ _) fun _ => hend
  · exact .bind (.stop _) fun _ => hend

theorem startAt_mimics (d : InodeDisk) (j : ℕ) : Mimics (startAt d j) := .dite (fun _ => .pure _) fun _ => .stop _

theorem sectorOf_mimics (a : ℕ) (pos : ℤ) : Mimics (sectorOf a pos) :=
  .bind (inodeAt_mimics a) fun _ => .ite (startAt_mimics _ _) (.ite (.stop _) (.ite (startAt_mimics _ _)
    (.ite (tableAt_mimics _ _) (.ite (.stop _) (.stop _)))))

theorem byteToSector_mimics (a : ℕ) (pos : ℤ) : Mimics (byteToSector persistFreeMap a pos) :=
  .bind (inodeAt_mimics a) fun _ => .bind (inodeGrow_mimics _ _ _) fun _ => sectorOf_mimics a pos

theorem writeLoop_mimics (a : ℕ) (buffer : ℕ → UInt8) (n : ℕ) (size offset : ℤ) (written : ℕ) :
    Mimics (writeLoop persistFreeMap a buffer n size offset written) := by
  induction n generalizing size offset written with
  | zero => exact .pure _
  | succ n ih =>
    refine .ite (.pure _) (.bind (inodeAt_mimics a) fun i => .bind (.onlyIf ?_) fun _ => .bind (inodeAt_mimics a) fun i => ?_)
    · exact .bind (inodeGrow_mimics _ _ _) fun _ => .pure _
    · exact .bind (byteToSector_mimics a _) fun s => .ite (.pure _) (.bind (.cached _) fun _ => ih _ _ _)

theorem inodeWriteAt_mimics (a : ℕ) (buffer : ℕ → UInt8) (size offset : ℤ) :
    Mimics (inodeWriteAt persistFreeMap a buffer size offset) :=
  .bind (inodeAt_mimics a) fun _ => .ite (.pure _) (writeLoop_mimics a buffer _ _ _ _)

theorem inodeCreate_mimics (s : ℕ) (length : ℤ) (isdir : Bool) : Mimics (inodeCreate s length isdir) :=
  .ite (.bind (.modify (fun _ => ⟨rfl, rfl, rfl, rfl, rfl, fun _ => rfl, rfl⟩) fun _ => rfl) fun _ =>
    .bind (inodeGrow_mimics _ _ _) fun _ => .bind (.onlyIf (.bind (readData_mimics _) fun _ => .cached _)) fun _ => .pure _)
    (.stop _)

/-! ### What writing does -/

theorem Wf.of_unmapped {u : ℕ} (h : Wf k.unmapped N u) : Wf k N u := ⟨h.cache, h.laid, h.opened⟩

theorem Wf.unmapped {u : ℕ} (h : Wf k N u) : Wf k.unmapped N u := ⟨h.cache, h.laid, h.opened⟩

/-- **What a write or a creation does** to the file in sector `s`. The free map's file keeps its bytes while
writes to it are denied. -/
structure Rewritten (k : Fs) (N : Nodes) (s : ℕ) (nd : Node) (new : List ℕ) (nd' : Node) (k' : Fs) : Prop where
  wf : Wf k' (Function.update N s (some nd')) 0
  steady : Steady k k'
  bitCnt : k'.freeMap.bitCnt = k.freeMap.bitCnt
  length_le : nd.length ≤ nd'.length
  blocks : nd'.blocks = nd.blocks ++ new
  fresh : ∀ b ∈ new, k.freeMap.bit b = false
  bits : ∀ j, k'.freeMap.bit j = (k.freeMap.bit j || decide (j ∈ new))
  other : ∀ t nd₁, N t = some nd₁ → t ≠ s → t ≠ 0 ∨ MapDenied k → ∀ j < 512 * nd₁.blocks.length,
    byteAt k'.buffers nd₁ j = byteAt k.buffers nd₁ j

theorem Rewritten.of_edited {new : List ℕ} (h : Edited k N s nd new nd' k') (hopen : ¬ MapDenied k) :
    Rewritten k N s nd new nd' k' :=
  ⟨h.wf, h.steady, h.bitCnt, h.length_le, h.blocks, fun b hb => (h.fresh b hb).2, h.bits,
    fun t nd₁ hN hs h0 => h.other t nd₁ hN hs (.inl (h0.resolve_right hopen))⟩

theorem Rewritten.of_unmapped {new : List ℕ} (h : Edited k.unmapped N s nd new nd' k'.unmapped)
    (hf : k'.freeMapFile = k.freeMapFile) : Rewritten k N s nd new nd' k' :=
  ⟨h.wf.of_unmapped, ⟨h.steady.files, h.steady.dirs, h.steady.openInodes, hf, h.steady.currDir, h.steady.inodes, h.steady.next⟩,
    h.bitCnt, h.length_le, h.blocks, fun b hb => (h.fresh b hb).2, h.bits,
    fun t nd₁ hN hs _ => h.other t nd₁ hN hs (.inr rfl)⟩

/-! ### The invariant -/

/-- How many files deny writes to the inode at `a`. -/
def Fs.deniers (k : Fs) (a : ℕ) : ℕ := k.files.count fun f => f.inode == a && f.denyWrite

/-- **The counts are those of the files**, and every inode has an opener that is not one of its files. The
sectors `own` are marked and belong to no file. -/
structure Denying (k : Fs) (N : Nodes) (own made : Finset ℕ) : Prop where
  wf : Wf k N 0
  map : ∃ f i nd, k.files.cell k.freeMapFile = some f ∧ k.inodes.cell f.inode = some i ∧ i.sector = 0 ∧ N 0 = some nd ∧
    k.freeMap.fileSize ≤ nd.length
  owned : ∀ b ∈ own, 2 ≤ b ∧ b < k.freeMap.bitCnt ∧ k.freeMap.bit b = true ∧ ∀ s nd, N s = some nd → b ∉ s :: nd.blocks
  known : ∀ s ∈ made, ∃ nd, N s = some nd
  files : ∀ p f, k.files.cell p = some f → (∃ i, k.inodes.cell f.inode = some i) ∧ 0 ≤ f.pos ∧ f.pos ≤ 512 * 512
  deny : ∀ a i, k.inodes.cell a = some i → i.denyWriteCnt = k.deniers a
  opened : ∀ a i, k.inodes.cell a = some i → (k.files.count (fun f => f.inode == a) : ℤ) + 1 ≤ i.openCnt

namespace Denying

variable (h : Denying k N own made)

include h

/-- The free map can be written, or writes to it are denied. -/
theorem map_cases : MapOpen k N ∧ ¬ MapDenied k ∨ MapDenied k := by
  obtain ⟨f, i, nd, hf, hi, hsec, hN, hle⟩ := h.map
  by_cases hdeny : i.denyWriteCnt = 0
  · refine .inl ⟨⟨f, i, nd, hf, hi, hsec, hdeny, hN, hle⟩, ?_⟩
    rintro ⟨f', i', hf', hi', hdeny'⟩
    rw [hf] at hf'
    cases hf'
    rw [hi] at hi'
    cases hi'
    exact hdeny' hdeny
  · exact .inr ⟨f, i, hf, hi, hdeny⟩

/-- A sector that no file has is the sector of no inode. -/
theorem node_of_owned (hs : s ∈ own) : N s = none := by
  cases hN : N s with
  | none => rfl
  | some nd => exact absurd List.mem_cons_self ((h.owned s hs).2.2.2 s nd hN)

omit h in
theorem deniers_le (k : Fs) (a : ℕ) : k.deniers a ≤ k.files.count fun f => f.inode == a :=
  k.files.count_le fun _ hf => (Bool.and_eq_true_iff.1 hf).1

/-- Files and counts change, and the inodes otherwise do not. -/
theorem handles {F : Heap File} {I : Heap Inode}
    (hI : ∀ a i', I.cell a = some i' → ∃ i, k.inodes.cell a = some i ∧ i'.sector = i.sector ∧ i'.data = i.data)
    (hback : ∀ a i, k.inodes.cell a = some i → ∃ i', I.cell a = some i')
    (hmap : ∀ f, k.files.cell k.freeMapFile = some f → ∃ f', F.cell k.freeMapFile = some f' ∧ f'.inode = f.inode)
    (hfiles : ∀ p f, F.cell p = some f → (∃ i, k.inodes.cell f.inode = some i) ∧ 0 ≤ f.pos ∧ f.pos ≤ 512 * 512)
    (hdeny : ∀ a i, I.cell a = some i → i.denyWriteCnt = F.count fun f => f.inode == a && f.denyWrite)
    (hopened : ∀ a i, I.cell a = some i → (F.count (fun f => f.inode == a) : ℤ) + 1 ≤ i.openCnt) :
    Denying { k with files := F, inodes := I } N own made := by
  have hw := h.wf.of_inodes (l := k.openInodes) hI h.wf.opened.nodup fun a => by
    rw [h.wf.mem_iff a]
    exact ⟨fun ⟨i, hi⟩ => hback a i hi, fun ⟨i', hi'⟩ => (hI a i' hi').imp fun _ hi => hi.1⟩
  refine ⟨⟨hw.cache, hw.laid, hw.opened⟩, ?_, h.owned, h.known, fun p f hp => ?_, hdeny, hopened⟩
  · obtain ⟨f, i, nd, hf, hi, hsec, hN, hle⟩ := h.map
    obtain ⟨f', hf', heq⟩ := hmap f hf
    obtain ⟨i', hi'⟩ := hback _ i hi
    obtain ⟨j, hj, hs, -⟩ := hI _ i' hi'
    rw [hi] at hj
    cases hj
    exact ⟨f', i', nd, hf', by rw [heq]; exact hi', hs.trans hsec, hN, hle⟩
  · obtain ⟨⟨i, hi⟩, hpos⟩ := hfiles p f hp
    exact ⟨hback _ i hi, hpos⟩

/-- A file changes or comes. -/
theorem rewritten {new : List ℕ} {own' made' : Finset ℕ} (he : Rewritten k N s nd new nd' k')
    (hN : N s = some nd ∨ N s = none) (hown : ∀ b ∈ own', b ∈ own ∧ b ∉ s :: nd.blocks)
    (hmade : ∀ t ∈ made', t = s ∨ t ∈ made) : Denying k' (Function.update N s (some nd')) own' made' := by
  have hback : ∀ a i', k'.inodes.cell a = some i' → ∃ i, k.inodes.cell a = some i ∧ i.handle = i'.handle := by
    intro a i' hi'
    have hcell := he.steady.inodes a
    rw [hi'] at hcell
    exact Option.map_eq_some_iff.1 hcell.symm
  refine ⟨he.wf, ?_, fun b hb => ?_, fun t ht => ?_, fun p f hp => ?_, fun a i' hi' => ?_, fun a i' hi' => ?_⟩
  · obtain ⟨f, i, nd₀, hf, hi, hsec, hN₀, hle⟩ := h.map
    obtain ⟨d, hd⟩ := he.steady.cell hi
    have hfile : k'.freeMap.fileSize = k.freeMap.fileSize := congrArg Bitmap.byteCnt he.bitCnt
    by_cases hs : s = 0
    · subst hs
      have hnd : nd₀ = nd := by
        rcases hN with hN | hN
        · rw [hN₀] at hN
          exact Option.some.inj hN
        · rw [hN₀] at hN
          cases hN
      subst hnd
      exact ⟨f, _, nd', by rw [he.steady.files, he.steady.freeMapFile]; exact hf, hd, hsec, Function.update_self _ _ _,
        by rw [hfile]; exact hle.trans he.length_le⟩
    · exact ⟨f, _, nd₀, by rw [he.steady.files, he.steady.freeMapFile]; exact hf, hd, hsec,
        by rw [Function.update_of_ne (Ne.symm hs)]; exact hN₀, by rw [hfile]; exact hle⟩
  · obtain ⟨hmem, hnot⟩ := hown b hb
    obtain ⟨h2, hlt, hbit, hno⟩ := h.owned b hmem
    refine ⟨h2, by rw [he.bitCnt]; exact hlt, by rw [he.bits, hbit, Bool.true_or], fun t nd₁ ht => ?_⟩
    by_cases hts : t = s
    · subst hts
      rw [Function.update_self] at ht
      cases ht
      rw [he.blocks, List.mem_cons, List.mem_append]
      rintro (rfl | hold | hnew)
      · exact hnot List.mem_cons_self
      · exact hnot (List.mem_cons_of_mem _ hold)
      · -- the sectors that the file took were free
        have := he.fresh b hnew
        rw [hbit] at this
        cases this
    · rw [Function.update_of_ne hts] at ht
      exact hno t nd₁ ht
  · by_cases hts : t = s
    · exact ⟨nd', by rw [hts, Function.update_self]⟩
    · obtain ⟨nd₁, hN₁⟩ := h.known t ((hmade t ht).resolve_left hts)
      exact ⟨nd₁, by rw [Function.update_of_ne hts]; exact hN₁⟩
  · rw [he.steady.files] at hp
    obtain ⟨⟨i, hi⟩, hpos⟩ := h.files p f hp
    obtain ⟨d, hd⟩ := he.steady.cell hi
    exact ⟨⟨_, hd⟩, hpos⟩
  · obtain ⟨i, hi, heq⟩ := hback a i' hi'
    simp only [Inode.handle, Prod.mk.injEq] at heq
    rw [← heq.2.2.2, Fs.deniers, he.steady.files]
    exact h.deny a i hi
  · obtain ⟨i, hi, heq⟩ := hback a i' hi'
    simp only [Inode.handle, Prod.mk.injEq] at heq
    rw [← heq.2.1, he.steady.files]
    exact h.opened a i hi

/-- An inode is opened. -/
theorem opens (ho : Opens k s a k') (hN : N s = some nd) : Denying k' N own made := by
  have hfresh : k.inodes.cell a = none → k.files.count (fun f => f.inode == a) = 0 := by
    refine fun hnone => k.files.count_eq_zero fun p f hp => beq_eq_false_iff_ne.2 fun heq => ?_
    obtain ⟨⟨i, hi⟩, -⟩ := h.files p f hp
    rw [heq, hnone] at hi
    cases hi
  have hcell : ∀ b i', k'.inodes.cell b = some i' →
      (∃ i, k.inodes.cell b = some i ∧ i'.denyWriteCnt = i.denyWriteCnt ∧ i.openCnt ≤ i'.openCnt) ∨
        k.inodes.cell b = none ∧ b = a ∧ i'.denyWriteCnt = 0 ∧ i'.openCnt = 1 := by
    intro b i' hi'
    by_cases hb : b = a
    · subst hb
      obtain ⟨j, hj, -, hcase⟩ := ho.cell_self
      rw [hi'] at hj
      cases hj
      rcases hcase with ⟨i, hi, rfl⟩ | ⟨hnone, hcnt, -, hdeny⟩
      · exact .inl ⟨i, hi, rfl, by simp⟩
      · exact .inr ⟨hnone, rfl, hdeny, hcnt⟩
    · rw [ho.cell_of_ne hb] at hi'
      exact .inl ⟨i', hi', rfl, le_rfl⟩
  refine ⟨ho.wf h.wf hN, ?_, by rw [ho.freeMap]; exact h.owned, h.known, fun p f hp => ?_, fun b i' hi' => ?_, fun b i' hi' => ?_⟩
  · obtain ⟨f, i, nd₀, hf, hi, hsec, hN₀, hle⟩ := h.map
    exact ⟨f, _, nd₀, by rw [ho.files, ho.freeMapFile]; exact hf, ho.cell hi, hsec, hN₀, by rw [ho.freeMap]; exact hle⟩
  · rw [ho.files] at hp
    obtain ⟨⟨i, hi⟩, hpos⟩ := h.files p f hp
    exact ⟨⟨_, ho.cell hi⟩, hpos⟩
  · rw [Fs.deniers, ho.files]
    rcases hcell b i' hi' with ⟨i, hi, hdeny, -⟩ | ⟨hnone, rfl, hdeny, -⟩
    · rw [hdeny]
      exact h.deny b i hi
    · have hle := Denying.deniers_le k b
      rw [hfresh hnone] at hle
      rw [hdeny]
      unfold Fs.deniers at hle
      omega
  · rw [ho.files]
    rcases hcell b i' hi' with ⟨i, hi, -, hle⟩ | ⟨hnone, rfl, -, hcnt⟩
    · exact (h.opened b i hi).trans hle
    · rw [hfresh hnone, hcnt]
      decide

end Denying

/-! ### Files -/

/-- The flag of the file at `p` and the count of the inode at `a` change together. -/
def Fs.setDeny (k : Fs) (p a : ℕ) (v : Bool) (n : ℤ) : Fs :=
  { k with files := k.files.set p fun f => { f with denyWrite := v },
           inodes := k.inodes.set a fun i => { i with denyWriteCnt := i.denyWriteCnt + n } }

/-- The file `f` at `p` no longer denies writes. -/
def Fs.allow (k : Fs) (p : ℕ) (f : File) : Fs := if f.denyWrite then k.setDeny p f.inode false (-1) else k

theorem Fs.allow_cell_self (hf : k.files.cell p = some f) :
    (k.allow p f).files.cell p = some { f with denyWrite := false } := by
  rw [Fs.allow]
  split_ifs with hv
  · rw [Fs.setDeny, Heap.cell_set_self, hf]
    rfl
  · rw [hf, ← Bool.eq_false_iff.2 hv]

theorem Fs.allow_cell_of_ne {q : ℕ} (hq : q ≠ p) : (k.allow p f).files.cell q = k.files.cell q := by
  rw [Fs.allow]
  split_ifs
  · exact k.files.cell_set_of_ne _ hq
  · rfl

theorem Fs.allow_freeMapFile (k : Fs) (p : ℕ) (f : File) : (k.allow p f).freeMapFile = k.freeMapFile := by
  rw [Fs.allow]
  split_ifs <;> rfl

namespace Denying

variable (h : Denying k N own made) (hf : k.files.cell p = some f)

include h

/-- A new file for an inode. -/
theorem openFile (hi : k.inodes.cell a = some i) :
    Denying { k.openers a 1 with files := k.files.alloc ⟨a, 0, false⟩ } N own made := by
  have hcell := fun b i' (hi' : (k.openers a 1).inodes.cell b = some i') => k.inodes.cell_of_set hi'
  refine h.handles (fun b i' hi' => ?_) (fun b j hj => ⟨_, k.inodes.cell_set _ hj⟩)
    (fun g hg => ⟨g, k.files.cell_alloc _ hg, rfl⟩) (fun q g hg => ?_) (fun b i' hi' => ?_) fun b i' hi' => ?_
  · obtain ⟨j, hj, rfl⟩ := hcell b i' hi'
    refine ⟨j, hj, ?_⟩
    split_ifs <;> exact ⟨rfl, rfl⟩
  · by_cases hq : q = k.files.next
    · rw [hq, Heap.cell_alloc_self] at hg
      cases hg
      exact ⟨⟨i, hi⟩, le_rfl, show (0 : ℤ) ≤ 512 * 512 by decide⟩
    · rw [Heap.cell_alloc_of_ne _ _ hq] at hg
      exact h.files q g hg
  · obtain ⟨j, hj, rfl⟩ := hcell b i' hi'
    rw [Heap.count_alloc, Bool.and_false]
    split_ifs <;> exact h.deny b j hj
  · obtain ⟨j, hj, rfl⟩ := hcell b i' hi'
    have hopen := h.opened b j hj
    rw [Heap.count_alloc]
    split_ifs with hb
    · rw [hb, beq_self_eq_true, Bool.toNat_true, ← hb]
      push_cast
      omega
    · rw [beq_eq_false_iff_ne.2 (Ne.symm hb), Bool.toNat_false]
      exact hopen

include hf

/-- A file sets its flag or clears it. -/
theorem setDeny {v : Bool} {n : ℤ} (hv : f.denyWrite = !v) (hn : n = if v then 1 else -1) :
    Denying (k.setDeny p f.inode v n) N own made := by
  have hset := fun P => k.files.count_set P (fun g => { g with denyWrite := v }) hf
  have hsame : ∀ b, (k.files.set p fun g => { g with denyWrite := v }).count (fun g => g.inode == b) =
      k.files.count fun g => g.inode == b := fun b => Nat.add_right_cancel (hset fun g => g.inode == b)
  have hcell := fun b i' (hi' : (k.setDeny p f.inode v n).inodes.cell b = some i') => k.inodes.cell_of_set hi'
  refine h.handles (fun b i' hi' => ?_) (fun b j hj => ⟨_, k.inodes.cell_set _ hj⟩) (fun g hg => ⟨_, k.files.cell_set _ hg, ?_⟩)
    (fun q g hg => ?_) (fun b i' hi' => ?_) fun b i' hi' => ?_
  · obtain ⟨j, hj, rfl⟩ := hcell b i' hi'
    refine ⟨j, hj, ?_⟩
    split_ifs <;> exact ⟨rfl, rfl⟩
  · split_ifs <;> rfl
  · obtain ⟨g', hg', rfl⟩ := k.files.cell_of_set hg
    split_ifs <;> exact h.files q g' hg'
  · -- one denier more or less, of this inode only
    obtain ⟨j, hj, rfl⟩ := hcell b i' hi'
    have hdeny := h.deny b j hj
    have hcnt := hset fun g => g.inode == b && g.denyWrite
    unfold Fs.deniers at hdeny
    simp only [hv] at hcnt
    split_ifs with hb
    · rw [hb] at hdeny hcnt ⊢
      change j.denyWriteCnt + n = _
      rw [hdeny, hn]
      cases v <;> simp at hcnt ⊢ <;> omega
    · rw [beq_eq_false_iff_ne.2 (Ne.symm hb), Bool.false_and, Bool.false_and] at hcnt
      rw [hdeny, Nat.add_right_cancel hcnt]
  · obtain ⟨j, hj, rfl⟩ := hcell b i' hi'
    rw [hsame]
    split_ifs <;> exact h.opened b j hj

/-- A file that does not deny writes is closed. -/
theorem closeFile (hv : f.denyWrite = false) (hp : p ≠ k.freeMapFile) :
    Denying { k.openers f.inode (-1) with files := k.files.free p } N own made := by
  obtain ⟨⟨i, hi⟩, -⟩ := h.files p f hf
  have hfree := fun P => k.files.count_free P hf
  have hcell := fun b i' (hi' : (k.openers f.inode (-1)).inodes.cell b = some i') => k.inodes.cell_of_set hi'
  refine h.handles (fun b i' hi' => ?_) (fun b j hj => ⟨_, k.inodes.cell_set _ hj⟩) (fun g hg => ?_)
    (fun q g hg => h.files q g (k.files.cell_of_free hg)) (fun b i' hi' => ?_) fun b i' hi' => ?_
  · obtain ⟨j, hj, rfl⟩ := hcell b i' hi'
    refine ⟨j, hj, ?_⟩
    split_ifs <;> exact ⟨rfl, rfl⟩
  · exact ⟨g, by rw [Heap.cell_free_of_ne _ (Ne.symm hp)]; exact hg, rfl⟩
  · obtain ⟨j, hj, rfl⟩ := hcell b i' hi'
    have hcnt := hfree fun g => g.inode == b && g.denyWrite
    rw [hv, Bool.and_false, Bool.toNat_false, add_zero] at hcnt
    rw [hcnt]
    split_ifs <;> exact h.deny b j hj
  · obtain ⟨j, hj, rfl⟩ := hcell b i' hi'
    have hopen := h.opened b j hj
    have hcnt := hfree fun g => g.inode == b
    split_ifs with hb
    · rw [hb, beq_self_eq_true, Bool.toNat_true, ← hb] at hcnt
      change _ ≤ j.openCnt + -1
      omega
    · rw [beq_eq_false_iff_ne.2 (Ne.symm hb), Bool.toNat_false, add_zero] at hcnt
      rw [hcnt]
      exact hopen

/-- `file_deny_write` returns. -/
theorem fileDenyWrite_spec : wp (fileDenyWrite p)
    (fun _ k' => k' = if f.denyWrite then k else k.setDeny p f.inode true 1) (fun _ => False) k := by
  obtain ⟨⟨i, hi⟩, -⟩ := h.files p f hf
  rw [fileDenyWrite, wp_bind]
  refine wp_fileAt hf ?_
  rw [wp_onlyIf]
  refine ⟨fun hv => ?_, fun hv => by rw [if_pos (by simpa using hv)]⟩
  rw [if_neg (by simp [hv])]
  -- the file that is about to deny is counted as an opener already
  have hd := h.setDeny hf (v := true) (n := 1) (by simp [hv]) rfl
  have hcell : (k.setDeny p f.inode true 1).inodes.cell f.inode = some { i with denyWriteCnt := i.denyWriteCnt + 1 } := by
    rw [Fs.setDeny, Heap.cell_set_self, hi]
    rfl
  have hle := Denying.deniers_le (k.setDeny p f.inode true 1) f.inode
  have hdeny := hd.deny _ _ hcell
  have hopen := hd.opened _ _ hcell
  have hassert : i.denyWriteCnt + 1 ≤ i.openCnt := by
    change i.denyWriteCnt + 1 = _ at hdeny
    change _ ≤ i.openCnt at hopen
    omega
  rw [wp_bind, updateFile, wp_modify, inodeDenyWrite, wp_bind, updateInode, wp_modify, wp_bind]
  refine wp_inodeAt hcell ?_
  rw [if_pos hassert, wp_pure]
  rfl

theorem allow : Denying (k.allow p f) N own made := by
  rw [Fs.allow]
  split_ifs with hv
  · exact h.setDeny hf (by simp [hv]) rfl
  · exact h

/-- `file_allow_write` returns. -/
theorem fileAllowWrite_spec : wp (fileAllowWrite p) (fun _ k' => k' = k.allow p f) (fun _ => False) k := by
  obtain ⟨⟨i, hi⟩, -⟩ := h.files p f hf
  rw [fileAllowWrite, wp_bind]
  refine wp_fileAt hf ?_
  rw [wp_onlyIf, Fs.allow]
  refine ⟨fun hv => ?_, fun hv => by rw [if_neg hv]⟩
  rw [if_pos hv]
  -- the file is one of those that are counted
  have hpos : 0 < k.deniers f.inode := k.files.count_pos hf (by simp [hv])
  have hle := Denying.deniers_le k f.inode
  have hdeny := h.deny _ _ hi
  have hopen := h.opened _ _ hi
  rw [wp_bind, updateFile, wp_modify, inodeAllowWrite, wp_bind]
  refine wp_inodeAt hi ?_
  rw [if_pos ⟨by omega, by omega⟩, updateInode, wp_modify]
  rfl

/-- `file_close` returns, and the inode stays open. -/
theorem fileClose_spec : wp (fileClose p)
    (fun _ k' => k' = { (k.allow p f).openers f.inode (-1) with files := (k.allow p f).files.free p }) (fun _ => False) k := by
  have hd := h.allow hf
  have hcell := Fs.allow_cell_self hf
  obtain ⟨⟨i, hi⟩, -⟩ := hd.files p _ hcell
  have hopen : (((k.allow p f).files.count fun g => g.inode == f.inode) : ℤ) + 1 ≤ i.openCnt := hd.opened _ i hi
  have hpos := (k.allow p f).files.count_pos (P := fun g => g.inode == f.inode) hcell (beq_self_eq_true _)
  rw [fileClose, onlyIf, if_pos (k.files.ne_null hf), wp_bind]
  refine wp_post (h.fileAllowWrite_spec hf) ?_
  rintro - _ rfl
  rw [wp_bind]
  refine wp_fileAt hcell ?_
  rw [wp_bind]
  refine wp_post (inodeClose_more hi (by omega)) ?_
  rintro - _ rfl
  rw [wp_modify]
  rfl

end Denying

/-! ### Writing -/

namespace Denying

variable (h : Denying k N own made)

include h

/-- A program described by `Edited` while the free map can be written, and without a file for it. -/
theorem rewrites {m : FsM α} {Q : α → Prop} (hm : Mimics m)
    (hopen : MapOpen k N → wp m (fun x k' => ∃ new nd', Edited k N s nd new nd' k' ∧ Q x) (fun _ => True) k)
    (hnone : wp m (fun x k' => ∃ new nd', Edited k.unmapped N s nd new nd' k' ∧ Q x) (fun _ => True) k.unmapped) :
    wp m (fun x k' => ∃ new nd', Rewritten k N s nd new nd' k' ∧ Q x) (fun _ => True) k := by
  rcases h.map_cases with ⟨hmap, hallowed⟩ | hdenied
  · refine wp_post (hopen hmap) ?_
    rintro x k' ⟨new, nd', he, hQ⟩
    exact ⟨new, nd', .of_edited he hallowed, hQ⟩
  · refine wp_post (hm k _ hdenied hnone) ?_
    rintro x k' ⟨⟨new, nd', he, hQ⟩, -, hf⟩
    exact ⟨new, nd', .of_unmapped he hf, hQ⟩

/-- `inode_write_at` writes nothing while writes are denied, and else changes one file. -/
theorem inodeWriteAt_spec {buf : ℕ → UInt8} {size : ℤ} {off : ℕ} (hi : k.inodes.cell a = some i) (hN : N i.sector = some nd)
    (hsize : size < 2 ^ 31) (hoff : off < 2 ^ 31) :
    wp (inodeWriteAt persistFreeMap a buf size off)
      (fun n k' => i.denyWriteCnt ≠ 0 ∧ n = 0 ∧ k' = k ∨
        i.denyWriteCnt = 0 ∧ ∃ new nd', Rewritten k N i.sector nd new nd' k' ∧ (n ≠ 0 → off + n ≤ 512 * 512))
      (fun _ => True) k := by
  by_cases hdeny : i.denyWriteCnt = 0
  · have hspec : ∀ k₁ : Fs, Wf k₁ N 0 → (k₁.freeMapFile ≠ 0 → MapOpen k₁ N) → k₁.inodes = k.inodes →
        wp (inodeWriteAt persistFreeMap a buf size off)
          (fun n k' => ∃ new nd', Edited k₁ N i.sector nd new nd' k' ∧ (n ≠ 0 → off + n ≤ 512 * 512)) (fun _ => True) k₁ := by
      intro k₁ hw hm hI
      have hi₁ : k₁.inodes.cell a = some i := by rw [hI]; exact hi
      by_cases hpos : size ≤ 0
      · -- nothing to write
        rw [inodeWriteAt, wp_bind]
        refine wp_inodeAt hi₁ ?_
        rw [if_neg (not_not.2 hdeny), Int.toNat_of_nonpos hpos, writeLoop, wp_pure]
        exact ⟨[], nd, .refl hw hN, fun hn => absurd rfl hn⟩
      · obtain ⟨m, rfl⟩ := Int.eq_ofNat_of_zero_le (by omega : 0 ≤ size)
        refine wp_mono (Pintos.inodeWriteAt_spec hw hi₁ hN hdeny (fun _ => ⟨persistFreeMap_persists, hm⟩) persistFreeMap_stops
          (by omega) hoff) ?_ fun _ _ => trivial
        rintro n k' ⟨rfl, new, nd', hwrote⟩
        refine ⟨new, nd', hwrote.edited, fun hn => ?_⟩
        have hlt := (hwrote.edited.wf.laid.disk _ nd' (Function.update_self _ _ _)).length_lt
        rw [hwrote.length, lengthAfter, if_neg (by omega)] at hlt
        exact (le_max_right _ _).trans hlt
    have hrew := h.rewrites (Q := fun n => n ≠ 0 → off + n ≤ 512 * 512) (inodeWriteAt_mimics a buf size off) (fun hm => hspec k h.wf (fun _ => hm) rfl)
      (hspec k.unmapped h.wf.unmapped (fun h0 => absurd rfl h0) rfl)
    exact wp_post hrew fun n k' hk => .inr ⟨hdeny, hk⟩
  · rw [inodeWriteAt, wp_bind]
    refine wp_inodeAt hi ?_
    rw [if_pos hdeny, wp_pure]
    exact .inl ⟨hdeny, rfl, rfl⟩

/-- `inode_create` in a sector of the caller makes a file. -/
theorem inodeCreate_spec {L : ℤ} {isdir : Bool} (hs : s ∈ own) (hL : L < 2 ^ 31) :
    wp (inodeCreate s L isdir) (fun _ k' => ∃ new nd', Rewritten k N s (.empty isdir) new nd' k' ∧ True) (fun _ => True) k := by
  obtain ⟨h2, hlt, hbit, hno⟩ := h.owned s hs
  have hnode := h.node_of_owned hs
  have hroom : Laid.Room k.buffers k.freeMap N s (.empty isdir) := by
    refine ⟨fun b hb => ?_, by rintro _ ⟨⟩, by simp [Node.empty], fun t nd hN _ b hb => ?_, fun _ _ _ _ hz => absurd rfl hz⟩
    · rw [List.mem_singleton.1 hb, ← h.wf.laid.size]
      exact ⟨hlt, hbit⟩
    · rw [List.mem_singleton.1 hb]
      exact hno t nd hN
  refine h.rewrites (Q := fun _ => True) (inodeCreate_mimics s L isdir) (fun hm => ?_) ?_
  · refine wp_mono (Pintos.inodeCreate_spec h.wf (fun _ => hm) hnode hroom hL) ?_ fun _ _ => trivial
    rintro ok k' ⟨-, -, new, nd', hc⟩
    exact ⟨new, nd', hc.edited, trivial⟩
  · refine wp_mono (Pintos.inodeCreate_spec h.wf.unmapped (fun h0 => absurd rfl h0) hnode hroom hL) ?_ fun _ _ => trivial
    rintro ok k' ⟨-, -, new, nd', hc⟩
    exact ⟨new, nd', hc.edited, trivial⟩

/-- A file to which writes are denied is not the one that changes, and keeps its length and its contents. -/
theorem frozen {new : List ℕ} {b : ℕ} {j : Inode} (he : Rewritten k N s nd new nd' k') (hj : k.inodes.cell b = some j)
    (hdeny : j.denyWriteCnt ≠ 0) (hne : j.sector ≠ s) :
    ∃ j', k'.inodes.cell b = some j' ∧ j'.data.length = j.data.length ∧ contents k' j'.data = contents k j.data := by
  obtain ⟨nd₁, hN₁, hr⟩ := h.wf.opened.node b j hj
  obtain ⟨d, hd⟩ := he.steady.cell hj
  have hr' : Repr k'.tables d nd₁ :=
    he.wf.repr hd (by change Function.update N s (some nd') j.sector = _; rw [Function.update_of_ne hne]; exact hN₁)
  have hmap : j.sector ≠ 0 ∨ MapDenied k := by
    by_cases h0 : j.sector = 0
    · obtain ⟨f, i, nd₀, hf, hi, hsec, -⟩ := h.map
      have hb : f.inode = b := h.wf.opened.unique _ i b j hi hj (hsec.trans h0.symm)
      exact .inr ⟨f, j, hf, by rw [hb]; exact hj, hdeny⟩
    · exact .inl h0
  refine ⟨_, hd, hr'.length.trans hr.length.symm, ?_⟩
  rw [contents_eq hr, contents_eq hr']
  refine congrArg some (fileBytes_eq_iff fun l hl => ?_)
  have hle := hr.length_le
  exact he.other _ nd₁ hN₁ hne hmap _ (by omega)

/-- The position of a file changes. -/
theorem seek {pos : ℤ} (hf : k.files.cell p = some f) (h0 : 0 ≤ pos) (hle : pos ≤ 512 * 512) :
    Denying { k with files := k.files.set p fun f => { f with pos := pos } } N own made := by
  have hsame : ∀ P : File → Bool, P { f with pos := pos } = P f →
      (k.files.set p fun f => { f with pos := pos }).count P = k.files.count P := by
    intro P hP
    have := k.files.count_set P (fun f => { f with pos := pos }) hf
    rw [hP] at this
    exact Nat.add_right_cancel this
  refine h.handles (fun b i hi => ⟨i, hi, rfl, rfl⟩) (fun b i hi => ⟨i, hi⟩) (fun g hg => ⟨_, k.files.cell_set _ hg, ?_⟩)
    (fun q g hg => ?_) (fun b i hi => ?_) fun b i hi => ?_
  · split_ifs <;> rfl
  · obtain ⟨g', hg', rfl⟩ := k.files.cell_of_set hg
    split_ifs
    · exact ⟨(h.files q g' hg').1, h0, hle⟩
    · exact h.files q g' hg'
  · rw [hsame _ rfl]
    exact h.deny b i hi
  · rw [hsame _ rfl]
    exact h.opened b i hi

/-- Every inode to which writes are denied keeps its length and its contents. -/
theorem inodeWriteAt_frozen {buf : ℕ → UInt8} {size : ℤ} {off : ℕ} (hf : k.files.cell p = some f) (hsize : size < 2 ^ 31)
    (hoff : off < 2 ^ 31) :
    wp (inodeWriteAt persistFreeMap f.inode buf size off)
      (fun n k' => (∃ N', Denying k' N' own made) ∧ k'.files = k.files ∧ (n ≠ 0 → off + n ≤ 512 * 512) ∧
        ∀ b j, k.inodes.cell b = some j → j.denyWriteCnt ≠ 0 →
          ∃ j', k'.inodes.cell b = some j' ∧ j'.data.length = j.data.length ∧ contents k' j'.data = contents k j.data)
      (fun _ => True) k := by
  obtain ⟨⟨i, hi⟩, -⟩ := h.files p f hf
  obtain ⟨nd, hN, -⟩ := h.wf.opened.node _ i hi
  refine wp_post (h.inodeWriteAt_spec hi hN hsize hoff) ?_
  rintro n k' (⟨-, rfl, rfl⟩ | ⟨hdeny, new, nd', he, hn⟩)
  · exact ⟨⟨N, h⟩, rfl, fun hn => absurd rfl hn, fun b j hj _ => ⟨j, hj, rfl, rfl⟩⟩
  · refine ⟨⟨_, h.rewritten he (.inl hN) (fun b hb => ⟨hb, (h.owned b hb).2.2.2 _ nd hN⟩) fun t ht => .inr ht⟩, he.steady.files, hn,
      fun b j hj hdeny' => h.frozen he hj hdeny' fun hsec => ?_⟩
    -- the inode that is written is not one of those
    have hb := h.wf.opened.unique b j _ i hj hi hsec
    rw [hb, hi] at hj
    cases hj
    exact hdeny' hdeny

/-- **`file_write_at`** and the inodes to which writes are denied. -/
theorem fileWriteAt_frozen {buf : ℕ → UInt8} {size : ℤ} {off : ℕ} (hf : k.files.cell p = some f) (hsize : size < 2 ^ 31)
    (hoff : off < 2 ^ 31) :
    wp (fileWriteAt p buf size off)
      (fun _ k' => (∃ N', Denying k' N' own made) ∧ ∀ b j, k.inodes.cell b = some j → j.denyWriteCnt ≠ 0 →
        ∃ j', k'.inodes.cell b = some j' ∧ j'.data.length = j.data.length ∧ contents k' j'.data = contents k j.data)
      (fun _ => True) k := by
  rw [fileWriteAt, wp_bind]
  refine wp_fileAt hf ?_
  exact wp_post (h.inodeWriteAt_frozen hf hsize hoff) fun _ _ hk => ⟨hk.1, hk.2.2.2⟩

/-- **`file_write`** and the inodes to which writes are denied. -/
theorem fileWrite_frozen {buf : ℕ → UInt8} {size : ℤ} (hf : k.files.cell p = some f) (hsize : size < 2 ^ 31) :
    wp (fileWrite p buf size)
      (fun _ k' => (∃ N', Denying k' N' own made) ∧ ∀ b j, k.inodes.cell b = some j → j.denyWriteCnt ≠ 0 →
        ∃ j', k'.inodes.cell b = some j' ∧ j'.data.length = j.data.length ∧ contents k' j'.data = contents k j.data)
      (fun _ => True) k := by
  obtain ⟨-, h0, hle⟩ := h.files p f hf
  obtain ⟨off, hoff⟩ := Int.eq_ofNat_of_zero_le h0
  rw [fileWrite, wp_bind]
  refine wp_fileAt hf ?_
  rw [wp_bind, hoff]
  refine wp_post (h.inodeWriteAt_frozen hf hsize (by omega)) ?_
  rintro n k' ⟨⟨N', hd⟩, hfiles, hn, hfrozen⟩
  have hf' : k'.files.cell p = some f := by rw [hfiles]; exact hf
  -- the position moves on, inside the longest file that there can be
  have hpos : 0 ≤ f.pos + n ∧ f.pos + n ≤ 512 * 512 := by
    rw [hoff] at hle ⊢
    by_cases hz : n = 0
    · subst hz
      omega
    · have := hn hz
      omega
  have hset : (k'.files.set p fun f => { f with pos := Bytes.wrap (f.pos + n) }) =
      k'.files.set p fun g => { g with pos := f.pos + n } := by
    refine k'.files.set_congr hf' ?_
    rw [Bytes.wrap_eq ⟨by omega, by omega⟩]
  rw [wp_bind, updateFile, wp_modify, wp_pure, hset]
  exact ⟨⟨N', hd.seek hf' hpos.1 hpos.2⟩, hfrozen⟩

end Denying

/-! ### Runs -/

/-- **What a run leads to** from a formatted disk on, by the operations on files and those that make inodes.
The sectors `own` are in the hands of the caller, and the inodes of the files in the sectors `made`. -/
inductive Handling : Fs → Finset ℕ → Finset ℕ → Prop
  /-- `filesys_init (true)` on a disk of any contents. -/
  | format {d : Disk} {k : Fs} : filesysInit true (Fs.boot d) = .ok ((), k) → Handling k ∅ {0, 1}
  /-- `free_map_allocate`, which succeeds. -/
  | allocate {k k' : Fs} {own made : Finset ℕ} {b : ℕ} : Handling k own made →
      freeMapAllocate persistFreeMap 1 k = .ok (some b, k') → Handling k' (insert b own) made
  /-- `inode_create` in a sector of the caller. -/
  | createInode {k k' : Fs} {own made : Finset ℕ} {s : ℕ} {length : ℤ} {isdir ok : Bool} : Handling k own made → s ∈ own →
      length < 2 ^ 31 → inodeCreate s length isdir k = .ok (ok, k') → Handling k' (own.erase s) (insert s made)
  /-- `inode_open`. -/
  | openInode {k k' : Fs} {own made : Finset ℕ} {s a : ℕ} : Handling k own made → s ∈ made → inodeOpen s k = .ok (a, k') →
      Handling k' own made
  /-- `file_open`. -/
  | fileOpen {k k' : Fs} {own made : Finset ℕ} {a p : ℕ} {i : Inode} : Handling k own made → k.inodes.cell a = some i →
      fileOpen a k = .ok (p, k') → Handling k' own made
  /-- `file_reopen`. -/
  | fileReopen {k k' : Fs} {own made : Finset ℕ} {p q : ℕ} {f : File} : Handling k own made → k.files.cell p = some f →
      fileReopen p k = .ok (q, k') → Handling k' own made
  /-- `file_close`, of any file but the free map's. -/
  | fileClose {k k' : Fs} {own made : Finset ℕ} {p : ℕ} {f : File} : Handling k own made → k.files.cell p = some f →
      p ≠ k.freeMapFile → fileClose p k = .ok ((), k') → Handling k' own made
  /-- `file_deny_write`. -/
  | fileDenyWrite {k k' : Fs} {own made : Finset ℕ} {p : ℕ} {f : File} : Handling k own made → k.files.cell p = some f →
      fileDenyWrite p k = .ok ((), k') → Handling k' own made
  /-- `file_allow_write`. -/
  | fileAllowWrite {k k' : Fs} {own made : Finset ℕ} {p : ℕ} {f : File} : Handling k own made → k.files.cell p = some f →
      fileAllowWrite p k = .ok ((), k') → Handling k' own made
  /-- `file_write`. -/
  | fileWrite {k k' : Fs} {own made : Finset ℕ} {p n : ℕ} {f : File} {buf : ℕ → UInt8} {size : ℤ} : Handling k own made →
      k.files.cell p = some f → size < 2 ^ 31 → fileWrite p buf size k = .ok (n, k') → Handling k' own made
  /-- `file_write_at`. -/
  | fileWriteAt {k k' : Fs} {own made : Finset ℕ} {p n off : ℕ} {f : File} {buf : ℕ → UInt8} {size : ℤ} :
      Handling k own made → k.files.cell p = some f → size < 2 ^ 31 → off < 2 ^ 31 →
      fileWriteAt p buf size off k = .ok (n, k') → Handling k' own made

/-- A formatted file system has one file, the free map's, which denies nothing. -/
theorem Formatted.denying (h : Formatted k N) : Denying k N ∅ {0, 1} := by
  obtain ⟨i, hi, hsec, hcnt, -, hdeny⟩ := h.map.inode
  obtain ⟨nd₀, hN₀⟩ := h.map.node
  have hself : ∀ a j, k.inodes.cell a = some j → a = 1 ∧ j = i := by
    intro a j hj
    have ha := h.map.only a j hj
    subst ha
    rw [hi] at hj
    exact ⟨rfl, (Option.some.inj hj).symm⟩
  refine ⟨h.map.wf, ⟨_, i, nd₀, h.file.open_file, hi, hsec, hN₀, h.map.size nd₀ hN₀⟩, by simp, fun s hs => ?_, fun p f hp => ?_,
    fun a j hj => ?_, fun a j hj => ?_⟩
  · rcases Finset.mem_insert.1 hs with rfl | hs
    · exact h.map.node
    · obtain ⟨nd, hN, -⟩ := h.root
      exact ⟨nd, by rw [Finset.mem_singleton.1 hs]; exact hN⟩
  · obtain ⟨-, rfl⟩ := (h.file.cell p f).1 hp
    exact ⟨⟨i, hi⟩, le_rfl, show (0 : ℤ) ≤ 512 * 512 by decide⟩
  · obtain ⟨-, rfl⟩ := hself a j hj
    rw [hdeny, Fs.deniers, Heap.count_eq_zero]
    · rfl
    · intro p f hp
      obtain ⟨-, rfl⟩ := (h.file.cell p f).1 hp
      exact Bool.and_false _
  · obtain ⟨rfl, rfl⟩ := hself a j hj
    rw [h.file.count, hcnt]
    decide

/-- A sector is allocated for the caller. -/
theorem Denying.allocated {b : ℕ} (h : Denying k N own made) (hrun : freeMapAllocate persistFreeMap 1 k = .ok (some b, k')) :
    Denying k' N (insert b own) made := by
  rcases h.map_cases with ⟨hmap, -⟩ | hdenied
  · rcases wp_of_ok (freeMapAllocate_spec persistFreeMap_persists h.wf fun _ => hmap) hrun with ⟨c, hc, ha⟩ | ⟨hc, -⟩
    · cases hc
      obtain ⟨B, rfl⟩ := ha.frame
      refine ⟨ha.wf, h.map, fun c hc => ?_, h.known, h.files, h.deny, h.opened⟩
      change 2 ≤ c ∧ c < k.freeMap.bitCnt ∧ (k.freeMap.setMultiple b 1 true).bit c = true ∧ _
      rw [Bitmap.bit_setMultiple_one]
      rcases Finset.mem_insert.1 hc with rfl | hc
      · refine ⟨?_, by rw [h.wf.laid.size]; exact ha.lt, if_pos rfl, fun s nd hN => h.wf.laid.notMem_of_clear ha.clear hN⟩
        -- the first two sectors are never free
        have hclear := ha.clear
        rcases c with - | - | c
        · rw [h.wf.laid.low.1] at hclear
          cases hclear
        · rw [h.wf.laid.low.2] at hclear
          cases hclear
        · omega
      · obtain ⟨h2, hlt, hbit, hno⟩ := h.owned c hc
        exact ⟨h2, hlt, by rw [hbit, ite_self], hno⟩
    · cases hc
  · obtain ⟨hnone, -⟩ := wp_of_ok (freeMapAllocate_denied hdenied) hrun
    cases hnone

/-- The invariant holds along every run. -/
theorem Handling.denying (h : Handling k own made) : ∃ N, Denying k N own made := by
  induction h with
  | @format d k hrun =>
    obtain ⟨N, hf⟩ := wp_of_ok (filesysInit_format d) hrun
    exact ⟨N, hf.denying⟩
  | allocate _ hrun ih =>
    obtain ⟨N, hd⟩ := ih
    exact ⟨N, hd.allocated hrun⟩
  | createInode _ hs hlen hrun ih =>
    obtain ⟨N, hd⟩ := ih
    obtain ⟨new, nd', he, -⟩ := wp_of_ok (hd.inodeCreate_spec hs hlen) hrun
    refine ⟨_, hd.rewritten he (.inr (hd.node_of_owned hs)) (fun b hb => ?_) fun t ht => Finset.mem_insert.1 ht⟩
    obtain ⟨hne, hmem⟩ := Finset.mem_erase.1 hb
    exact ⟨hmem, by simpa [Node.empty] using hne⟩
  | openInode _ hs hrun ih =>
    obtain ⟨N, hd⟩ := ih
    obtain ⟨nd, hN⟩ := hd.known _ hs
    exact ⟨N, hd.opens (wp_of_ok (inodeOpen_opens hd.wf hN) hrun) hN⟩
  | fileOpen _ hi hrun ih =>
    obtain ⟨N, hd⟩ := ih
    obtain ⟨-, rfl⟩ := wp_of_ok (fileOpen_spec hi) hrun
    exact ⟨N, hd.openFile hi⟩
  | @fileReopen k k' own made p q f _ hf hrun ih =>
    obtain ⟨N, hd⟩ := ih
    obtain ⟨⟨i, hi⟩, -⟩ := hd.files p f hf
    obtain ⟨nd, hN, -⟩ := hd.wf.opened.node _ i hi
    have hspec : wp (Pintos.fileReopen p) (fun _ k' => Denying k' N own made) (fun _ => True) k := by
      rw [Pintos.fileReopen, wp_bind]
      refine wp_fileAt hf ?_
      rw [wp_bind]
      refine wp_mono (inodeReopen_spec hi) ?_ fun _ _ => trivial
      rintro a k₁ ⟨rfl, rfl⟩
      have hi₁ := k.inodes.cell_set (p := f.inode) (fun i => { i with openCnt := i.openCnt + 1 }) hi
      refine wp_mono (fileOpen_spec hi₁) ?_ fun _ _ => trivial
      rintro p' k₂ ⟨-, rfl⟩
      exact (hd.opens (.found hi rfl) hN).openFile hi₁
    exact ⟨N, wp_of_ok hspec hrun⟩
  | @fileClose k k' own made p f _ hf hp hrun ih =>
    obtain ⟨N, hd⟩ := ih
    rw [wp_of_ok (hd.fileClose_spec hf) hrun]
    have hclose := (hd.allow hf).closeFile (Fs.allow_cell_self hf) rfl (by rw [Fs.allow_freeMapFile]; exact hp)
    exact ⟨N, hclose⟩
  | @fileDenyWrite k k' own made p f _ hf hrun ih =>
    obtain ⟨N, hd⟩ := ih
    have hk' := wp_of_ok (hd.fileDenyWrite_spec hf) hrun
    refine ⟨N, ?_⟩
    by_cases hv : f.denyWrite = true
    · rw [hk', if_pos hv]
      exact hd
    · rw [hk', if_neg hv]
      exact hd.setDeny hf (by simpa using hv) rfl
  | @fileAllowWrite k k' own made p f _ hf hrun ih =>
    obtain ⟨N, hd⟩ := ih
    rw [wp_of_ok (hd.fileAllowWrite_spec hf) hrun]
    exact ⟨N, hd.allow hf⟩
  | @fileWrite k k' own made p n f buf size _ hf hsize hrun ih =>
    obtain ⟨N, hd⟩ := ih
    exact (wp_of_ok (hd.fileWrite_frozen hf hsize) hrun).1
  | @fileWriteAt k k' own made p n off f buf size _ hf hsize hoff hrun ih =>
    obtain ⟨N, hd⟩ := ih
    exact (wp_of_ok (hd.fileWriteAt_frozen hf hsize hoff) hrun).1

/-- No file but the one at `p` denies writes to the inode. -/
theorem Fs.deniers_eq_zero : k.deniers a = 0 ↔ ∀ q g, k.files.cell q = some g → g.inode = a → g.denyWrite = false := by
  constructor
  · intro hz q g hg ha
    by_contra hv
    have := k.files.count_pos (P := fun g => g.inode == a && g.denyWrite) hg (by simp [ha, hv])
    unfold Fs.deniers at hz
    omega
  · intro hall
    refine k.files.count_eq_zero fun q g hg => ?_
    by_cases ha : g.inode = a
    · rw [hall q g hg ha, Bool.and_false]
    · rw [beq_eq_false_iff_ne.2 ha, Bool.false_and]

/-- After `file_close`, writes are denied just as long as another file denies them. -/
theorem Denying.close_allows (h : Denying k N own made) (hf : k.files.cell p = some f) :
    wp (fileClose p) (fun _ k' => ∃ i', k'.inodes.cell f.inode = some i' ∧
      (i'.denyWriteCnt = 0 ↔ ∀ q g, q ≠ p → k.files.cell q = some g → g.inode = f.inode → g.denyWrite = false))
      (fun _ => False) k := by
  have hd := h.allow hf
  have hcell := Fs.allow_cell_self hf
  obtain ⟨⟨i, hi⟩, -⟩ := hd.files p _ hcell
  refine wp_post (h.fileClose_spec hf) ?_
  rintro - _ rfl
  refine ⟨_, (k.allow p f).inodes.cell_set _ hi, ?_⟩
  rw [if_pos rfl]
  change i.denyWriteCnt = 0 ↔ _
  rw [hd.deny _ i hi, Int.natCast_eq_zero, Fs.deniers_eq_zero]
  constructor
  · intro hall q g hq hg
    exact hall q g (by rw [Fs.allow_cell_of_ne hq]; exact hg)
  · intro hall q g hg ha
    by_cases hq : q = p
    · rw [hq, hcell] at hg
      cases hg
      rfl
    · exact hall q g hq (by rw [← Fs.allow_cell_of_ne hq]; exact hg) ha

/-- **Denied writes.** Wherever a run has led to, the count of an inode is the number of its files that deny
writes. `file_deny_write`, `file_allow_write` and `file_close` return, their assertions holding, and closing a
file allows writes only if no other file denies them. While the count is positive, no write through any file
changes the inode's length or its contents. -/
theorem deny_write_counts (h : Handling k own made) :
    (∀ a i, k.inodes.cell a = some i → i.denyWriteCnt = k.deniers a) ∧
      (∀ p f, k.files.cell p = some f →
        (∃ k', fileDenyWrite p k = .ok ((), k')) ∧ (∃ k', fileAllowWrite p k = .ok ((), k')) ∧
          ∃ k' i', fileClose p k = .ok ((), k') ∧ k'.inodes.cell f.inode = some i' ∧
            (i'.denyWriteCnt = 0 ↔ ∀ q g, q ≠ p → k.files.cell q = some g → g.inode = f.inode → g.denyWrite = false)) ∧
      ∀ a i, k.inodes.cell a = some i → 0 < i.denyWriteCnt → ∀ p f buf size n k', k.files.cell p = some f → size < 2 ^ 31 →
        fileWrite p buf size k = .ok (n, k') ∨ (∃ off : ℕ, off < 2 ^ 31 ∧ fileWriteAt p buf size off k = .ok (n, k')) →
        ∃ i', k'.inodes.cell a = some i' ∧ i'.data.length = i.data.length ∧ contents k' i'.data = contents k i.data := by
  obtain ⟨N, hd⟩ := h.denying
  refine ⟨hd.deny, fun p f hf => ⟨?_, ?_, ?_⟩, fun a i hi hpos p f buf size n k' hf hsize hrun => ?_⟩
  · obtain ⟨⟨⟩, k', hrun, -⟩ := exists_ok (hd.fileDenyWrite_spec hf)
    exact ⟨k', hrun⟩
  · obtain ⟨⟨⟩, k', hrun, -⟩ := exists_ok (hd.fileAllowWrite_spec hf)
    exact ⟨k', hrun⟩
  · obtain ⟨⟨⟩, k', hrun, i', hi', hiff⟩ := exists_ok (hd.close_allows hf)
    exact ⟨k', i', hrun, hi', hiff⟩
  · rcases hrun with hrun | ⟨off, hoff, hrun⟩
    · exact (wp_of_ok (hd.fileWrite_frozen hf hsize) hrun).2 a i hi hpos.ne'
    · exact (wp_of_ok (hd.fileWriteAt_frozen hf hsize hoff) hrun).2 a i hi hpos.ne'

/-- On a disk of sixteen sectors, where a file for the root directory denies writes. -/
theorem deny_write_counts_root : ∃ k i, Handling k ∅ {0, 1} ∧ k.inodes.cell 2 = some i ∧ 0 < k.deniers 2 ∧
    i.denyWriteCnt = k.deniers 2 := by
  have hrun : (filesysInit true).returns (fun _ k₁ => (inodeOpen 1).returns (fun _ k₂ => (k₂.inodes.cell 2).isSome &&
      (fileOpen 2).returns (fun p k₃ => (k₃.files.cell p).isSome &&
        (fileDenyWrite p).returns (fun _ k => (k.inodes.cell 2).isSome && decide (0 < k.deniers 2)) k₃) k₂) k₁)
      (Fs.boot (Disk.blank 16 (by decide))) = true := by decide +kernel
  obtain ⟨⟨⟩, k₁, h₁, hrun⟩ := exists_of_returns hrun
  obtain ⟨a, k₂, h₂, hrun⟩ := exists_of_returns hrun
  obtain ⟨hsome, hrun⟩ := Bool.and_eq_true_iff.1 hrun
  obtain ⟨j, hj⟩ := Option.isSome_iff_exists.1 hsome
  obtain ⟨p, k₃, h₃, hrun⟩ := exists_of_returns hrun
  obtain ⟨hfile, hrun⟩ := Bool.and_eq_true_iff.1 hrun
  obtain ⟨f, hf⟩ := Option.isSome_iff_exists.1 hfile
  obtain ⟨⟨⟩, k, h₄, hrun⟩ := exists_of_returns hrun
  obtain ⟨hsome, hpos⟩ := Bool.and_eq_true_iff.1 hrun
  obtain ⟨i, hi⟩ := Option.isSome_iff_exists.1 hsome
  have h : Handling k ∅ {0, 1} :=
    .fileDenyWrite (.fileOpen (.openInode (.format h₁) (by decide) h₂) hj h₃) hf h₄
  exact ⟨k, i, h, hi, of_decide_eq_true hpos, (deny_write_counts h).1 2 i hi⟩

end Pintos
