import Pintos.Filesys.Lookups

/-!
# Changing a tree

New files and new names in any directory of a tree: what `free_map_allocate`,
`inode_create`, `dir_add` and `filesys_create` do to the files and to the bindings, and
how much room they need (`Roomy`).
-/

namespace Pintos

open Library Library.Prog

variable {k k' k₁ k₂ : Fs} {N N' : Nodes} {H : Bindings} {s t a p n : ℕ} {nd nd' : Node} {i : Inode} {d : Dir} {nm : CString}
  {new : List ℕ} {L : ℤ} {isdir : Bool}

/-- What lies in a sector: a directory, a plain file, or no file. -/
def Nodes.kind (N : Nodes) (s : ℕ) : Option Bool := (N s).map Node.isdir

/-- The name `nm` of the directory in sector `s` is bound to `t`. -/
def Bindings.bind (H : Bindings) (s : ℕ) (nm : CString) (t : ℕ) : Bindings := Function.update H s (Function.update (H s) nm (some t))

/-- The name `nm` of the directory in sector `s` is bound to nothing. -/
def Bindings.unbind (H : Bindings) (s : ℕ) (nm : CString) : Bindings := Function.update H s (Function.update (H s) nm none)

/-- **Room for `n` sectors and `m` tables more**: the sectors are free below the last one, past which the cache would read
ahead, and neither the free map's file nor a directory lies there; every directory may grow. -/
structure Roomy (k : Fs) (N : Nodes) (n m : ℕ) : Prop where
  capacity : k.buffers.disk.capacity ≤ 2 ^ 21
  map : MapClear k N
  dirs : DirsClear k N
  inode : ∀ s nd, N s = some nd → nd.isdir = true → s + 1 < k.buffers.disk.capacity
  short : ∀ s nd, N s = some nd → nd.isdir = true → nd.length + 48 ≤ 512 * 512
  tables : k.tables.next + m ≤ 2 ^ 32
  free : n ≤ k.freeMap.freeBelow (k.buffers.disk.capacity - 1)

/-- How many sectors are free. -/
def Fs.freeSectors (k : Fs) : ℕ := k.freeMap.freeBelow k.buffers.disk.capacity

/-- **A new file of `n` bytes fits**, with its name in the directory in sector `s`, in `c` sectors: there is one for its inode,
there are as many as its bytes take, and those by which the directory grows if all its entries are in use, as it then can. -/
structure FitsIn (k : Fs) (N : Nodes) (s n c : ℕ) : Prop where
  file : 1 + sectorsFor n ≤ c
  entry : ∀ nd, N s = some nd → Full k.buffers nd →
    nd.length + 48 ≤ 512 * 512 ∧ 1 + sectorsFor n + (sectorsFor (nd.length + 48) - nd.blocks.length) ≤ c

/-- **Room for a new file** of `n` bytes in the directory in sector `s`: it fits below the disk's last sector, and neither the
free map's file nor the directory lies there. -/
structure CreateRoom (k : Fs) (N : Nodes) (s n : ℕ) : Prop where
  map : MapClear k N
  dir : ∀ nd, N s = some nd → nd.Clear k
  sector : ∀ nd, N s = some nd → Full k.buffers nd → s + 1 < k.buffers.disk.capacity
  tables : k.tables.next + 2 ≤ 2 ^ 32
  fits : FitsIn k N s n (k.freeMap.freeBelow (k.buffers.disk.capacity - 1))

/-! ### Kinds of files -/

theorem Bindings.bind_self : H.bind s nm t s nm = some t := by
  rw [bind, Function.update_self, Function.update_self]

theorem Bindings.bind_of_ne {u : ℕ} {n : CString} (h : ¬ (u = s ∧ n = nm)) : H.bind s nm t u n = H u n := by
  unfold bind
  by_cases hus : u = s
  · subst hus
    rw [Function.update_self, Function.update_of_ne fun hn => h ⟨rfl, hn⟩]
  · rw [Function.update_of_ne hus]

theorem Nodes.isDir_eq_kind {N : Nodes} : N.isDir s = (N.kind s == some true) := by
  unfold Nodes.isDir Nodes.kind
  cases N s with
  | none => rfl
  | some nd => cases h : nd.isdir <;> simp [h]

theorem Nodes.kind_eq_some {N : Nodes} {b : Bool} : N.kind s = some b ↔ ∃ nd, N s = some nd ∧ nd.isdir = b := by
  rw [Nodes.kind, Option.map_eq_some_iff]

theorem Nodes.kind_eq_none {N : Nodes} : N.kind s = none ↔ N s = none := by
  rw [Nodes.kind, Option.map_eq_none_iff]

theorem Nodes.kind_update (N : Nodes) (s : ℕ) (nd : Node) : Nodes.kind (Function.update N s (some nd)) = Function.update N.kind s (some nd.isdir) := by
  funext t
  by_cases ht : t = s
  · subst ht
    simp [Nodes.kind]
  · simp [Nodes.kind, ht]

/-- A file that changes stays of its kind. -/
theorem Nodes.kind_update_self {N : Nodes} (hN : N s = some nd) (h : nd'.isdir = nd.isdir) :
    Nodes.kind (Function.update N s (some nd')) = N.kind := by
  have hkind : N.kind s = some nd'.isdir := Nodes.kind_eq_some.2 ⟨nd, hN, h.symm⟩
  rw [Nodes.kind_update, ← hkind, Function.update_eq_self]

/-- Bindings of what is no directory do not matter. -/
theorem Tree.congr {H' : Bindings} (h : Tree k N H) (hH : ∀ s nd, N s = some nd → nd.isdir = true → H' s = H s) : Tree k N H' :=
  ⟨h.wf, h.map, h.root, h.plain, h.pos, h.deny, h.dirs, h.live, fun s nd hN hdir => by
    rw [hH s nd hN hdir]
    exact h.ok s nd hN hdir⟩

/-! ### New files -/

theorem Allocated.steady (h : Allocated k N 0 t k') : Steady k k' := by
  obtain ⟨B, rfl⟩ := h.frame
  exact ⟨rfl, rfl, rfl, rfl, rfl, fun _ => rfl, rfl⟩

/-- A sector that was free belongs to no file. -/
theorem Tree.fresh (h : Tree k N H) (ha : Allocated k N 0 t k₁) (isdir : Bool) : 2 ≤ t ∧ N t = none ∧ t < 2 ^ 32 ∧
    Laid.Room k₁.buffers k₁.freeMap N t (.empty isdir) := by
  have hfree : ∀ s' nd', N s' = some nd' → t ∉ s' :: nd'.blocks := fun s' nd' hN' => h.wf.laid.notMem_of_clear ha.clear hN'
  have hbit : k₁.freeMap.bit t = true := by
    obtain ⟨B, rfl⟩ := ha.frame
    rw [Bitmap.bit_setMultiple_one, if_pos rfl]
  have hcap := k.buffers.disk.capacity_le
  have hlt := ha.lt
  refine ⟨h.wf.laid.two_le_of_clear ha.clear, ?_, by omega, fun b hb => ?_, by rintro _ ⟨⟩, by simp [Node.empty],
    fun s' nd' hs' _ b hb => ?_, fun _ _ _ _ h0 => absurd rfl h0⟩
  · cases hN : N t with
    | none => rfl
    | some nd => exact absurd List.mem_cons_self (hfree t nd hN)
  · simp only [Node.empty, List.mem_singleton] at hb
    subst hb
    exact ⟨by rw [ha.capacity]; exact ha.lt, hbit⟩
  · simp only [Node.empty, List.mem_singleton] at hb
    subst hb
    exact hfree s' nd' hs'

/-- **`inode_create`** in a sector that was free: a file of zeros, and if it is a directory it has no entries. -/
theorem inodeCreate_tree (h : Tree k N H) (ha : Allocated k N 0 t k₁) (hL : L < 2 ^ 31) (hal : isdir = true → 24 ∣ L.toNat) :
    wp (inodeCreate t L isdir)
      (fun ok k₂ => ok = true ∧ 0 ≤ L ∧ ∃ new nd, Created k₁ N t L.toNat isdir new nd k₂ ∧ nd.isdir = isdir ∧
        Tree k₂ (Function.update N t (some nd)) (Function.update H t fun _ => none))
      (Unless (0 ≤ L ∧ L ≤ 512 * 512 ∧ t + 1 < k₁.buffers.disk.capacity ∧
        (0 < L → GrowRoom k₁ N t (.empty isdir) L.toNat))) k₁ := by
  obtain ⟨h₁, -⟩ := h.allocated ha
  obtain ⟨h2, hN, -, hroom⟩ := h.fresh ha isdir
  refine wp_post (inodeCreate_spec h₁.wf (fun _ => h₁.map) hN hroom hL) ?_
  rintro ok k₂ ⟨rfl, hL0, new, nd, hc⟩
  have hdir : nd.isdir = isdir := hc.edited.isdir
  refine ⟨rfl, hL0, new, nd, hc, hdir, h₁.edited hc.edited (by omega) (fun nd₀ hN₀ => ?_) (fun u hu => ?_) fun htrue => ?_⟩
  · rw [hN] at hN₀
    cases hN₀
  · rw [Function.update_of_ne hu]
  · rw [Function.update_self]
    refine DirOk.empty ?_ hc.zero
    rw [hc.length]
    exact hal (hdir.symm.trans htrue)

/-! ### Room -/

theorem Roomy.mono {n' m m' : ℕ} (h : Roomy k N n m) (hn : n' ≤ n) (hm : m' ≤ m) : Roomy k N n' m' :=
  ⟨h.capacity, h.map, h.dirs, h.inode, h.short, by have := h.tables; omega, hn.trans h.free⟩

/-- The same files on the same sectors leave the same room. -/
theorem Roomy.sameData {m : ℕ} (h : Roomy k N n m) (hs : SameData k k') : Roomy k' N n m := by
  have hcap := hs.keeps.capacity
  refine ⟨by rw [hcap]; exact h.capacity, fun b hb => ?_, h.dirs.of_capacity hcap, fun s nd hN hdir => ?_, h.short, ?_, ?_⟩
  · rw [hcap]
    exact h.map b hb
  · rw [hcap]
    exact h.inode s nd hN hdir
  · rw [hs.tables]
    exact h.tables
  · rw [hcap, hs.freeMap]
    exact h.free

/-- A sector is taken: it is not the last one. -/
theorem Roomy.allocated {m : ℕ} (h : Roomy k N (n + 1) m) (ha : Allocated k N 0 t k₁) :
    t + 1 < k₁.buffers.disk.capacity ∧ Roomy k₁ N n m := by
  have hcap := ha.capacity
  have hfree := h.free
  have hlt := Bitmap.lt_of_freeBelow ha.first (show 0 < k.freeMap.freeBelow (k.buffers.disk.capacity - 1) by omega)
  have hset := Bitmap.freeBelow_set ha.clear hlt
  obtain ⟨B, rfl⟩ := ha.frame
  dsimp only at hcap ⊢
  refine ⟨by omega, by dsimp only; rw [hcap]; exact h.capacity, fun b hb => ?_, h.dirs.of_capacity hcap, fun s nd hN hdir => ?_,
    h.short, h.tables, ?_⟩
  · dsimp only
    rw [hcap]
    exact h.map b hb
  · dsimp only
    rw [hcap]
    exact h.inode s nd hN hdir
  · dsimp only
    rw [hcap]
    omega

/-- A file changes, and takes `c` of the sectors. -/
theorem Roomy.edited {c m : ℕ} (h : Roomy k N (n + c) (m + 1)) (he : Edited k N s nd new nd' k') (hs : s ≠ 0) (hnew : new.length ≤ c)
    (hdir : nd'.isdir = true → s + 1 < k.buffers.disk.capacity ∧ nd.Clear k ∧ nd'.length + 48 ≤ 512 * 512) :
    Roomy k' (Function.update N s (some nd')) n m := by
  have hcap := he.capacity
  have hfree := h.free
  have hclear := he.new_clear (by omega)
  refine ⟨by rw [hcap]; exact h.capacity, fun b hb => ?_, fun u ndu hN hd => ?_, fun u ndu hN hd => ?_, fun u ndu hN hd => ?_,
    ?_, ?_⟩
  · rw [mapBlocks, Function.update_of_ne (Ne.symm hs)] at hb
    rw [hcap]
    exact h.map b hb
  · by_cases hu : u = s
    · subst hu
      rw [Function.update_self] at hN
      cases hN
      intro b hb
      rw [hcap]
      rw [he.blocks] at hb
      rcases List.mem_append.1 hb with hb | hb
      · exact (hdir hd).2.1 b hb
      · exact hclear b hb
    · rw [Function.update_of_ne hu] at hN
      exact (h.dirs.of_capacity hcap) u ndu hN hd
  · rw [hcap]
    by_cases hu : u = s
    · subst hu
      rw [Function.update_self] at hN
      cases hN
      exact (hdir hd).1
    · rw [Function.update_of_ne hu] at hN
      exact h.inode u ndu hN hd
  · by_cases hu : u = s
    · subst hu
      rw [Function.update_self] at hN
      cases hN
      exact (hdir hd).2.2
    · rw [Function.update_of_ne hu] at hN
      exact h.short u ndu hN hd
  · have htab := he.tables
    have := h.tables
    unfold Node.tableCount at htab
    split_ifs at htab <;> omega
  · rw [hcap]
    have := he.freeBelow_le (k.buffers.disk.capacity - 1)
    omega

/-- A file may grow to `L` bytes. -/
theorem Roomy.growRoom {L m : ℕ} (h : Roomy k N n (m + 1)) (hs : s + 1 < k.buffers.disk.capacity)
    (hL : sectorsFor L - nd.blocks.length ≤ n) : GrowRoom k N s nd L := by
  refine ⟨h.capacity, hs, fun _ => h.map, hL.trans h.free, fun _ _ => ?_⟩
  have := h.tables
  omega

/-- A name may be added to a directory. -/
theorem Roomy.addRoom {m : ℕ} (h : Roomy k N (n + 1) (m + 1)) (ht : Tree k N H) (hN : N s = some nd) (hdir : nd.isdir = true) :
    AddRoom k N s nd := by
  refine ⟨h.dirs s nd hN hdir, fun _ => ⟨h.short s nd hN hdir, h.growRoom (h.inode s nd hN hdir) ?_⟩⟩
  have hcard := (ht.wf.laid.disk s nd hN).card
  rw [hcard]
  unfold sectorsFor
  omega

/-- Distinct free sectors are no more than there are. -/
theorem Fs.length_le_freeSectors {l : List ℕ} (hl : l.Nodup)
    (h : ∀ b ∈ l, b < k.buffers.disk.capacity ∧ k.freeMap.bit b = false) : l.length ≤ k.freeSectors := by
  rw [← List.toFinset_card_of_nodup hl, Fs.freeSectors, Bitmap.freeBelow]
  refine Finset.card_le_card fun b hb => ?_
  rw [List.mem_toFinset] at hb
  rw [Finset.mem_filter, Finset.mem_range]
  exact h b hb

/-- A directory with the same bytes is as full. -/
theorem full_congr {B B' : Buffers} (hlen : nd.length ≤ 512 * nd.blocks.length)
    (hbytes : ∀ j < 512 * nd.blocks.length, byteAt B' nd j = byteAt B nd j) : Full B' nd ↔ Full B nd := by
  refine forall_congr' fun n => forall_congr' fun hn => ?_
  have hslot : slotAt B' nd n = slotAt B nd n := by
    funext j
    have hj : j.1 < 24 := j.2
    unfold Node.slots at hn
    exact hbytes _ (by omega)
  rw [hslot]

theorem CreateRoom.sameData (h : CreateRoom k N s n) (ht : Tree k N H) (hs : SameData k k') : CreateRoom k' N s n := by
  have hcap := hs.keeps.capacity
  have hsame : ∀ nd, N s = some nd → Full k'.buffers nd → Full k.buffers nd := fun nd hN =>
    (full_congr (ht.length_le hN) fun j _ => byteAt_keeps hs.keeps nd j).1
  refine ⟨fun b hb => ?_, fun nd hN b hb => ?_, fun nd hN hfull => ?_, ?_, ?_, fun nd hN hfull => ?_⟩
  · rw [hcap]
    exact h.map b hb
  · rw [hcap]
    exact h.dir nd hN b hb
  · rw [hcap]
    exact h.sector nd hN (hsame nd hN hfull)
  · rw [hs.tables]
    exact h.tables
  · rw [hcap, hs.freeMap]
    exact h.fits.file
  · rw [hcap, hs.freeMap]
    exact h.fits.entry nd hN (hsame nd hN hfull)

/-- With the sector of the inode taken, the inode may be written. -/
theorem CreateRoom.inode (h : CreateRoom k N s n) (ht : Tree k N H) (ha : Allocated k N 0 t k₁) :
    t + 1 < k₁.buffers.disk.capacity ∧ GrowRoom k₁ N t (.empty isdir) n := by
  have hcap := ha.capacity
  have hfile := h.fits.file
  have hlt := Bitmap.lt_of_freeBelow ha.first (show 0 < k.freeMap.freeBelow (k.buffers.disk.capacity - 1) by omega)
  have hset := Bitmap.freeBelow_set ha.clear hlt
  have hsmall := ht.map.capacity_le ht.wf
  have htab := h.tables
  obtain ⟨B, rfl⟩ := ha.frame
  dsimp only at hcap ⊢
  refine ⟨by omega, by dsimp only; omega, by dsimp only; omega, fun _ b hb => ?_, ?_, fun _ _ => by dsimp only; omega⟩
  · dsimp only
    rw [hcap]
    exact h.map b hb
  · dsimp only [Node.empty]
    rw [hcap, List.length_nil]
    omega

/-- With the inode written, the name may be added. -/
theorem CreateRoom.name (h : CreateRoom k N s n) (ht : Tree k N H) (ha : Allocated k N 0 t k₁)
    (hc : Created k₁ N t n isdir new nd' k₂) (hN : N s = some nd) (hs : s ≠ 0) :
    AddRoom k₂ (Function.update N t (some nd')) s nd := by
  obtain ⟨h₁, hbytes₁, -⟩ := ht.allocated ha
  obtain ⟨h2, hNt, -⟩ := ht.fresh ha isdir
  have he := hc.edited
  have hcap : k₂.buffers.disk.capacity = k.buffers.disk.capacity := by rw [he.capacity, ha.capacity]
  have hst : s ≠ t := by
    rintro rfl
    rw [hN] at hNt
    cases hNt
  have hfull : Full k₂.buffers nd ↔ Full k.buffers nd := full_congr (ht.length_le hN) fun j hj => by
    rw [he.other s nd hN hst (.inl hs) j hj, hbytes₁ s nd hN hs j hj]
  refine ⟨fun b hb => ?_, fun hf => ?_⟩
  · rw [hcap]
    exact h.dir nd hN b hb
  obtain ⟨hmax, hfits⟩ := h.fits.entry nd hN (hfull.1 hf)
  refine ⟨hmax, ?_, ?_, fun _ b hb => ?_, ?_, fun _ _ => ?_⟩
  · rw [hcap]
    exact ht.map.capacity_le ht.wf
  · rw [hcap]
    exact h.sector nd hN (hfull.1 hf)
  · rw [mapBlocks, Function.update_of_ne (by omega)] at hb
    rw [hcap]
    exact h.map b hb
  · -- what is left of the sectors
    have hlt := Bitmap.lt_of_freeBelow ha.first (show 0 < k.freeMap.freeBelow (k.buffers.disk.capacity - 1) by omega)
    have hset := Bitmap.freeBelow_set ha.clear hlt
    have hmap₁ : k₁.freeMap = k.freeMap.setMultiple t 1 true := by
      obtain ⟨B, rfl⟩ := ha.frame
      rfl
    have hleft := he.freeBelow_le (k.buffers.disk.capacity - 1)
    have hblocks : nd'.blocks = new := he.blocks
    have hcard := he.node.card
    rw [hblocks, hc.length] at hcard
    rw [hmap₁] at hleft
    rw [hcap]
    omega
  · have htab := he.tables
    have hnext : k₁.tables.next = k.tables.next := by
      obtain ⟨B, rfl⟩ := ha.frame
      rfl
    have := h.tables
    unfold Node.tableCount at htab
    split_ifs at htab <;> omega

/-! ### New names -/

/-- **`dir_add`** binds a name that is valid and not yet bound. -/
theorem dirAdd_tree (h : Tree k N H) (hp : k.DirOf p i) (ht : t < 2 ^ 32) :
    wp (dirAdd p (some nm) t)
      (fun ok k' => (ok = true ∧ ValidName nm ∧ H i.sector nm = none ∧ ∃ nd new nd', N i.sector = some nd ∧ nd.isdir = true ∧
          Edited k N i.sector nd new nd' k' ∧ Tree k' (Function.update N i.sector (some nd')) (H.bind i.sector nm t) ∧
          (Full k.buffers nd → nd'.length = nd.length + 48) ∧ (¬ Full k.buffers nd → nd'.length = nd.length)) ∨
        ok = false ∧ ¬ (ValidName nm ∧ H i.sector nm = none) ∧ k.Reads k')
      (Unless (∃ nd, N i.sector = some nd ∧ AddRoom k N i.sector nd)) k := by
  obtain ⟨nd, hN, hdir⟩ := h.dirOf_node hp
  obtain ⟨d, hd, hi⟩ := hp
  have hs := h.ne_zero hN hdir
  refine wp_mono (dirAdd_spec h.wf h.map hd hi hN hs (h.deny _ i hi (h.dirs p d i hd hi)) (h.ok _ nd hN hdir) ht) ?_
    (Unless.mono fun ⟨nd', hN', hroom⟩ => ?_)
  · rintro ok k' (⟨rfl, hvalid, hnone, new, nd', he, hok, hlen⟩ | hfail)
    · refine .inl ⟨rfl, hvalid, hnone, nd, new, nd', hN, hdir, he, ?_, hlen⟩
      refine h.edited he hs (fun nd₀ hN₀ => ?_) (fun u hu => ?_) fun _ => ?_
      · rw [hN] at hN₀
        cases hN₀
        rfl
      · rw [Bindings.bind, Function.update_of_ne hu]
      · rw [Bindings.bind, Function.update_self]
        exact hok
    · exact .inr hfail
  · rw [hN] at hN'
    cases hN'
    exact hroom

/-! ### `filesys_create` -/

/-- **A new file**: the name `nm` of the directory in sector `s` is bound to a file of `L` zeros in sector `t`, which was
free, and nothing else changes. -/
structure FileAdded (k : Fs) (N : Nodes) (H : Bindings) (s : ℕ) (nm : CString) (L t : ℕ) (k' : Fs) (N' : Nodes) : Prop where
  tree : Tree k' N' (H.bind s nm t)
  fits : FitsIn k N s L k.freeSectors
  fresh : N t = none
  clear : k.freeMap.bit t = false
  file : ∃ nd, N' t = some nd ∧ nd.isdir = false ∧ nd.length = L ∧ ∀ j < L, byteAt k'.buffers nd j = 0
  kind : N'.kind = Function.update N.kind t (some false)
  other : ∀ u nd, N u = some nd → u ≠ s → N' u = some nd ∧
    (u ≠ 0 → ∀ j < 512 * nd.blocks.length, byteAt k'.buffers nd j = byteAt k.buffers nd j)

/-- The name is refused: the files are the same, but the free map has the sectors `new` more, as many as the file has bytes
for. The sector `t` was taken for its inode and given back. -/
structure Refused (k : Fs) (N : Nodes) (H : Bindings) (L t : ℕ) (new : List ℕ) (k' : Fs) : Prop where
  tree : Tree k' N H
  bytes : SameBytes N k.buffers k'.buffers
  count : new.length = sectorsFor L
  nodup : (t :: new).Nodup
  fresh : ∀ b ∈ t :: new, b < k.buffers.disk.capacity ∧ k.freeMap.bit b = false
  bitCnt : k'.freeMap.bitCnt = k.freeMap.bitCnt
  bits : ∀ j, k'.freeMap.bit j = (k.freeMap.bit j || decide (j ∈ new))

theorem Fs.Reads.steady (h : k.Reads k') : Steady k k' := by
  obtain ⟨B, -, rfl⟩ := h
  exact ⟨rfl, rfl, rfl, rfl, rfl, fun _ => rfl, rfl⟩

theorem Steady.dirOf (h : Steady k k') (hp : k.DirOf p i) : ∃ data, k'.DirOf p { i with data := data } := by
  obtain ⟨d, hd, hi⟩ := hp
  obtain ⟨data, hi'⟩ := h.cell hi
  exact ⟨data, d, by rw [h.dirs]; exact hd, hi'⟩

theorem SameBytes.trans {B B' B'' : Buffers} (h : SameBytes N B B') (h' : SameBytes N B' B'') : SameBytes N B B'' :=
  fun s nd hN hs j hj => (h' s nd hN hs j hj).trans (h s nd hN hs j hj)

/-- No inode in memory is in a sector that belongs to no file. -/
theorem Tree.sector_ne (h : Tree k N H) (hN : N s = none) (a : ℕ) (i : Inode) (hi : k.inodes.cell a = some i) : i.sector ≠ s := by
  obtain ⟨nd, hN', -⟩ := h.node hi
  rintro rfl
  rw [hN] at hN'
  cases hN'

/-- The inode of a new file is written, and its sector given back. -/
theorem Tree.refused (h : Tree k N H) (ha : Allocated k N 0 t k₁) (hc : Created k₁ N t n isdir new nd k₂)
    (h₂ : Tree k₂ (Function.update N t (some nd)) H) (hr : k₂.Reads k') :
    wp (freeMapRelease persistFreeMap t 1) (fun _ k'' => Steady k k'' ∧ Refused k N H n t new k'') (Unless (MapClear k N)) k' := by
  obtain ⟨h₁, hbytes₁, -, -, -, hmap₁⟩ := h.allocated ha
  obtain ⟨h2, hN, -, -⟩ := h.fresh ha isdir
  have he := hc.edited
  have h' := h₂.reads hr
  have hNt : Function.update N t (some nd) t = some nd := Function.update_self ..
  have hmark := h'.wf.laid.marked t nd hNt t List.mem_cons_self
  have hbit : k₁.freeMap.bit t = true := by rw [hmap₁, Bitmap.bit_setMultiple_one, if_pos rfl]
  obtain ⟨nd₀, hN₀, hmapfile⟩ := h'.map.mapFile h'.wf
  have hnone : ∀ b j, k'.inodes.cell b = some j → j.sector ≠ t := by
    intro b j hj
    rw [hr.cell] at hj
    have hsteady := he.steady.inodes b
    rw [hj] at hsteady
    obtain ⟨j₁, hj₁, hh⟩ := Option.map_eq_some_iff.1 hsteady.symm
    have hsec : j₁.sector = j.sector := congrArg Prod.fst hh
    rw [← hsec]
    exact h₁.sector_ne hN b j₁ hj₁
  have hblocks : nd.blocks = new := he.blocks
  have hnodup : t ∉ new := fun hmem => by
    have := (he.fresh t hmem).2
    rw [hbit] at this
    cases this
  have hcap : k'.buffers.disk.capacity = k.buffers.disk.capacity := by
    rw [hr.sameData.keeps.capacity, he.capacity, ha.capacity]
  have hmapN : mapBlocks (Function.update N t (some nd)) = mapBlocks N := by
    unfold mapBlocks
    rw [Function.update_of_ne (by omega)]
  refine wp_mono (freeMapRelease_spec h'.wf.cache hN₀ hmapfile (by rw [h'.wf.laid.size]; exact hmark.1) hmark.2) ?_
    (Unless.mono fun hclear => ?_)
  swap
  · unfold MapClear at hclear ⊢
    rw [hcap, hmapN]
    exact hclear
  rintro - k₄ ⟨B, hB, rfl⟩
  obtain ⟨h₄, hbytes₄⟩ := h'.withdraw hNt h2 hnone hB
  have hNN : Function.update (Function.update N t (some nd)) t none = N := by
    rw [Function.update_idem, ← hN, Function.update_eq_self]
  rw [hNN] at h₄
  refine ⟨?_, h₄, ?_, ?_, List.nodup_cons.2 ⟨hnodup, he.nodup⟩, fun b hb => ?_, ?_, fun j => ?_⟩
  · exact (ha.steady.trans he.steady).trans (hr.steady.trans ⟨rfl, rfl, rfl, rfl, rfl, fun _ => rfl, rfl⟩)
  · refine hbytes₁.trans fun u ndu hNu hu j hj => ?_
    have hut : u ≠ t := by
      rintro rfl
      rw [hN] at hNu
      cases hNu
    have hNu' : Function.update N t (some nd) u = some ndu := by rw [Function.update_of_ne hut]; exact hNu
    obtain ⟨B₃, hB₃, rfl⟩ := hr
    rw [hbytes₄ u ndu hNu' hu j hj, byteAt_keeps hB₃, he.other u ndu hNu hut (.inl hu) j hj]
  · rw [← hblocks, he.node.card, hc.length]
  · rcases List.mem_cons.1 hb with rfl | hb
    · exact ⟨ha.lt, ha.clear⟩
    · obtain ⟨hlt, hclear⟩ := he.fresh b hb
      rw [hmap₁, Bitmap.bit_setMultiple_one] at hclear
      split_ifs at hclear
      exact ⟨ha.capacity ▸ hlt, hclear⟩
  · change (k'.freeMap.setMultiple t 1 false).bitCnt = _
    rw [hr.sameData.freeMap]
    exact he.bitCnt.trans (by rw [hmap₁]; rfl)
  · change (k'.freeMap.setMultiple t 1 false).bit j = _
    rw [hr.sameData.freeMap, Bitmap.bit_setMultiple_one, he.bits, hmap₁, Bitmap.bit_setMultiple_one]
    split_ifs with hjt
    · rw [hjt, ha.clear]
      simpa [hjt] using hnodup
    · rfl

/-- The name is added, to the file that was made. -/
theorem Tree.fileAdded {new' : List ℕ} {nds : Node} (h : Tree k N H) (ha : Allocated k N 0 t k₁)
    (hc : Created k₁ N t n false new nds k₂) (hs : s ≠ t)
    (he : Edited k₂ (Function.update N t (some nds)) s nd new' nd' k') (hN : N s = some nd)
    (h' : Tree k' (Function.update (Function.update N t (some nds)) s (some nd')) (H.bind s nm t))
    (hgrow : Full k₂.buffers nd → nd'.length = nd.length + 48) (hs0 : s ≠ 0) :
    FileAdded k N H s nm n t k' (Function.update (Function.update N t (some nds)) s (some nd')) := by
  obtain ⟨-, hbytes₁, -, -, -, hmap₁⟩ := h.allocated ha
  obtain ⟨h2, hNt, -⟩ := h.fresh ha false
  have hc' := hc.edited
  have hnds : Function.update N t (some nds) t = some nds := Function.update_self ..
  have hle := hc'.node.length_le
  -- the sectors that were taken
  have hfree : ∀ b ∈ t :: (new ++ new'), b < k.buffers.disk.capacity ∧ k.freeMap.bit b = false := by
    have hstep : ∀ b, b < k₁.buffers.disk.capacity ∧ k₁.freeMap.bit b = false → b < k.buffers.disk.capacity ∧ k.freeMap.bit b = false := by
      rintro b ⟨hlt, hbit⟩
      rw [hmap₁, Bitmap.bit_setMultiple_one] at hbit
      split_ifs at hbit
      exact ⟨by rw [← ha.capacity]; exact hlt, hbit⟩
    intro b hb
    rcases List.mem_cons.1 hb with rfl | hb
    · exact ⟨ha.lt, ha.clear⟩
    rcases List.mem_append.1 hb with hb | hb
    · exact hstep b (hc'.fresh b hb)
    · obtain ⟨hlt, hbit⟩ := he.fresh b hb
      rw [hc'.bits, Bool.or_eq_false_iff] at hbit
      exact hstep b ⟨by rw [← hc'.capacity]; exact hlt, hbit.1⟩
  have hnodup : (t :: (new ++ new')).Nodup := by
    refine List.nodup_cons.2 ⟨fun ht => ?_, hc'.nodup.append he.nodup fun b hb hb' => ?_⟩
    · have hbit : k₁.freeMap.bit t = true := by rw [hmap₁, Bitmap.bit_setMultiple_one, if_pos rfl]
      rcases List.mem_append.1 ht with ht | ht
      · rw [(hc'.fresh t ht).2] at hbit
        cases hbit
      · have := (he.fresh t ht).2
        rw [hc'.bits, hbit] at this
        cases this
    · have := (he.fresh b hb').2
      rw [hc'.bits, decide_eq_true hb, Bool.or_true] at this
      cases this
  have hcount := Fs.length_le_freeSectors hnodup hfree
  have hcard := hc'.node.card
  have hcard' := he.node.card
  have hblocks : nds.blocks = new := hc'.blocks
  rw [hblocks, hc.length] at hcard
  rw [he.blocks, List.length_append] at hcard'
  rw [List.length_cons, List.length_append] at hcount
  refine ⟨h', ⟨by omega, fun nd₀ hN₀ hfull => ?_⟩, hNt, ha.clear, ⟨nds, ?_, hc'.isdir, hc.length, fun j hj => ?_⟩, ?_,
    fun u ndu hNu hus => ?_⟩
  · rw [hN] at hN₀
    cases hN₀
    have hlen := hgrow ((full_congr (h.length_le hN) fun j hj => by
      rw [hc'.other s nd hN hs (.inl hs0) j hj, hbytes₁ s nd hN hs0 j hj]).2 hfull)
    have hshort := he.node.toRepr.length_lt
    rw [hlen] at hcard' hshort
    exact ⟨hshort, by omega⟩
  · rw [Function.update_of_ne (Ne.symm hs), hnds]
  · rw [he.other t nds hnds (Ne.symm hs) (.inl (by omega)) j (by have := hc.length; omega)]
    exact hc.zero j (by have := hc.length; omega)
  · rw [Nodes.kind_update_self (by rw [Function.update_of_ne hs]; exact hN) he.isdir, Nodes.kind_update, hc'.isdir]
    rfl
  · have hut : u ≠ t := by
      rintro rfl
      rw [hNt] at hNu
      cases hNu
    have hNu' : Function.update N t (some nds) u = some ndu := by rw [Function.update_of_ne hut]; exact hNu
    refine ⟨by rw [Function.update_of_ne hus]; exact hNu', fun hu j hj => ?_⟩
    rw [he.other u ndu hNu' hus (.inl hu) j hj, hc'.other u ndu hNu hut (.inl hu) j hj]
    exact hbytes₁ u ndu hNu hu j hj

/-- The part of `filesys_create` for a sector that was allocated, and then `rest`. -/
theorem createFile_tree (h : Tree k N H) (hp : k.DirOf p i) (ha : Allocated k N 0 t k₁) (hL : L < 2 ^ 31)
    {rest : Bool → FsM Bool} {Q : Bool → Fs → Prop} {E : Halt → Prop}
    (hE : ∀ e, Unless (0 ≤ L ∧ L ≤ 512 * 512 ∧ CreateRoom k N i.sector L.toNat) e → E e)
    (hadded : ∀ k' N', Steady k k' → 0 ≤ L → ValidName nm → H i.sector nm = none →
      FileAdded k N H i.sector nm L.toNat t k' N' → wp (rest true) Q E k')
    (hrefused : ∀ k' new, Steady k k' → 0 ≤ L → ¬ (ValidName nm ∧ H i.sector nm = none) →
      Refused k N H L.toNat t new k' → wp (rest false) Q E k') :
    wp (do
        let created ← inodeCreate t L false
        let added ← if created then dirAdd p (some nm) t else pure false
        onlyIf (added = false ∧ t ≠ 0) (freeMapRelease persistFreeMap t 1)
        rest added) Q E k₁ := by
  obtain ⟨h₁, -, hdirs₁, hinodes₁, -⟩ := h.allocated ha
  obtain ⟨h2, hN, ht32, -⟩ := h.fresh ha false
  obtain ⟨nd, hNs, hdir⟩ := h.dirOf_node hp
  have hst : i.sector ≠ t := by
    intro heq
    rw [heq, hN] at hNs
    cases hNs
  refine wp_seq (inodeCreate_tree h ha hL (by simp)) (fun e he => hE e (he.mono (fun hroom => ?_) e)) ?_
  · obtain ⟨hlast, hgrow⟩ := hroom.2.2.inode h ha
    exact ⟨hroom.1, hroom.2.1, hlast, fun _ => hgrow⟩
  rintro _ k₂ ⟨rfl, hL0, new, nds, hc, hfile, htree⟩
  have he := hc.edited
  have h₂ : Tree k₂ (Function.update N t (some nds)) H := by
    refine htree.congr fun u ndu hNu hd => ?_
    by_cases hu : u = t
    · subst hu
      rw [Function.update_self] at hNu
      cases hNu
      rw [hfile] at hd
      cases hd
    · rw [Function.update_of_ne hu]
  obtain ⟨data, hp₂⟩ := (ha.steady.trans he.steady).dirOf hp
  have hNs₂ : Function.update N t (some nds) i.sector = some nd := by rw [Function.update_of_ne hst]; exact hNs
  dsimp only
  rw [if_pos rfl]
  refine wp_seq (dirAdd_tree h₂ hp₂ ht32) (fun e he' => hE e (he'.mono (fun hroom => ?_) e)) ?_
  · exact ⟨nd, hNs₂, hroom.2.2.name h ha hc hNs (h.ne_zero hNs hdir)⟩
  rintro _ k₃ (⟨rfl, hvalid, hnone, nd₀, new', nd', hN₀, -, he', h₃, hgrow, -⟩ | ⟨rfl, hno, hr⟩)
  · rw [hNs₂] at hN₀
    cases hN₀
    rw [onlyIf, if_neg (by simp), wp_bind, wp_pure]
    exact hadded k₃ _ ((ha.steady.trans he.steady).trans he'.steady) hL0 hvalid hnone 
      (h.fileAdded ha hc hst he' hNs h₃ hgrow (h.ne_zero hNs hdir))
  · rw [onlyIf, if_pos ⟨rfl, by omega⟩]
    refine wp_seq (h.refused ha hc h₂ hr) (fun e he' => hE e (he'.mono (fun hroom => hroom.2.2.map) e)) ?_
    rintro - k₄ ⟨hst₄, href⟩
    exact hrefused k₄ new hst₄ hL0 hno href

/-- No sector is free. -/
def Fs.Full (k : Fs) : Prop := ∀ j < k.buffers.disk.capacity, k.freeMap.bit j = true

theorem SameData.sameBytes (h : SameData k k') (N : Nodes) : SameBytes N k.buffers k'.buffers :=
  fun _ nd _ _ j _ => byteAt_keeps h.keeps nd j

theorem FitsIn.sameData {c : ℕ} (h : FitsIn k₁ N s n c) (hk : Tree k N H) (hs : SameData k k₁) : FitsIn k N s n c :=
  ⟨h.file, fun nd hN hfull => h.entry nd hN ((full_congr (hk.length_le hN) fun j _ => byteAt_keeps hs.keeps nd j).2 hfull)⟩

theorem FileAdded.sameData (h : FileAdded k₁ N H s nm n t k₂ N') (hk : Tree k N H) (hs : SameData k k₁) (hs' : SameData k₂ k')
    (ht : Tree k' N' (H.bind s nm t)) : FileAdded k N H s nm n t k' N' := by
  obtain ⟨nd, hN, hfile, hlen, hzero⟩ := h.file
  have hfits := h.fits.sameData hk hs
  have hfree : k₁.freeSectors = k.freeSectors := by
    unfold Fs.freeSectors
    rw [hs.freeMap, hs.keeps.capacity]
  rw [hfree] at hfits
  refine ⟨ht, hfits, h.fresh, by rw [← hs.freeMap]; exact h.clear, ⟨nd, hN, hfile, hlen, fun j hj => ?_⟩, h.kind, fun u ndu hu hus => ?_⟩
  · rw [byteAt_keeps hs'.keeps]
    exact hzero j hj
  · refine ⟨(h.other u ndu hu hus).1, fun h0 j hj => ?_⟩
    rw [byteAt_keeps hs'.keeps, (h.other u ndu hu hus).2 h0 j hj, byteAt_keeps hs.keeps]

theorem Refused.sameData (h : Refused k₁ N H n t new k₂) (hs : SameData k k₁) (hs' : SameData k₂ k') (ht : Tree k' N H) :
    Refused k N H n t new k' := by
  refine ⟨ht, ((hs.sameBytes N).trans h.bytes).trans (hs'.sameBytes N), h.count, h.nodup, fun b hb => ?_, ?_, fun j => ?_⟩
  · rw [← hs.keeps.capacity, ← hs.freeMap]
    exact h.fresh b hb
  · rw [hs'.freeMap, h.bitCnt, hs.freeMap]
  · rw [hs'.freeMap, h.bits, hs.freeMap]

/-- `free_map_allocate` of a sector when none is free. -/
theorem freeMapAllocate_full (hw : Wf k N 0) (hfull : k.Full) :
    wp (freeMapAllocate persistFreeMap 1) (fun o k' => o = none ∧ k' = k) (fun _ => False) k := by
  rw [freeMapAllocate, wp_bind, wp_gets]
  cases hscan : k.freeMap.scan 0 1 false with
  | none => exact ⟨rfl, rfl⟩
  | some b =>
    obtain ⟨hlt, hclear, -⟩ := Bitmap.scan_one_eq_some hscan
    rw [hfull b (by rw [← hw.laid.size]; exact hlt)] at hclear
    cases hclear

/-- **What `filesys_create` returns**: true with a new file, or false, because the directory was removed, because no sector
is free or because the name was refused. -/
def CreateResult (k : Fs) (N : Nodes) (H : Bindings) (s : ℕ) (nm : CString) (L : ℤ) (r : Bool) (k' : Fs) : Prop :=
  (r = true ∧ ¬ Removed k s ∧ ¬ k.Full ∧ 0 ≤ L ∧ ValidName nm ∧ H s nm = none ∧ ∃ t N', FileAdded k N H s nm L.toNat t k' N') ∨
    r = false ∧ ((Removed k s ∨ k.Full) ∧ Tree k' N H ∧ SameData k k' ∨
      ¬ Removed k s ∧ ¬ k.Full ∧ 0 ≤ L ∧ ¬ (ValidName nm ∧ H s nm = none) ∧ ∃ t new, Refused k N H L.toNat t new k')

/-- **`filesys_create`.** -/
theorem filesysCreate_tree (h : Tree k N H) (hc : k.Cwd s) (hL : L < 2 ^ 31) :
    wp (filesysCreate (some nm) L)
      (fun r k' => Holding k k' ∧ k'.files = k.files ∧ (∃ j, k'.DirOf k'.currDir j ∧ j.sector = 1) ∧
        CreateResult k N H s nm L r k')
      (Unless (¬ Removed k s → ¬ k.Full → 0 ≤ L ∧ L ≤ 512 * 512 ∧ CreateRoom k N s L.toNat)) k := by
  rw [filesysCreate]
  refine wp_seq (dirMakesure_cwd h hc) (fun _ => False.elim) ?_
  rintro cur k₁ ⟨hl₁, -, i, ⟨d, hd, hi⟩, hsec⟩
  refine wp_seq (dirReopen_tree hl₁.tree hd hi) (fun _ => False.elim) ?_
  rintro dir k₂ ⟨hl₂, -, hnext, hd₂, hi₂⟩
  have hl := hl₁.trans hl₂
  have hpos := hl₁.tree.pos _ i hi
  have hrem : Removed k s ↔ i.removed = true := by
    rw [← hl₁.holding.removed_iff, ← hsec]
    exact hl₁.tree.removed_iff hi
  -- the directory is closed in the end, whatever the result
  have hclose : ∀ (r : Bool) k₃ N' H', Steady k₂ k₃ → Tree k₃ N' H' →
      (∀ k', Tree k' N' H' → SameData k₃ k' → CreateResult k N H s nm L r k') →
      wp (do
        dirClose dir
        pure r) (fun r k' => Holding k k' ∧ k'.files = k.files ∧ (∃ j, k'.DirOf k'.currDir j ∧ j.sector = 1) ∧
          CreateResult k N H s nm L r k') (fun _ => False) k₃ := by
    intro r k₃ N' H' hst h₃ hresult
    have hd₃ : k₃.dirs.cell dir = some ⟨d.inode, 0⟩ := by rw [hst.dirs]; exact hd₂
    obtain ⟨data, hi₃⟩ := hst.cell hi₂
    refine wp_seq (dirClose_tree h₃ hd₃ hi₃ (by dsimp only; omega)) (fun _ => False.elim) ?_
    rintro - k' ⟨hsame, hl₄, hroot⟩
    have hhold := (hl₂.holding.trans hst.holding).closed hi hi₃ (by dsimp only; omega) (by omega) hd₃
    exact ⟨hl₁.holding.trans (hhold.trans hl₄.holding), (hl₄.files.trans hst.files).trans hl.files, hroot,
      hresult k' hl₄.tree hsame⟩
  rw [wp_bind]
  refine wp_dirAt hd₂ ?_
  rw [wp_bind]
  refine wp_inodeAt hi₂ ?_
  rw [wp_ite]
  refine ⟨fun hremoved => ?_, fun hremoved => ?_⟩
  · refine wp_mono (hclose false k₂ N H (.refl _) hl₂.tree fun k' h' hsame => ?_) (fun _ _ hpost => hpost) fun _ => False.elim
    exact .inr ⟨rfl, .inl ⟨.inl (hrem.2 hremoved), h', hl.data.trans hsame⟩⟩
  have hkept : ¬ Removed k s := fun hr => hremoved (hrem.1 hr)
  have hcap := hl.data.keeps.capacity
  by_cases hfull : k.Full
  · have hfull₂ : k₂.Full := by
      intro j hj
      rw [hl.data.freeMap]
      exact hfull j (by rw [← hcap]; exact hj)
    refine wp_seq (freeMapAllocate_full hl₂.tree.wf hfull₂) (fun _ => False.elim) ?_
    rintro _ _ ⟨rfl, rfl⟩
    refine wp_mono (hclose false _ N H (.refl _) hl₂.tree fun k' h' hsame => ?_) (fun _ _ hpost => hpost) fun _ => False.elim
    exact .inr ⟨rfl, .inl ⟨.inr hfull, h', hl.data.trans hsame⟩⟩
  · refine wp_seq (freeMapAllocate_spec persistFreeMap_persists hl₂.tree.wf fun _ => hl₂.tree.map) (fun e he => ?_) ?_
    · refine he.mono (fun hroom => ?_) e
      exact ((hroom hkept hfull).2.2.sameData h hl.data).map
    rintro _ k₃ (⟨t, rfl, ha⟩ | ⟨rfl, rfl, hfull'⟩)
    · refine createFile_tree hl₂.tree ⟨_, hd₂, hi₂⟩ ha hL (fun e he => he.mono (fun hroom => ?_) e) ?_ ?_
      · obtain ⟨h0, hmax, hroom⟩ := hroom hkept hfull
        have hroom₂ := hroom.sameData h hl.data
        dsimp only
        rw [hsec]
        exact ⟨h0, hmax, hroom₂⟩
      · dsimp only
        rw [hsec]
        intro k₄ N' hst h0 hvalid hnone hadded
        rw [wp_bind, wp_pure]
        refine wp_mono (hclose true k₄ N' _ hst hadded.tree fun k' h' hsame => ?_) (fun _ _ hpost => hpost) fun _ => False.elim
        exact .inl ⟨rfl, hkept, hfull, h0, hvalid, hnone, t, N', hadded.sameData h hl.data hsame h'⟩
      · dsimp only
        rw [hsec]
        intro k₄ new hst h0 hno href
        rw [wp_bind, wp_pure]
        refine wp_mono (hclose false k₄ N H hst href.tree fun k' h' hsame => ?_) (fun _ _ hpost => hpost) fun _ => False.elim
        exact .inr ⟨rfl, .inr ⟨hkept, hfull, h0, hno, t, new, href.sameData hl.data hsame h'⟩⟩
    · refine absurd (fun j hj => ?_) hfull
      rw [← hl.data.freeMap]
      exact hfull' j (by rw [hcap]; exact hj)

end Pintos
