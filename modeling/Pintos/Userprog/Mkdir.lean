import Pintos.Userprog.PathEdits

/-!
# Making directories

`SYS_MKDIR` takes a sector for the inode first and looks at the path then. The directory
is made in that sector, its name is added where the walk has ended, and the names `.` and
`..` are added to the new directory by way of the current directory, which is set to it
and back again.
-/

namespace Pintos

open Library Library.Prog Library.Bytes

variable {k k' k₁ k₂ k₃ : Fs} {N N' N₁ : Nodes} {H G : Bindings} {s t a p : ℕ} {i : Inode} {nd nd' : Node} {c path nm : CString}
  {cs : List CString} {new : List ℕ} {S : Set ℕ}

/-! ### What stays the same -/

/-- The files but those in `S` have the same sectors, and but for the free map's the same bytes. -/
def Spares (S : Set ℕ) (k : Fs) (N : Nodes) (k' : Fs) (N' : Nodes) : Prop :=
  ∀ u ∉ S, ∀ nd, N u = some nd →
    N' u = some nd ∧ (u ≠ 0 → ∀ j < 512 * nd.blocks.length, byteAt k'.buffers nd j = byteAt k.buffers nd j)

theorem Spares.trans (h : Spares S k N k₁ N₁) (h' : Spares S k₁ N₁ k' N') : Spares S k N k' N' := by
  intro u hu nd hN
  obtain ⟨hN₁, hbytes⟩ := h u hu nd hN
  obtain ⟨hN', hbytes'⟩ := h' u hu nd hN₁
  exact ⟨hN', fun h0 j hj => (hbytes' h0 j hj).trans (hbytes h0 j hj)⟩

theorem Spares.mono {S' : Set ℕ} (h : Spares S k N k' N') (hS : S ⊆ S') : Spares S' k N k' N' :=
  fun u hu => h u fun hmem => hu (hS hmem)

theorem SameData.spares (h : SameData k k') (S : Set ℕ) (N : Nodes) : Spares S k N k' N :=
  fun _ _ nd hN => ⟨hN, fun _ j _ => byteAt_keeps h.keeps nd j⟩

theorem Edited.spares (h : Edited k N s nd new nd' k') : Spares {s} k N k' (Function.update N s (some nd')) := by
  intro u hu nd₁ hN
  rw [Set.mem_singleton_iff] at hu
  exact ⟨by rw [Function.update_of_ne hu]; exact hN, fun h0 => h.other u nd₁ hN hu (.inl h0)⟩

theorem Tree.spares_allocated (h : Tree k N H) (ha : Allocated k N 0 t k₁) (S : Set ℕ) : Spares S k N k₁ N := by
  obtain ⟨-, hbytes, -⟩ := h.allocated ha
  exact fun u _ nd hN => ⟨hN, fun h0 => hbytes u nd hN h0⟩

/-! ### A new directory -/

/-- The names of a directory in sector `t` that was made in the one in sector `s`. -/
def dotNames (t s : ℕ) : CString → Option ℕ := Function.update (Function.update (fun _ => none) .dot (some t)) .dotDot (some s)

/-- The name `nm` of the directory in sector `s` is bound to a new directory in sector `t`. -/
def Bindings.addDir (H : Bindings) (s : ℕ) (nm : CString) (t : ℕ) : Bindings := Function.update (H.bind s nm t) t (dotNames t s)

/-- A directory that binds one name at most has a free entry, if it has more than one. -/
theorem DirOk.not_full {B : Buffers} {m : CString → Option ℕ} (h : DirOk B nd m) (hslots : 2 ≤ nd.slots)
    (hm : ∀ x y, m x ≠ none → m y ≠ none → x = y) : ¬ Full B nd := by
  intro hfull
  have hbound : ∀ n < nd.slots, ∃ x u, (slotAt B nd n).binding = some (x, u) ∧ m x ≠ none := by
    intro n hn
    obtain ⟨x, u, hbind, -⟩ := h.named n hn (hfull n hn)
    refine ⟨x, u, hbind, ?_⟩
    rw [(h.rep.binds x u).2 ⟨n, hn, hbind⟩]
    exact Option.some_ne_none u
  obtain ⟨x, u, hx, hmx⟩ := hbound 0 (by omega)
  obtain ⟨y, v, hy, hmy⟩ := hbound 1 (by omega)
  have hxy := hm x y hmx hmy
  subst hxy
  exact absurd (h.rep.distinct 0 1 x u v (by omega) (by omega) hx hy) (by decide)

/-- A directory without names to which `dir_create` has given its first length. -/
structure Blank (N : Nodes) (H : Bindings) (t : ℕ) (nd : Node) : Prop where
  node : N t = some nd
  isdir : nd.isdir = true
  length : nd.length = 384
  names : H t = fun _ => none

/-- **`dir_create`** in a sector that was free. -/
theorem dirCreate_tree (h : Tree k N H) (ha : Allocated k N 0 t k₁) :
    wp (dirCreate t 16)
      (fun _ k₂ => Steady k k₂ ∧ ∃ new nd, Created k₁ N t 384 true new nd k₂ ∧
        Blank (Function.update N t (some nd)) (Function.update H t fun _ => none) t nd ∧
        Tree k₂ (Function.update N t (some nd)) (Function.update H t fun _ => none))
      (Unless (CreateRoom k N s 384)) k₁ := by
  have hwrap : wrap (16 * entrySize : ℕ) = 384 := by decide
  rw [dirCreate, hwrap]
  refine wp_mono (inodeCreate_tree h ha (L := 384) (by decide) fun _ => by decide) ?_ (Unless.mono fun hroom => ?_)
  · rintro ok k₂ ⟨-, -, new, nd, hc, hdir, htree⟩
    exact ⟨ha.steady.trans hc.edited.steady, new, nd, hc,
      ⟨Function.update_self .., hdir, hc.length, Function.update_self ..⟩, htree⟩
  · obtain ⟨hlast, hgrow⟩ : _ ∧ GrowRoom k₁ N t (.empty true) 384 := hroom.inode h ha
    exact ⟨by decide, by decide, hlast, fun _ => hgrow⟩

/-- `dir_create` when no sector is free: there is none for the entries. -/
theorem dirCreate_noSector (hw : Wf k N 0) (hfull : k.Full) : wp (dirCreate t 16) (fun _ _ => False) Benign k := by
  have hwrap : wrap (16 * entrySize : ℕ) = 384 := by decide
  rw [dirCreate, hwrap, inodeCreate, if_pos (by decide), wp_bind, wp_modify, wp_bind, inodeGrow, wp_bind, readData, wp_gets,
    if_neg (show ¬ 384 ≤ InodeDisk.zero.length by decide), wp_bind, wp_gets, wp_ite]
  refine ⟨fun _ => (by decide : Benign .fileTooBig), fun _ => ?_⟩
  have hneeded : bytesToSectors 384 = 1 := by decide
  have hcurrent : bytesToSectors (InodeDisk.zero.length : ℤ) = 0 := by decide
  rw [hneeded, if_pos (by decide), wp_bind]
  change wp (growLoop _ _ _ (bytesToSectors _) (1 - bytesToSectors _)) _ _ _
  rw [hcurrent, growLoop, wp_bind, wp_pure, wp_bind, allocateSlot, wp_bind]
  refine wp_mono (freeMapAllocate_full (N := N) ⟨hw.cache, hw.laid, hw.opened⟩ hfull) ?_ fun _ h => h.elim
  rintro _ k' ⟨rfl, -⟩
  exact (by decide : Benign .diskFull)

/-! ### The name of a new directory -/

/-- A sector that belonged to no file need not be spared. -/
theorem Spares.fresh (h : Spares (insert t S) k N k' N') (hN : N t = none) : Spares S k N k' N' := by
  intro u hu nd hNu
  refine h u (fun hmem => ?_) nd hNu
  rcases Set.mem_insert_iff.1 hmem with rfl | hmem
  · rw [hN] at hNu
    cases hNu
  · exact hu hmem

theorem GrowRoom.sameData {L : ℕ} (h : GrowRoom k N s nd L) (hs : SameData k k') : GrowRoom k' N s nd L := by
  have hcap := hs.keeps.capacity
  refine ⟨by rw [hcap]; exact h.capacity, by rw [hcap]; exact h.sector, fun hlt b hb => ?_, ?_, fun hlong htab => ?_⟩
  · rw [hcap]
    exact h.map hlt b hb
  · rw [hcap, hs.freeMap]
    exact h.free
  · rw [hs.tables]
    exact h.table hlong htab

theorem AddRoom.sameData (h : AddRoom k N s nd) (ht : Tree k N H) (hN : N s = some nd) (hs : SameData k k') : AddRoom k' N s nd := by
  refine ⟨fun b hb => ?_, fun hfull => ?_⟩
  · rw [hs.keeps.capacity]
    exact h.clear b hb
  · obtain ⟨hmax, hgrow⟩ := h.grow ((full_congr (ht.length_le hN) fun j _ => byteAt_keeps hs.keeps nd j).1 hfull)
    exact ⟨hmax, hgrow.sameData hs⟩

/-- The entries of a new directory are not in the disk's last sector, if there is room for them elsewhere. -/
theorem CreateRoom.clear (h : CreateRoom k N s 384) (ht : Tree k N H) (ha : Allocated k N 0 t k₁)
    (hc : Created k₁ N t 384 true new nd k₂) : nd.Clear k₂ := by
  have hgrow : GrowRoom k₁ N t (.empty true) 384 := (h.inode ht ha).2
  have hcard := hc.edited.node.card
  have hblocks : nd.blocks = new := hc.edited.blocks
  have hfree := hgrow.free
  rw [hblocks, hc.length] at hcard
  intro b hb
  rw [hblocks] at hb
  rw [hc.edited.capacity]
  exact hc.edited.new_clear (by rw [hcard]; exact hfree) b hb

/-- The name `nm` of the directory in sector `s` is bound to a new directory in sector `t`, which binds no names yet. -/
structure Named (k : Fs) (N : Nodes) (H : Bindings) (s : ℕ) (nm : CString) (t : ℕ) (k' : Fs) (N' : Nodes) : Prop where
  tree : Tree k' N' (Bindings.bind (Function.update H t fun _ => none) s nm t)
  blank : ∃ nd, Blank N' (Bindings.bind (Function.update H t fun _ => none) s nm t) t nd ∧ (CreateRoom k N s 384 → nd.Clear k')
  kind : N'.kind = Function.update N.kind t (some true)
  spares : Spares {s} k N k' N'

/-- **A directory that no name leads to** was made in sector `t`. -/
structure Stranded (k : Fs) (N : Nodes) (H : Bindings) (t : ℕ) (k' : Fs) (N' : Nodes) : Prop where
  fresh : N t = none
  tree : Tree k' N' (Function.update H t fun _ => none)
  kind : N'.kind = Function.update N.kind t (some true)
  spares : Spares ∅ k N k' N'

/-- **The directory and its name**: `dir_create`, `inode_open` and `dir_add`. -/
theorem mkdirAdd_tree (h : Tree k N H) (hc : k.Cwd s) (ha : Allocated k N 0 t k₁) :
    wp (mkdirAdd (some nm) t)
      (fun r k' => Holding k k' ∧ (∃ i, k'.inodes.cell r.1 = some i ∧ i.sector = t) ∧ (∃ j, k'.DirOf k'.currDir j ∧ j.sector = s) ∧
        ((r.2 = true ∧ ValidName nm ∧ H s nm = none ∧ ∃ N', Named k N H s nm t k' N') ∨
          r.2 = false ∧ ¬ (ValidName nm ∧ H s nm = none) ∧ ∃ N', Stranded k N H t k' N'))
      (Unless (CreateRoom k N s 384)) k₁ := by
  obtain ⟨h2, hNt, ht32, -⟩ := h.fresh ha true
  obtain ⟨ndd, hNd, hdird⟩ := h.cwd_isDir hc
  have hs0 := h.ne_zero hNd hdird
  have hst : s ≠ t := by
    rintro rfl
    rw [hNt] at hNd
    cases hNd
  rw [mkdirAdd]
  refine wp_seq (dirCreate_tree (s := s) h ha) (fun e he => he) ?_
  rintro - k₂ ⟨hst₂, new, nd, hcr, hblank, h₂⟩
  have hsp₂ : Spares ∅ k N k₂ (Function.update N t (some nd)) :=
    Spares.fresh (t := t) (((h.spares_allocated ha {t}).trans hcr.edited.spares).mono (by simp)) hNt
  refine wp_seq (inodeOpen_opens h₂.wf hblank.node) (fun _ => False.elim) ?_
  intro a k₃ ho
  obtain ⟨i, hi, hsec, -⟩ := ho.cell_self
  have hl₃ := h₂.looked_opens ho hblank.node
  have hcwd₃ : k₃.Cwd s := hc.holding (hst₂.holding.trans hl₃.holding) (ho.currDir.trans hst₂.currDir)
  rw [if_pos (k₃.inodes.ne_null hi)]
  refine wp_seq (dirMakesure_cwd hl₃.tree hcwd₃) (fun _ => False.elim) ?_
  rintro dir k₄ ⟨hl₄, rfl, j, hj, hjs⟩
  have hl := hl₃.trans hl₄
  have hNs : Function.update N t (some nd) s = some ndd := by rw [Function.update_of_ne hst]; exact hNd
  obtain ⟨n, data, -, hi₄⟩ := hl₄.holding.inode a i hi
  refine wp_seq (dirAdd_tree hl₄.tree hj ht32) (Unless.mono fun hroom => ?_) ?_
  · rw [hjs]
    exact ⟨ndd, hNs, (hroom.name h ha hcr hNd hs0).sameData h₂ hNs hl.data⟩
  rw [hjs, Function.update_of_ne hst]
  have hend : ∀ k₅, Steady k₄ k₅ → Holding k k₅ ∧ (∃ i, k₅.inodes.cell a = some i ∧ i.sector = t) ∧
      ∃ j, k₅.DirOf k₅.currDir j ∧ j.sector = s := by
    intro k₅ hst₅
    obtain ⟨data₅, hi₅⟩ := hst₅.cell hi₄
    obtain ⟨dataj, hj₅⟩ := hst₅.dirOf hj
    refine ⟨(hst₂.holding.trans hl.holding).trans hst₅.holding, ⟨_, hi₅, hsec⟩, { j with data := dataj }, ?_, hjs⟩
    rw [hst₅.currDir]
    exact hj₅
  rintro ok k₅ (⟨rfl, hvalid, hnone, nds, new', nd', hNs', -, he, h₅, -⟩ | ⟨rfl, hno, hr⟩)
  · rw [hNs] at hNs'
    cases hNs'
    obtain ⟨hhold, hcell, hcwd⟩ := hend k₅ he.steady
    refine ⟨hhold, hcell, hcwd, .inl ⟨rfl, hvalid, hnone, _, h₅, ⟨nd, ⟨?_, hblank.isdir, hblank.length, ?_⟩, fun hroom b hb => ?_⟩, ?_, ?_⟩⟩
    · rw [Function.update_of_ne (Ne.symm hst)]
      exact hblank.node
    · rw [Bindings.bind, Function.update_of_ne (Ne.symm hst)]
      exact hblank.names
    · rw [he.capacity, hl.capacity]
      exact hroom.clear h ha hcr b hb
    · rw [Nodes.kind_update_self hNs he.isdir, Nodes.kind_update, hblank.isdir]
    · exact ((hsp₂.mono (Set.empty_subset _)).trans (hl.data.spares _ _)).trans he.spares
  · obtain ⟨hhold, hcell, hcwd⟩ := hend k₅ hr.steady
    refine ⟨hhold, hcell, hcwd, .inr ⟨rfl, hno, _, hNt, hl₄.tree.reads hr, ?_, ?_⟩⟩
    · rw [Nodes.kind_update, hblank.isdir]
    · exact (hsp₂.trans (hl.data.spares _ _)).trans (hr.sameData.spares _ _)

/-! ### The names in a new directory -/

theorem Bindings.bind_bind_dots (hG : G t = fun _ => none) :
    (G.bind t .dot t).bind t .dotDot s = Function.update G t (dotNames t s) := by
  unfold Bindings.bind
  rw [Function.update_idem, Function.update_self, hG]
  rfl

/-- **`.` and `..`**, by way of the current directory. -/
theorem mkdirDots_tree {parent : FsM ℕ} {P : Prop} {E : Halt → Prop} (h : Tree k N G) (hb : Blank N G t nd) (hi : k.inodes.cell a = some i)
    (hsec : i.sector = t) (ht : t < 2 ^ 32) (hs : s < 2 ^ 32) (hE : ∀ e, Unless (nd.Clear k) e → E e)
    (hparent : ∀ k', Holding k k' → wp parent (fun q k'' => P ∧ q = s ∧ k'' = k') E k') :
    wp (mkdirDots a t parent)
      (fun r k' => P ∧ r = true ∧ Holding k k' ∧ ∃ N', Tree k' N' (Function.update G t (dotNames t s)) ∧ N'.kind = N.kind ∧
        Spares {t} k N k' N') E k := by
  have hdir : i.data.isdir = true := by
    have := h.isDir_eq hi
    rw [hsec, Nodes.isDir, hb.node, Option.any_some, hb.isdir] at this
    exact this.symm
  have hslots : 2 ≤ nd.slots := by
    rw [Node.slots, hb.length]
    decide
  have hone : ∀ x y, G t x ≠ none → G t y ≠ none → x = y := fun x y hx _ => absurd (by rw [hb.names]) hx
  rw [mkdirDots]
  refine wp_seq (dirOpen_tree h hi hdir) (fun _ => False.elim) ?_
  rintro p k₁ ⟨hl₁, rfl, -, hp₁⟩
  rw [if_pos (Fs.dirOf_ne_zero hp₁)]
  have hcwd₁ : k₁.Cwd t := .inr ⟨_, hp₁, hsec⟩
  refine wp_seq (dirMakesure_cwd hl₁.tree hcwd₁) (fun _ => False.elim) ?_
  rintro dir k₂ ⟨hl₂, rfl, j, hj, hjs⟩
  have hl := hl₁.trans hl₂
  have hnot₂ : ¬ Full k₂.buffers nd := by
    have hok := hl.tree.ok t nd hb.node hb.isdir
    exact hok.not_full hslots hone
  have hclear : ∀ k', k'.buffers.disk.capacity = k.buffers.disk.capacity → nd.Clear k → nd.Clear k' := by
    intro k' hcap hclear b hb
    rw [hcap]
    exact hclear b hb
  -- the name `.`
  refine wp_seq (dirAdd_tree hl₂.tree hj ht) (fun e he => hE e (he.mono (fun hc => ?_) e)) ?_
  · rw [hjs]
    exact ⟨nd, hb.node, hclear k₂ hl.capacity hc, fun hfull => absurd hfull hnot₂⟩
  rw [hjs]
  rintro ok k₃ (⟨rfl, -, -, nds, new, nd₃, hN, -, he₃, h₃, -, hlen₃⟩ | ⟨rfl, hno, -⟩)
  swap
  · exact absurd ⟨by decide, congrFun hb.names _⟩ hno
  rw [hb.node] at hN
  cases hN
  rw [if_pos rfl]
  obtain ⟨dataj, hj₃⟩ := he₃.steady.dirOf hj
  have hcwd₃ : k₃.Cwd t := .inr ⟨{ j with data := dataj }, by rw [he₃.steady.currDir]; exact hj₃, hjs⟩
  refine wp_seq (hparent k₃ (hl.holding.trans he₃.steady.holding)) (fun _ he => he) ?_
  rintro q k₃ ⟨hP, hq, rfl⟩
  subst hq
  refine wp_seq (dirMakesure_cwd h₃ hcwd₃) (fun _ => False.elim) ?_
  rintro dir k₄ ⟨hl₄, rfl, j', hj', hjs'⟩
  -- the name `..`
  have hN₃ : Function.update N t (some nd₃) t = some nd₃ := Function.update_self ..
  have hlen : nd₃.length = 384 := (hlen₃ hnot₂).trans hb.length
  have hisdir₃ : nd₃.isdir = true := he₃.isdir.trans hb.isdir
  have hnew : new = [] := by
    have hcard := he₃.node.card
    have hcard₀ := (h.wf.laid.disk t nd hb.node).card
    rw [he₃.blocks, List.length_append, hlen] at hcard
    rw [hb.length] at hcard₀
    exact List.eq_nil_of_length_eq_zero (by omega)
  have hnot₄ : ¬ Full k₄.buffers nd₃ := by
    refine (hl₄.tree.ok t nd₃ hN₃ hisdir₃).not_full (by rw [Node.slots, hlen]; decide) fun x y hx hy => ?_
    have hdot : ∀ x, G.bind t .dot t t x ≠ none → x = .dot := by
      intro x hx
      by_contra hne
      rw [Bindings.bind_of_ne fun heq => hne heq.2, hb.names] at hx
      exact hx rfl
    rw [hdot x hx, hdot y hy]
  refine wp_mono (dirAdd_tree hl₄.tree hj' hs) ?_ (fun e he => hE e (he.mono (fun hc => ?_) e))
  swap
  · rw [hjs']
    refine ⟨nd₃, hN₃, ?_, fun hfull => absurd hfull hnot₄⟩
    intro b hb
    rw [he₃.blocks, hnew, List.append_nil] at hb
    exact hclear k₄ (hl₄.capacity.trans (he₃.capacity.trans hl.capacity)) hc b hb
  rw [hjs']
  rintro ok k₅ (⟨rfl, -, -, nds, new', nd₅, hN, -, he₅, h₅, -⟩ | ⟨rfl, hno, -⟩)
  swap
  · refine absurd ⟨by decide, ?_⟩ hno
    rw [Bindings.bind_of_ne fun heq => absurd heq.2 (by decide), hb.names]
  rw [hN₃] at hN
  cases hN
  refine ⟨hP, rfl, ?_, Function.update (Function.update N t (some nd₃)) t (some nd₅), ?_, ?_, ?_⟩
  · exact ((hl.holding.trans he₃.steady.holding).trans hl₄.holding).trans he₅.steady.holding
  · rw [← Bindings.bind_bind_dots hb.names]
    exact h₅
  · rw [Nodes.kind_update_self hN₃ he₅.isdir, Nodes.kind_update_self hb.node he₃.isdir]
  · exact ((hl.data.spares _ _).trans he₃.spares).trans ((hl₄.data.spares _ _).trans he₅.spares)

/-! ### Looking up after the sector is taken -/

theorem FitsIn.sameBytes {n c : ℕ} (h : FitsIn k N s n c) (ht : Tree k N H) (hs : s ≠ 0) (hb : SameBytes N k.buffers k'.buffers) :
    FitsIn k' N s n c :=
  ⟨h.file, fun nd hN hfull => h.entry nd hN ((full_congr (ht.length_le hN) (hb s nd hN hs)).1 hfull)⟩

/-- **The walk of `SYS_MKDIR` comes after the sector is taken**, but might as well come before it: `k₀` is the state in which the
files have been looked up, and the sector is still free. -/
theorem Tree.allocated_looked (h : Tree k N H) (ha : Allocated k N 0 t k₁) (hl : Looked k₁ N H k₂) :
    ∃ k₀, Tree k₀ N H ∧ Allocated k₀ N 0 t k₂ ∧ Holding k k₀ ∧ Spares ∅ k N k₀ N ∧ (∀ s, k₂.Cwd s → k₀.Cwd s) ∧
      (∀ b o, k₂.InodeOf b o → k₀.InodeOf b o) ∧ ∀ s, N.isDir s = true → CreateRoom k N s 384 → CreateRoom k₀ N s 384 := by
  obtain ⟨h₁, hbytes₁, -, -, -, hmap₁⟩ := h.allocated ha
  obtain ⟨h2, hNt, -⟩ := h.fresh ha true
  have hcap : k₂.buffers.disk.capacity = k.buffers.disk.capacity := hl.capacity.trans ha.capacity
  have hmap₂ : k₂.freeMap = k.freeMap.setMultiple t 1 true := hl.data.freeMap.trans hmap₁
  have hbytes : SameBytes N k.buffers k₂.buffers := hbytes₁.trans (hl.data.sameBytes N)
  have hhold := ha.steady.holding.trans hl.holding
  have hcleared : Cleared k₂.freeMap [t] k.freeMap := by
    refine ⟨by rw [hmap₂]; rfl, fun j => ?_⟩
    rw [hmap₂, Bitmap.bit_setMultiple_one]
    split_ifs with hj
    · simp [hj, ha.clear]
    · simp [hj]
  have htree := hl.tree
  have hw : Wf { k₂ with freeMap := k.freeMap } N 0 := by
    refine htree.wf.of_cleared hcleared (fun b hb => ?_) fun s' nd' hN' b hb hmem => ?_
    · rw [List.mem_singleton.1 hb]
      exact h2
    · rw [List.mem_singleton.1 hmem] at hb
      exact h.wf.laid.notMem_of_clear ha.clear hN' hb
  obtain ⟨f, i, nd, hf, hi, hsec, hdeny, hN, hle⟩ := htree.map
  refine ⟨{ k₂ with freeMap := k.freeMap }, ⟨hw, ⟨f, i, nd, hf, hi, hsec, hdeny, hN, ?_⟩, htree.root, htree.plain, htree.pos,
    htree.deny, htree.dirs, htree.live, htree.ok⟩, ⟨?_, ha.clear, ha.first, htree.wf, ⟨k₂.buffers, ?_⟩, rfl, fun _ _ => rfl,
    fun _ _ _ _ _ => rfl, fun _ => ?_⟩, ⟨hhold.inode, hhold.new, hhold.dir, hhold.next⟩, fun u _ ndu hNu => ⟨hNu, hbytes u ndu hNu⟩,
    fun s hs => hs, fun b o hb => ?_, fun s hs hroom => ?_⟩
  · rw [hmap₂] at hle
    exact hle
  · rw [hcap]
    exact ha.lt
  · rw [← hmap₂]
  · intro nd' hN' j hj
    have hfile : k.freeMapFile ≠ 0 := by
      obtain ⟨f', -, -, hf', -⟩ := h.map
      exact k.files.ne_null hf'
    rw [byteAt_keeps hl.data.keeps, hl.data.freeMap]
    exact ha.sync hfile nd' hN' j (by rw [← hl.data.freeMap]; exact hj)
  · cases o with
    | none => exact hb
    | some u => exact hb
  · obtain ⟨nds, hNs, hdirs⟩ := Nodes.isDir_iff.1 hs
    have hs0 := h.ne_zero hNs hdirs
    have hback : ∀ ndu, N s = some ndu → Full k₂.buffers ndu → Full k.buffers ndu := fun ndu hNu =>
      (full_congr (h.length_le hNu) (hbytes s ndu hNu hs0)).1
    refine ⟨fun b hb => ?_, fun ndu hNu b hb => ?_, fun ndu hNu hfull => ?_, ?_, ?_⟩
    · exact hcap.symm ▸ hroom.map b hb
    · exact hcap.symm ▸ hroom.dir ndu hNu b hb
    · exact hcap.symm ▸ hroom.sector ndu hNu (hback ndu hNu hfull)
    · change k₂.tables.next + 2 ≤ _
      rw [hl.data.tables]
      obtain ⟨B, rfl⟩ := ha.frame
      exact hroom.tables
    · have hfits := hroom.fits.sameBytes h hs0 hbytes
      change FitsIn { k₂ with freeMap := k.freeMap } N s 384 (k.freeMap.freeBelow (k₂.buffers.disk.capacity - 1))
      rw [hcap]
      exact ⟨hfits.file, hfits.entry⟩

/-! ### The two ends of `SYS_MKDIR` -/

/-- **A new directory**: the name `nm` of the directory in sector `s` is bound to a directory in sector `t`, which belonged to no file,
with the names `.` for itself and `..` for the directory in sector `s`. Nothing else changes. -/
structure DirAdded (k : Fs) (N : Nodes) (H : Bindings) (s : ℕ) (nm : CString) (t : ℕ) (k' : Fs) (N' : Nodes) : Prop where
  fresh : N t = none
  tree : Tree k' N' (H.addDir s nm t)
  kind : N'.kind = Function.update N.kind t (some true)
  spares : Spares {s} k N k' N'

/-- **What `SYS_MKDIR` returns** for the name `nm` in the directory in sector `s`: true with a new directory, or false if the name is
not valid or bound, and then a directory without a name is left behind. -/
def MkdirResult (k : Fs) (N : Nodes) (H : Bindings) (s : ℕ) (nm : CString) (r : Bool) (k' : Fs) : Prop :=
  (r = true ∧ ValidName nm ∧ H s nm = none ∧ ∃ t N', DirAdded k N H s nm t k' N') ∨
    r = false ∧ ¬ (ValidName nm ∧ H s nm = none) ∧ ∃ t N', Stranded k N H t k' N'

theorem Bindings.addDir_eq (hst : s ≠ t) :
    Function.update (Bindings.bind (Function.update H t fun _ => none) s nm t) t (dotNames t s) = H.addDir s nm t := by
  unfold Bindings.addDir Bindings.bind
  rw [Function.update_of_ne hst, Function.update_comm hst, Function.update_idem]
  rw [Function.update_comm hst]

theorem Tree.sector_lt (h : Tree k N H) (hN : N s = some nd) : s < 2 ^ 32 := by
  have hmark := (h.wf.laid.marked s nd hN s List.mem_cons_self).1
  have hcap := k.buffers.disk.capacity_le
  omega

theorem Holding.setCurrDir (h : Holding k k') (p : ℕ) : Holding k { k' with currDir := p } := ⟨h.inode, h.new, h.dir, h.next⟩

/-- The names in the new directory, after its own name was added, and the files then. -/
theorem Named.dots {parent : FsM ℕ} {P : Prop} {E : Halt → Prop} (hn : Named k N H s nm t k₁ N₁) (hst : s ≠ t) (hNt : N t = none) (hs : s < 2 ^ 32)
    (ht : t < 2 ^ 32) (hi : k₂.inodes.cell a = some i) (hsec : i.sector = t)
    (hl : Looked k₁ N₁ (Bindings.bind (Function.update H t fun _ => none) s nm t) k₂) (hE : ∀ e, Unless (CreateRoom k N s 384) e → E e)
    (hparent : ∀ k', Holding k₂ k' → wp parent (fun q k'' => P ∧ q = s ∧ k'' = k') E k') :
    wp (mkdirDots a t parent) (fun r k' => P ∧ r = true ∧ Holding k₂ k' ∧ ∃ N', DirAdded k N H s nm t k' N') E k₂ := by
  obtain ⟨nd, hblank, hclear⟩ := hn.blank
  refine wp_mono (mkdirDots_tree hl.tree hblank hi hsec ht hs (fun e he => hE e (he.mono (fun hroom b hb => ?_) e)) hparent) ?_
    fun _ h => h
  · rw [hl.capacity]
    exact hclear hroom b hb
  · rintro r k' ⟨hP, hr, hhold, N', htree, hkind, hspares⟩
    rw [Bindings.addDir_eq hst] at htree
    refine ⟨hP, hr, hhold, N', hNt, htree, hkind.trans hn.kind, Spares.fresh (t := t) ?_ hNt⟩
    have hsp := (hn.spares.trans (hl.data.spares _ _))
    exact (hsp.mono (by simp)).trans (hspares.mono (by simp))

/-- The name of the current directory's sector is read again, for `..`. -/
theorem wp_sectorOf {j : Inode} {d : Dir} (hd : k.dirs.cell p = some d) (hj : k.inodes.cell d.inode = some j) :
    wp (do
      let d ← dirAt p
      let i ← inodeAt d.inode
      pure i.sector : FsM ℕ) (fun q k' => q = j.sector ∧ k' = k) (fun _ => False) k := by
  rw [wp_bind]
  refine wp_dirAt hd ?_
  rw [wp_bind]
  exact wp_inodeAt hj ⟨rfl, rfl⟩

/-- **A directory in the current one.** -/
theorem mkdirHere_tree (h : Tree k N H) (hc : k.Cwd s) (ha : Allocated k N 0 t k₁) :
    wp (mkdirHere nm t) (fun r k' => Holding k k' ∧ k'.Cwd s ∧ MkdirResult k N H s nm r k') (Unless (CreateRoom k N s 384)) k₁ := by
  obtain ⟨h2, hNt, ht32, -⟩ := h.fresh ha true
  obtain ⟨nds, hNs, -⟩ := h.cwd_isDir hc
  have hst : s ≠ t := by
    rintro rfl
    rw [hNt] at hNs
    cases hNs
  rw [mkdirHere]
  refine wp_seq (mkdirAdd_tree h hc ha) (fun _ he => he) ?_
  rintro ⟨a, answer⟩ k₂ ⟨hhold, ⟨i, hi, hsec⟩, ⟨j, hj, hjs⟩, hres⟩
  dsimp only at hi hres ⊢
  rcases hres with ⟨rfl, hvalid, hnone, N₂, hn⟩ | ⟨rfl, hno, hstranded⟩
  swap
  · exact ⟨hhold, .inr ⟨j, hj, hjs⟩, .inr ⟨rfl, hno, t, hstranded⟩⟩
  rw [if_pos rfl]
  refine wp_seq (dirMakesure_cwd hn.tree (.inr ⟨j, hj, hjs⟩)) (fun _ => False.elim) ?_
  rintro tempdir k₃ ⟨hl, rfl, j', hj', hjs'⟩
  obtain ⟨n, data, -, hi₃⟩ := hl.holding.inode a i hi
  refine wp_seq (hn.dots (P := True) hst hNt (h.sector_lt hNs) ht32 hi₃ hsec hl (fun _ he => he) fun k₄ hhold₄ => ?_) (fun _ he => he) ?_
  · obtain ⟨m, data', -, d, hd, hj₄⟩ := hhold₄.dirOf hj'
    exact wp_mono (wp_sectorOf hd hj₄) (fun q k' hq => ⟨trivial, hq.1.trans hjs', hq.2⟩) fun _ => False.elim
  rintro r k₄ ⟨-, rfl, hhold₄, N', hadded⟩
  obtain ⟨m, data', -, hj₄⟩ := hhold₄.dirOf hj'
  rw [onlyIf, if_pos rfl, wp_bind, setCurrDir, wp_modify, wp_pure]
  refine ⟨((hhold.trans hl.holding).trans hhold₄).setCurrDir _, .inr ⟨_, hj₄, hjs'⟩, .inl ⟨rfl, hvalid, hnone, t, N', hadded.fresh,
    hadded.tree.setCurrDir _, hadded.kind, hadded.spares⟩⟩

/-- **The end of `SYS_MKDIR` with an absolute path**, after the walk: the sector for `..` is that of the inode that the walk has looked
up last, and the kernel stops if there is none. -/
theorem mkdirAbsolute_end {w : Walked} {last : Option ℕ} (h : Tree k N H) (hc : k.Cwd s) (ha : Allocated k N 0 t k₁)
    (hprev : w.prev = some nm) (hin : k.InodeOf w.inode last) (hlast : H s nm = none → ∀ u, last = some u → u = s) :
    wp (do
      let (_, answer) ← mkdirAdd w.prev t
      if answer then do
        let tempdir ← dirMakesure
        let inode ← inodeOpen t
        let answer ← mkdirDots inode t do
          let i ← inodeAt w.inode
          pure i.sector
        onlyIf answer do
          let _ ← dirReopen tempdir
          pure ()
        pure answer
      else pure false)
      (fun r k' => (Holding k k' ∧ k'.Cwd s ∧ MkdirResult k N H s nm r k') ∧ (r = true → last ≠ none))
      (Unless (CreateRoom k N s 384 ∧ (last = none → ¬ (ValidName nm ∧ H s nm = none)))) k₁ := by
  obtain ⟨h2, hNt, ht32, -⟩ := h.fresh ha true
  obtain ⟨nds, hNs, -⟩ := h.cwd_isDir hc
  have hst : s ≠ t := by
    rintro rfl
    rw [hNt] at hNs
    cases hNs
  rw [hprev]
  refine wp_seq (mkdirAdd_tree h hc ha) (Unless.mono And.left) ?_
  rintro ⟨a, answer⟩ k₂ ⟨hhold, ⟨i, hi, hsec⟩, ⟨j, hj, hjs⟩, hres⟩
  dsimp only at hi hres ⊢
  rcases hres with ⟨rfl, hvalid, hnone, N₂, hn⟩ | ⟨rfl, hno, hstranded⟩
  swap
  · exact ⟨⟨hhold, .inr ⟨j, hj, hjs⟩, .inr ⟨rfl, hno, t, hstranded⟩⟩, fun hr => (by cases hr)⟩
  rw [if_pos rfl]
  refine wp_seq (dirMakesure_cwd hn.tree (.inr ⟨j, hj, hjs⟩)) (fun _ => False.elim) ?_
  rintro tempdir k₃ ⟨hl₃, rfl, j', hj', hjs'⟩
  obtain ⟨nd, hblank, -⟩ := hn.blank
  refine wp_seq (inodeOpen_opens hl₃.tree.wf hblank.node) (fun _ => False.elim) ?_
  intro b k₄ ho
  obtain ⟨i', hi', hsec', -⟩ := ho.cell_self
  have hl := hl₃.trans (hl₃.tree.looked_opens ho hblank.node)
  obtain ⟨m, dataj, -, hj₄⟩ := (ho.holding hl₃.tree.live).dirOf hj'
  refine wp_seq (hn.dots (P := last ≠ none) hst hNt (h.sector_lt hNs) ht32 hi' hsec' hl (Unless.mono And.left) fun k₅ hhold₅ => ?_)
    (fun _ he => he) ?_
  · -- the sector for `..`
    cases last with
    | none =>
      have h0 : w.inode = 0 := hin
      rw [wp_bind, inodeAt, wp_bind, wp_gets, wp_orStop]
      exact ⟨fun x hx => absurd h0 (k₅.inodes.ne_null hx), fun _ => ⟨fun hroom => hroom.2 rfl ⟨hvalid, hnone⟩, by decide⟩⟩
    | some u =>
      obtain ⟨x, hx, hxs⟩ := hin
      obtain ⟨n, data, -, hx₅⟩ := (((hhold.trans hl.holding).trans hhold₅)).inode _ x hx
      rw [wp_bind]
      refine wp_inodeAt hx₅ ⟨Option.some_ne_none u, ?_, rfl⟩
      exact hxs.trans (hlast hnone u rfl)
  rintro r k₅ ⟨hlooked, rfl, hhold₅, N', hadded⟩
  obtain ⟨m', data', -, d, hd, hj₅⟩ := hhold₅.dirOf hj₄
  rw [onlyIf, if_pos rfl, wp_bind, wp_bind]
  refine wp_mono (dirReopen_tree hadded.tree hd hj₅) ?_ fun _ => False.elim
  rintro q k₆ ⟨hl₆, rfl, -, hd₆, hi₆⟩
  refine ⟨⟨((hhold.trans hl.holding).trans hhold₅).trans hl₆.holding, .inr ⟨_, ⟨_, hd₆, hi₆⟩, hjs'⟩, .inl ⟨rfl, hvalid, hnone, t, N',
    hadded.fresh, hl₆.tree, hadded.kind, ?_⟩⟩, fun _ => hlooked⟩
  exact hadded.spares.trans (hl₆.data.spares _ _)

/-! ### `SYS_MKDIR` -/

/-- The name that `SYS_MKDIR` adds: the last component of an absolute path, and otherwise the whole path. -/
def CString.mkdirName (path : CString) (w : Walk ℕ CString) : CString := if path.isAbsolute then w.name else path

/-- `SYS_MKDIR` looks at the flag `fail` of its walk only if the path is not absolute. -/
def GivesUp (path : CString) (w : Walk ℕ CString) : Prop := path.isAbsolute = false ∧ w.fail = true

/-- **What `SYS_MKDIR` does** after the walk `w`: nothing if it gives up, but it has taken a sector; or it adds a directory. -/
def MkdirOutcome (k : Fs) (N : Nodes) (H : Bindings) (path : CString) (w : Walk ℕ CString) (r : Bool) (k' : Fs) : Prop :=
  (GivesUp path w ∧ r = false ∧ Tree k' N H ∧ Spares ∅ k N k' N) ∨
    ¬ GivesUp path w ∧ MkdirResult k N H w.place (path.mkdirName w) r k' ∧ (path.isAbsolute = true → r = true → w.last ≠ none)

/-- **When `SYS_MKDIR` returns**: there is room for the directory, and the walk along an absolute path has looked up an inode last,
unless the name is refused. -/
def MkdirRoom (k : Fs) (N : Nodes) (H : Bindings) (path : CString) (w : Walk ℕ CString) : Prop :=
  MapClear k N ∧ DirsClear k N ∧ (¬ GivesUp path w → CreateRoom k N w.place 384 ∧
    (path.isAbsolute = true → w.last = none → ¬ (ValidName w.name ∧ H w.place w.name = none)))

theorem MkdirResult.of_spares {r : Bool} (h : MkdirResult k₁ N H s nm r k') (hs : Spares ∅ k N k₁ N) : MkdirResult k N H s nm r k' := by
  rcases h with ⟨rfl, hvalid, hnone, t, N', hadded⟩ | ⟨rfl, hno, t, N', hstranded⟩
  · exact .inl ⟨rfl, hvalid, hnone, t, N', hadded.fresh, hadded.tree, hadded.kind, (hs.mono (Set.empty_subset _)).trans hadded.spares⟩
  · exact .inr ⟨rfl, hno, t, N', hstranded.fresh, hstranded.tree, hstranded.kind, hs.trans hstranded.spares⟩

/-- A full disk has no room for a directory. -/
theorem CreateRoom.not_full {n : ℕ} (h : CreateRoom k N s n) : ¬ k.Full := by
  intro hfull
  have hfile := h.fits.file
  have hzero : k.freeMap.freeBelow (k.buffers.disk.capacity - 1) = 0 := by
    rw [Bitmap.freeBelow, Finset.card_eq_zero, Finset.filter_eq_empty_iff]
    intro j hj
    rw [hfull j (by have := Finset.mem_range.1 hj; omega)]
    decide
  omega

/-- No directory is made if there is no sector for it. -/
theorem mkdirAdd_noSector {name : Option CString} {α : Type} {f : ℕ × Bool → FsM α} {Q : α → Fs → Prop} (hw : Wf k N 0) (hfull : k.Full) :
    wp (mkdirAdd name t >>= f) Q Benign k := by
  rw [wp_bind, mkdirAdd]
  exact wp_seq (dirCreate_noSector hw hfull) (fun _ he => he) fun _ _ h => h.elim

/-- **`SYS_MKDIR`** of a path that has a component. -/
theorem sysMkdir_tree (h : Tree k N H) (hl : Linked N H) (hc : k.Cwd s) (htok : path.tokens = c :: cs) :
    wp (sysMkdir path)
      (fun r k' => Holding k k' ∧ k'.Cwd (H.along N false none (path.start s) c cs).place ∧
        MkdirOutcome k N H path (H.along N false none (path.start s) c cs) r k')
      (Unless (MkdirRoom k N H path (H.along N false none (path.start s) c cs))) k := by
  obtain ⟨w, hw⟩ : ∃ w, w = H.along N false none (path.start s) c cs := ⟨_, rfl⟩
  rw [← hw]
  have hlen : path.strlen ≠ 0 := (CString.pos_of_tokens htok).ne'
  rw [sysMkdir, if_neg hlen]
  refine wp_seq (freeMapAllocate_spec persistFreeMap_persists h.wf fun _ => h.map) (Unless.mono And.left) ?_
  rintro found k₁ hfound
  dsimp only
  -- the state in which the path is looked up
  obtain ⟨hhold₁, h₁, hsp₁, hcap₁, hcwd₁⟩ : Holding k k₁ ∧ Tree k₁ N H ∧ Spares ∅ k N k₁ N ∧
      k₁.buffers.disk.capacity = k.buffers.disk.capacity ∧ k₁.Cwd s := by
    rcases hfound with ⟨t, -, ha⟩ | ⟨-, rfl, -⟩
    · have hcur : k₁.currDir = k.currDir := ha.steady.currDir
      exact ⟨ha.steady.holding, (h.allocated ha).1, h.spares_allocated ha _, ha.capacity, hc.holding ha.steady.holding hcur⟩
    · exact ⟨.refl k₁, h, fun u _ nd hN => ⟨hN, fun _ _ _ => rfl⟩, rfl, hc⟩
  have hclear : ∀ k₂, Looked k₁ N H k₂ → DirsClear k N → DirsClear k₂ N := fun k₂ hl₂ hd =>
    hd.of_capacity (hl₂.capacity.trans hcap₁)
  have hplace : ∀ k₂, k₂.Cwd w.place → Tree k₂ N H → N.isDir w.place = true := fun k₂ hcwd h₂ =>
    Nodes.isDir_iff.2 (h₂.cwd_isDir hcwd)
  -- a directory is made in the current one, after the path was looked up
  have hhere : ¬ GivesUp path w → path.isAbsolute = false → ∀ k₂, Looked k₁ N H k₂ → k₂.Cwd w.place →
      wp (mkdirHere path (found.getD 0)) (fun r k' => Holding k k' ∧ k'.Cwd w.place ∧ MkdirOutcome k N H path w r k')
        (Unless (MkdirRoom k N H path w)) k₂ := by
    intro hgo hrel k₂ hl₂ hcwd₂
    have hname : path.mkdirName w = path := if_neg (by rw [hrel]; decide)
    rcases hfound with ⟨t, rfl, ha⟩ | ⟨rfl, rfl, hfull⟩
    · obtain ⟨k₀, h₀, ha₀, hhold₀, hsp₀, hcwd₀, -, hroom₀⟩ := h.allocated_looked ha hl₂
      refine wp_mono (mkdirHere_tree h₀ (hcwd₀ _ hcwd₂) ha₀) ?_ (Unless.mono fun hroom => ?_)
      · rintro r k' ⟨hhold, hcwd, hres⟩
        refine ⟨hhold₀.trans hhold, hcwd, .inr ⟨hgo, ?_, fun habs => (by rw [hrel] at habs; cases habs)⟩⟩
        rw [hname]
        exact hres.of_spares hsp₀
      · exact hroom₀ _ (hplace k₂ hcwd₂ hl₂.tree) (hroom.2.2 hgo).1
    · rw [mkdirHere]
      have hfull₂ : k₂.Full := by
        intro j hj
        rw [hl₂.data.freeMap]
        exact hfull j (by rw [← hl₂.capacity]; exact hj)
      refine wp_mono (mkdirAdd_noSector hl₂.tree.wf hfull₂) (fun _ _ h => h) fun e he => ⟨fun hroom => ?_, he⟩
      exact (hroom.2.2 hgo).1.not_full hfull
  by_cases habs : path.isAbsolute = true
  · have hgo : ¬ GivesUp path w := fun hg => by rw [hg.1] at habs; cases habs
    have hname : path.mkdirName w = w.name := if_pos habs
    have hstart : path.start s = 1 := if_pos habs
    rw [hstart] at hw
    rw [if_pos habs, mkdirAbsolute, htok]
    refine wp_seq (dirOpenRoot_tree h₁) (fun _ => False.elim) ?_
    rintro q k₂ ⟨hl₂, rfl, hroot⟩
    refine wp_seq (walk_tree hl₂.tree hl (.inr hroot) (show k₂.InodeOf 0 none from rfl) false)
      (Unless.mono fun hroom => hclear k₂ hl₂ hroom.2.1) ?_
    rw [← hw]
    rintro v k₃ ⟨hl₃, -, hprev, hcwd₃, hin⟩
    have hlook := hl₂.trans hl₃
    rcases hfound with ⟨t, rfl, ha⟩ | ⟨rfl, rfl, hfull⟩
    · obtain ⟨k₀, h₀, ha₀, hhold₀, hsp₀, hcwd₀, hin₀, hroom₀⟩ := h.allocated_looked ha hlook
      refine wp_mono (mkdirAbsolute_end h₀ (hcwd₀ _ hcwd₃) ha₀ hprev (hin₀ _ _ hin) fun hnone u hu => ?_) ?_ (Unless.mono fun hroom => ?_)
      · have hwf : w.fail = false := by
          rw [← Bool.not_eq_true]
          intro hfail
          rw [hw] at hfail hnone
          exact Walk.next_of_fail hfail hnone
        rw [hw] at hwf hu ⊢
        exact Walk.last_of_along (fun _ h => by cases h) hwf hu
      · rintro r k' ⟨⟨hhold, hcwd, hres⟩, hlast⟩
        refine ⟨hhold₀.trans hhold, hcwd, .inr ⟨hgo, ?_, fun _ => hlast⟩⟩
        rw [hname]
        exact hres.of_spares hsp₀
      · exact ⟨hroom₀ _ (hplace k₃ hcwd₃ hlook.tree) (hroom.2.2 hgo).1, (hroom.2.2 hgo).2 habs⟩
    · have hfull₃ : k₃.Full := by
        intro j hj
        rw [hlook.data.freeMap]
        exact hfull j (by rw [← hlook.capacity]; exact hj)
      refine wp_mono (mkdirAdd_noSector hlook.tree.wf hfull₃) (fun _ _ h => h) fun e he => ⟨fun hroom => ?_, he⟩
      exact (hroom.2.2 hgo).1.not_full hfull
  · have hrel : path.isAbsolute = false := Bool.eq_false_iff.2 habs
    have hstart : path.start s = s := if_neg habs
    rw [hstart] at hw
    rw [if_neg habs]
    by_cases hslash : path.hasSlash = true
    · rw [if_pos hslash, htok]
      refine wp_seq (walk_tree h₁ hl hcwd₁ (show k₁.InodeOf 0 none from rfl) false)
        (Unless.mono fun hroom => hclear k₁ (.refl h₁) hroom.2.1) ?_
      rw [← hw]
      rintro v k₂ ⟨hl₂, hfail, -, hcwd₂, -⟩
      rw [hfail]
      cases hwf : w.fail with
      | true =>
        rw [if_pos rfl, wp_pure]
        exact ⟨hhold₁.trans hl₂.holding, hcwd₂, .inl ⟨⟨hrel, hwf⟩, rfl, hl₂.tree, hsp₁.trans (hl₂.data.spares _ _)⟩⟩
      | false =>
        rw [if_neg (by decide)]
        exact hhere (fun hg => by rw [hg.2] at hwf; cases hwf) hrel k₂ hl₂ hcwd₂
    · rw [if_neg hslash]
      have hplain : path.tokens = [path] := CString.Plain.tokens_eq ⟨CString.pos_of_tokens htok, Bool.eq_false_iff.2 hslash⟩
      rw [hplain] at htok
      cases htok
      subst hw
      exact hhere (fun hg => by cases hg.2) hrel k₁ (.refl h₁) hcwd₁

/-- **`SYS_MKDIR`**, whenever it returns, leaves the current directory where its walk has ended, and there has made the directory or
refused it. It returns if there is room, unless the path is absolute and no inode was looked up last: then it never makes the
directory, and never returns. -/
theorem sys_mkdir_exact (h : Tree k N H) (hl : Linked N H) (hc : k.Cwd s) (htok : path.tokens = c :: cs) {w : Walk ℕ CString}
    (hw : H.along N false none (path.start s) c cs = w) :
    (∀ r k', sysMkdir path k = .ok (r, k') → k'.Cwd w.place ∧ MkdirOutcome k N H path w r k') ∧
    (MkdirRoom k N H path w → ∃ r k', sysMkdir path k = .ok (r, k')) ∧
    (path.isAbsolute = true → w.last = none → ValidName w.name → H w.place w.name = none → ∀ r k', sysMkdir path k ≠ .ok (r, k')) := by
  have hspec := sysMkdir_tree h hl hc htok
  rw [hw] at hspec
  refine ⟨fun r k' hrun => (wp_of_ok hspec hrun).2, fun hroom => ?_, fun habs hlast hvalid hnone r k' hrun => ?_⟩
  · obtain ⟨r, k', hrun, -⟩ := exists_ok (wp_mono hspec (fun _ _ h => h) fun _ => Unless.elim hroom)
    exact ⟨r, k', hrun⟩
  · obtain ⟨-, -, hout⟩ := wp_of_ok hspec hrun
    rcases hout with ⟨⟨hrel, -⟩, -⟩ | ⟨-, hres, hlooked⟩
    · rw [habs] at hrel
      cases hrel
    · rcases hres with ⟨rfl, -⟩ | ⟨-, hno, -⟩
      · exact hlooked habs rfl hlast
      · rw [CString.mkdirName, if_pos habs] at hno
        exact hno ⟨hvalid, hnone⟩

/-- **A formatted disk**: the current directory is the root directory, which binds no name. -/
theorem Formatted.rooted (h : Formatted k N) (hplain : ∀ nd, N 0 = some nd → nd.isdir = false) :
    (Tree k N fun _ _ => none) ∧ (Linked N fun _ _ => none) ∧ k.Cwd 1 :=
  ⟨h.tree hplain, fun _ _ _ _ _ _ ht => (by cases ht), .inl ⟨h.map.currDir, rfl⟩⟩

/-- A directory `a` on a disk of 16 sectors that was formatted. -/
theorem sys_mkdir_exact_a : ∃ k N k', (filesysInit true (Fs.boot (Disk.blank 16 (by decide))) = .ok ((), k)) ∧
    sysMkdir Sample.a k = .ok (true, k') ∧ k'.Cwd 1 ∧
    MkdirOutcome k N (fun _ _ => none) Sample.a ⟨false, 1, Sample.a, none⟩ true k' := by
  have hcheck : (filesysInit true >>= fun _ => sysMkdir Sample.a).returns (fun r _ => r)
      (Fs.boot (Disk.blank 16 (by decide))) = true := by decide +kernel
  obtain ⟨r, k', hrun, rfl⟩ := exists_of_returns hcheck
  obtain ⟨_, k, hformat, hmkdir⟩ := ok_of_bind hrun
  obtain ⟨N, hformatted, hplain⟩ := wp_of_ok (filesysInit_plain _) hformat
  obtain ⟨htree, hlinked, hcwd⟩ := hformatted.rooted hplain
  have hexact := sys_mkdir_exact htree hlinked hcwd (show Sample.a.tokens = [Sample.a] by decide) rfl
  exact ⟨k, N, k', hformat, hmkdir, hexact.1 true k' hmkdir⟩

end Pintos
