import Pintos.Library.Cursors
import Pintos.Userprog.Numbers

/-!
# Listing a directory

`SYS_READDIR` opens the directory that a descriptor stands for once more, at the
position of the `struct file`, reads the next entry that is in use and not one of the
dots, and puts the position back. So a `struct file` is a cursor over the entries of
its directory, and the calls for one do not disturb another (`readdir_complete`).
-/

namespace Pintos

open Library Library.Prog Library.Bytes Library.Cursors

variable {k k' k₁ k₂ : Fs} {N : Nodes} {H : Bindings} {s t p q a n : ℕ} {i : Inode} {nd : Node} {f : File} {e : DirEntry}
  {nm : CString} {x y : ℤ} {m : CString → Option ℕ}

/-! ### The names of a directory -/

/-- The name that `dir_readdir` gives for an entry, unless it is passed over. -/
def DirEntry.listed (e : DirEntry) : Option (List UInt8) :=
  if e.inUse ∧ e.hasName .dot = false ∧ e.hasName .dotDot = false then some e.name else none

/-- The names from entry `n` on, in the order of the entries. -/
def namesFrom (B : Buffers) (nd : Node) (n : ℕ) : List (List UInt8) := rest (fun j => (slotAt B nd j).listed) nd.slots n

theorem namesFrom_keeps {B B' : Buffers} (hB : Buffers.Keeps B B') (nd : Node) (n : ℕ) : namesFrom B' nd n = namesFrom B nd n :=
  rest_congr fun j _ => by rw [slotAt_keeps hB nd j]

theorem DirEntry.name_eq (h : e.hasName nm = true) (hle : nm.strlen ≤ nameMax) : e.name = nm.bytes := by
  obtain ⟨-, hbyte⟩ := hasName_iff.1 h
  have hfirst : (List.range nm.strlen).map e.nameByte = nm.bytes := by
    refine List.ext_getElem (by rw [List.length_map, List.length_range, CString.strlen]) fun i _ hi => ?_
    rw [List.getElem_map, List.getElem_range, hbyte i (Nat.le_of_lt hi), CString.byte, List.getD_eq_getElem _ _ hi]
  have hall : ∀ b ∈ nm.bytes, (b != 0) = true := by
    intro b hb
    rw [bne_iff_ne]
    rintro rfl
    exact nm.noNul hb
  obtain ⟨d, hd⟩ : ∃ d, nameMax = nm.strlen + d := ⟨_, (Nat.add_sub_of_le hle).symm⟩
  rw [name, hd, List.range_add, List.map_append, hfirst, List.takeWhile_append_of_pos hall]
  cases d with
  | zero => exact List.append_nil _
  | succ d =>
    -- the terminator
    have hend : e.nameByte (nm.strlen + 0) = 0 := (hbyte _ le_rfl).trans nm.byte_strlen
    rw [List.range_succ_eq_map, List.map_cons, List.map_cons, List.takeWhile_cons_of_neg (by rw [hend]; decide), List.append_nil]

/-- An entry is listed if it has a name other than the dots. -/
theorem DirOk.listed_iff {B : Buffers} (h : DirOk B nd m) (hn : n < nd.slots) {l : List UInt8} :
    (slotAt B nd n).listed = some l ↔
      ∃ nm t, (slotAt B nd n).binding = some (nm, t) ∧ nm ≠ .dot ∧ nm ≠ .dotDot ∧ nm.bytes = l := by
  unfold DirEntry.listed
  constructor
  · intro hl
    split_ifs at hl with hcond
    obtain ⟨huse, hdot, hdotDot⟩ := hcond
    obtain ⟨nm, t, hbind, -, hle⟩ := h.named n hn huse
    obtain ⟨-, hname, -⟩ := DirEntry.binding_eq_some_iff.1 hbind
    refine ⟨nm, t, hbind, ?_, ?_, ?_⟩
    · rintro rfl
      rw [hname] at hdot
      cases hdot
    · rintro rfl
      rw [hname] at hdotDot
      cases hdotDot
    · rw [← DirEntry.name_eq hname hle]
      exact Option.some.inj hl
  · rintro ⟨nm, t, hbind, hdot, hdotDot, rfl⟩
    obtain ⟨huse, hname, -⟩ := DirEntry.binding_eq_some_iff.1 hbind
    obtain ⟨nm', t', hbind', -, hle⟩ := h.named n hn huse
    rw [hbind] at hbind'
    cases hbind'
    have hno : ∀ other, nm ≠ other → (slotAt B nd n).hasName other = false := by
      intro other hne
      rw [Bool.eq_false_iff]
      exact fun hother => hne (DirEntry.hasName_inj hname hother)
    rw [if_pos ⟨huse, hno _ hdot, hno _ hdotDot⟩, DirEntry.name_eq hname hle]

/-- **The names of a directory** are those that it binds, but for the dots, each once. -/
theorem DirOk.names {B : Buffers} (h : DirOk B nd m) :
    (namesFrom B nd 0).Nodup ∧ ∀ l, l ∈ namesFrom B nd 0 ↔ ∃ nm, nm.bytes = l ∧ nm ≠ .dot ∧ nm ≠ .dotDot ∧ m nm ≠ none := by
  constructor
  · refine nodup_rest fun j l b hj hl htj htl => ?_
    obtain ⟨nm, t, hbind, -, -, hb⟩ := (h.listed_iff hj).1 htj
    obtain ⟨nm', t', hbind', -, -, hb'⟩ := (h.listed_iff hl).1 htl
    have hnm : nm = nm' := CString.ext (hb.trans hb'.symm)
    subst hnm
    exact h.rep.distinct j l nm t t' hj hl hbind hbind'
  · intro l
    rw [namesFrom, mem_rest]
    constructor
    · rintro ⟨j, -, hj, hlisted⟩
      obtain ⟨nm, t, hbind, hdot, hdotDot, hb⟩ := (h.listed_iff hj).1 hlisted
      refine ⟨nm, hb, hdot, hdotDot, ?_⟩
      rw [(h.rep.binds nm t).2 ⟨j, hj, hbind⟩]
      exact Option.some_ne_none t
    · rintro ⟨nm, hb, hdot, hdotDot, hbound⟩
      obtain ⟨t, ht⟩ := Option.ne_none_iff_exists'.1 hbound
      obtain ⟨j, hj, hbind⟩ := (h.rep.binds nm t).1 ht
      exact ⟨j, Nat.zero_le j, hj, (h.listed_iff hj).2 ⟨nm, t, hbind, hdot, hdotDot, hb⟩⟩

/-! ### The position of a directory -/

/-- Sectors were read, and the position in the `struct dir` at `q`, for the inode at `a`, has become `x`. -/
structure Pointed (k : Fs) (q a : ℕ) (x : ℤ) (k' : Fs) : Prop where
  self : k'.dirs.cell q = some ⟨a, x⟩
  step : ∃ B D, Buffers.Keeps k.buffers B ∧ k' = { k with buffers := B, dirs := D } ∧ D.next = k.dirs.next ∧
    ∀ r ≠ q, D.cell r = k.dirs.cell r

namespace Pointed

theorem of_reads (h : k.Reads k') (hd : k.dirs.cell q = some ⟨a, x⟩) : Pointed k q a x k' := by
  obtain ⟨B, hB, rfl⟩ := h
  exact ⟨hd, B, k.dirs, hB, rfl, rfl, fun _ _ => rfl⟩

theorem set (hc : k.buffers.Wf) (hd : k.dirs.cell q = some ⟨a, x⟩) (y : ℤ) :
    Pointed k q a y { k with dirs := k.dirs.set q fun d => { d with pos := y } } := by
  refine ⟨?_, k.buffers, _, .refl hc, rfl, rfl, fun r hr => k.dirs.cell_set_of_ne _ hr⟩
  dsimp only
  rw [Heap.cell_set_self, hd]
  rfl

theorem trans (h : Pointed k q a x k₁) (h' : Pointed k₁ q a y k₂) : Pointed k q a y k₂ := by
  obtain ⟨B, D, hB, rfl, hnext, hD⟩ := h.step
  obtain ⟨B', D', hB', rfl, hnext', hD'⟩ := h'.step
  exact ⟨h'.self, B', D', hB.trans hB', rfl, hnext'.trans hnext, fun r hr => (hD' r hr).trans (hD r hr)⟩

theorem sameData (h : Pointed k q a x k') : SameData k k' := by
  obtain ⟨B, D, hB, rfl, -, -⟩ := h.step
  exact ⟨rfl, rfl, hB⟩

theorem inodes (h : Pointed k q a x k') : k'.inodes = k.inodes := by
  obtain ⟨B, D, -, rfl, -, -⟩ := h.step
  rfl

theorem files (h : Pointed k q a x k') : k'.files = k.files := by
  obtain ⟨B, D, -, rfl, -, -⟩ := h.step
  rfl

theorem tree (h : Pointed k q a y k') (ht : Tree k N H) (hd : k.dirs.cell q = some ⟨a, x⟩) : Tree k' N H := by
  have hself := h.self
  obtain ⟨B, D, hB, rfl, -, hD⟩ := h.step
  have hread : Tree { k with buffers := B } N H := ht.reads ⟨B, hB, rfl⟩
  have hback : ∀ r e, D.cell r = some e → ∃ e₀, k.dirs.cell r = some e₀ ∧ e.inode = e₀.inode := by
    intro r e he
    by_cases hr : r = q
    · subst hr
      rw [hself] at he
      cases he
      exact ⟨_, hd, rfl⟩
    · exact ⟨e, by rw [← hD r hr]; exact he, rfl⟩
  refine ⟨⟨hread.wf.cache, hread.wf.laid, hread.wf.opened⟩, hread.map, hread.root, hread.plain, hread.pos, hread.deny,
    fun r e i hr hi => ?_, fun r e hr => ?_, hread.ok⟩
  · obtain ⟨e₀, he₀, hinode⟩ := hback r e hr
    exact ht.dirs r e₀ i he₀ (hinode ▸ hi)
  · obtain ⟨e₀, he₀, hinode⟩ := hback r e hr
    rw [hinode]
    exact ht.live r e₀ he₀

/-- The `struct dir` is a new one, so that the others are as they were. -/
theorem holding {k₀ : Fs} (h : Pointed k q a y k') (hd : k.dirs.cell q = some ⟨a, x⟩) (hq : k₀.dirs.next ≤ q) (hh : Holding k₀ k) :
    Holding k₀ k' := by
  have hself := h.self
  obtain ⟨B, D, -, rfl, hnext, hD⟩ := h.step
  have hcount : ∀ b, Fs.dirCount { k with buffers := B, dirs := D } b = k.dirCount b := by
    intro b
    unfold Fs.dirCount Heap.count
    rw [hnext]
    refine List.countP_congr fun r _ => ?_
    by_cases hr : r = q
    · subst hr
      rw [hself, hd]
      exact Iff.rfl
    · rw [hD r hr]
  refine ⟨hh.inode, fun b j hj => ?_, fun r e he => ?_, hh.next.trans_eq hnext.symm⟩
  · rw [hcount]
    exact hh.new b j hj
  · have hr : r ≠ q := by
      have := k₀.dirs.lt_next he
      omega
    exact (hD r hr).trans (hh.dir r e he)

end Pointed

/-! ### Reading the next name -/

/-- The loop of `dir_readdir` gives the first of the names from entry `n` on, and leaves the position at the rest of them. -/
theorem readdirLoop_spec {fuel : ℕ} (h : Tree k N H) (hd : k.dirs.cell q = some ⟨a, (24 * n : ℕ)⟩) (hi : k.inodes.cell a = some i)
    (hN : N i.sector = some nd) (hdir : nd.isdir = true) (hn : n ≤ nd.slots) (hfuel : nd.slots < n + fuel) :
    wp (readdirLoop q a fuel)
      (fun r k' => r = (namesFrom k.buffers nd n).head? ∧ ∃ n' ≤ nd.slots,
        namesFrom k.buffers nd n' = (namesFrom k.buffers nd n).tail ∧ Pointed k q a (24 * n' : ℕ) k')
      (Unless (nd.Clear k)) k := by
  induction fuel generalizing k n with
  | zero => omega
  | succ fuel ih =>
    have hal := (h.ok _ nd hN hdir).aligned
    have hlen := (h.wf.repr hi hN).length_lt
    rw [Node.slots] at hn hfuel
    have hread : wp (inodeReadAt persistFreeMap a entrySize (24 * n : ℕ)) _ _ k :=
      inodeReadAt_spec h.wf hi hN (by decide : 24 < 2 ^ 31) (by omega)
    rw [readdirLoop, wp_bind]
    refine wp_dirAt hd ?_
    refine wp_seq hread (fun _ he => he) ?_
    rintro bytes k₁ ⟨rfl, B, hB, rfl⟩
    have hreads : k.Reads { k with buffers := B } := ⟨B, hB, rfl⟩
    have hat : Pointed k q a (24 * n : ℕ) { k with buffers := B } := .of_reads hreads hd
    by_cases hend : n = nd.slots
    · -- the end of the directory
      have hnone : namesFrom k.buffers nd n = [] := rest_end hend.ge
      rw [if_neg, wp_pure, hnone]
      · exact ⟨rfl, n, hn, hnone, hat⟩
      · rw [length_fileBytes, entrySize, hend, Node.slots]
        omega
    · rw [Node.slots] at hend
      have hnames : namesFrom k.buffers nd n = (slotAt k.buffers nd n).listed.toList ++ namesFrom k.buffers nd (n + 1) :=
        rest_step (by rw [Node.slots]; omega)
      have hpatch : DirEntry.patch (fun _ => 0) (fileBytes k.buffers nd (24 * n) (min entrySize (nd.length - 24 * n))) =
          slotAt k.buffers nd n := by
        rw [show min entrySize (nd.length - 24 * n) = entrySize by unfold entrySize; omega]
        exact patch_fileBytes k.buffers nd n _
      have hpos : wrap ((24 * n : ℕ) + entrySize) = (24 * (n + 1) : ℕ) := by
        rw [entrySize, wrap_eq ⟨by omega, by omega⟩]
        omega
      have hnext : Pointed k q a (24 * (n + 1) : ℕ)
          { k with buffers := B, dirs := k.dirs.set q fun d => { d with pos := wrap (d.pos + entrySize) } } := by
        have hset := Pointed.set (k := { k with buffers := B }) hB.wf hat.self (24 * (n + 1) : ℕ)
        rw [k.dirs.set_congr hd (g := fun d => { d with pos := ((24 * (n + 1) : ℕ) : ℤ) }) (by rw [hpos])]
        exact hat.trans hset
      rw [if_pos (by rw [length_fileBytes, entrySize]; omega)]
      dsimp only
      rw [hpatch, wp_bind, wp_modify]
      cases hlisted : (slotAt k.buffers nd n).listed with
      | some l =>
        -- a name to give
        rw [hlisted, Option.toList_some, List.singleton_append] at hnames
        unfold DirEntry.listed at hlisted
        split_ifs at hlisted with hcond
        cases hlisted
        rw [if_pos hcond, wp_pure, hnames]
        exact ⟨rfl, n + 1, by rw [Node.slots]; omega, rfl, hnext⟩
      | none =>
        rw [hlisted, Option.toList_none, List.nil_append] at hnames
        unfold DirEntry.listed at hlisted
        split_ifs at hlisted with hcond
        rw [if_neg hcond, hnames]
        have hrest := ih (n := n + 1) (hnext.tree h hd) hnext.self (by rw [hnext.inodes]; exact hi)
          (by rw [Node.slots]; omega) (by rw [Node.slots]; omega)
        rw [namesFrom_keeps hB] at hrest
        refine wp_mono hrest ?_ (Unless.mono fun hclear b hb => ?_)
        · rintro r k' ⟨hr, n', hn', htail, hp⟩
          refine ⟨hr, n', hn', ?_, hnext.trans hp⟩
          rw [← namesFrom_keeps hB]
          exact htail
        · exact (hclear b hb).trans_eq hB.capacity.symm

/-- **`dir_readdir`.** -/
theorem dirReaddir_spec (h : Tree k N H) (hd : k.dirs.cell q = some ⟨a, (24 * n : ℕ)⟩) (hi : k.inodes.cell a = some i)
    (hN : N i.sector = some nd) (hdir : nd.isdir = true) (hn : n ≤ nd.slots) :
    wp (dirReaddir q)
      (fun r k' => r = (namesFrom k.buffers nd n).head? ∧ ∃ n' ≤ nd.slots,
        namesFrom k.buffers nd n' = (namesFrom k.buffers nd n).tail ∧ Pointed k q a (24 * n' : ℕ) k')
      (Unless (nd.Clear k)) k := by
  rw [dirReaddir, wp_bind]
  refine wp_dirAt hd ?_
  rw [wp_bind, inodeLength, wp_bind]
  refine wp_inodeAt hi ?_
  rw [wp_pure, (h.wf.repr hi hN).length, Int.toNat_natCast]
  exact readdirLoop_spec h hd hi hN hdir hn (by rw [Node.slots, entrySize]; omega)

/-! ### `SYS_READDIR` -/

/-- **What is left to list** for the `struct file` at `p`, which stands for a directory: the names from its position on. -/
def LeftToList (k : Fs) (N : Nodes) (p : ℕ) (left : List (List UInt8)) : Prop :=
  ∃ f i nd n, k.files.cell p = some f ∧ k.inodes.cell f.inode = some i ∧ N i.sector = some nd ∧ nd.isdir = true ∧
    f.pos = (24 * n : ℕ) ∧ n ≤ nd.slots ∧ left = namesFrom k.buffers nd n

variable {left : List (List UInt8)}

/-- It is carried in the `struct file` only. -/
theorem LeftToList.accessed (h : LeftToList k N p left) (ha : Accessed k N H k') (hf : k'.files.cell p = k.files.cell p) :
    LeftToList k' N p left := by
  obtain ⟨f, i, nd, n, hp, hi, hN, hdir, hpos, hn, rfl⟩ := h
  obtain ⟨m, data, -, hi'⟩ := ha.holding.inode _ i hi
  exact ⟨f, _, nd, n, hf.trans hp, hi', hN, hdir, hpos, hn, (namesFrom_keeps ha.data.keeps nd n).symm⟩

theorem Tree.seek (h : Tree k N H) (p : ℕ) (x : ℤ) : Tree (k.seek p x) N H :=
  ⟨⟨h.wf.cache, h.wf.laid, h.wf.opened⟩, h.map.seek p x, h.root, h.plain, h.pos, h.deny, h.dirs, h.live, h.ok⟩

/-- **`SYS_READDIR`** gives the first of the names that are left to list, and leaves the others. -/
theorem sysReaddir_tree (h : Tree k N H) (hc : k.Cwd s) (hp : LeftToList k N p left) :
    wp (sysReaddir p)
      (fun r k' => r = left.head? ∧ Accessed k N H k' ∧ k'.Cwd s ∧ LeftToList k' N p left.tail ∧
        ∀ q ≠ p, k'.files.cell q = k.files.cell q)
      (Unless (DirsClear k N)) k := by
  obtain ⟨f, i, nd, n, hf, hi, hN, hdir, hpos, hn, rfl⟩ := hp
  have hisdir : i.data.isdir = true := (h.wf.repr hi hN).isdir.trans hdir
  rw [sysReaddir, if_neg (k.files.ne_null hf), wp_bind]
  refine wp_fileAt hf ?_
  rw [wp_bind]
  refine wp_inodeAt hi ?_
  rw [if_pos hisdir]
  refine wp_seq (dirMakesure_cwd h hc) (fun _ => False.elim) ?_
  rintro prevdir k₁ ⟨hl₁, rfl, j, hj, hsec⟩
  -- the directory is opened once more
  obtain ⟨c, data, -, hi₁⟩ := hl₁.holding.inode _ i hi
  have hf₁ : k₁.files.cell p = some f := by rw [hl₁.files]; exact hf
  refine wp_seq (dirOpen_spec hi₁) (fun _ => False.elim) ?_
  rintro q k₂ ⟨rfl, hk₂⟩
  have hl₂ : Looked k₁ N H k₂ := by
    rw [hk₂]
    exact hl₁.tree.looked_enter hi₁ ((hl₁.tree.wf.repr hi₁ hN).isdir.trans hdir)
  have hd₂ : k₂.dirs.cell k₁.dirs.next = some ⟨f.inode, 0⟩ := by
    rw [hk₂]
    exact Heap.cell_alloc_self _ _
  have hi₂ : k₂.inodes.cell f.inode = some { i with openCnt := i.openCnt + c + 1, data := data } := by
    rw [hk₂]
    change (k₁.inodes.set f.inode _).cell f.inode = _
    rw [Heap.cell_set_self, hi₁]
    rfl
  have hf₂ : k₂.files.cell p = some f := by rw [hl₂.files]; exact hf₁
  generalize hq : k₁.dirs.next = q at hd₂ ⊢
  rw [wp_bind, fileTell, wp_bind]
  refine wp_fileAt hf₂ ?_
  rw [wp_pure, hpos, wp_bind, wp_modify]
  have hset := Pointed.set hl₂.tree.wf.cache hd₂ (24 * n : ℕ)
  have hN₂ : N ({ i with openCnt := i.openCnt + c + 1, data := data } : Inode).sector = some nd := hN
  have hread := dirReaddir_spec (hset.tree hl₂.tree hd₂) hset.self (by rw [hset.inodes]; exact hi₂) hN₂ hdir hn
  have hnames := namesFrom_keeps ((hl₁.data.trans hl₂.data).trans hset.sameData).keeps nd
  rw [hnames] at hread
  refine wp_seq hread (Unless.mono fun hclear b hb => ?_) ?_
  · exact (hclear _ nd hN hdir b hb).trans_eq ((hl₁.data.trans hl₂.data).trans hset.sameData).keeps.capacity.symm
  rintro r k₄ ⟨rfl, n', hn', htail, hread₄⟩
  have hpt := hset.trans hread₄
  have hi₄ : k₄.inodes.cell f.inode = some { i with openCnt := i.openCnt + c + 1, data := data } := by rw [hpt.inodes]; exact hi₂
  have hf₄ : k₄.files.cell p = some f := by rw [hpt.files]; exact hf₂
  rw [wp_bind]
  refine wp_dirAt hpt.self ?_
  -- the position is put back
  rw [wp_bind, fileSeek, wp_bind]
  refine wp_fileAt hf₄ ?_
  rw [if_pos (Int.natCast_nonneg _), updateFile, wp_modify]
  have h₅ : Tree (k₄.seek p (24 * n' : ℕ)) N H := (hpt.tree hl₂.tree hd₂).seek p _
  have hpos₁ := hl₁.tree.pos _ _ hi₁
  refine wp_seq (dirClose_tree h₅ hpt.self hi₄ (by dsimp only at hpos₁ ⊢; omega)) (fun _ => False.elim) ?_
  rintro - k₆ ⟨hsame, hl₆, -⟩
  rw [wp_bind, setCurrDir, wp_modify, wp_pure]
  have hhold₅ : Holding k₁ (k₄.seek p (24 * n' : ℕ)) := by
    have hhold := hpt.holding hd₂ hq.le hl₂.holding
    exact ⟨hhold.inode, hhold.new, hhold.dir, hhold.next⟩
  have hhold : Holding k₁ k₆ := (hhold₅.closed hi₁ hi₄ (by dsimp only; omega) hq.le hpt.self).trans hl₆.holding
  have hdata : SameData k₁ k₆ := by
    have hseek : SameData k₄ (k₄.seek p (24 * n' : ℕ)) := ⟨rfl, rfl, .refl h₅.wf.cache⟩
    exact ((hl₂.data.trans hpt.sameData).trans hseek).trans hsame
  have hacc : Accessed k N H k₆ := hl₁.toAccessed.trans ⟨hl₆.tree, hdata, hhold⟩
  have hfiles : k₆.files = k₄.files.set p fun g => { g with pos := ((24 * n' : ℕ) : ℤ) } := hl₆.files
  refine ⟨rfl, hacc.setCurrDir _, ?_, ⟨{ f with pos := (24 * n' : ℕ) }, ?_⟩, fun q hq => ?_⟩
  · obtain ⟨m, data, -, hj'⟩ := hhold.dirOf hj
    exact .inr ⟨_, hj', hsec⟩
  · obtain ⟨m, data, -, hi'⟩ := hacc.holding.inode _ i hi
    refine ⟨_, nd, n', ?_, hi', hN, hdir, rfl, hn', ?_⟩
    · change k₆.files.cell p = _
      rw [hfiles, Heap.cell_set_self, hf₄]
      rfl
    · rw [← htail, namesFrom_keeps hacc.data.keeps, hnames]
  · change k₆.files.cell q = _
    rw [hfiles, Heap.cell_set_of_ne _ _ hq, hpt.files, hl₂.files, hl₁.files]

/-! ### Runs -/

variable {calls : List ℕ}

/-- The `struct file` at `p` was just opened, for the directory in sector `t`. -/
def FreshDir (k : Fs) (N : Nodes) (p t : ℕ) : Prop :=
  ∃ f i nd, k.files.cell p = some f ∧ f.pos = 0 ∧ k.inodes.cell f.inode = some i ∧ i.sector = t ∧ N t = some nd ∧ nd.isdir = true

/-- **`SYS_OPEN`** of the root directory. -/
theorem sysOpen_root (h : Tree k N H) (hc : k.Cwd s) :
    wp (sysOpen .root) (fun p k' => Accessed k N H k' ∧ k'.Cwd s ∧ FreshDir k' N p 1) (fun _ => False) k := by
  obtain ⟨nd, hN, hdir⟩ := h.root
  rw [sysOpen]
  refine wp_seq (dirMakesure_cwd h hc) (fun _ => False.elim) ?_
  rintro prevdir k₁ ⟨hl₁, rfl, j, hj, hsec⟩
  rw [if_pos rfl, wp_bind]
  refine wp_post (inodeOpen_opens hl₁.tree.wf hN) ?_
  intro a k₂ ho
  have hl₂ := hl₁.tree.looked_opens ho hN
  obtain ⟨i, hi, hisec, -⟩ := ho.cell_self
  rw [wp_bind]
  refine wp_post (fileOpen_spec hi) ?_
  rintro p k₃ ⟨rfl, rfl⟩
  have hacc : Accessed k₁ N H _ := (hl₂.toAccessed.trans (hl₂.tree.fileOpen hi)).setCurrDir k₁.currDir
  rw [wp_bind, setCurrDir, wp_modify, wp_pure]
  refine ⟨hl₁.toAccessed.trans hacc, ?_, ⟨a, 0, false⟩, { i with openCnt := i.openCnt + 1 }, nd, Heap.cell_alloc_self _ _, rfl, ?_,
    hisec, hN, hdir⟩
  · obtain ⟨m, data, -, hj'⟩ := hacc.holding.dirOf hj
    exact .inr ⟨_, hj', hsec⟩
  · change (k₂.inodes.set a _).cell a = _
    rw [Heap.cell_set_self, hi]
    rfl

end Pintos
