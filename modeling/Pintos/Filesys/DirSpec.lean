import Pintos.Filesys.Contents
import Pintos.Filesys.References
import Pintos.Library.Slots

/-!
# Directories as maps

A directory is a table of entries, each of which is free or binds a name to a
sector (`DirEntry.binding`). `lookup` finds the entry that has a name,
`dir_add` fills a free one, or one past the end after it has grown the directory,
and `dir_remove` frees one.
-/

namespace Pintos

open Library Library.Prog Library.Bytes

/-! ### Entries -/

namespace DirEntry

variable {e : DirEntry} {nm nm' : CString} {s : ℕ}

theorem hasName_iff : e.hasName nm = true ↔ 4 + nm.strlen < entrySize ∧ ∀ i ≤ nm.strlen, e.nameByte i = nm.byte i := by
  simp [hasName, Nat.lt_succ_iff]

/-- An entry has one name at most. -/
theorem hasName_inj (h : e.hasName nm = true) (h' : e.hasName nm' = true) : nm = nm' := by
  obtain ⟨-, hb⟩ := hasName_iff.1 h
  obtain ⟨-, hb'⟩ := hasName_iff.1 h'
  refine CString.eq_of_byte fun i hi => ?_
  by_cases hi' : i ≤ nm'.strlen
  · rw [← hb i hi, hb' i hi']
  · -- the second name would end inside the first
    have hend : nm.byte nm'.strlen = 0 := by rw [← hb _ (by omega), hb' _ le_rfl, CString.byte_strlen]
    exact absurd hend (nm.byte_ne_zero (by omega))

open Classical in
/-- **What an entry binds**: its name to its sector, if it is in use. -/
noncomputable def binding (e : DirEntry) : Option (CString × ℕ) :=
  if h : e.inUse = true ∧ ∃ nm, e.hasName nm = true then some (h.2.choose, e.inodeSector) else none

theorem binding_eq_some_iff : e.binding = some (nm, s) ↔ e.inUse = true ∧ e.hasName nm = true ∧ e.inodeSector = s := by
  unfold binding
  constructor
  · intro h
    split_ifs at h with hc
    rw [Option.some.injEq, Prod.mk.injEq] at h
    exact ⟨hc.1, h.1 ▸ hc.2.choose_spec, h.2⟩
  · rintro ⟨huse, hname, rfl⟩
    have hc : e.inUse = true ∧ ∃ nm, e.hasName nm = true := ⟨huse, nm, hname⟩
    rw [dif_pos hc, hasName_inj hc.2.choose_spec hname]

theorem binding_of_free (h : e.inUse = false) : e.binding = none := by
  rw [binding, dif_neg]
  simp [h]

theorem inUse_fill : (e.fill nm s).inUse = true := rfl

theorem hasName_fill (h : nm.strlen ≤ nameMax) : (e.fill nm s).hasName nm = true := by
  unfold nameMax at h
  refine hasName_iff.2 ⟨by unfold entrySize; omega, fun i hi => ?_⟩
  have hmod : (4 + i) % 24 = 4 + i := Nat.mod_eq_of_lt (by omega)
  have hmin : min nm.strlen nameMax = nm.strlen := by
    unfold nameMax
    omega
  simp only [nameByte, fill, Fin.ofNat, hmod, hmin, Nat.add_sub_cancel_left]
  rw [if_neg (by omega), if_neg (by omega)]
  by_cases hlt : i < nm.strlen
  · rw [if_pos hlt]
  · have heq : i = nm.strlen := by omega
    subst heq
    rw [if_neg (by omega), if_pos rfl, CString.byte_strlen]

theorem inodeSector_fill (h : s < 2 ^ 32) : (e.fill nm s).inodeSector = s := by
  have hw : (e.fill nm s).inodeSector = word (byteOf s) := rfl
  rw [hw, word_byteOf, Nat.mod_eq_of_lt h]

/-- What `dir_add` puts in an entry. -/
theorem binding_fill (h : nm.strlen ≤ nameMax) (hs : s < 2 ^ 32) : (e.fill nm s).binding = some (nm, s) :=
  binding_eq_some_iff.2 ⟨inUse_fill, hasName_fill h, inodeSector_fill hs⟩

theorem inUse_erase : e.erase.inUse = false := by
  simp [inUse, erase]

end DirEntry

variable {k k' k'' : Fs} {N N' : Nodes} {s a p n : ℕ} {i : Inode} {nd nd' : Node} {e : DirEntry} {nm : CString}

/-- Entry `n` of a directory. -/
def slotAt (B : Buffers) (nd : Node) (n : ℕ) : DirEntry := fun j => byteAt B nd (24 * n + j.1)

/-- How many entries a directory has. -/
def Node.slots (nd : Node) : ℕ := nd.length / 24

theorem slotAt_congr {B B' : Buffers} (h : ∀ j < 24, byteAt B' nd' (24 * n + j) = byteAt B nd (24 * n + j)) :
    slotAt B' nd' n = slotAt B nd n :=
  funext fun j => h j.1 j.2

theorem slotAt_keeps {B B' : Buffers} (hB : Buffers.Keeps B B') (nd : Node) (n : ℕ) : slotAt B' nd n = slotAt B nd n :=
  slotAt_congr fun _ _ => byteAt_keeps hB nd _

theorem patch_fileBytes (B : Buffers) (nd : Node) (n : ℕ) (e : DirEntry) :
    e.patch (fileBytes B nd (24 * n) entrySize) = slotAt B nd n := by
  funext j
  rw [DirEntry.patch, List.getD_eq_getElem _ _ (by simp)]
  simp [fileBytes, slotAt]

/-- `k'` is `k` after some reads. -/
def Fs.Reads (k k' : Fs) : Prop := ∃ B, Buffers.Keeps k.buffers B ∧ k' = { k with buffers := B }

theorem Fs.Reads.refl (hc : k.buffers.Wf) : k.Reads k := ⟨_, .refl hc, rfl⟩

theorem Fs.Reads.trans (h : k.Reads k') (h' : k'.Reads k'') : k.Reads k'' := by
  obtain ⟨B, hB, rfl⟩ := h
  obtain ⟨B', hB', rfl⟩ := h'
  exact ⟨B', hB.trans hB', rfl⟩

theorem Fs.Reads.wf {u : ℕ} (h : k.Reads k') (hw : Wf k N u) : Wf k' N u := by
  obtain ⟨B, hB, rfl⟩ := h
  exact hw.keeps hB

/-! ### Reading entries -/

/-- Reading an entry of the directory. -/
theorem readEntry_spec (hw : Wf k N 0) (hi : k.inodes.cell a = some i) (hN : N i.sector = some nd) (hn : n < nd.slots) :
    wp (readEntry a e (24 * n : ℕ)) (fun r k' => r = (slotAt k.buffers nd n, true) ∧ k.Reads k') (Unless (nd.Clear k)) k := by
  have hlen := (hw.repr hi hN).length_lt
  unfold Node.slots at hn
  have hread : wp (inodeReadAt persistFreeMap a entrySize (24 * n : ℕ)) _ _ k :=
    inodeReadAt_spec hw hi hN (by decide : 24 < 2 ^ 31) (by omega)
  rw [readEntry, wp_bind]
  refine wp_post hread ?_
  rintro bytes k' ⟨rfl, hk'⟩
  rw [wp_pure, show min 24 (nd.length - 24 * n) = 24 by omega, patch_fileBytes]
  exact ⟨by simp, hk'⟩

/-- Reading past the last entry. -/
theorem readEntry_end (hw : Wf k N 0) (hi : k.inodes.cell a = some i) (hN : N i.sector = some nd) (hal : 24 ∣ nd.length) :
    wp (readEntry a e (24 * nd.slots : ℕ)) (fun r k' => r = (e, false) ∧ k.Reads k') (Unless (nd.Clear k)) k := by
  have hlen := (hw.repr hi hN).length_lt
  have heq : 24 * nd.slots = nd.length := Nat.mul_div_cancel' hal
  have hread : wp (inodeReadAt persistFreeMap a entrySize (24 * nd.slots : ℕ)) _ _ k :=
    inodeReadAt_spec hw hi hN (by decide : 24 < 2 ^ 31) (by omega)
  rw [readEntry, wp_bind]
  refine wp_post hread ?_
  rintro bytes k' ⟨rfl, hk'⟩
  rw [wp_pure, heq, Nat.sub_self, Nat.min_zero]
  exact ⟨rfl, hk'⟩

/-- What a scan from entry `m` on finds: the first entry that `found` is true of, or the end. -/
def ScanResult (B : Buffers) (nd : Node) (found : DirEntry → Bool) (m : ℕ) (r : DirEntry × ℕ × Bool) : Prop :=
  (∃ n, m ≤ n ∧ n < nd.slots ∧ found (slotAt B nd n) = true ∧ r = (slotAt B nd n, 24 * n, true)) ∨
    (∀ n, m ≤ n → n < nd.slots → found (slotAt B nd n) = false) ∧ ∃ e, r = (e, 24 * nd.slots, false)

theorem scanEntries_spec {found : DirEntry → Bool} {fuel m : ℕ} (hw : Wf k N 0) (hi : k.inodes.cell a = some i)
    (hN : N i.sector = some nd) (hal : 24 ∣ nd.length) (hm : m ≤ nd.slots) (hfuel : nd.slots < m + fuel) :
    wp (scanEntries a found fuel e (24 * m)) (fun r k' => ScanResult k.buffers nd found m r ∧ k.Reads k')
      (Unless (nd.Clear k)) k := by
  induction fuel generalizing k m e with
  | zero => omega
  | succ fuel ih =>
    rw [scanEntries, wp_bind]
    by_cases hend : m = nd.slots
    · rw [hend]
      refine wp_post (readEntry_end hw hi hN hal) ?_
      rintro _ k' ⟨rfl, hk'⟩
      dsimp only
      rw [if_neg (by decide), wp_pure]
      exact ⟨.inr ⟨fun n h1 h2 => by omega, e, rfl⟩, hk'⟩
    · refine wp_post (readEntry_spec hw hi hN (n := m) (by omega)) ?_
      rintro _ k' ⟨rfl, hk'⟩
      dsimp only
      rw [if_pos rfl, wp_ite]
      refine ⟨fun hf => ?_, fun hf => ?_⟩
      · rw [wp_pure]
        exact ⟨.inl ⟨m, le_rfl, by omega, hf, rfl⟩, hk'⟩
      · obtain ⟨B, hB, rfl⟩ := hk'
        have hslot := slotAt_keeps hB nd
        refine wp_mono (ih (m := m + 1) (hw.keeps hB) hi (by omega) (by omega)) ?_ (Unless.mono fun hclear b hb => ?_)
        · rintro r k'' ⟨hr, hk''⟩
          refine ⟨?_, .trans ⟨B, hB, rfl⟩ hk''⟩
          rcases hr with ⟨n, h1, h2, hf', rfl⟩ | ⟨hno, e', rfl⟩
          · rw [hslot] at hf'
            exact .inl ⟨n, by omega, h2, hf', by rw [hslot]⟩
          · refine .inr ⟨fun n h1 h2 => ?_, e', rfl⟩
            by_cases hn : n = m
            · rw [hn]
              exact Bool.eq_false_iff.2 hf
            · have := hno n (by omega) h2
              rwa [hslot] at this
        · rw [hB.capacity]
          exact hclear b hb

/-- **A scan of the whole directory.** -/
theorem scanDir_spec {found : DirEntry → Bool} (hw : Wf k N 0) (hi : k.inodes.cell a = some i) (hN : N i.sector = some nd)
    (hal : 24 ∣ nd.length) :
    wp (scanDir a found) (fun r k' => ScanResult k.buffers nd found 0 r ∧ k.Reads k') (Unless (nd.Clear k)) k := by
  rw [scanDir, wp_bind, inodeLength, wp_bind]
  refine wp_inodeAt hi ?_
  rw [wp_pure, (hw.repr hi hN).length]
  refine scanEntries_spec (m := 0) hw hi hN hal (Nat.zero_le _) ?_
  unfold Node.slots
  simp

/-- **`lookup`** finds an entry in use that has the name, if there is one. -/
theorem lookup_spec (hw : Wf k N 0) (hi : k.inodes.cell a = some i) (hN : N i.sector = some nd) (hal : 24 ∣ nd.length) :
    wp (lookup a nm)
      (fun r k' => ((∃ n t, n < nd.slots ∧ (slotAt k.buffers nd n).binding = some (nm, t) ∧
        r = some (slotAt k.buffers nd n, 24 * n)) ∨
        r = none ∧ ∀ n < nd.slots, ∀ t, (slotAt k.buffers nd n).binding ≠ some (nm, t)) ∧ k.Reads k')
      (Unless (nd.Clear k)) k := by
  rw [lookup, wp_bind]
  refine wp_post (scanDir_spec hw hi hN hal) ?_
  rintro _ k' ⟨⟨n, -, hn, hf, rfl⟩ | ⟨hno, e, rfl⟩, hk'⟩
  · rw [wp_pure]
    rw [Bool.and_eq_true] at hf
    exact ⟨.inl ⟨n, _, hn, DirEntry.binding_eq_some_iff.2 ⟨hf.1, hf.2, rfl⟩, rfl⟩, hk'⟩
  · rw [wp_pure]
    refine ⟨.inr ⟨rfl, fun n hn t ht => ?_⟩, hk'⟩
    obtain ⟨huse, hname, -⟩ := DirEntry.binding_eq_some_iff.1 ht
    have := hno n (Nat.zero_le _) hn
    simp [huse, hname] at this

/-! ### Directories as maps -/

/-- **The entries of a directory represent the map `m`.** -/
structure DirOk (B : Buffers) (nd : Node) (m : CString → Option ℕ) : Prop where
  aligned : 24 ∣ nd.length
  named : ∀ n < nd.slots, (slotAt B nd n).inUse = true →
    ∃ nm t, (slotAt B nd n).binding = some (nm, t) ∧ 1 ≤ nm.strlen ∧ nm.strlen ≤ nameMax
  rep : Slots.Represents nd.slots (fun n => (slotAt B nd n).binding) m

variable {m : CString → Option ℕ}

theorem DirOk.congr {B B' : Buffers} (h : DirOk B nd m) (hslot : ∀ n < nd.slots, slotAt B' nd n = slotAt B nd n) :
    DirOk B' nd m := by
  refine ⟨h.aligned, fun n hn => ?_, h.rep.congr fun n hn => by simp only [hslot n hn]⟩
  rw [hslot n hn]
  exact h.named n hn

/-- An entry that is not in use binds nothing, and one that binds nothing is not in use. -/
theorem DirOk.inUse_iff {B : Buffers} (h : DirOk B nd m) (hn : n < nd.slots) :
    (slotAt B nd n).inUse = false ↔ (slotAt B nd n).binding = none := by
  refine ⟨DirEntry.binding_of_free, fun hb => Bool.eq_false_iff.2 fun huse => ?_⟩
  obtain ⟨nm, t, hbind, -⟩ := h.named n hn huse
  rw [hb] at hbind
  cases hbind

/-- Entry `n` of the directory `nd` has become `e`, and the directory `nd'`; entries added besides are zero. -/
structure Filled (k : Fs) (nd : Node) (n : ℕ) (e : DirEntry) (k' : Fs) (nd' : Node) : Prop where
  length : nd'.length = max nd.length (24 * n + 24)
  self : slotAt k'.buffers nd' n = e
  old : ∀ j < nd.slots, j ≠ n → slotAt k'.buffers nd' j = slotAt k.buffers nd j
  new : ∀ j < nd'.slots, nd.slots ≤ j → j ≠ n → slotAt k'.buffers nd' j = fun _ => 0

/-- A binding is added. -/
theorem Filled.insert {nm : CString} {t : ℕ} (h : Filled k nd n (e.fill nm t) k' nd') (hd : DirOk k.buffers nd m)
    (hm : m nm = none) (hfree : n < nd.slots → (slotAt k.buffers nd n).inUse = false) (h1 : 1 ≤ nm.strlen)
    (h14 : nm.strlen ≤ nameMax) (ht : t < 2 ^ 32) : DirOk k'.buffers nd' (Function.update m nm (some t)) := by
  have hbind : (slotAt k'.buffers nd' n).binding = some (nm, t) := by
    rw [h.self]
    exact DirEntry.binding_fill h14 ht
  have hal := hd.aligned
  have hal' : 24 ∣ nd'.length := by
    rw [h.length]
    omega
  have hslots : nd.slots ≤ nd'.slots ∧ n < nd'.slots := by
    have := h.length
    unfold Node.slots
    omega
  refine ⟨hal', fun j hj huse => ?_, hd.rep.insert (i := n) hm hslots.1 hslots.2 (fun hn => ?_) hbind (fun j hj hne => ?_)
    fun j hj hge hne => ?_⟩
  · by_cases hjn : j = n
    · subst hjn
      exact ⟨nm, t, hbind, h1, h14⟩
    · by_cases hold : j < nd.slots
      · rw [h.old j hold hjn] at huse ⊢
        exact hd.named j hold huse
      · rw [h.new j hj (Nat.le_of_not_lt hold) hjn] at huse
        cases huse
  · exact DirEntry.binding_of_free (hfree hn)
  · simp only [h.old j hj hne]
  · simp only [h.new j hj hge hne]
    exact DirEntry.binding_of_free rfl

/-- A binding is deleted. -/
theorem Filled.erase {nm : CString} {t : ℕ} (h : Filled k nd n e k' nd') (hd : DirOk k.buffers nd m) (hn : n < nd.slots)
    (hbind : (slotAt k.buffers nd n).binding = some (nm, t)) (he : e.inUse = false) :
    DirOk k'.buffers nd' (Function.update m nm none) := by
  have hal := hd.aligned
  have hlen : nd'.length = nd.length := by
    have := h.length
    unfold Node.slots at hn
    omega
  have hslots : nd'.slots = nd.slots := by rw [Node.slots, hlen, Node.slots]
  refine ⟨by rw [hlen]; exact hal, fun j hj huse => ?_, ?_⟩
  · by_cases hjn : j = n
    · subst hjn
      rw [h.self, he] at huse
      cases huse
    · rw [h.old j (hslots ▸ hj) hjn] at huse ⊢
      exact hd.named j (hslots ▸ hj) huse
  · rw [hslots]
    refine hd.rep.erase hn hbind ?_ fun j hj hne => ?_
    · simp only [h.self]
      exact DirEntry.binding_of_free he
    · simp only [h.old j hj hne]

/-! ### Writing entries -/

/-- **An entry is written**, in the directory or right after it. -/
theorem writeEntry_spec (hw : Wf k N 0) (hm : MapOpen k N) (hi : k.inodes.cell a = some i) (hN : N i.sector = some nd)
    (hs : i.sector ≠ 0) (hdeny : i.denyWriteCnt = 0) (hn : 24 * n ≤ nd.length) :
    wp (inodeWriteAt persistFreeMap a (fun j => e (Fin.ofNat entrySize j)) entrySize (24 * n : ℕ))
      (fun w k' => w = entrySize ∧ ∃ new nd', Edited k N i.sector nd new nd' k' ∧ Filled k nd n e k' nd')
      (Unless (WriteRoom k N i.sector nd (24 * n) 24)) k := by
  have hlen := (hw.repr hi hN).length_lt
  have hspec : wp (inodeWriteAt persistFreeMap a (fun j => e (Fin.ofNat entrySize j)) ((24 : ℕ) : ℤ) (24 * n : ℕ)) _ _ k :=
    inodeWriteAt_wrote hw hm hi hN hdeny (by decide) (by omega)
  refine wp_post hspec ?_
  rintro w k' ⟨rfl, new, nd', hwrote⟩
  have hns : ¬ Stuck nd.length (24 * n) 24 := fun h => by have := h.2; omega
  have hcount : writeCount nd.length (24 * n) 24 = 24 := if_neg hns
  have hlen' : nd'.length = max nd.length (24 * n + 24) := by
    rw [hwrote.length, lengthAfter, if_neg (by decide), hcount]
  have hbytes := hwrote.bytes hs
  rw [hcount] at hbytes
  refine ⟨hcount, new, nd', hwrote.edited, hlen', ?_, fun j hj hne => ?_, fun j hj hge hne => ?_⟩
  · funext b
    have hb : b.1 < 24 := b.2
    rw [slotAt, hbytes _ (by omega), overlay, if_pos (by omega), Nat.add_sub_cancel_left]
    congr 1
    exact Fin.ext (Nat.mod_eq_of_lt hb)
  · unfold Node.slots at hj
    refine slotAt_congr fun b hb => ?_
    rw [hbytes _ (by omega), overlay, if_neg (by omega), if_pos (by omega)]
  · unfold Node.slots at hj hge
    omega

/-- Nothing is read in a file of more than 512 sectors. -/
theorem readEntry_long {L ofs : ℕ} {d : InodeDisk} {Q : DirEntry × Bool → Fs → Prop} {E : Halt → Prop}
    (hd : k.dataOf (.inode a) = some d) (hlen : d.length = L) (h : 512 * 512 < L) (h31 : L < 2 ^ 31) (hofs : ofs + 24 = L)
    (hE : ∀ e, Benign e → E e) : wp (readEntry a e ofs) Q E k := by
  obtain ⟨i, hi, rfl⟩ := Option.map_eq_some_iff.1 hd
  have hmod : ((ofs : ℤ)).tmod 512 = ((ofs % 512 : ℕ) : ℤ) := by
    rw [Int.tmod_eq_emod_of_nonneg (by omega)]
    omega
  rw [readEntry, wp_bind, inodeReadAt, show ((entrySize : ℕ) : ℤ).toNat = 23 + 1 from rfl, readLoop, if_neg (by decide),
    wp_bind]
  refine wp_inodeAt hi ?_
  rw [hlen, hmod, wrap_eq ⟨by omega, by omega⟩]
  obtain ⟨c, hc⟩ : ∃ c : ℕ, (c : ℤ) = if ((entrySize : ℕ) : ℤ) < (if ((L : ℤ) - ofs) < 512 - ((ofs % 512 : ℕ) : ℤ)
      then (L : ℤ) - ofs else 512 - ((ofs % 512 : ℕ) : ℤ)) then ((entrySize : ℕ) : ℤ)
      else (if ((L : ℤ) - ofs) < 512 - ((ofs % 512 : ℕ) : ℤ) then (L : ℤ) - ofs else 512 - ((ofs % 512 : ℕ) : ℤ)) :=
    ⟨min 24 (512 - ofs % 512), by unfold entrySize; split_ifs <;> omega⟩
  have hpos : 0 < c ∧ c ≤ 24 := by
    unfold entrySize at hc
    split_ifs at hc <;> omega
  simp only [← hc]
  rw [if_neg (by omega), wp_bind, byteToSector, wp_bind]
  refine wp_inodeAt hi ?_
  rw [wp_bind, wrap_eq ⟨by omega, by omega⟩]
  refine inodeGrow_noop hi (by rw [hlen]; omega) ?_
  exact sectorOf_long hd hlen h h31 (by omega) hE

/-- Every entry is in use. -/
def Full (B : Buffers) (nd : Node) : Prop := ∀ n < nd.slots, (slotAt B nd n).inUse = true

/-- **When `dir_add` succeeds**: no block of the directory is the disk's last sector, and a full directory has
room to grow by two entries. -/
structure AddRoom (k : Fs) (N : Nodes) (s : ℕ) (nd : Node) : Prop where
  clear : nd.Clear k
  grow : Full k.buffers nd → nd.length + 48 ≤ 512 * 512 ∧ GrowRoom k N s nd (nd.length + 48)

theorem AddRoom.write (h : AddRoom k N s nd) (hfull : Full k.buffers nd) : WriteRoom k N s nd nd.length 48 := by
  refine ⟨fun j _ _ hj => h.clear _ ?_, fun _ => h.grow hfull⟩
  rw [List.getD_eq_getElem _ _ hj]
  exact List.getElem_mem hj

/-- The last part of `dir_add`, in a directory that is full: it grows by an entry, which stays free, and the new
entry is written after that one. -/
theorem growEntry_spec (e : DirEntry) (nm : CString) (t : ℕ) (hw : Wf k N 0) (hm : MapOpen k N)
    (hi : k.inodes.cell a = some i) (hN : N i.sector = some nd) (hs : i.sector ≠ 0) (hdeny : i.denyWriteCnt = 0)
    (hal : 24 ∣ nd.length) (hfull : Full k.buffers nd) :
    wp (do
        let _ ← inodeGrow persistFreeMap i.sector (.inode a) (wrap ((nd.length : ℤ) + entrySize))
        let (e, _) ← readEntry a e (24 * nd.slots : ℕ)
        let e := e.fill nm t
        let written ← inodeWriteAt persistFreeMap a (fun j => e (Fin.ofNat entrySize j)) entrySize
          ((24 * nd.slots + entrySize : ℕ) : ℤ)
        pure (written == entrySize))
      (fun ok k' => ok = true ∧ ∃ (e : DirEntry) (new : List ℕ) (nd' : Node), Edited k N i.sector nd new nd' k' ∧
        Filled k nd (nd.slots + 1) (e.fill nm t) k' nd')
      (Unless (AddRoom k N i.sector nd)) k := by
  have hshort := (hw.repr hi hN).length_lt
  have heq : 24 * nd.slots = nd.length := Nat.mul_div_cancel' hal
  have hwrap : wrap ((nd.length : ℤ) + entrySize) = ((nd.length + 24 : ℕ) : ℤ) := by
    rw [wrap_eq ⟨by unfold entrySize; omega, by unfold entrySize; omega⟩]
    rfl
  rw [hwrap]
  by_cases hmax : nd.length + 24 ≤ 512 * 512
  swap
  · -- such a file has no blocks that are found, and its entries are not read
    have hnot : ∀ e, Benign e → Unless (AddRoom k N i.sector nd) e := fun e he =>
      ⟨fun hroom => hmax (by have := (hroom.grow hfull).1; omega), he⟩
    have hgrow : wp (inodeGrow persistFreeMap i.sector (.inode a) ((nd.length + 24 : ℕ) : ℤ)) _ _ k :=
      inodeGrow_length (hw.target hi hN).data (by rw [(hw.repr hi hN).length]; omega)
    refine wp_seq ((inodeGrow_stops persistFreeMap_stops i.sector (.inode a) _).wp hgrow) (fun e he => hnot e he.2) ?_
    rintro - k' ⟨d, hd, hlen⟩
    rw [wp_bind]
    exact readEntry_long hd hlen (by omega) (by omega) (by omega) hnot
  have hgrow : wp (inodeGrow persistFreeMap i.sector (.inode a) ((nd.length + 24 : ℕ) : ℤ)) _ _ k :=
    inodeGrow_edits hw hi hN (fun _ => ⟨persistFreeMap_persists, fun _ => hm⟩) hmax
  refine wp_seq hgrow (Unless.mono fun hroom _ => (hroom.grow hfull).2.mono (by omega)) ?_
  rintro - k₁ ⟨new, nd₁, hlen₁, he₁, hbytes₁⟩
  rw [show max nd.length (nd.length + 24) = nd.length + 24 by omega] at hlen₁
  have hold : ∀ j < nd.slots, slotAt k₁.buffers nd₁ j = slotAt k.buffers nd j := by
    intro j hj
    unfold Node.slots at hj
    refine slotAt_congr fun b hb => ?_
    rw [hbytes₁ hs _ (by omega), overlay_zero, if_pos (by omega)]
  have hzero : slotAt k₁.buffers nd₁ nd.slots = fun _ => 0 := by
    funext b
    have hb : b.1 < 24 := b.2
    rw [slotAt, hbytes₁ hs _ (by omega), overlay_zero, if_neg (by omega)]
  have hslots₁ : nd₁.slots = nd.slots + 1 := by
    unfold Node.slots
    omega
  obtain ⟨d₁, hi₁, -⟩ := he₁.cell hi
  have hself₁ : Function.update N i.sector (some nd₁) i.sector = some nd₁ := Function.update_self _ _ _
  have hm₁ := he₁.mapOpen hN hm
  -- the new entry is one of the directory's now
  have hread : wp (readEntry a e (24 * nd.slots : ℕ)) _ _ k₁ :=
    readEntry_spec he₁.wf hi₁ hself₁ (n := nd.slots) (by omega)
  refine wp_seq hread (Unless.mono fun hroom b hb => ?_) ?_
  · rw [he₁.capacity]
    rw [he₁.blocks] at hb
    rcases List.mem_append.1 hb with hb | hb
    · exact hroom.clear b hb
    · refine he₁.new_clear ?_ b hb
      have hfree := ((hroom.grow hfull).2.mono (by omega : nd.length + 24 ≤ _)).free
      have hcard : nd₁.blocks.length = sectorsFor nd₁.length := he₁.node.card
      rw [he₁.blocks, List.length_append, hlen₁] at hcard
      omega
  rintro ⟨e₁, full⟩ k₂ ⟨hr, B, hB, rfl⟩
  cases hr
  have he₂ : Edited k N i.sector nd new nd₁ { k₁ with buffers := B } := by
    simpa using he₁.trans (.keeps he₁.wf hself₁ hB)
  have hw₂ := he₂.wf
  have hm₂ := he₂.mapOpen hN hm
  have hofs : ((24 * nd.slots + entrySize : ℕ) : ℤ) = (24 * (nd.slots + 1) : ℕ) := by
    unfold entrySize
    omega
  dsimp only
  rw [hofs, wp_bind]
  have hwrite : wp (inodeWriteAt persistFreeMap a
      (fun j => ((slotAt k₁.buffers nd₁ nd.slots).fill nm t) (Fin.ofNat entrySize j)) entrySize (24 * (nd.slots + 1) : ℕ))
      _ _ { k₁ with buffers := B } :=
    writeEntry_spec hw₂ hm₂ (i := { i with data := d₁ }) hi₁ hself₁ hs hdeny (by omega)
  refine wp_mono hwrite ?_ (Unless.mono fun hroom => ?_)
  · rintro w k' ⟨rfl, new', nd', he', hf'⟩
    rw [wp_pure]
    refine ⟨by simp, slotAt k₁.buffers nd₁ nd.slots, new ++ new', nd', he₂.trans (by simpa using he'), ?_, hf'.self,
      fun j hj hne => ?_, fun j hj hge hne => ?_⟩
    · rw [hf'.length]
      omega
    · rw [hf'.old j (by omega) hne]
      exact (slotAt_keeps hB nd₁ j).trans (hold j hj)
    · have hlen' := hf'.length
      have hj' : j = nd.slots := by
        unfold Node.slots at hj hge hne ⊢
        omega
      rw [hf'.old j (by omega) hne, hj']
      exact (slotAt_keeps hB nd₁ _).trans hzero
  · have hle : nd₁.length ≤ max nd.length (nd.length + 48) := by omega
    have := he₂.room hw hN (by decide : 24 ≤ 48) hle (hroom.write hfull)
    rwa [show nd.length + 24 = 24 * (nd.slots + 1) by omega] at this

/-- A name that a directory can hold. -/
def ValidName (nm : CString) : Prop := 1 ≤ nm.strlen ∧ nm.strlen ≤ nameMax

instance (nm : CString) : Decidable (ValidName nm) := inferInstanceAs (Decidable (_ ∧ _))

theorem Fs.Reads.edited (h : k.Reads k') (hw : Wf k N 0) (hN : N s = some nd) : Edited k N s nd [] nd k' := by
  obtain ⟨B, hB, rfl⟩ := h
  exact .keeps hw hN hB

theorem Fs.Reads.cell (h : k.Reads k') (a : ℕ) : k'.inodes.cell a = k.inodes.cell a := by
  obtain ⟨B, -, rfl⟩ := h
  rfl

theorem Fs.Reads.slotAt_eq (h : k.Reads k') (nd : Node) (n : ℕ) : slotAt k'.buffers nd n = slotAt k.buffers nd n := by
  obtain ⟨B, hB, rfl⟩ := h
  exact slotAt_keeps hB nd n

theorem Fs.Reads.clear (h : k.Reads k') (hc : nd.Clear k) : nd.Clear k' := by
  obtain ⟨B, hB, rfl⟩ := h
  intro b hb
  change b + 1 < B.disk.capacity
  rw [hB.capacity]
  exact hc b hb

theorem Fs.Reads.mapOpen (h : k.Reads k') (hm : MapOpen k N) : MapOpen k' N := by
  obtain ⟨B, -, rfl⟩ := h
  exact hm

theorem Fs.Reads.addRoom (h : k.Reads k') (hr : AddRoom k N s nd) : AddRoom k' N s nd := by
  refine ⟨h.clear hr.clear, fun hfull => ?_⟩
  have hfull' : Full k.buffers nd := fun n hn => by rw [← h.slotAt_eq]; exact hfull n hn
  obtain ⟨hmax, hg⟩ := hr.grow hfull'
  obtain ⟨B, hB, rfl⟩ := h
  refine ⟨hmax, ?_, ?_, fun hlt b hb => ?_, ?_, hg.table⟩
  · change B.disk.capacity ≤ _
    rw [hB.capacity]
    exact hg.capacity
  · change s + 1 < B.disk.capacity
    rw [hB.capacity]
    exact hg.sector
  · change b + 1 < B.disk.capacity
    rw [hB.capacity]
    exact hg.map hlt b hb
  · change _ ≤ k.freeMap.freeBelow (B.disk.capacity - 1)
    rw [hB.capacity]
    exact hg.free

/-- **`dir_add`** adds a binding of a valid name that is not bound, and else it does nothing. -/
theorem dirAdd_spec {d : Dir} {t : ℕ} (hw : Wf k N 0) (hm : MapOpen k N) (hd : k.dirs.cell p = some d)
    (hi : k.inodes.cell d.inode = some i) (hN : N i.sector = some nd) (hs : i.sector ≠ 0) (hdeny : i.denyWriteCnt = 0)
    (hok : DirOk k.buffers nd m) (ht : t < 2 ^ 32) :
    wp (dirAdd p (some nm) t)
      (fun ok k' => (ok = true ∧ ValidName nm ∧ m nm = none ∧ ∃ new nd', Edited k N i.sector nd new nd' k' ∧
          DirOk k'.buffers nd' (Function.update m nm (some t)) ∧ (Full k.buffers nd → nd'.length = nd.length + 48) ∧
          (¬ Full k.buffers nd → nd'.length = nd.length)) ∨
        ok = false ∧ ¬ (ValidName nm ∧ m nm = none) ∧ k.Reads k')
      (Unless (AddRoom k N i.sector nd)) k := by
  rw [dirAdd, wp_bind]
  refine wp_dirAt hd ?_
  rw [wp_bind, wp_orStop_some, wp_ite]
  refine ⟨fun hbad => ?_, fun hgood => ?_⟩
  · rw [wp_pure]
    refine .inr ⟨rfl, fun hv => ?_, .refl hw.cache⟩
    have h1 := hv.1.1
    have h2 := hv.1.2
    omega
  have hvalid : ValidName nm := by
    unfold ValidName
    omega
  refine wp_seq (lookup_spec hw hi hN hok.aligned) (Unless.mono AddRoom.clear) ?_
  rintro _ k₁ ⟨⟨n, t', hn, hbind, rfl⟩ | ⟨rfl, hno⟩, hread₁⟩
  · -- the name is bound
    rw [if_pos (by rfl), wp_pure]
    have hbound : m nm = some t' := (hok.rep.binds nm t').2 ⟨n, hn, hbind⟩
    exact .inr ⟨rfl, fun h => (by rw [hbound] at h; cases h.2), hread₁⟩
  have habsent : m nm = none := hok.rep.eq_none_iff.2 hno
  have hw₁ := hread₁.wf hw
  have hi₁ : k₁.inodes.cell d.inode = some i := (hread₁.cell _).trans hi
  rw [if_neg (by decide)]
  refine wp_seq (scanDir_spec hw₁ hi₁ hN hok.aligned) (Unless.mono fun hroom => hread₁.clear hroom.clear) ?_
  rintro ⟨e, ofs, b⟩ k₂ ⟨hscan, hread₂⟩
  have hread := hread₁.trans hread₂
  have hw₂ := hread.wf hw
  have hm₂ := hread.mapOpen hm
  have hi₂ : k₂.inodes.cell d.inode = some i := (hread.cell _).trans hi
  have hedit := hread.edited hw hN
  have hlen := (hw.repr hi hN).length
  have hok₂ : DirOk k₂.buffers nd m := hok.congr fun n _ => hread.slotAt_eq nd n
  have hal : 24 * nd.slots = nd.length := Nat.mul_div_cancel' hok.aligned
  have hN' : Function.update N i.sector (some nd) = N := Edited.update_eq hN
  dsimp only
  rw [wp_bind, inodeLength, wp_bind]
  refine wp_inodeAt hi₂ ?_
  rw [wp_pure, hlen]
  rcases hscan with ⟨n, -, hn, hfree, heq⟩ | ⟨hno', e', heq⟩
  · -- a free entry is filled
    rw [Prod.mk.injEq, Prod.mk.injEq] at heq
    obtain ⟨rfl, rfl, -⟩ := heq
    have hlt : 24 * n + 24 ≤ nd.length := by
      unfold Node.slots at hn
      omega
    rw [if_neg (by omega), wp_bind, wp_pure]
    dsimp only
    rw [wp_bind]
    have hwrite : wp (inodeWriteAt persistFreeMap d.inode
        (fun j => ((slotAt k₁.buffers nd n).fill nm t) (Fin.ofNat entrySize j)) entrySize (24 * n : ℕ)) _ _ k₂ :=
      writeEntry_spec hw₂ hm₂ hi₂ hN hs hdeny (by omega)
    refine wp_mono hwrite ?_ (Unless.mono fun hroom => ?_)
    · rintro w k' ⟨rfl, new, nd', he', hf'⟩
      rw [wp_pure]
      have hfree₂ : (slotAt k₂.buffers nd n).inUse = false := by
        rw [hread₂.slotAt_eq]
        simpa using hfree
      refine .inl ⟨by simp, hvalid, habsent, new, nd', ?_, hf'.insert hok₂ habsent (fun _ => hfree₂) hvalid.1 hvalid.2 ht,
        fun hfull => ?_, ?_⟩
      · simpa using hedit.trans (hN'.symm ▸ he')
      · have hused := hfull n hn
        rw [← hread.slotAt_eq, hfree₂] at hused
        cases hused
      · intro _
        rw [hf'.length]
        omega
    · refine ⟨fun j _ _ hj => (hread.addRoom hroom).clear _ ?_, fun h => absurd h (by omega)⟩
      rw [List.getD_eq_getElem _ _ hj]
      exact List.getElem_mem hj
  · -- the directory is full
    rw [Prod.mk.injEq, Prod.mk.injEq] at heq
    obtain ⟨rfl, rfl, -⟩ := heq
    have hfull : Full k₂.buffers nd := by
      intro n hn
      rw [hread₂.slotAt_eq]
      simpa using hno' n (Nat.zero_le _) hn
    rw [if_pos (by omega), wp_bind]
    refine wp_inodeAt hi₂ ?_
    have hpost : ∀ (ok : Bool) k', (ok = true ∧ ∃ (e : DirEntry) (new : List ℕ) (nd' : Node),
          Edited k₂ N i.sector nd new nd' k' ∧ Filled k₂ nd (nd.slots + 1) (e.fill nm t) k' nd') →
        (ok = true ∧ ValidName nm ∧ m nm = none ∧ ∃ new nd', Edited k N i.sector nd new nd' k' ∧
          DirOk k'.buffers nd' (Function.update m nm (some t)) ∧ (Full k.buffers nd → nd'.length = nd.length + 48) ∧
          (¬ Full k.buffers nd → nd'.length = nd.length)) ∨
        ok = false ∧ ¬ (ValidName nm ∧ m nm = none) ∧ k.Reads k' := by
      rintro ok k' ⟨rfl, e₁, new, nd', he', hf'⟩
      refine .inl ⟨rfl, hvalid, habsent, new, nd', by simpa using hedit.trans (hN'.symm ▸ he'), ?_, fun _ => ?_, fun hnot => ?_⟩
      · exact hf'.insert hok₂ habsent (fun h => absurd h (by omega)) hvalid.1 hvalid.2 ht
      · rw [hf'.length]
        omega
      · refine absurd (fun n hn => ?_) hnot
        rw [← hread.slotAt_eq]
        exact hfull n hn
    have hend := wp_mono (growEntry_spec e nm t hw₂ hm₂ hi₂ hN hs hdeny hok.aligned hfull) hpost
      (Unless.mono fun hroom => hread.addRoom hroom)
    simp only [wp_bind, wp_pure] at hend ⊢
    exact hend

end Pintos
