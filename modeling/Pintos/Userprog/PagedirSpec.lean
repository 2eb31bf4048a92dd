import Pintos.Userprog.Pagedir

/-!
# Page directories as maps

What the two levels of tables stand for: for every page directory a map from page
numbers to entries, an entry being the kernel page that is mapped, if any, and three
flags. An operation on a page changes that page's entry in that directory and
nothing else, although pages share tables and flags share a word.

A page has flags of its own only once its 4 MB have a page table; before that, setting
one does nothing.
-/

namespace Pintos.Pagedir

open Library Library.Prog

/-! ### Words -/

/-- A page of kernel memory. -/
def Kpage (p : Word) : Prop := pgOfs p = 0 ∧ ¬ isUserVaddr p

theorem physBase_toNat : physBase.toNat = 0xc0000000 := rfl

theorem pgOfs_toNat (va : Word) : (pgOfs va).toNat = va.toNat % 2 ^ 12 := toNat_and_low (by decide) va

theorem ptNo_eq (va : Word) : ptNo va = va.toNat / 2 ^ 12 % 2 ^ 10 := toNat_and_shiftRight (by decide) va

theorem pdNo_eq (va : Word) : pdNo va = va.toNat / 2 ^ 22 := by
  rw [pdNo, BitVec.toNat_ushiftRight, Nat.shiftRight_eq_div_pow]

theorem pgNo_eq (va : Word) : pgNo va = va.toNat / 2 ^ 12 := by
  rw [pgNo, BitVec.toNat_ushiftRight, Nat.shiftRight_eq_div_pow]

theorem pgNo_div (va : Word) : pgNo va / 1024 = pdNo va := by
  rw [pgNo_eq, pdNo_eq]
  omega

theorem pgNo_mod (va : Word) : pgNo va % 1024 = ptNo va := by
  rw [pgNo_eq, ptNo_eq]
  rfl

theorem pdNo_lt {va : Word} (h : isUserVaddr va) : pdNo va < 768 := by
  rw [isUserVaddr, physBase_toNat] at h
  rw [pdNo_eq]
  omega

theorem ptNo_lt (va : Word) : ptNo va < 1024 := by
  rw [ptNo_eq]
  omega

/-- The physical address of a kernel page. -/
theorem Kpage.sub_toNat {p : Word} (h : Kpage p) : (p - physBase).toNat = p.toNat - physBase.toNat := by
  have hle : physBase.toNat ≤ p.toNat := Nat.le_of_not_lt h.2
  rw [BitVec.toNat_sub]
  have := p.isLt
  rw [physBase_toNat] at hle ⊢
  omega

theorem Kpage.sub_pgmask {p : Word} (h : Kpage p) : (p - physBase) &&& pgmask = 0#32 := by
  apply BitVec.eq_of_toNat_eq
  have hofs := congrArg BitVec.toNat h.1
  rw [pgOfs_toNat] at hofs
  have hsub := pgOfs_toNat (p - physBase)
  rw [pgOfs] at hsub
  rw [hsub, h.sub_toNat, physBase_toNat]
  simp only [BitVec.ofNat_eq_ofNat, BitVec.toNat_ofNat] at hofs ⊢
  omega

/-- A word with the address of a kernel page and some flags. -/
theorem Kpage.address {p f : Word} (h : Kpage p) (hf : f &&& pteAddr = 0#32) :
    ((p - physBase) ||| f) &&& pteAddr = p - physBase := by
  rw [or_and_of_disjoint hf]
  exact and_not_of_and_eq_zero h.sub_pgmask

theorem Kpage.flag {p f g : Word} (h : Kpage p) (hg : g &&& pgmask = g) : ((p - physBase) ||| f) &&& g = f &&& g := by
  rw [BitVec.or_comm, or_and_of_disjoint]
  exact and_eq_zero_of_le h.sub_pgmask hg

theorem Kpage.sub_lt {p : Word} (h : Kpage p) : (p - physBase).toNat < physBase.toNat := by
  rw [h.sub_toNat, physBase_toNat]
  have := p.isLt
  omega

/-! ### What the tables stand for -/

/-- The entry of a page: the kernel page that is mapped, and the flags. -/
@[ext] structure Entry where
  page : Option Word
  writable : Bool
  accessed : Bool
  dirty : Bool

/-- Nothing is mapped, and no flag is set. -/
def Entry.zero : Entry := ⟨none, false, false, false⟩

/-- What a word of a page table stands for. -/
def Entry.ofWord (w : Word) : Entry where
  page := if w &&& pteP = 0 then none else some ((w &&& pteAddr) + physBase)
  writable := decide (w &&& pteW ≠ 0)
  accessed := decide (w &&& pteA ≠ 0)
  dirty := decide (w &&& pteD ≠ 0)

theorem Entry.ofWord_zero : Entry.ofWord 0 = Entry.zero := by
  simp [Entry.ofWord, Entry.zero]

namespace Tables

variable {s : Tables} {pd : Word}

/-- The page table of the 4 MB numbered `i`. -/
def tableAt (s : Tables) (pd : Word) (i : ℕ) : Option Word :=
  if s.word pd i = 0 then none else some ((s.word pd i &&& pteAddr) + physBase)

/-- The entry of the page numbered `n`. -/
def entryAt (s : Tables) (pd : Word) (n : ℕ) : Entry :=
  match s.tableAt pd (n / 1024) with
  | none => .zero
  | some pt => .ofWord (s.word pt (n % 1024))

/-- The word of a page directory for a page table. -/
def pde (pt : Word) : Word := (pt - physBase) ||| (pteU ||| pteP ||| pteW)

/-- A word of a page table that is present has a physical address. -/
def WordOk (w : Word) : Prop := w &&& pteP ≠ 0 → (w &&& pteAddr).toNat < physBase.toNat

/-- **The page tables of the page directories `dirs` are well formed**: each is a page of its own, and belongs to one 4 MB
of one directory. -/
structure Wf (s : Tables) (dirs : List Word) : Prop where
  base : s.basePageDir ∈ s.pages ∧ ∀ i < 768, s.word s.basePageDir i = 0
  dir : ∀ pd ∈ dirs, pd ∈ s.pages ∧ pd ≠ s.basePageDir ∧ pd ≠ 0
  table : ∀ pd ∈ dirs, ∀ i < 768, s.word pd i ≠ 0 → ∃ pt, s.word pd i = pde pt ∧ Kpage pt ∧ pt ∈ s.pages ∧ pt ∉ dirs ∧
    pt ≠ s.basePageDir ∧ ∀ j < 1024, WordOk (s.word pt j)
  inj : ∀ pd ∈ dirs, ∀ pd' ∈ dirs, ∀ i < 768, ∀ i' < 768, s.word pd i ≠ 0 → s.word pd i = s.word pd' i' → pd = pd' ∧ i = i'

end Tables

theorem Kpage.pde_pteP {pt : Word} (h : Kpage pt) : Tables.pde pt &&& pteP ≠ 0 := by
  rw [Tables.pde, h.flag (by decide)]
  decide

theorem Kpage.pde_pteAddr {pt : Word} (h : Kpage pt) : Tables.pde pt &&& pteAddr = pt - physBase := h.address (by decide)

theorem Kpage.pde_ne_zero {pt : Word} (h : Kpage pt) : Tables.pde pt ≠ 0 := by
  intro h0
  apply h.pde_pteP
  rw [h0]
  rfl

theorem Kpage.pde_inj {p q : Word} (hp : Kpage p) (hq : Kpage q) (h : Tables.pde p = Tables.pde q) : p = q := by
  have hsub : p - physBase = q - physBase := by rw [← hp.pde_pteAddr, ← hq.pde_pteAddr, h]
  rw [← BitVec.sub_add_cancel p physBase, hsub, BitVec.sub_add_cancel]

namespace Tables

variable {s : Tables} {dirs : List Word} {pd pt : Word} {i j n : ℕ}

theorem tableAt_of_pde (h : s.word pd i = pde pt) (hk : Kpage pt) : s.tableAt pd i = some pt := by
  rw [tableAt, h, if_neg hk.pde_ne_zero, hk.pde_pteAddr, BitVec.sub_add_cancel]

/-- A page table of a directory. -/
theorem Wf.of_tableAt (h : s.Wf dirs) (hpd : pd ∈ dirs) (hi : i < 768) (ht : s.tableAt pd i = some pt) :
    s.word pd i = pde pt ∧ Kpage pt ∧ pt ∈ s.pages ∧ pt ∉ dirs ∧ pt ≠ s.basePageDir ∧ ∀ j < 1024, WordOk (s.word pt j) := by
  have hne : s.word pd i ≠ 0 := by
    intro h0
    rw [tableAt, if_pos h0] at ht
    cases ht
  obtain ⟨q, hq, hk, hrest⟩ := h.table pd hpd i hi hne
  obtain rfl : q = pt := Option.some.inj ((tableAt_of_pde hq hk).symm.trans ht)
  exact ⟨hq, hk, hrest⟩

/-- Two 4 MB do not share a page table. -/
theorem Wf.tableAt_inj (h : s.Wf dirs) {pd' : Word} {i' : ℕ} (hpd : pd ∈ dirs) (hpd' : pd' ∈ dirs) (hi : i < 768)
    (hi' : i' < 768) (ht : s.tableAt pd i = some pt) (ht' : s.tableAt pd' i' = some pt) : pd = pd' ∧ i = i' := by
  obtain ⟨hw, hk, -⟩ := h.of_tableAt hpd hi ht
  obtain ⟨hw', -, -⟩ := h.of_tableAt hpd' hi' ht'
  exact h.inj pd hpd pd' hpd' i hi i' hi' (hw ▸ hk.pde_ne_zero) (hw.trans hw'.symm)

/-! ### Writes -/

theorem setWord_word (p q : Word) (i j : ℕ) (w : Word) :
    (s.setWord p i w).word q j = if q = p ∧ j = i then w else s.word q j := by
  by_cases hq : q = p
  · subst hq
    simp only [setWord, Function.update_self, Function.update_apply, true_and]
  · simp only [setWord, Function.update_of_ne hq, hq, false_and, if_false]

theorem newPage_word (p q : Word) (c : ℕ → Word) (j : ℕ) :
    (s.newPage p c).word q j = if q = p then c j else s.word q j := by
  simp only [newPage, Function.update_apply]
  split_ifs <;> rfl

/-- Two states with the same words of the directories have the same page tables. -/
theorem tableAt_congr {s' : Tables} (h : s'.word pd i = s.word pd i) : s'.tableAt pd i = s.tableAt pd i := by
  rw [tableAt, tableAt, h]

/-- **A word of a page table is written**: the entry of its page changes, and no other one. -/
theorem Wf.setWord {w : Word} (h : s.Wf dirs) (hpd : pd ∈ dirs) (hi : i < 768) (hj : j < 1024)
    (ht : s.tableAt pd i = some pt) (hw : WordOk w) :
    (s.setWord pt j w).Wf dirs ∧ ∀ pd' ∈ dirs, (∀ i', (s.setWord pt j w).tableAt pd' i' = s.tableAt pd' i') ∧
      ∀ n < 768 * 1024, (s.setWord pt j w).entryAt pd' n =
        if pd' = pd ∧ n = i * 1024 + j then .ofWord w else s.entryAt pd' n := by
  obtain ⟨-, -, -, hnot, hbase, hok⟩ := h.of_tableAt hpd hi ht
  have hword : ∀ q, q ≠ pt → ∀ i', (s.setWord pt j w).word q i' = s.word q i' := by
    intro q hq i'
    rw [setWord_word, if_neg fun hc => hq hc.1]
  have hdir : ∀ q ∈ dirs, q ≠ pt := fun q hq hc => hnot (hc ▸ hq)
  have htable : ∀ q ∈ dirs, ∀ i', (s.setWord pt j w).tableAt q i' = s.tableAt q i' :=
    fun q hq i' => tableAt_congr (hword q (hdir q hq) i')
  refine ⟨⟨⟨h.base.1, fun i' hi' => ?_⟩, h.dir, fun q hq i' hi' hne => ?_, fun q hq q' hq' i₁ h₁ i₂ h₂ hne heq => ?_⟩,
    fun q hq => ⟨htable q hq, fun n hn => ?_⟩⟩
  · rw [show (s.setWord pt j w).basePageDir = s.basePageDir from rfl, hword _ hbase.symm]
    exact h.base.2 i' hi'
  · rw [hword q (hdir q hq)] at hne ⊢
    obtain ⟨r, hr, hk, hmem, hnd, hb, hwords⟩ := h.table q hq i' hi' hne
    refine ⟨r, hr, hk, hmem, hnd, hb, fun j' hj' => ?_⟩
    rw [setWord_word]
    split_ifs
    · exact hw
    · exact hwords j' hj'
  · rw [hword q (hdir q hq)] at hne heq
    rw [hword q' (hdir q' hq')] at heq
    exact h.inj q hq q' hq' i₁ h₁ i₂ h₂ hne heq
  · rw [entryAt, entryAt, htable q hq]
    cases hr : s.tableAt q (n / 1024) with
    | none =>
      rw [if_neg]
      rintro ⟨rfl, rfl⟩
      have hdiv : (i * 1024 + j) / 1024 = i := by omega
      rw [hdiv, ht] at hr
      cases hr
    | some r =>
      dsimp only
      rw [setWord_word]
      have hiff : (r = pt ∧ n % 1024 = j) ↔ (q = pd ∧ n = i * 1024 + j) := by
        constructor
        · rintro ⟨rfl, hmod⟩
          obtain ⟨rfl, hdiv⟩ := h.tableAt_inj hq hpd (by omega) hi hr ht
          exact ⟨rfl, by omega⟩
        · rintro ⟨rfl, rfl⟩
          have hdiv : (i * 1024 + j) / 1024 = i := by omega
          rw [hdiv, ht] at hr
          exact ⟨(Option.some.inj hr).symm, by omega⟩
      by_cases hc : r = pt ∧ n % 1024 = j
      · rw [if_pos hc, if_pos (hiff.1 hc)]
      · rw [if_neg hc, if_neg fun h' => hc (hiff.2 h')]

/-- The state with a new page table. -/
def withTable (pd : Word) (i : ℕ) (pt : Word) (s : Tables) : Tables := (s.newPage pt fun _ => 0).setWord pd i (pde pt)

/-- **A page table is added**: it stands for the same entries. -/
theorem Wf.withTable (h : s.Wf dirs) (hpd : pd ∈ dirs) (h0 : s.word pd i = 0) (hfresh : pt ∉ s.pages)
    (hk : Kpage pt) :
    (s.withTable pd i pt).Wf dirs ∧ ∀ pd' ∈ dirs,
      (∀ i', (s.withTable pd i pt).tableAt pd' i' = if pd' = pd ∧ i' = i then some pt else s.tableAt pd' i') ∧
      ∀ n < 768 * 1024, (s.withTable pd i pt).entryAt pd' n = s.entryAt pd' n := by
  have hword : ∀ q, q ≠ pt → ∀ i', (s.withTable pd i pt).word q i' = if q = pd ∧ i' = i then pde pt else s.word q i' := by
    intro q hq i'
    rw [Tables.withTable, setWord_word, newPage_word, if_neg hq]
  have hpt : ∀ i', (s.withTable pd i pt).word pt i' = 0 := by
    intro i'
    rw [Tables.withTable, setWord_word, newPage_word, if_pos rfl, if_neg]
    rintro ⟨rfl, -⟩
    exact hfresh (h.dir _ hpd).1
  have hdir : ∀ q ∈ dirs, q ≠ pt := by
    rintro q hq rfl
    exact hfresh (h.dir _ hq).1
  have hbase : s.basePageDir ≠ pt := fun hc => hfresh (hc ▸ h.base.1)
  have htable : ∀ q ∈ dirs, ∀ i', (s.withTable pd i pt).tableAt q i' =
      if q = pd ∧ i' = i then some pt else s.tableAt q i' := by
    intro q hq i'
    split_ifs with hc
    · refine tableAt_of_pde ?_ hk
      rw [hword q (hdir q hq), if_pos hc]
    · apply tableAt_congr
      rw [hword q (hdir q hq), if_neg hc]
  have hnew : ∀ q ∈ dirs, ∀ i' < 768, s.word q i' ≠ pde pt := by
    intro q hq i' hi' heq
    obtain ⟨r, hr, hkr, hmem, -⟩ := h.table q hq i' hi' (heq ▸ hk.pde_ne_zero)
    obtain rfl := hkr.pde_inj hk (hr.symm.trans heq)
    exact hfresh hmem
  refine ⟨⟨⟨List.mem_cons_of_mem _ h.base.1, fun i' hi' => ?_⟩,
    fun q hq => ⟨List.mem_cons_of_mem _ (h.dir q hq).1, (h.dir q hq).2⟩, fun q hq i' hi' hne => ?_,
    fun q hq q' hq' i₁ h₁ i₂ h₂ hne heq => ?_⟩, fun q hq => ⟨htable q hq, fun n hn => ?_⟩⟩
  · rw [show (s.withTable pd i pt).basePageDir = s.basePageDir from rfl, hword _ hbase, if_neg]
    · exact h.base.2 i' hi'
    · rintro ⟨hc, -⟩
      exact (h.dir pd hpd).2.1 hc.symm
  · rw [hword q (hdir q hq)] at hne ⊢
    split_ifs at hne ⊢ with hc
    · refine ⟨pt, rfl, hk, List.mem_cons_self, fun hp => hdir pt hp rfl, hbase.symm, fun j' _ => ?_⟩
      rw [hpt]
      exact fun hc => absurd rfl hc
    · obtain ⟨r, hr, hkr, hmem, hnd, hb, hwords⟩ := h.table q hq i' hi' hne
      refine ⟨r, hr, hkr, List.mem_cons_of_mem _ hmem, hnd, hb, fun j' hj' => ?_⟩
      have hrpt : r ≠ pt := fun hc => hfresh (hc ▸ hmem)
      rw [hword r hrpt, if_neg]
      · exact hwords j' hj'
      · rintro ⟨rfl, -⟩
        exact hnd hpd
  · rw [hword q (hdir q hq)] at hne heq
    rw [hword q' (hdir q' hq')] at heq
    split_ifs at hne heq with hc hc' hc'
    · exact ⟨hc.1.trans hc'.1.symm, hc.2.trans hc'.2.symm⟩
    · exact absurd heq.symm (hnew q' hq' i₂ h₂)
    · exact absurd heq (hnew q hq i₁ h₁)
    · exact h.inj q hq q' hq' i₁ h₁ i₂ h₂ hne heq
  · rw [entryAt, entryAt, htable q hq]
    split_ifs with hc
    · -- the new table is all zeros, and there was none before
      have hnone : s.tableAt q (n / 1024) = none := by
        rw [tableAt, hc.1, hc.2, if_pos h0]
      rw [hnone]
      dsimp only
      rw [hpt]
      exact Entry.ofWord_zero
    · cases hr : s.tableAt q (n / 1024) with
      | none => rfl
      | some r =>
        obtain ⟨-, -, hmem, hnd, -, -⟩ := h.of_tableAt hq (by omega) hr
        dsimp only
        rw [hword r fun hc => hfresh (hc ▸ hmem), if_neg]
        rintro ⟨rfl, -⟩
        exact hnd hpd

/-- **A page directory is created**: nothing is mapped in it. -/
theorem Wf.newDir (h : s.Wf dirs) (hfresh : pd ∉ s.pages) (h0 : pd ≠ 0) :
    (s.newPage pd (s.word s.basePageDir)).Wf (pd :: dirs) ∧
      (∀ i < 768, (s.newPage pd (s.word s.basePageDir)).tableAt pd i = none) ∧
      ∀ pd' ∈ dirs, (∀ i, (s.newPage pd (s.word s.basePageDir)).tableAt pd' i = s.tableAt pd' i) ∧
        ∀ n < 768 * 1024, (s.newPage pd (s.word s.basePageDir)).entryAt pd' n = s.entryAt pd' n := by
  have hword : ∀ q, q ≠ pd → ∀ i, (s.newPage pd (s.word s.basePageDir)).word q i = s.word q i := by
    intro q hq i
    rw [newPage_word, if_neg hq]
  have hnew : ∀ i < 768, (s.newPage pd (s.word s.basePageDir)).word pd i = 0 := by
    intro i hi
    rw [newPage_word, if_pos rfl]
    exact h.base.2 i hi
  have hdir : ∀ q ∈ dirs, q ≠ pd := by
    rintro q hq rfl
    exact hfresh (h.dir _ hq).1
  have hbase : s.basePageDir ≠ pd := fun hc => hfresh (hc ▸ h.base.1)
  have htable : ∀ q ∈ dirs, ∀ i, (s.newPage pd (s.word s.basePageDir)).tableAt q i = s.tableAt q i :=
    fun q hq i => tableAt_congr (hword q (hdir q hq) i)
  refine ⟨⟨⟨List.mem_cons_of_mem _ h.base.1, fun i hi => ?_⟩, fun q hq => ?_, fun q hq i hi hne => ?_,
    fun q hq q' hq' i₁ h₁ i₂ h₂ hne heq => ?_⟩, fun i hi => if_pos (hnew i hi), fun q hq => ⟨htable q hq, fun n hn => ?_⟩⟩
  · rw [show (s.newPage pd (s.word s.basePageDir)).basePageDir = s.basePageDir from rfl, hword _ hbase]
    exact h.base.2 i hi
  · rcases List.mem_cons.1 hq with rfl | hq
    · exact ⟨List.mem_cons_self, hbase.symm, h0⟩
    · exact ⟨List.mem_cons_of_mem _ (h.dir q hq).1, (h.dir q hq).2⟩
  · rcases List.mem_cons.1 hq with rfl | hq
    · exact absurd (hnew i hi) hne
    · rw [hword q (hdir q hq)] at hne ⊢
      obtain ⟨r, hr, hk, hmem, hnd, hb, hwords⟩ := h.table q hq i hi hne
      have hrpd : r ≠ pd := fun hc => hfresh (hc ▸ hmem)
      refine ⟨r, hr, hk, List.mem_cons_of_mem _ hmem, fun hc => ?_, hb, fun j' hj' => ?_⟩
      · exact (List.mem_cons.1 hc).elim hrpd hnd
      · rw [hword r hrpd]
        exact hwords j' hj'
  · have hq₁ : q ∈ dirs := by
      rcases List.mem_cons.1 hq with rfl | hq
      · exact absurd (hnew i₁ h₁) hne
      · exact hq
    have hq₂ : q' ∈ dirs := by
      rcases List.mem_cons.1 hq' with rfl | hq'
      · exact absurd (heq.trans (hnew i₂ h₂)) hne
      · exact hq'
    rw [hword q (hdir q hq₁)] at hne heq
    rw [hword q' (hdir q' hq₂)] at heq
    exact h.inj q hq₁ q' hq₂ i₁ h₁ i₂ h₂ hne heq
  · rw [entryAt, entryAt, htable q hq]
    cases hr : s.tableAt q (n / 1024) with
    | none => rfl
    | some r =>
      obtain ⟨-, -, hmem, -⟩ := h.of_tableAt hq (by omega) hr
      dsimp only
      rw [hword r fun hc => hfresh (hc ▸ hmem)]

end Tables

/-! ### The programs -/

section Programs

variable {s : Tables} {dirs : List Word} {pd va pt : Word} {Q : Word → Tables → Prop} {E : Fault → Prop}

theorem wp_ptov {p : Word} (h : p.toNat < physBase.toNat) (hQ : Q (p + physBase) s) : wp (ptov p) Q E s := by
  rw [ptov, if_pos h]
  exact hQ

theorem wp_vtop (h : Kpage pt) (hQ : Q (pt - physBase) s) : wp (vtop pt) Q E s := by
  rw [vtop, if_neg h.2]
  exact hQ

theorem wp_pdeGetPt (h : Kpage pt) (hQ : Q pt s) : wp (pdeGetPt (Tables.pde pt)) Q E s := by
  rw [pdeGetPt, if_neg h.pde_pteP, h.pde_pteAddr]
  refine wp_ptov h.sub_lt ?_
  rw [BitVec.sub_add_cancel]
  exact hQ

theorem wp_pdeCreate (h : Kpage pt) (hQ : Q (Tables.pde pt) s) : wp (pdeCreate pt) Q E s := by
  rw [pdeCreate, if_pos h.1, wp_bind]
  refine wp_vtop h ?_
  rw [BitVec.or_assoc, BitVec.or_assoc, ← BitVec.or_assoc pteU]
  exact hQ

/-- The word for an address is in the page table of its 4 MB. -/
theorem wp_entryOf {P : Option (Word × ℕ) → Tables → Prop} (h : s.Wf dirs) (hpd : pd ∈ dirs) (hva : isUserVaddr va)
    (ht : s.tableAt pd (pdNo va) = some pt) (hP : P (some (pt, ptNo va)) s) : wp (entryOf pd va) P E s := by
  obtain ⟨hw, hk, -⟩ := h.of_tableAt hpd (pdNo_lt hva) ht
  rw [entryOf, wp_bind, wp_gets, wp_bind, id, hw]
  exact wp_pdeGetPt hk hP

/-- **`lookup_page` without `create`.** -/
theorem wp_lookupWord {P : Option (Word × ℕ × Word) → Tables → Prop} (h : s.Wf dirs) (hpd : pd ∈ dirs)
    (hva : isUserVaddr va)
    (hP : P ((s.tableAt pd (pdNo va)).map fun pt => (pt, ptNo va, s.word pt (ptNo va))) s) :
    wp (lookupWord pd va) P E s := by
  rw [lookupWord, wp_bind, lookupPage, wp_bind, wp_gets, if_neg (h.dir pd hpd).2.2, if_neg (by simp)]
  dsimp only [id]
  by_cases h0 : s.word pd (pdNo va) = 0
  · rw [if_neg (not_not.2 h0), if_neg (by decide), wp_pure, wp_bind, wp_gets, wp_pure]
    rwa [Tables.tableAt, if_pos h0] at hP
  · obtain ⟨pt, hw, hk, -⟩ := h.table pd hpd _ (pdNo_lt hva) h0
    have ht := Tables.tableAt_of_pde hw hk
    rw [if_pos h0]
    refine wp_entryOf h hpd hva ht ?_
    rw [wp_bind, wp_gets, wp_pure]
    rwa [ht] at hP

end Programs

end Pintos.Pagedir
