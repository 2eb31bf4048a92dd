import Pintos.Userprog.PagedirSpec

/-!
# Address spaces

The page directories as users of `userprog/pagedir.c` see them: for each directory a
partial map from pages to kernel pages, and three flags for each page. Every sequence
of operations on the tables is one on these maps, whatever the pages and the
directories, and every lookup and every flag reads what the maps say.
-/

namespace Pintos.Pagedir

open Library Library.Prog

/-! ### Flags -/

/-- The flags that have functions of their own. -/
inductive Flag where
  | writable
  | accessed
  | dirty
  deriving DecidableEq

/-- The flag's bit. -/
def Flag.mask : Flag → Word
  | .writable => pteW
  | .accessed => pteA
  | .dirty => pteD

/-- The function that reads the flag. -/
def Flag.is : Flag → Word → Word → TablesM Bool
  | .writable => pagedirIsWritable
  | .accessed => pagedirIsAccessed
  | .dirty => pagedirIsDirty

/-- The function that writes the flag. -/
def Flag.put : Flag → Word → Word → Bool → TablesM Unit
  | .writable => pagedirSetWritable
  | .accessed => pagedirSetAccessed
  | .dirty => pagedirSetDirty

/-- Read a flag of an entry. -/
def Entry.flag (e : Entry) : Flag → Bool
  | .writable => e.writable
  | .accessed => e.accessed
  | .dirty => e.dirty

/-- Write a flag of an entry. -/
def Entry.setFlag (f : Flag) (b : Bool) (e : Entry) : Entry :=
  match f with
  | .writable => { e with writable := b }
  | .accessed => { e with accessed := b }
  | .dirty => { e with dirty := b }

theorem Flag.is_eq (f : Flag) : f.is = isFlag f.mask := by cases f <;> rfl

theorem Flag.put_eq (f : Flag) : f.put = Pagedir.setFlag f.mask := by cases f <;> rfl

theorem Entry.flag_ofWord (f : Flag) (w : Word) : (Entry.ofWord w).flag f = decide (w &&& f.mask ≠ 0) := by cases f <;> rfl

theorem Entry.flag_zero (f : Flag) : Entry.zero.flag f = false := by cases f <;> rfl

/-- A flag's bit is none of the other bits that are read. -/
theorem Flag.mask_disjoint (f : Flag) : f.mask &&& pteP = 0#32 ∧ f.mask &&& pteAddr = 0#32 ∧
    ∀ g, g ≠ f → f.mask &&& g.mask = 0#32 := by
  cases f
  all_goals
    refine ⟨by decide, by decide, fun g hg => ?_⟩
    cases g
    all_goals first | exact absurd rfl hg | decide

/-- The word for a page after one of its flags is written. -/
def putFlag (f : Flag) (b : Bool) (w : Word) : Word := if b then w ||| f.mask else w &&& ~~~ f.mask

/-- Reading through a mask that has no bit in common with the flag. -/
theorem putFlag_and {f : Flag} {m : Word} (b : Bool) (w : Word) (h : f.mask &&& m = 0#32) : putFlag f b w &&& m = w &&& m := by
  cases b
  · exact and_not_and_of_disjoint h
  · exact or_and_of_disjoint h

theorem putFlag_mask (f : Flag) (b : Bool) (w : Word) : decide (putFlag f b w &&& f.mask ≠ 0) = b := by
  cases b
  · exact decide_eq_false (not_not.2 and_not_and_self)
  · refine decide_eq_true ?_
    rw [putFlag, if_pos rfl, or_and_self]
    cases f <;> decide

theorem Entry.ofWord_putFlag (f : Flag) (b : Bool) (w : Word) : Entry.ofWord (putFlag f b w) = (Entry.ofWord w).setFlag f b := by
  obtain ⟨hp, ha, hf⟩ := f.mask_disjoint
  have hpage : (Entry.ofWord (putFlag f b w)).page = (Entry.ofWord w).page := by
    simp only [Entry.ofWord, putFlag_and b w hp, putFlag_and b w ha]
  have hflag : ∀ g, (Entry.ofWord (putFlag f b w)).flag g = if g = f then b else (Entry.ofWord w).flag g := by
    intro g
    rw [Entry.flag_ofWord, Entry.flag_ofWord]
    split_ifs with hg
    · rw [hg, putFlag_mask]
    · rw [putFlag_and b w (hf g hg)]
  have hw := hflag .writable
  have hacc := hflag .accessed
  have hd := hflag .dirty
  cases f
  all_goals exact Entry.ext hpage hw hacc hd

theorem Tables.WordOk.putFlag {f : Flag} {w : Word} (b : Bool) (h : WordOk w) : WordOk (putFlag f b w) := by
  obtain ⟨hp, ha, -⟩ := f.mask_disjoint
  rw [WordOk, putFlag_and b w hp, putFlag_and b w ha]
  exact h

/-- The word for a page after `pagedir_clear_page`. -/
theorem Entry.ofWord_clear (w : Word) : Entry.ofWord (w &&& ~~~ pteP) = { Entry.ofWord w with page := none } := by
  have hflag : ∀ f : Flag, (w &&& ~~~ pteP) &&& f.mask = w &&& f.mask := by
    intro f
    apply and_not_and_of_disjoint
    cases f <;> decide
  have hw := hflag .writable
  have ha := hflag .accessed
  have hd := hflag .dirty
  simp only [Flag.mask] at hw ha hd
  simp only [Entry.ofWord, hw, ha, hd]
  rw [if_pos (show (w &&& ~~~ pteP) &&& pteP = 0 from and_not_and_self)]

theorem Tables.WordOk.clear (w : Word) : WordOk (w &&& ~~~ pteP) := fun h => absurd and_not_and_self h

/-- The word that `pagedir_set_page` writes. -/
def userPte (kpage : Word) (writable : Bool) : Word :=
  (kpage - physBase) ||| (pteP ||| ((if writable then pteW else 0) ||| pteU))

theorem userPte_address {kpage : Word} (h : Kpage kpage) (b : Bool) : userPte kpage b &&& pteAddr = kpage - physBase := by
  apply h.address
  cases b <;> decide

theorem Entry.ofWord_userPte {kpage : Word} (h : Kpage kpage) (b : Bool) :
    Entry.ofWord (userPte kpage b) = ⟨some kpage, b, false, false⟩ := by
  have hflag : ∀ m, m &&& pgmask = m → userPte kpage b &&& m = (pteP ||| ((if b then pteW else 0) ||| pteU)) &&& m :=
    fun m hm => h.flag hm
  have hpresent : userPte kpage b &&& pteP ≠ 0 := by
    rw [hflag pteP (by decide)]
    cases b <;> decide
  apply Entry.ext
  · simp only [Entry.ofWord]
    rw [if_neg hpresent, userPte_address h, BitVec.sub_add_cancel]
  · simp only [Entry.ofWord, hflag pteW (by decide)]
    cases b <;> rfl
  · simp only [Entry.ofWord, hflag pteA (by decide)]
    cases b <;> rfl
  · simp only [Entry.ofWord, hflag pteD (by decide)]
    cases b <;> rfl

theorem Tables.WordOk.userPte {kpage : Word} (h : Kpage kpage) (b : Bool) : WordOk (userPte kpage b) := by
  intro _
  rw [userPte_address h]
  exact h.sub_lt

/-! ### The maps -/

/-- Address spaces: which page directories there are, which of their 4 MB have had a page set, and the entry of every
page. -/
structure Spaces where
  dirs : List Word
  tabled : Word → ℕ → Bool
  entry : Word → ℕ → Entry

namespace Spaces

/-- Change the entry of a page. -/
def setEntry (pd : Word) (n : ℕ) (f : Entry → Entry) (a : Spaces) : Spaces :=
  { a with entry := Function.update a.entry pd (Function.update (a.entry pd) n (f (a.entry pd n))) }

theorem setEntry_entry (a : Spaces) (pd q : Word) (n m : ℕ) (f : Entry → Entry) :
    (a.setEntry pd n f).entry q m = if q = pd ∧ m = n then f (a.entry q m) else a.entry q m := by
  by_cases hq : q = pd
  · subst hq
    simp only [setEntry, Function.update_self, Function.update_apply, true_and]
    split_ifs with hm
    · rw [hm]
    · rfl
  · simp only [setEntry, Function.update_of_ne hq, hq, false_and, if_false]

end Spaces

/-- The operations, each with what `palloc_get_page` returns in it. -/
inductive Action where
  /-- `pagedir_create`. -/
  | create (get : Option Word)
  /-- `pagedir_set_page`. -/
  | setPage (pd upage kpage : Word) (writable : Bool) (get : Option Word)
  /-- `pagedir_clear_page`. -/
  | clearPage (pd upage : Word)
  /-- `pagedir_set_dirty`, `pagedir_set_accessed` or `pagedir_set_writable`. -/
  | setFlag (f : Flag) (pd vpage : Word) (b : Bool)

/-- An operation on the tables. -/
def step : Action → TablesM Unit
  | .create get => do
    let _ ← pagedirCreate get
    pure ()
  | .setPage pd upage kpage writable get => do
    let _ ← pagedirSetPage pd upage kpage writable get
    pure ()
  | .clearPage pd upage => pagedirClearPage pd upage
  | .setFlag f pd vpage b => f.put pd vpage b

/-- **The operation on the maps**: a page is set unless there is no memory for a page table, and then has no flag but
that it is writable; and flags are set where there is a page table. -/
def Spaces.step (a : Spaces) : Action → Spaces
  | .create none => a
  | .create (some pd) =>
    { dirs := pd :: a.dirs
      tabled := Function.update a.tabled pd fun _ => false
      entry := Function.update a.entry pd fun _ => .zero }
  | .setPage pd upage kpage writable get =>
    if a.tabled pd (pdNo upage) = true ∨ get ≠ none then
      { a.setEntry pd (pgNo upage) fun _ => ⟨some kpage, writable, false, false⟩ with
        tabled := Function.update a.tabled pd (Function.update (a.tabled pd) (pdNo upage) true) }
    else a
  | .clearPage pd upage => a.setEntry pd (pgNo upage) fun e => { e with page := none }
  | .setFlag f pd vpage b => if a.tabled pd (pdNo vpage) = true then a.setEntry pd (pgNo vpage) (Entry.setFlag f b) else a

/-- `palloc_get_page` returns a page of kernel memory that is not in use. -/
def Fresh (s : Tables) (get : Option Word) : Prop := ∀ p, get = some p → p ∉ s.pages ∧ Kpage p

/-- The operations are on user pages of directories that were created; a page is set while it is not mapped, and to a
page of memory. -/
def Guard (s : Tables) (a : Spaces) : Action → Prop
  | .create get => Fresh s get
  | .setPage pd upage kpage _ get => pd ∈ a.dirs ∧ pgOfs upage = 0 ∧ isUserVaddr upage ∧ Kpage kpage ∧
      ((kpage - physBase) >>> 12).toNat < s.ramPages ∧ (a.entry pd (pgNo upage)).page = none ∧ Fresh s get
  | .clearPage pd upage => pd ∈ a.dirs ∧ pgOfs upage = 0 ∧ isUserVaddr upage
  | .setFlag _ pd vpage _ => pd ∈ a.dirs ∧ isUserVaddr vpage

/-- The tables stand for the maps. -/
structure Refines (s : Tables) (a : Spaces) : Prop where
  wf : s.Wf a.dirs
  tabled : ∀ pd ∈ a.dirs, ∀ i < 768, a.tabled pd i = (s.tableAt pd i).isSome
  entry : ∀ pd ∈ a.dirs, ∀ n < 768 * 1024, a.entry pd n = s.entryAt pd n

section

variable {s : Tables} {a : Spaces} {pd va pt : Word} {n : ℕ}

theorem pgNo_lt (h : isUserVaddr va) : pgNo va < 768 * 1024 := by
  rw [isUserVaddr, physBase_toNat] at h
  rw [pgNo_eq]
  omega

theorem pgNo_split (va : Word) : pgNo va = pdNo va * 1024 + ptNo va := by
  rw [← pgNo_div, ← pgNo_mod]
  omega

/-- The entry of an address whose 4 MB have a page table. -/
theorem Refines.entry_of_table (h : Refines s a) (hpd : pd ∈ a.dirs) (hva : isUserVaddr va)
    (ht : s.tableAt pd (pdNo va) = some pt) : a.entry pd (pgNo va) = .ofWord (s.word pt (ptNo va)) := by
  rw [h.entry pd hpd _ (pgNo_lt hva), Tables.entryAt, pgNo_div, ht, pgNo_mod]

theorem Refines.entry_of_none (h : Refines s a) (hpd : pd ∈ a.dirs) (hva : isUserVaddr va)
    (ht : s.tableAt pd (pdNo va) = none) : a.entry pd (pgNo va) = .zero := by
  rw [h.entry pd hpd _ (pgNo_lt hva), Tables.entryAt, pgNo_div, ht]

/-- The word for an address is written. -/
theorem Refines.setWord {w : Word} {f : Entry → Entry} (h : Refines s a) (hpd : pd ∈ a.dirs) (hva : isUserVaddr va)
    (ht : s.tableAt pd (pdNo va) = some pt) (hok : Tables.WordOk w) (hw : Entry.ofWord w = f (a.entry pd (pgNo va))) :
    Refines (s.setWord pt (ptNo va) w) (a.setEntry pd (pgNo va) f) := by
  obtain ⟨hwf, hsame⟩ := h.wf.setWord hpd (pdNo_lt hva) (ptNo_lt va) ht hok
  refine ⟨hwf, fun q hq i hi => ?_, fun q hq n hn => ?_⟩
  · rw [(hsame q hq).1]
    exact h.tabled q hq i hi
  · rw [(hsame q hq).2 n hn, Spaces.setEntry_entry, ← pgNo_split]
    split_ifs with hc
    · rw [hc.1, hc.2, hw]
    · exact h.entry q hq n hn

/-! ### Reading -/

/-- What `pagedir_get_page` should return. -/
def Entry.address (e : Entry) (va : Word) : Word :=
  match e.page with
  | none => 0
  | some kpage => kpage + pgOfs va

/-- **`pagedir_get_page` reads the map.** -/
theorem pagedirGetPage_spec (h : Refines s a) (hpd : pd ∈ a.dirs) (hva : isUserVaddr va) :
    wp (pagedirGetPage pd va) (fun r s' => s' = s ∧ r = (a.entry pd (pgNo va)).address va) (fun _ => False) s := by
  rw [pagedirGetPage, if_neg (not_not.2 hva), wp_bind]
  apply wp_lookupWord h.wf hpd hva
  cases ht : s.tableAt pd (pdNo va) with
  | none =>
    rw [h.entry_of_none hpd hva ht]
    exact ⟨rfl, rfl⟩
  | some pt =>
    obtain ⟨-, -, -, -, -, hok⟩ := h.wf.of_tableAt hpd (pdNo_lt hva) ht
    rw [h.entry_of_table hpd hva ht]
    dsimp only [Option.map]
    rw [wp_ite]
    refine ⟨fun hp => ?_, fun hp => ?_⟩
    · rw [wp_bind, pteGetPage]
      refine wp_ptov (hok _ (ptNo_lt va) hp) ?_
      simp only [Entry.address, Entry.ofWord, wp_pure, true_and]
      rw [if_neg hp]
    · simp only [Entry.address, Entry.ofWord, wp_pure, true_and]
      rw [if_pos (not_not.1 hp)]

/-- **Each flag reads the map.** -/
theorem is_spec (h : Refines s a) (hpd : pd ∈ a.dirs) (hva : isUserVaddr va) (f : Flag) :
    wp (f.is pd va) (fun r s' => s' = s ∧ r = (a.entry pd (pgNo va)).flag f) (fun _ => False) s := by
  rw [f.is_eq, isFlag, wp_bind]
  apply wp_lookupWord h.wf hpd hva
  cases ht : s.tableAt pd (pdNo va) with
  | none =>
    rw [h.entry_of_none hpd hva ht, Entry.flag_zero]
    exact ⟨rfl, rfl⟩
  | some pt =>
    rw [h.entry_of_table hpd hva ht, Entry.flag_ofWord]
    exact ⟨rfl, rfl⟩

/-! ### Writing -/

theorem Refines.tabled_of_table (h : Refines s a) (hpd : pd ∈ a.dirs) (hva : isUserVaddr va)
    (ht : s.tableAt pd (pdNo va) = some pt) : a.tabled pd (pdNo va) = true := by
  rw [h.tabled pd hpd _ (pdNo_lt hva), ht]
  rfl

theorem Refines.tabled_of_none (h : Refines s a) (hpd : pd ∈ a.dirs) (hva : isUserVaddr va)
    (ht : s.tableAt pd (pdNo va) = none) : a.tabled pd (pdNo va) = false := by
  rw [h.tabled pd hpd _ (pdNo_lt hva), ht]
  rfl

/-- A flag is written where there is a page table. -/
theorem put_spec (h : Refines s a) (hpd : pd ∈ a.dirs) (hva : isUserVaddr va) (f : Flag) (b : Bool) :
    wp (f.put pd va b) (fun _ s' => Refines s' (a.step (.setFlag f pd va b))) (fun _ => False) s := by
  rw [f.put_eq, setFlag, wp_bind]
  apply wp_lookupWord h.wf hpd hva
  cases ht : s.tableAt pd (pdNo va) with
  | none =>
    dsimp only [Option.map, Spaces.step]
    rw [if_neg (Bool.eq_false_iff.1 (h.tabled_of_none hpd hva ht))]
    exact h
  | some pt =>
    obtain ⟨-, -, -, -, -, hok⟩ := h.wf.of_tableAt hpd (pdNo_lt hva) ht
    dsimp only [Option.map, Spaces.step]
    rw [if_pos (h.tabled_of_table hpd hva ht), wp_modify]
    refine h.setWord hpd hva ht ((hok _ (ptNo_lt va)).putFlag b) ?_
    rw [h.entry_of_table hpd hva ht]
    exact Entry.ofWord_putFlag f b _

/-- The present bit is cleared, and the flags stay. -/
theorem pagedirClearPage_spec (h : Refines s a) (hpd : pd ∈ a.dirs) (hofs : pgOfs va = 0) (hva : isUserVaddr va) :
    wp (pagedirClearPage pd va) (fun _ s' => Refines s' (a.step (.clearPage pd va))) (fun _ => False) s := by
  have hsame : (a.entry pd (pgNo va)).page = none → Refines s (a.step (.clearPage pd va)) := by
    intro hnone
    refine ⟨h.wf, h.tabled, fun q hq n hn => ?_⟩
    rw [Spaces.step, Spaces.setEntry_entry]
    split_ifs with hc
    · rw [hc.1, hc.2, ← h.entry pd hpd _ (pgNo_lt hva)]
      exact Entry.ext hnone.symm rfl rfl rfl
    · exact h.entry q hq n hn
  rw [pagedirClearPage, if_neg (not_not.2 hofs), if_neg (not_not.2 hva), wp_bind]
  apply wp_lookupWord h.wf hpd hva
  cases ht : s.tableAt pd (pdNo va) with
  | none =>
    apply hsame
    rw [h.entry_of_none hpd hva ht]
    rfl
  | some pt =>
    dsimp only [Option.map]
    rw [wp_onlyIf]
    refine ⟨fun hp => ?_, fun hp => hsame ?_⟩
    · rw [wp_modify, Spaces.step]
      refine h.setWord hpd hva ht (.clear _) ?_
      rw [h.entry_of_table hpd hva ht]
      exact Entry.ofWord_clear _
    · rw [h.entry_of_table hpd hva ht]
      exact if_pos (not_not.1 hp)

theorem pagedirCreate_spec {get : Option Word} (h : Refines s a) (hf : Fresh s get) :
    wp (pagedirCreate get) (fun _ s' => Refines s' (a.step (.create get))) (fun _ => False) s := by
  cases get with
  | none => exact h
  | some pd =>
    obtain ⟨hfresh, hk⟩ := hf pd rfl
    have h0 : pd ≠ 0 := by
      rintro rfl
      exact hk.2 (by decide)
    obtain ⟨hwf, hnew, hold⟩ := h.wf.newDir hfresh h0
    have hne : ∀ q ∈ a.dirs, q ≠ pd := by
      rintro q hq rfl
      exact hfresh (h.wf.dir _ hq).1
    rw [pagedirCreate, wp_bind, wp_modify, wp_pure]
    refine ⟨hwf, fun q hq i hi => ?_, fun q hq n hn => ?_⟩
    · dsimp only [Spaces.step]
      rcases List.mem_cons.1 hq with rfl | hq
      · rw [Function.update_self, hnew i hi]
        rfl
      · rw [Function.update_of_ne (hne q hq), (hold q hq).1]
        exact h.tabled q hq i hi
    · dsimp only [Spaces.step]
      rcases List.mem_cons.1 hq with rfl | hq
      · rw [Function.update_self, Tables.entryAt, hnew _ (by omega)]
      · rw [Function.update_of_ne (hne q hq), (hold q hq).2 n hn]
        exact h.entry q hq n hn

/-- A page table is added, which stands for the same entries. -/
theorem Refines.withTable (h : Refines s a) (hpd : pd ∈ a.dirs) (ht : s.tableAt pd n = none) (hfresh : pt ∉ s.pages)
    (hk : Kpage pt) :
    Refines (s.withTable pd n pt) { a with tabled := Function.update a.tabled pd (Function.update (a.tabled pd) n true) } ∧
      (s.withTable pd n pt).tableAt pd n = some pt := by
  have h0 : s.word pd n = 0 := by
    by_contra hne
    rw [Tables.tableAt, if_neg hne] at ht
    cases ht
  obtain ⟨hwf, hsame⟩ := h.wf.withTable hpd h0 hfresh hk
  refine ⟨⟨hwf, fun q hq i hi => ?_, fun q hq m hm => ?_⟩, ?_⟩
  · rw [(hsame q hq).1]
    dsimp only
    by_cases hq' : q = pd
    · subst hq'
      rw [Function.update_self, Function.update_apply]
      simp only [true_and]
      split_ifs
      · rfl
      · exact h.tabled q hq i hi
    · rw [Function.update_of_ne hq', if_neg fun hc => hq' hc.1]
      exact h.tabled q hq i hi
  · rw [(hsame q hq).2 m hm]
    exact h.entry q hq m hm
  · rw [(hsame pd hpd).1, if_pos ⟨rfl, rfl⟩]

/-- The word of a page that is not mapped is written. -/
theorem installPage_spec {kpage : Word} {w : Bool} (h : Refines s a) (hpd : pd ∈ a.dirs) (hva : isUserVaddr va)
    (ht : s.tableAt pd (pdNo va) = some pt) (hk : Kpage kpage) (hnone : (a.entry pd (pgNo va)).page = none) :
    wp (installPage kpage w (some (pt, ptNo va)))
      (fun r s' => r = true ∧ Refines s' (a.setEntry pd (pgNo va) fun _ => ⟨some kpage, w, false, false⟩))
      (fun _ => False) s := by
  have hp : s.word pt (ptNo va) &&& pteP = 0 := by
    rw [h.entry_of_table hpd hva ht] at hnone
    by_contra hne
    simp only [Entry.ofWord] at hnone
    rw [if_neg hne] at hnone
    cases hnone
  rw [installPage, wp_bind, wp_gets, id, if_neg (not_not.2 hp), wp_bind, pteCreateUser, wp_bind, pteCreateKernel, if_pos hk.1,
    wp_bind]
  refine wp_vtop hk ?_
  rw [wp_pure, wp_pure, wp_bind, wp_modify, wp_pure, BitVec.or_assoc, BitVec.or_assoc]
  exact ⟨rfl, h.setWord hpd hva ht (.userPte hk w) (Entry.ofWord_userPte hk w)⟩

/-- **`pagedir_set_page` sets the page**, and returns false where there is no memory for a page table. -/
theorem pagedirSetPage_spec {kpage : Word} {w : Bool} {get : Option Word} (h : Refines s a) (hpd : pd ∈ a.dirs)
    (hofs : pgOfs va = 0) (hva : isUserVaddr va) (hk : Kpage kpage)
    (hram : ((kpage - physBase) >>> 12).toNat < s.ramPages) (hnone : (a.entry pd (pgNo va)).page = none)
    (hf : Fresh s get) :
    wp (pagedirSetPage pd va kpage w get)
      (fun r s' => (r = true ↔ a.tabled pd (pdNo va) = true ∨ get ≠ none) ∧ Refines s' (a.step (.setPage pd va kpage w get)))
      (fun _ => False) s := by
  obtain ⟨-, hbase, h0⟩ := h.wf.dir pd hpd
  rw [pagedirSetPage, wp_bind, wp_gets, if_neg (by simp [hofs, hk.1]), if_neg (not_not.2 hva), wp_bind]
  refine wp_vtop hk ?_
  dsimp only [id]
  rw [if_neg (Nat.not_le.2 hram), if_neg hbase, wp_bind, lookupPage.eq_def, wp_bind, wp_gets, if_neg h0, if_neg (by simp [hva])]
  dsimp only [id]
  cases ht : s.tableAt pd (pdNo va) with
  | some pt =>
    have htab := h.tabled_of_table hpd hva ht
    have hne : s.word pd (pdNo va) ≠ 0 := by
      intro hz
      rw [Tables.tableAt, if_pos hz] at ht
      cases ht
    rw [if_pos hne]
    refine wp_entryOf h.wf hpd hva ht ?_
    refine wp_post (installPage_spec h hpd hva ht hk hnone) fun r s' hr => ⟨iff_of_true hr.1 (.inl htab), ?_⟩
    rw [Spaces.step, if_pos (.inl htab), ← htab, Function.update_eq_self, Function.update_eq_self]
    exact hr.2
  | none =>
    have htab := h.tabled_of_none hpd hva ht
    have hz : s.word pd (pdNo va) = 0 := by
      by_contra hne
      rw [Tables.tableAt, if_neg hne] at ht
      cases ht
    rw [if_neg (not_not.2 hz), if_pos rfl]
    cases get with
    | none =>
      have hno : ¬ (a.tabled pd (pdNo va) = true ∨ (none : Option Word) ≠ none) := by simp [htab]
      rw [Spaces.step, if_neg hno]
      exact ⟨iff_of_false Bool.false_ne_true hno, h⟩
    | some pt =>
      obtain ⟨hfresh, hkt⟩ := hf pt rfl
      obtain ⟨h', ht'⟩ := h.withTable hpd ht hfresh hkt
      dsimp only
      rw [wp_bind, addTable, wp_bind, wp_modify, wp_bind]
      refine wp_pdeCreate hkt ?_
      rw [wp_modify]
      refine wp_entryOf (s := s.withTable pd (pdNo va) pt) h'.wf hpd hva ht' ?_
      have hsome : some pt ≠ none := Option.some_ne_none pt
      refine wp_post (installPage_spec h' hpd hva ht' hk hnone) fun r s' hr => ⟨iff_of_true hr.1 (.inr hsome), ?_⟩
      rw [Spaces.step, if_pos (.inr hsome)]
      exact hr.2

/-- **Every operation on the tables is the operation on the maps**, and no assertion fails. -/
theorem step_spec (h : Refines s a) {act : Action} (hg : Guard s a act) :
    wp (step act) (fun _ s' => Refines s' (a.step act)) (fun _ => False) s := by
  cases act with
  | create get =>
    rw [step, wp_bind]
    exact pagedirCreate_spec h hg
  | setPage pd upage kpage w get =>
    obtain ⟨hpd, hofs, hva, hk, hram, hnone, hf⟩ := hg
    rw [step, wp_bind]
    exact wp_post (pagedirSetPage_spec h hpd hofs hva hk hram hnone hf) fun _ _ hr => hr.2
  | clearPage pd upage => exact pagedirClearPage_spec h hg.1 hg.2.1 hg.2.2
  | setFlag f pd vpage b => exact put_spec h hg.1 hg.2 f b

/-- The tables after `paging_init`, which maps kernel addresses only. -/
def Boot (s : Tables) : Prop := s.basePageDir ∈ s.pages ∧ ∀ i < 768, s.word s.basePageDir i = 0

/-- No page directory has been created. -/
def Spaces.empty : Spaces where
  dirs := []
  tabled _ _ := false
  entry _ _ := .zero

/-- **The tables, and the maps, after any sequence of operations.** -/
inductive Reaches : Tables → Spaces → Prop
  | boot {s : Tables} : Boot s → Reaches s .empty
  | step {s s' : Tables} {a : Spaces} {act : Action} : Reaches s a → Guard s a act → step act s = .ok ((), s') →
      Reaches s' (a.step act)

theorem Reaches.refines (h : Reaches s a) : Refines s a := by
  induction h with
  | boot hb => exact ⟨⟨hb, nofun, nofun, nofun⟩, nofun, nofun⟩
  | step _ hg hs ih => exact wp_of_ok (step_spec ih hg) hs

/-- The page that an operation is on. -/
def Action.target : Action → Word × ℕ → Prop
  | .create get, x => get = some x.1
  | .setPage pd upage _ _ _, x => x = (pd, pgNo upage)
  | .clearPage pd upage, x => x = (pd, pgNo upage)
  | .setFlag _ pd vpage _, x => x = (pd, pgNo vpage)

/-- An operation changes the entry of its own page only. -/
theorem Spaces.step_entry (a : Spaces) {act : Action} {q : Word} {m : ℕ} (h : ¬ act.target (q, m)) :
    (a.step act).entry q m = a.entry q m := by
  have hset : ∀ p k f, (q, m) ≠ (p, k) → (a.setEntry p k f).entry q m = a.entry q m := by
    intro p k f hne
    rw [setEntry_entry, if_neg]
    rintro ⟨rfl, rfl⟩
    exact hne rfl
  cases act with
  | create get =>
    cases get with
    | none => rfl
    | some p => exact congrFun (Function.update_of_ne (fun hc => h (congrArg some hc.symm)) ..) m
  | setPage p upage kpage w get =>
    rw [Spaces.step]
    split_ifs
    · exact hset p (pgNo upage) (fun _ => ⟨some kpage, w, false, false⟩) h
    · rfl
  | clearPage p upage => exact hset p (pgNo upage) (fun e => { e with page := none }) h
  | setFlag f p vpage b =>
    rw [Spaces.step]
    split_ifs
    · exact hset p _ _ h
    · rfl

/-- **Page directories are maps.** After any sequence of operations, a lookup returns the kernel page that the map has for
the address, with the offset, and a null pointer if it has none; each flag reads as in the map; the next operation fails
no assertion; and it leaves every other page of every directory as it is. -/
theorem pagedir_refines (h : Reaches s a) :
    (∀ pd ∈ a.dirs, ∀ va, isUserVaddr va →
      wp (pagedirGetPage pd va) (fun r s' => s' = s ∧ r = (a.entry pd (pgNo va)).address va) (fun _ => False) s ∧
      ∀ f : Flag, wp (f.is pd va) (fun r s' => s' = s ∧ r = (a.entry pd (pgNo va)).flag f) (fun _ => False) s) ∧
    ∀ act, Guard s a act → wp (step act) (fun _ s' => Reaches s' (a.step act) ∧
      ∀ pd ∈ a.dirs, ∀ n, ¬ act.target (pd, n) → (a.step act).entry pd n = a.entry pd n) (fun _ => False) s := by
  have href := h.refines
  refine ⟨fun pd hpd va hva => ⟨pagedirGetPage_spec href hpd hva, is_spec href hpd hva⟩, fun act hg => ?_⟩
  obtain ⟨⟨⟩, s', hs, -⟩ := exists_ok (step_spec href hg)
  rw [wp_iff]
  refine ⟨fun _ s₁ h₁ => ⟨h.step hg h₁, fun pd _ n => a.step_entry⟩, fun e he => ?_⟩
  rw [hs] at he
  cases he

end

/-! ### A run -/

/-- Tables right after `paging_init` on a machine with 1024 pages. -/
def bootTables : Tables where
  word _ _ := 0
  basePageDir := 0xc0001000#32
  ramPages := 1024
  pages := [0xc0001000#32]

theorem boot_bootTables : Boot bootTables := ⟨List.mem_cons_self, fun _ _ => rfl⟩

/-- A page of kernel memory that is not in use, by evaluation. -/
theorem fresh_some {s : Tables} {p : Word} (h : p ∉ s.pages) (hofs : pgOfs p = 0) (hk : ¬ isUserVaddr p) : Fresh s (some p) := by
  intro q hq
  obtain rfl := Option.some.inj hq
  exact ⟨h, hofs, hk⟩

/-- The same tables with a page directory at `0xc0002000`. -/
def createdTables : Tables := bootTables.newPage 0xc0002000#32 fun _ => 0

theorem reaches_createdTables : Reaches createdTables (Spaces.empty.step (.create (some 0xc0002000#32))) :=
  .step (.boot boot_bootTables) (fresh_some (by decide) (by decide) (by decide)) rfl

/-- A directory is created, and a page is set in it. -/
theorem pagedir_refines_set : ∃ s a, a.entry 0xc0002000#32 1 = ⟨some 0xc0003000#32, true, false, false⟩ ∧
    (∀ pd ∈ a.dirs, ∀ va, isUserVaddr va →
      wp (pagedirGetPage pd va) (fun r s' => s' = s ∧ r = (a.entry pd (pgNo va)).address va) (fun _ => False) s ∧
      ∀ f : Flag, wp (f.is pd va) (fun r s' => s' = s ∧ r = (a.entry pd (pgNo va)).flag f) (fun _ => False) s) ∧
    ∀ act, Guard s a act → wp (step act) (fun _ s' => Reaches s' (a.step act) ∧
      ∀ pd ∈ a.dirs, ∀ n, ¬ act.target (pd, n) → (a.step act).entry pd n = a.entry pd n) (fun _ => False) s := by
  have hg : Guard createdTables (Spaces.empty.step (.create (some 0xc0002000#32)))
      (.setPage 0xc0002000#32 0x1000#32 0xc0003000#32 true (some 0xc0004000#32)) :=
    ⟨List.mem_cons_self, by decide, by decide, ⟨by decide, by decide⟩, by decide, rfl,
      fresh_some (by decide) (by decide) (by decide)⟩
  obtain ⟨⟨⟩, s', hs, -⟩ := exists_ok (step_spec reaches_createdTables.refines hg)
  exact ⟨s', _, rfl, pagedir_refines (reaches_createdTables.step hg hs)⟩

/-- **A flag of a page whose 4 MB have no page table does not read back as set**: there is no word to keep it. -/
theorem flag_without_table : ¬ ∀ s a, Reaches s a → ∀ pd ∈ a.dirs, ∀ va, isUserVaddr va → ∀ (f : Flag) (b : Bool),
    wp (do f.put pd va b; f.is pd va) (fun r _ => r = b) (fun _ => True) s := by
  intro h
  exact Bool.false_ne_true (h _ _ reaches_createdTables 0xc0002000#32 List.mem_cons_self 0x1000#32 (by decide) .dirty true)

end Pintos.Pagedir
