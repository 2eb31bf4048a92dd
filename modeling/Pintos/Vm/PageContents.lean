import Pintos.Vm.SwapSlots

/-!
# What a page holds

Seen from a process, memory has no frames and no swap: a page has its initial contents,
from its file or zero, when it is first brought in, and after that what was last stored.
`View` is this memory, and steps along with the system. The system refines it as long as
every load brings in a page for the first time and in full; the kernel-mode branch of
`page_fault` does not look at `inswap`, and loads a page that is in swap again.
-/

namespace Pintos.Paging

open Library

namespace Vm

/-- The contents a page has when it is first brought in. -/
def initial (s : Vm) (p : Pid) (pg : Page) : Content :=
  match s.hash p pg with
  | some e =>
    match e.file with
    | some file => fun o => if o < e.readBytes then (s.files file).getD (e.ofs + o) 0 else 0
    | none => fun _ => 0
  | none => fun _ => 0

end Vm

/-- Memory as the processes see it; a page that was not brought in yet has no contents. -/
abbrev View := Pid → Page → Option Content

namespace View

variable (v : View)

/-- A page is brought in: it has its initial contents, unless it had some before. -/
def bring (p : Pid) (pg : Page) (c : Content) : View :=
  Function.update v p (Function.update (v p) pg (some ((v p pg).getD c)))

/-- A byte is stored. -/
def poke (p : Pid) (pg : Page) (o : Fin pgsize) (b : UInt8) : View :=
  Function.update v p (Function.update (v p) pg ((v p pg).map fun c => Function.update c o b))

/-- The process is gone, or not there yet. -/
def forget (p : Pid) : View := Function.update v p fun _ => none

/-- **The step of memory as the processes see it**: eviction and swap are no steps. -/
def next (s : Vm) (v : View) : Event → View
  | .spawn p => v.forget p
  | .allocateFrame _ p pg => v.bring p pg (s.initial p pg)
  | .fault _ p user _ addr stack _ =>
    if s.kills p user addr stack then v.forget p
    else if user && isCodeVaddr stack then v
    else
      match Paging.pageOf addr with
      | some pg => v.bring p pg (s.initial p pg)
      | none => v
  | .exit _ p _ => v.forget p
  | .store p pg o b => v.poke p pg o b
  | _ => v

variable {v} {p q : Pid} {pg pg' : Page} {c : Content}

theorem bring_same : v.bring p pg c p pg = some ((v p pg).getD c) := by simp [bring]

theorem bring_of_ne (h : ¬ (q = p ∧ pg' = pg)) : v.bring p pg c q pg' = v q pg' := by
  by_cases hq : q = p
  · subst hq
    have hpg : pg' ≠ pg := fun hpg => h ⟨rfl, hpg⟩
    simp [bring, hpg]
  · simp [bring, hq]

theorem bring_of_some (h : v p pg ≠ none) : v.bring p pg c = v := by
  obtain ⟨c', hc⟩ := Option.ne_none_iff_exists'.1 h
  unfold bring
  rw [hc, Option.getD_some, ← hc, Function.update_eq_self, Function.update_eq_self]

theorem poke_same {o : Fin pgsize} {b : UInt8} : v.poke p pg o b p pg = (v p pg).map fun c => Function.update c o b := by
  simp [poke]

theorem poke_of_ne {o : Fin pgsize} {b : UInt8} (h : ¬ (q = p ∧ pg' = pg)) : v.poke p pg o b q pg' = v q pg' := by
  by_cases hq : q = p
  · subst hq
    have hpg : pg' ≠ pg := fun hpg => h ⟨rfl, hpg⟩
    simp [poke, hpg]
  · simp [poke, hq]

@[simp] theorem forget_same : v.forget p p pg = none := by simp [forget]

theorem forget_of_ne (h : q ≠ p) : v.forget p q = v q := Function.update_of_ne h ..

end View

namespace Vm

variable {s s' t u : Vm} {v : View} {p q : Pid} {pg pg' : Page} {mem : Memory} {fte : Fte} {e : Spte} {f : ℕ}

/-- **The system refines memory as the processes see it**: a page holds what it should where it is, in a frame or in a
slot, and a page that is nowhere was not brought in. -/
structure Refines (s : Vm) (v : View) : Prop where
  owned : Owned s
  slotted : Slotted s
  mapped : ∀ p pg, (s.pagedir p pg).present = true → v p pg = some (s.memory (s.pagedir p pg).frame)
  swapped : ∀ p pg e (i : ℕ), s.hash p pg = some e → e.inswap = true → e.swapindex = i →
    v p pg = some (readFromDisk s.swapDevice i)
  unseen : ∀ p pg, (s.pagedir p pg).present = false → (∀ e, s.hash p pg = some e → e.inswap = false) → v p pg = none

theorem refines_init (frames slots : ℕ) (files : ℕ → List UInt8) : Refines (init frames slots files) fun _ _ => none where
  owned := owned_init frames slots files
  slotted := slotted_init frames slots files
  mapped := by simp [init, Pte.zero]
  swapped := by simp [init]
  unseen := fun _ _ _ _ => rfl

/-! ### The swap device -/

/-- What is written to a slot is read back. -/
theorem readFromDisk_writeToDisk_same (c : Content) (d : ℕ → Sector) (i : ℕ) : readFromDisk (writeToDisk c i d) i = c := by
  funext o
  have ho : o.val < 4096 := o.isLt
  have hsec : i * 8 ≤ i * 8 + o / 512 ∧ i * 8 + o / 512 < i * 8 + 8 := by omega
  simp only [readFromDisk, writeToDisk, dif_pos hsec]
  congr 1
  ext
  simp only
  omega

/-- Slots do not overlap. -/
theorem readFromDisk_writeToDisk_of_ne (c : Content) (d : ℕ → Sector) {i j : ℕ} (h : i ≠ j) :
    readFromDisk (writeToDisk c j d) i = readFromDisk d i := by
  funext o
  have ho : o.val < 4096 := o.isLt
  have hsec : ¬ (j * 8 ≤ i * 8 + o / 512 ∧ i * 8 + o / 512 < j * 8 + 8) := by omega
  simp only [readFromDisk, writeToDisk, dif_neg hsec]

/-! ### Eviction -/

/-- The frame of a page is the frame of its entry. -/
theorem Refines.frame_eq (h : Refines s v) (hf : fte ∈ s.globalFrameList) :
    (s.pagedir fte.owner fte.uaddr).frame = fte.frame := by
  obtain ⟨x, hx, hxf, ho, hu⟩ := h.owned.mapped fte.owner fte.uaddr (h.slotted.resident.present fte hf)
  rw [← hxf, h.slotted.resident.eq_of_key hx hf ho hu]

/-- A page elsewhere has another frame. -/
theorem Refines.frame_ne (h : Refines s v) (hf : fte ∈ s.globalFrameList) (hp : (s.pagedir q pg).present = true)
    (hk : ¬ (q = fte.owner ∧ pg = fte.uaddr)) : (s.pagedir q pg).frame ≠ fte.frame := by
  intro hframe
  obtain ⟨x, hx, hxf, ho, hu⟩ := h.owned.mapped q pg hp
  obtain rfl := h.owned.eq_of_frame hx hf (hxf.trans hframe)
  exact hk ⟨ho.symm, hu.symm⟩

theorem Refines.swapOut (h : Refines s v) (hs : s.swapOut = some s') : Refines s' v := by
  obtain ⟨fte, e, slot, hev⟩ := evicted_of_swapOut hs
  refine ⟨h.owned.swapOut hs, h.slotted.swapOut hs, fun q pg hp => ?_, fun q pg x i hx hin hidx => ?_, fun q pg hp hno => ?_⟩
  · obtain ⟨hp, hk⟩ := (hev.present q pg).1 hp
    rw [(hev.pte q pg).1, hev.memory _ (h.frame_ne hev.mem hp hk)]
    exact h.mapped q pg hp
  · rw [hev.device]
    by_cases hk : q = fte.owner ∧ pg = fte.uaddr
    · obtain ⟨rfl, rfl⟩ := hk
      rw [hev.same] at hx
      cases hx
      obtain rfl : slot = i := Int.natCast_inj.1 hidx
      rw [readFromDisk_writeToDisk_same, ← h.frame_eq hev.mem]
      exact h.mapped _ _ (h.slotted.resident.present fte hev.mem)
    · rw [hev.other q pg hk] at hx
      obtain ⟨j, hj, _, hbit⟩ := h.slotted.slot q pg x hx hin
      obtain rfl : i = j := by exact_mod_cast hidx.symm.trans hj
      have hne : i ≠ slot := by
        rintro rfl
        exact Bool.false_ne_true (hev.free.symm.trans hbit)
      rw [readFromDisk_writeToDisk_of_ne _ _ hne]
      exact h.swapped q pg x i hx hin hidx
  · have hk : ¬ (q = fte.owner ∧ pg = fte.uaddr) := by
      rintro ⟨rfl, rfl⟩
      exact absurd (hno _ hev.same) (by simp)
    rw [hev.other q pg hk] at hno
    refine h.unseen q pg (Bool.eq_false_iff.2 fun hp' => ?_) hno
    exact Bool.eq_false_iff.1 hp ((hev.present q pg).2 ⟨hp', hk⟩)

/-! ### Frames -/

/-- A frame that no page maps may be filled with anything. -/
theorem Refines.fill (h : Refines s v) (ht : Owned t) (hsl : Slotted t) (hp : t.pagedir = s.pagedir) (hh : t.hash = s.hash)
    (hd : t.swapDevice = s.swapDevice) (hm : ∀ q pg, (s.pagedir q pg).present = true →
      t.memory (s.pagedir q pg).frame = s.memory (s.pagedir q pg).frame) : Refines t v := by
  refine ⟨ht, hsl, fun q pg hpres => ?_, ?_, ?_⟩
  · rw [hp] at hpres ⊢
    rw [hm q pg hpres]
    exact h.mapped q pg hpres
  · rw [hh, hd]
    exact h.swapped
  · rw [hp, hh]
    exact h.unseen

theorem Fresh.unmapped (hf : Fresh s f) (h : Owned s) (hp : (s.pagedir q pg).present = true) : (s.pagedir q pg).frame ≠ f := by
  obtain ⟨x, hx, hxf, _⟩ := h.mapped q pg hp
  exact hxf ▸ hf.fresh x hx

theorem Refines.getFrame (h : Refines s v) (hs : s.getFrame = some (f, t)) :
    Refines t v ∧ Fresh t f ∧ t.memory f = fun _ => 0 := by
  obtain ⟨u, hu, hget⟩ := getFrame_rule (I := fun u => Refines u v) (fun _ _ => Refines.swapOut) h hs
  obtain ⟨ht, hf⟩ := h.owned.getFrame hs
  have hsl := h.slotted.getFrame hs
  obtain ⟨_, hbit, rfl⟩ := pallocGetPage_cases hget
  refine ⟨hu.fill ht hsl rfl rfl rfl fun q pg hp => ?_, hf, Function.update_self ..⟩
  exact Function.update_of_ne (hf.unmapped ht hp) ..

theorem Refines.free (h : Refines s v) (hf : Fresh s f) (hs : s.pallocFreePage f = some s') : Refines s' v := by
  have hown := h.owned.free hf hs
  have hsl := h.slotted.free hs
  obtain ⟨_, rfl⟩ := pallocFreePage_cases hs
  exact h.fill hown hsl rfl rfl rfl fun q pg hp => Function.update_of_ne (hf.unmapped h.owned hp) ..

/-- **A page is brought in for the first time**: a fresh frame is mapped for it, and holds `c`. -/
theorem Refines.install {c : Content} (h : Refines s v) (hf : Fresh s f) (hm : mem.pageTable = true) (he : s.hash p pg = some e)
    (hin : e.inswap = false) (hp : (s.pagedir p pg).present = false) :
    Refines { s.install mem p pg e f with memory := Function.update s.memory f c } (v.bring p pg c) := by
  have hown : Owned (s.install mem p pg e f) := h.owned.install hf he
  have hsl := h.slotted.install hm he hin hp (f := f)
  have hnone : v p pg = none := h.unseen p pg hp fun x hx => by
    obtain rfl : e = x := Option.some.inj (he.symm.trans hx)
    exact hin
  refine ⟨hown.of_eq (hown.listed.of_eq rfl rfl rfl rfl rfl) rfl rfl rfl, hsl.of_eq (hsl.resident.listed.of_eq rfl rfl rfl rfl rfl) rfl rfl rfl rfl,
    fun q pg' hq => ?_, fun q pg' x i hx hxin hidx => ?_, fun q pg' hq hno => ?_⟩
  · change ((s.install mem p pg e f).pagedir q pg').present = true at hq
    change _ = some (Function.update s.memory f c ((s.install mem p pg e f).pagedir q pg').frame)
    by_cases hk : q = p ∧ pg' = pg
    · obtain ⟨rfl, rfl⟩ := hk
      rw [install_pagedir_same hm, View.bring_same, hnone, Option.getD_none, Function.update_self]
    · rw [install_pagedir_of_ne hk] at hq ⊢
      rw [View.bring_of_ne hk, Function.update_of_ne (hf.unmapped h.owned hq)]
      exact h.mapped q pg' hq
  · change (s.install mem p pg e f).hash q pg' = some x at hx
    change _ = some (readFromDisk (s.install mem p pg e f).swapDevice i)
    rw [install_hash] at hx
    have hk : ¬ (q = p ∧ pg' = pg) := by
      rintro ⟨rfl, rfl⟩
      obtain rfl : e = x := Option.some.inj (he.symm.trans hx)
      exact Bool.false_ne_true (hin.symm.trans hxin)
    rw [View.bring_of_ne hk, install_swapDevice]
    exact h.swapped q pg' x i hx hxin hidx
  · change ((s.install mem p pg e f).pagedir q pg').present = false at hq
    change ∀ x, (s.install mem p pg e f).hash q pg' = some x → _ at hno
    rw [install_hash] at hno
    have hk : ¬ (q = p ∧ pg' = pg) := by
      rintro ⟨rfl, rfl⟩
      rw [install_pagedir_same hm] at hq
      cases hq
    rw [install_pagedir_of_ne hk] at hq
    rw [View.bring_of_ne hk]
    exact h.unseen q pg' hq hno

/-- **`allocate_frame` brings in a page of zeros**, or leaves things as they are. -/
theorem Refines.allocateFrame {o : Option ℕ} (h : Refines s v) (hst : Steady s p pg)
    (hs : s.allocateFrame mem p pg = some (o, s')) :
    o = none ∧ Refines s' v ∧ (s.hash p pg = none ∨ (s.pagedir p pg).present = true) ∧
        (s'.pagedir p pg).present = (s.pagedir p pg).present ∨
      ∃ f t e, o = some f ∧ s.hash p pg = some e ∧ (s.pagedir p pg).present = false ∧ t.hash p pg = some e ∧ e.inswap = false ∧
        (t.pagedir p pg).present = false ∧ Refines t v ∧ Fresh t f ∧ t.memory f = (fun _ => 0) ∧ t.files = s.files ∧
        s' = t.install mem p pg e f := by
  obtain ⟨f, t, hget, hh, hpt, ⟨ho, hfree, hno⟩ | ⟨e, ho, he, hin, hp, rfl⟩⟩ := h.slotted.allocateFrame_cases hst hs
  · obtain ⟨ht, hf, _⟩ := h.getFrame hget
    refine .inl ⟨ho, ht.free hf hfree, hno, ?_⟩
    obtain ⟨_, rfl⟩ := pallocFreePage_cases hfree
    exact hpt
  · obtain ⟨ht, hf, hz⟩ := h.getFrame hget
    exact .inr ⟨f, t, e, ho, he, hp, hh.trans he, hin, hpt.trans hp, ht, hf, hz, (Kept.getFrame hget).files, rfl⟩

/-- Where a page is mapped it has contents already. -/
theorem Refines.bring_of_present (h : Refines s v) (hp : (s.pagedir p pg).present = true) {c : Content} : v.bring p pg c = v := by
  refine View.bring_of_some ?_
  rw [h.mapped p pg hp]
  exact Option.some_ne_none _

/-- A page table entry changes, but not what it maps. -/
theorem Refines.setPte {g : Pte → Pte} (h : Refines s v) (hg : ∀ e, (g e).present = e.present ∧ (g e).frame = e.frame)
    (hd : (g (s.pagedir p pg)).dirty = true → (s.pagedir p pg).dirty = true ∨ (s.pagedir p pg).present = true) :
    Refines (s.setPte p pg g) v := by
  have hsame : ∀ q pg', ((s.setPte p pg g).pagedir q pg').present = (s.pagedir q pg').present ∧
      ((s.setPte p pg g).pagedir q pg').frame = (s.pagedir q pg').frame := by
    intro q pg'
    by_cases hk : q = p ∧ pg' = pg
    · obtain ⟨rfl, rfl⟩ := hk
      rw [setPte_same]
      exact hg _
    · rw [setPte_of_ne _ hk]
      exact ⟨rfl, rfl⟩
  refine ⟨h.owned.setPte hg, h.slotted.setPte (hg _).1 hd, fun q pg' hp => ?_, h.swapped, fun q pg' hp hno => ?_⟩
  · rw [(hsame q pg').1] at hp
    rw [(hsame q pg').2]
    exact h.mapped q pg' hp
  · rw [(hsame q pg').1] at hp
    exact h.unseen q pg' hp hno

/-- **A page is loaded**: it has its initial contents. -/
theorem Refines.load {file : ℕ} {r : Loaded} (h : Refines s v) (hst : Steady s p pg) (hm : mem.pageTable = true)
    (he : s.hash p pg = some e) (hfile : e.file = some file) (hr : s.fileReadAt file e.readBytes e.ofs = e.readBytes)
    (hl : s.load mem p pg e file = some r) :
    (∃ t, r = .noFrame t ∧ Refines t v ∧ (s.pagedir p pg).present = true) ∨
      ∃ t, r = .done t ∧ Refines t (v.bring p pg (s.initial p pg)) ∧ (t.pagedir p pg).present = true ∧
        (s.pagedir p pg).present = false := by
  obtain ⟨o, t, hal, ⟨ho, rfl⟩ | ⟨f, u, ho, rfl, hcases⟩⟩ := load_cases hl
  · rcases h.allocateFrame hst hal with ⟨_, ht, hno, _⟩ | ⟨g, _, _, hg, _⟩
    · exact .inl ⟨t, rfl, ht, hno.resolve_left (he ▸ Option.some_ne_none e)⟩
    · exact absurd (ho.symm.trans hg) (by simp)
  · rcases h.allocateFrame hst hal with ⟨hn, _⟩ | ⟨g, w, e', hg, he', hp, hwe, hin, hwp, hw, hfr, hz, hfiles, rfl⟩
    · exact absurd (ho.symm.trans hn) (by simp)
    obtain rfl : f = g := Option.some.inj (ho.symm.trans hg)
    obtain rfl : e = e' := Option.some.inj (he.symm.trans he')
    have hread : (w.install mem p pg e f).fileReadAt file e.readBytes e.ofs = e.readBytes := by
      unfold fileReadAt at hr ⊢
      rw [install_files, hfiles]
      exact hr
    rcases hcases with ⟨_, rfl⟩ | ⟨hshort, _⟩
    · -- a frame of zeros, filled with all the bytes that are read
      have hc : (w.install mem p pg e f).filled ((w.install mem p pg e f).memory f) file e.readBytes e.ofs = s.initial p pg := by
        funext o
        simp only [filled, hread, install_memory, install_files, hz, hfiles, initial, he, hfile]
      rw [hc, install_memory]
      have hin' := hw.install (c := s.initial p pg) hfr hm hwe hin hwp
      refine .inr ⟨_, rfl, hin'.setPte (fun _ => ⟨rfl, rfl⟩) .inl, ?_, hp⟩
      rw [setPte_same]
      change ((w.install mem p pg e f).pagedir p pg).present = true
      rw [install_pagedir_same hm]
    · exact absurd hread hshort

/-- **A page is swapped in**: it has what was written to its slot. -/
theorem Refines.swapIn (h : Refines s v) (hm : mem.pageTable = true) (hs : s.swapIn mem p pg = some s') :
    Refines s' v ∧ (s'.pagedir p pg).present = true := by
  have hown := h.owned.swapIn hs
  have hsl := h.slotted.swapIn hm hs
  obtain ⟨f, t, e, i, hget, he, hin, hp, hidx, rfl⟩ := h.slotted.swapIn_cases hs
  obtain ⟨ht, hf, _⟩ := h.getFrame hget
  have hpg : ((t.install mem p pg e f).pagedir p pg).present = true := by rw [install_pagedir_same hm]
  refine ⟨⟨hown, hsl, fun q pg' hq => ?_, fun q pg' x j hx hxin hj => ?_, fun q pg' hq hno => ?_⟩, hpg⟩
  · change ((t.install mem p pg e f).pagedir q pg').present = true at hq
    change v q pg' = some (Function.update t.memory f _ ((t.install mem p pg e f).pagedir q pg').frame)
    by_cases hk : q = p ∧ pg' = pg
    · obtain ⟨rfl, rfl⟩ := hk
      rw [install_pagedir_same hm, Function.update_self]
      exact ht.swapped q pg' e i he hin hidx
    · rw [install_pagedir_of_ne hk] at hq ⊢
      rw [Function.update_of_ne (hf.unmapped ht.owned hq)]
      exact ht.mapped q pg' hq
  · change ((t.install mem p pg e f).setSpte p pg _).hash q pg' = some x at hx
    change v q pg' = some (readFromDisk (t.install mem p pg e f).swapDevice j)
    rw [install_swapDevice]
    by_cases hk : q = p ∧ pg' = pg
    · obtain ⟨rfl, rfl⟩ := hk
      rw [setSpte_same] at hx
      cases hx
      cases hxin
    · rw [setSpte_of_ne _ hk, install_hash] at hx
      exact ht.swapped q pg' x j hx hxin hj
  · change ((t.install mem p pg e f).pagedir q pg').present = false at hq
    change ∀ x, ((t.install mem p pg e f).setSpte p pg _).hash q pg' = some x → _ at hno
    have hk : ¬ (q = p ∧ pg' = pg) := by
      rintro ⟨rfl, rfl⟩
      rw [hpg] at hq
      cases hq
    rw [install_pagedir_of_ne hk] at hq
    rw [setSpte_of_ne _ hk, install_hash] at hno
    exact ht.unseen q pg' hq hno

/-! ### Processes come and go -/

theorem Refines.entered {src : Option Source} (h : Refines s v) (hent : Entered s p pg src t) (ho : Owned t) : Refines t v := by
  have hpd : t.pagedir = s.pagedir := by rw [hent.rest]
  have hmem : t.memory = s.memory := by rw [hent.rest]
  have hdev : t.swapDevice = s.swapDevice := by rw [hent.rest]
  refine ⟨ho, h.slotted.entered hent, ?_, fun q pg' x i hx hin hidx => ?_, fun q pg' hp hno => ?_⟩
  · rw [hpd, hmem]
    exact h.mapped
  · rw [hdev]
    rcases hent.hash with hh | ⟨_, y, hyin, _, _, hh⟩
    · exact h.swapped q pg' x i (hh ▸ hx) hin hidx
    · rw [hh] at hx
      by_cases hk : q = p ∧ pg' = pg
      · obtain ⟨rfl, rfl⟩ := hk
        rw [setSpte_same] at hx
        cases hx
        exact absurd (hyin.symm.trans hin) Bool.false_ne_true
      · rw [setSpte_of_ne _ hk] at hx
        exact h.swapped q pg' x i hx hin hidx
  · rw [hpd] at hp
    refine h.unseen q pg' hp fun x hx => ?_
    rcases hent.hash with hh | ⟨hn, y, _, _, _, hh⟩
    · exact hno x (hh ▸ hx)
    · refine hno x ?_
      rw [hh, setSpte_of_ne _ ?_]
      · exact hx
      · rintro ⟨rfl, rfl⟩
        rw [hn] at hx
        cases hx

theorem Refines.bury (h : Refines s v) (ht : (s.dropFrames p).pagedirDestroy p = some t) : Refines (t.bury p) (v.forget p) := by
  have hown := h.owned.bury ht
  obtain ⟨hrest, _, hkeep⟩ := pagedirDestroy_cases ht
  have hsl := h.slotted.bury hrest
  have hpd : ∀ q pg, q ≠ p → (t.bury p).pagedir q pg = s.pagedir q pg := by
    intro q pg hq
    refine (congrFun (Function.update_of_ne hq ..) pg).trans ?_
    rw [hrest]
    rfl
  have hh : ∀ q pg, q ≠ p → (t.bury p).hash q pg = s.hash q pg := by
    intro q pg hq
    refine (congrFun (Function.update_of_ne hq ..) pg).trans ?_
    rw [hrest]
    rfl
  have hdev : (t.bury p).swapDevice = s.swapDevice := by
    change t.swapDevice = _
    rw [hrest]
    rfl
  refine ⟨hown, hsl, fun q pg hp => ?_, fun q pg x i hx hin hidx => ?_, fun q pg hp hno => ?_⟩
  · by_cases hq : q = p
    · subst hq
      simp [Vm.bury, Pte.zero] at hp
    · rw [hpd q pg hq] at hp ⊢
      rw [View.forget_of_ne hq, h.mapped q pg hp]
      -- no page of the process maps the frame
      refine congrArg some (hkeep _ fun pg' hp' hf => ?_).2.symm
      obtain ⟨x, hx, hxf, hxo, _⟩ := h.owned.mapped q pg hp
      obtain ⟨y, hy, hyf, hyo, _⟩ := h.owned.mapped p pg' hp'
      obtain rfl := h.owned.eq_of_frame hx hy (hxf.trans (hf.symm.trans hyf.symm))
      exact hq (hxo.symm.trans hyo)
  · by_cases hq : q = p
    · subst hq
      simp [Vm.bury] at hx
    · rw [hh q pg hq] at hx
      rw [View.forget_of_ne hq, hdev]
      exact h.swapped q pg x i hx hin hidx
  · by_cases hq : q = p
    · subst hq
      exact View.forget_same
    · rw [hpd q pg hq] at hp
      rw [hh q pg hq] at hno
      rw [View.forget_of_ne hq]
      exact h.unseen q pg hp hno

theorem Refines.processExit {visited : List Page} (h : Refines s v) (hf : Full s p fun _ m => m ≠ 0) (hm : MapsIn s p)
    (hs : s.processExit mem p visited = some s') : Refines s' (v.forget p) := by
  obtain ⟨s₁, u, t, ⟨_, hd, rfl⟩ | ⟨hsup, rfl, rfl⟩, ht, rfl⟩ := processExit_cases hs
  · obtain ⟨hsl, hw⟩ := h.slotted.destroySpt hm hd
    have hs₁ : Refines s₁ v := by
      refine ⟨h.owned.destroySpt hf hd, hsl, fun q pg hp => ?_, ?_, fun q pg hp hno => ?_⟩
      · rw [(hw.pte q pg).1] at hp
        rw [(hw.pte q pg).2, hw.rest]
        exact h.mapped q pg hp
      · rw [hw.rest]
        exact h.swapped
      · rw [(hw.pte q pg).1] at hp
        rw [hw.rest] at hno
        exact h.unseen q pg hp hno
    exact hs₁.bury ht
  · rw [← h.owned.listed.dropFrames_eq hsup] at ht
    exact h.bury ht

theorem Refines.spawn (h : Refines s v) (hl : s.live p = false) : Refines (s.spawn p) (v.forget p) := by
  obtain ⟨_, hh⟩ := h.owned.listed.spawn hl
  have hbare := h.owned.listed.bare p (h.owned.listed.dead p hl)
  refine ⟨h.owned.spawn hl, h.slotted.spawn hl, fun q pg hp => ?_, fun q pg x i hx hin hidx => ?_, fun q pg hp hno => ?_⟩
  · by_cases hq : q = p
    · subst hq
      simp [Vm.spawn, Vm.bury, Pte.zero] at hp
    · have hpd : (s.spawn p).pagedir q pg = s.pagedir q pg := congrFun (Function.update_of_ne hq ..) pg
      rw [hpd] at hp ⊢
      rw [View.forget_of_ne hq]
      exact h.mapped q pg hp
  · rw [hh] at hx
    have hq : q ≠ p := by
      rintro rfl
      rw [hbare.2 pg] at hx
      cases hx
    rw [View.forget_of_ne hq]
    exact h.swapped q pg x i hx hin hidx
  · by_cases hq : q = p
    · subst hq
      exact View.forget_same
    · have hpd : (s.spawn p).pagedir q pg = s.pagedir q pg := congrFun (Function.update_of_ne hq ..) pg
      rw [hpd] at hp
      rw [hh] at hno
      rw [View.forget_of_ne hq]
      exact h.unseen q pg hp hno

end Vm

open Vm

/-- **Every load is the first of its page, and in full**: `Whole` and `Calm`. `allocate_frame` by itself is called for a
stack page that has just been entered, and nothing is unmapped. -/
def Proper (e : Event) (s : Vm) : Prop :=
  Whole e s ∧ Calm e s ∧ e.memory.entry = true ∧
    match e with
    | .allocateFrame _ p pg => ∃ x, s.hash p pg = some x ∧ x.file = none
    | .munmap .. => False
    | _ => True

section

variable {mem : Memory} {p : Pid} {user : Bool} {addr stack : ℕ} {visited : List Page} {s s' : Vm} {v : View} {pg : Page}

/-- `allocate_page` leaves an entry, where there is memory for one. -/
theorem Vm.allocatePage_ne_none {src : Option Source} {w : Bool} {m : ℕ} (h : mem.entry = true) :
    (s.allocatePage mem p pg src w m).hash p pg ≠ none := by
  unfold Vm.allocatePage
  simp only [h, if_true]
  split
  · next e he => simp [he]
  · simp [setSpte_same]

/-- **A page with an entry gets a frame of zeros**, unless it is mapped already. -/
theorem Vm.Refines.allocateZero {o : Option ℕ} (h : Refines s v) (hst : Vm.Steady s p pg) (hm : mem.pageTable = true)
    (hne : s.hash p pg ≠ none) (hs : s.allocateFrame mem p pg = some (o, s')) :
    Refines s' (v.bring p pg fun _ => 0) ∧ (s'.pagedir p pg).present = true := by
  rcases h.allocateFrame hst hs with ⟨_, ht, hno, hpt⟩ | ⟨f, u, e, _, _, _, hue, hin, hup, hu, hfr, hz, _, rfl⟩
  · have hp := hno.resolve_left hne
    rw [h.bring_of_present hp]
    exact ⟨ht, hpt.trans hp⟩
  · have hi := hu.install (c := fun _ => 0) hfr hm hue hin hup
    have heq : { u.install mem p pg e f with memory := Function.update u.memory f fun _ => 0 } = u.install mem p pg e f := by
      have hmem : (u.install mem p pg e f).memory = u.memory := install_memory
      rw [← hz, Function.update_eq_self, ← hmem]
    exact ⟨heq ▸ hi, by rw [install_pagedir_same hm]⟩

/-- **The stack grows** by a page of zeros. -/
theorem Vm.Refines.growStack (h : Refines s v) (hent : mem.entry = true) (ht : mem.table = true) (hm : mem.pageTable = true)
    (hl : s.live p = true) (hn : s.hash p pg = none) (hf : (s.pagedir p pg).present = true → s.pallocGetPage ≠ none)
    (hs : s.growStack mem p pg = some s') :
    Refines s' (v.bring p pg fun _ => 0) ∧ (s'.pagedir p pg).present = true := by
  obtain ⟨⟨o, t⟩, hal, rfl⟩ := Option.map_eq_some_iff.1 hs
  have hentered : Entered s p pg none (s.allocatePage mem p pg none true 0) := h.owned.listed.allocatePage ht hl
  have hr := h.entered hentered (h.owned.allocatePage ht hl)
  exact hr.allocateZero (hentered.steady hn hf) hm (allocatePage_ne_none hent) hal

/-- **A fault that is handled brings the page in**, with what it should hold. -/
theorem Vm.Refines.handled {write : Bool} (h : Refines s v) (hg : Proper (.fault mem p user write addr stack visited) s)
    (hl : s.live p = true) (hs : Handled mem p user addr stack visited s s') :
    Refines s' (v.next s (.fault mem p user write addr stack visited)) ∧
      (s.kills p user addr stack = false → (user && isCodeVaddr stack) = false → ∀ pg, Paging.pageOf addr = some pg →
        (s'.pagedir p pg).present = true) := by
  obtain ⟨⟨_, hfull⟩, ⟨ht, hm, hends, hf⟩, hent, _⟩ := hg
  have hmaps : Vm.Full s p fun _ m => m ≠ 0 := hfull.mono fun _ _ => .inr
  have hkill : s.kills p user addr stack = true → MapsIn s p := fun hk => hends p (by simp [Event.ends, hk])
  cases hs with
  | exit hk hx =>
    simp only [View.next, hk, if_true]
    exact ⟨h.processExit hmaps (hkill hk) hx, fun hk' => absurd hk' (by decide)⟩
  | ignored hu hesp hk =>
    subst hu
    simp only [View.next, hk, hesp, Bool.and_self, if_true, Bool.false_eq_true, if_false]
    exact ⟨h, fun _ hc => absurd hc (by decide)⟩
  | @grow pg _ hc hk hpg hnp hn hgrow =>
    obtain ⟨hr, hp⟩ := h.growStack hent ht hm hl hn (free_of_fault (hf pg hpg).1 hnp) hgrow
    have hinit : s.initial p pg = fun _ => 0 := by simp [initial, hn]
    simp only [View.next, hk, hc, hpg, hinit, Bool.false_eq_true, if_false]
    refine ⟨hr, fun _ _ pg' hpg' => ?_⟩
    cases hpg'
    exact hp
  | @swapIn pg e _ hc hk hpg he hin hsw =>
    obtain ⟨hr, hp⟩ := h.swapIn hm hsw
    obtain ⟨i, hi, _⟩ := h.slotted.slot p pg e he hin
    have hsome : v p pg ≠ none := by
      rw [h.swapped p pg e i he hin hi]
      exact Option.some_ne_none _
    simp only [View.next, hk, hc, hpg, Bool.false_eq_true, if_false, View.bring_of_some hsome]
    refine ⟨hr, fun _ _ pg' hpg' => ?_⟩
    cases hpg'
    exact hp
  | @load pg e file r _ hc hk hpg he hu hnp hfile hload hr =>
    have hst := steady_of_fault (hf pg hpg) he hu hnp
    have hread := hfull pg e file he (.inl hpg) hfile
    rcases h.load hst hm he hfile hread hload with ⟨t, rfl, ht', hp⟩ | ⟨t, rfl, ht', hp, hnp'⟩
    · have hrest := (h.slotted.load_noFrame hst he hload).2
      have hhash : t.hash = s.hash := by rw [hrest]
      rw [hp] at hk
      simp only [View.next, hk, if_true]
      refine ⟨ht'.processExit (hmaps.kept (Kept.load hload)) (fun pg' x hx => hkill hk pg' x (hhash ▸ hx)) hr, fun hk' => ?_⟩
      exact absurd hk' (by decide)
    · have hr' : s' = t := hr
      subst hr'
      rw [hnp'] at hk
      simp only [View.next, hk, hc, hpg, Bool.false_eq_true, if_false]
      refine ⟨ht', fun _ _ pg' hpg' => ?_⟩
      cases hpg'
      exact hp

/-- A byte is stored in a page that is present. -/
theorem Vm.Refines.store {o : Fin pgsize} {b : UInt8} (h : Refines s v) (hp : (s.pagedir p pg).present = true) :
    Refines (s.poke (s.pagedir p pg).frame o b) (v.poke p pg o b) := by
  refine ⟨h.owned.of_eq (h.owned.listed.of_eq rfl rfl rfl rfl rfl) rfl rfl rfl,
    h.slotted.of_eq (h.owned.listed.of_eq rfl rfl rfl rfl rfl) rfl rfl rfl rfl, fun q pg' hq => ?_, fun q pg' x i hx hin hidx => ?_,
    fun q pg' hq hno => ?_⟩
  · change (s.pagedir q pg').present = true at hq
    change _ = some (Function.update s.memory (s.pagedir p pg).frame _ (s.pagedir q pg').frame)
    by_cases hk : q = p ∧ pg' = pg
    · obtain ⟨rfl, rfl⟩ := hk
      rw [View.poke_same, h.mapped q pg' hq, Function.update_self]
      rfl
    · have hne : (s.pagedir q pg').frame ≠ (s.pagedir p pg).frame := by
        intro hframe
        exact hk ((h.owned.exclusive p pg hp).2.2.1 q pg' hq hframe)
      rw [View.poke_of_ne hk, Function.update_of_ne hne]
      exact h.mapped q pg' hq
  · have hk : ¬ (q = p ∧ pg' = pg) := by
      rintro ⟨rfl, rfl⟩
      exact Bool.false_ne_true ((h.slotted.away q pg' x hx hin).symm.trans hp)
    rw [View.poke_of_ne hk]
    exact h.swapped q pg' x i hx hin hidx
  · have hk : ¬ (q = p ∧ pg' = pg) := by
      rintro ⟨rfl, rfl⟩
      exact Bool.false_ne_true (hq.symm.trans hp)
    rw [View.poke_of_ne hk]
    exact h.unseen q pg' hq hno

end

theorem Vm.Refines.step {e : Event} {s s' : Vm} {v : View} (h : Refines s v) (he : Proper e s) (hs : next e s = some s') :
    Refines s' (v.next s e) := by
  have hall := he
  obtain ⟨hwhole, hcalm, hent, he⟩ := he
  have hown := h.owned.step hwhole hs
  have hsl := h.slotted.step hcalm hs
  cases e with
  | spawn p =>
    simp only [next, Option.ite_none_left_eq_some, Option.some.injEq] at hs
    obtain ⟨hl, rfl⟩ := hs
    exact h.spawn (by simpa using hl)
  | allocatePage mem p pg src w m =>
    simp only [next, Option.ite_none_right_eq_some, Option.some.injEq] at hs
    obtain ⟨hl, rfl⟩ := hs
    exact h.entered (h.owned.listed.allocatePage hwhole.1 hl) hown
  | allocateFrame mem p pg =>
    simp only [next, Option.ite_none_right_eq_some] at hs
    obtain ⟨⟨o, t⟩, hal, rfl⟩ := Option.map_eq_some_iff.1 hs.2
    obtain ⟨x, hx, hfile⟩ := he
    have hinit : s.initial p pg = fun _ => 0 := by simp [initial, hx, hfile]
    simp only [View.next, hinit]
    exact (h.allocateZero hcalm.2.2.2 hcalm.2.1 (hx ▸ Option.some_ne_none x) hal).1
  | swapOut => exact h.swapOut hs
  | swapIn mem p pg =>
    simp only [next, Option.ite_none_right_eq_some] at hs
    exact (h.swapIn hcalm.2.1 hs.2).1
  | fault mem p user write addr stack visited =>
    simp only [next, Option.ite_none_right_eq_some] at hs
    obtain ⟨⟨hl, _⟩, hs⟩ := hs
    cases user with
    | true => exact (h.handled hall hl (pageFaultUser_cases hs)).1
    | false => exact (h.handled hall hl (pageFaultKernel_cases hs)).1
  | exit mem p visited =>
    simp only [next, Option.ite_none_right_eq_some] at hs
    exact h.processExit hwhole.2 (hcalm.2.2.1 p rfl) hs.2
  | munmap mem p mapid visited => exact absurd he id
  | access p pg =>
    simp only [next, Option.ite_none_right_eq_some, Option.some.injEq] at hs
    obtain ⟨_, rfl⟩ := hs
    exact h.setPte (fun _ => ⟨rfl, rfl⟩) .inl
  | store p pg o b =>
    simp only [next, Option.ite_none_right_eq_some, Option.some.injEq] at hs
    obtain ⟨⟨hp, _⟩, rfl⟩ := hs
    exact (h.store hp).setPte (fun _ => ⟨rfl, rfl⟩) fun _ => .inr hp
  | writeFile file data =>
    cases hs
    exact ⟨hown, hsl, h.mapped, h.swapped, h.unseen⟩

/-- The system and memory as the processes see it, side by side. -/
def nextBoth (e : Event) (x : Vm × View) : Option (Vm × View) := (next e x.1).map (·, x.2.next x.1 e)

/-- **Page contents survive eviction**: in every run whose loads are proper, every page that is mapped holds what the process
last saw there; and a fault that is handled, in user mode or in kernel mode, leaves the page mapped with what it held
before, or with its initial contents. -/
theorem page_contents {frames slots : ℕ} {files : ℕ → List UInt8} {s : Vm} {v : View}
    (h : Reach nextBoth (fun e x => Proper e x.1) (Vm.init frames slots files, fun _ _ => none) (s, v)) :
    (∀ p pg, (s.pagedir p pg).present = true → v p pg = some (s.memory (s.pagedir p pg).frame)) ∧
      ∀ mem p user write addr stack visited s' pg, Proper (.fault mem p user write addr stack visited) s →
        next (.fault mem p user write addr stack visited) s = some s' → s.kills p user addr stack = false →
        (user && isCodeVaddr stack) = false → Paging.pageOf addr = some pg →
        (s'.pagedir p pg).present = true ∧ s'.memory (s'.pagedir p pg).frame = (v p pg).getD (s.initial p pg) := by
  have hI : Refines s v := by
    refine h.invariant (I := fun x => Refines x.1 x.2) (refines_init frames slots files) fun e x y hx he hn => ?_
    obtain ⟨t, ht, rfl⟩ := Option.map_eq_some_iff.1 hn
    exact hx.step he ht
  refine ⟨hI.mapped, fun mem p user write addr stack visited s' pg hg hs hk hc hpg => ?_⟩
  have hstep := hI.step hg hs
  simp only [next, Option.ite_none_right_eq_some] at hs
  obtain ⟨⟨hl, _⟩, hs⟩ := hs
  have hp : (s'.pagedir p pg).present = true := by
    cases user with
    | true => exact (hI.handled hg hl (pageFaultUser_cases hs)).2 hk hc pg hpg
    | false => exact (hI.handled hg hl (pageFaultKernel_cases hs)).2 hk hc pg hpg
  refine ⟨hp, ?_⟩
  have hmap := hstep.mapped p pg hp
  simp only [View.next, hk, hc, hpg, Bool.false_eq_true, if_false, View.bring_same, Option.some.injEq] at hmap
  exact hmap.symm

/-- What `Proper` admits, as a test, of the events that load nothing from a file and end no process. -/
def proper (e : Event) (s : Vm) : Bool :=
  tidy e s && e.memory.entry &&
    match e with
    | .allocateFrame _ p pg => (s.hash p pg).any fun x => x.file.isNone
    | _ => true

theorem Proper.of_proper {e : Event} {s : Vm} (h : proper e s = true) : Proper e s := by
  simp only [proper, Bool.and_eq_true] at h
  obtain ⟨⟨ht, hent⟩, hanon⟩ := h
  have hload : loadsNothing e = true := by
    simp only [tidy, Bool.and_eq_true] at ht
    exact ht.1.1.1
  refine ⟨Whole.of_loadsNothing hload, (Tidy.of_tidy ht).1, hent, ?_⟩
  cases e with
  | munmap mem p mapid visited => cases hload
  | allocateFrame mem p pg =>
    obtain ⟨x, hx, hfile⟩ := (Option.any_eq_true _ _).1 hanon
    exact ⟨x, hx, Option.isNone_iff_eq_none.1 hfile⟩
  | _ => trivial

/-- A byte is stored in a stack page, the page is evicted, and is swapped in again. -/
def storeAndEvict : List Event :=
  [.spawn 0, .allocatePage .ample 0 0xbffff none true 0, .allocateFrame .ample 0 0xbffff, .store 0 0xbffff 7 42,
    .swapOut, .swapIn .ample 0 0xbffff]

/-- The byte is there. -/
theorem page_contents_storeAndEvict : ∃ s v, Reach nextBoth (fun e x => Proper e x.1) (Vm.init 1 2 fun _ => [], fun _ _ => none) (s, v) ∧
    (s.pagedir 0 0xbffff).present = true ∧ s.memory (s.pagedir 0 0xbffff).frame 7 = 42 := by
  have hrun : (follow nextBoth (fun e x => proper e x.1) storeAndEvict (Vm.init 1 2 fun _ => [], fun _ _ => none)).map (fun x =>
      ((x.1.pagedir 0 0xbffff).present, (x.2 0 0xbffff).map fun c => c 7)) = some (true, some 42) := by decide +kernel
  obtain ⟨⟨s, v⟩, hs, hend⟩ := Option.map_eq_some_iff.1 hrun
  obtain ⟨hp, hc⟩ := Prod.mk.inj hend
  have hreach : Reach nextBoth (fun e x => Proper e x.1) (Vm.init 1 2 fun _ => [], fun _ _ => none) (s, v) :=
    Reach.of_follow hs (fun _ _ _ => Proper.of_proper) .refl
  refine ⟨s, v, hreach, hp, ?_⟩
  have hmap := (page_contents hreach).1 0 0xbffff hp
  simp only [hmap, Option.map_some, Option.some.injEq] at hc
  exact hc

/-- A page of a file is loaded, a byte is stored in it, it is evicted, and the kernel reads it. -/
def storeAndReload : List Event :=
  [.spawn 0, .allocatePage .ample 0 0x8049 (some ⟨0, 0, 1, 4095⟩) true 0,
    .fault .ample 0 true true 0x08049000 0xbffffff0 [], .store 0 0x8049 0 2, .swapOut,
    .fault .ample 0 false false 0x08049000 0xbffffff0 []]

/-- The byte that was stored is lost: the page has the byte of the file again. -/
theorem kernel_fault_loses_store : ∃ s v, Reach nextBoth (fun e _ => e.memory = .ample) (Vm.init 1 2 fun _ => [1], fun _ _ => none) (s, v) ∧
    (s.pagedir 0 0x8049).present = true ∧ (v 0 0x8049).map (fun c => c 0) = some 2 ∧
      s.memory (s.pagedir 0 0x8049).frame 0 = 1 := by
  have hrun : (follow nextBoth (fun e _ => decide (e.memory = .ample)) storeAndReload (Vm.init 1 2 fun _ => [1], fun _ _ => none)).map (fun x =>
      ((x.1.pagedir 0 0x8049).present, (x.2 0 0x8049).map fun c => c 0, x.1.memory (x.1.pagedir 0 0x8049).frame 0)) =
      some (true, some 2, 1) := by decide +kernel
  obtain ⟨⟨s, v⟩, hs, hend⟩ := Option.map_eq_some_iff.1 hrun
  simp only [Prod.mk.injEq] at hend
  obtain ⟨hp, hv, hm⟩ := hend
  exact ⟨s, v, Reach.of_follow hs (fun _ _ _ hc => of_decide_eq_true hc) .refl, hp, hv, hm⟩

end Pintos.Paging
