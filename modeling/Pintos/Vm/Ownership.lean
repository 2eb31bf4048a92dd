import Pintos.Vm.FrameLists

/-!
# Who owns a frame

Every frame that a process has mapped is used in the user pool, is mapped nowhere else,
and has one entry in the frame table. The operations release frames in several places;
all but one keep the page table, the lists and the pool in step. The exception is a load
that finds its file too short: both branches of `page_fault` free the frame and leave it
mapped.
-/

namespace Pintos.Paging

open Library

namespace Vm

variable {s s' t u : Vm} {p q : Pid} {pg pg' : Page} {mem : Memory} {fte : Fte} {e : Spte} {f : ℕ}

/-- The page tables, the lists and the pool are in step. -/
structure Owned (s : Vm) : Prop where
  listed : Listed s
  /-- No frame has two entries. -/
  nodup : (s.globalFrameList.map Fte.frame).Nodup
  /-- A frame with an entry is used. -/
  used : ∀ fte ∈ s.globalFrameList, fte.frame < s.usedMap.bitCnt ∧ s.usedMap.bit fte.frame = true
  /-- A frame that is mapped has an entry. -/
  mapped : ∀ p pg, (s.pagedir p pg).present = true →
    ∃ fte ∈ s.globalFrameList, fte.frame = (s.pagedir p pg).frame ∧ fte.owner = p ∧ fte.uaddr = pg

theorem owned_init (frames slots : ℕ) (files : ℕ → List UInt8) : Owned (init frames slots files) where
  listed := listed_init frames slots files
  nodup := List.nodup_nil
  used := by simp [init]
  mapped := by simp [init, Pte.zero]

/-- Entries for the same frame are the same. -/
theorem Owned.eq_of_frame (h : Owned s) {x y : Fte} (hx : x ∈ s.globalFrameList) (hy : y ∈ s.globalFrameList)
    (hf : x.frame = y.frame) : x = y :=
  List.inj_on_of_nodup_map h.nodup hx hy hf

/-- The global list may be permuted, and pages unmapped. -/
theorem Owned.of_perm (h : Owned s) (hlisted : Listed t) (hg : t.globalFrameList.Perm s.globalFrameList)
    (hu : t.usedMap = s.usedMap)
    (hp : ∀ p pg, (t.pagedir p pg).present = true → (s.pagedir p pg).present = true ∧ (t.pagedir p pg).frame = (s.pagedir p pg).frame) :
    Owned t where
  listed := hlisted
  nodup := (hg.map Fte.frame).nodup_iff.2 h.nodup
  used := fun fte hfte => hu ▸ h.used fte (hg.mem_iff.1 hfte)
  mapped := fun p pg hpres => by
    obtain ⟨hold, hframe⟩ := hp p pg hpres
    obtain ⟨fte, hfte, hff, ho⟩ := h.mapped p pg hold
    exact ⟨fte, hg.mem_iff.2 hfte, hff.trans hframe.symm, ho⟩

theorem Owned.selected (h : Owned s) (hsel : Selected s fte u) : Owned u := by
  refine h.of_perm (h.listed.selected hsel) hsel.perm (by rw [hsel.rest]) fun p pg hp => ?_
  exact ⟨((hsel.present p pg).1 hp).1, (hsel.pte p pg).1⟩

/-- The frame of an entry that is taken off both lists, and that no page maps, is freed. -/
theorem Owned.evict {slot : ℕ} (h : Owned s) (hfte : fte ∈ s.globalFrameList)
    (hp : (s.pagedir fte.owner fte.uaddr).present = false) (he : s.hash fte.owner fte.uaddr = some e)
    (hs : (s.evict fte e slot).pallocFreePage fte.frame = some s') : Owned s' := by
  have hl := h.listed.evict he hs
  obtain ⟨_, rfl⟩ := pallocFreePage_cases hs
  refine ⟨hl, h.nodup.sublist ((List.erase_sublist).map _), fun x hx => ?_, fun p pg hpres => ?_⟩
  · obtain ⟨hne, hx⟩ := h.listed.mem_erase.1 hx
    have hf : x.frame ≠ fte.frame := fun hf => hne (h.eq_of_frame hx hfte hf)
    refine ⟨(h.used x hx).1, ?_⟩
    change (s.usedMap.setMultiple fte.frame 1 false).bit x.frame = true
    rw [Bitmap.bit_setMultiple_one, if_neg hf]
    exact (h.used x hx).2
  · obtain ⟨x, hx, hf, ho, hu⟩ := h.mapped p pg hpres
    refine ⟨x, h.listed.mem_erase.2 ⟨?_, hx⟩, hf, ho, hu⟩
    rintro rfl
    subst ho hu
    exact Bool.false_ne_true (hp.symm.trans hpres)

theorem Owned.swapOut (h : Owned s) (hs : s.swapOut = some s') : Owned s' := by
  obtain ⟨fte, u, slot, e, hsel, _, he, hfree⟩ := swapOut_cases hs
  refine (h.selected hsel).evict (hsel.perm.mem_iff.2 hsel.mem) ?_ (spteOf_eq_some.1 he).1 hfree
  exact Bool.eq_false_iff.2 fun hp => ((hsel.present _ _).1 hp).2 ⟨rfl, rfl⟩

/-! ### A frame in hand -/

/-- A frame that is used and has no entry. -/
structure Fresh (s : Vm) (f : ℕ) : Prop where
  lt : f < s.usedMap.bitCnt
  used : s.usedMap.bit f = true
  fresh : ∀ fte ∈ s.globalFrameList, fte.frame ≠ f

theorem Owned.getFrame (h : Owned s) (hs : s.getFrame = some (f, t)) : Owned t ∧ Fresh t f := by
  obtain ⟨u, hu, hget⟩ := getFrame_rule (fun _ _ => Owned.swapOut) h hs
  obtain ⟨hlt, hbit, rfl⟩ := pallocGetPage_cases hget
  have hfresh : ∀ fte ∈ u.globalFrameList, fte.frame ≠ f := by
    rintro fte hfte rfl
    exact Bool.false_ne_true (hbit.symm.trans (hu.used fte hfte).2)
  have hmark (i : ℕ) : (u.usedMap.mark f).bit i = if i = f then true else u.usedMap.bit i := Bitmap.bit_setMultiple_one ..
  have hl : Listed { u with usedMap := u.usedMap.mark f, memory := Function.update u.memory f fun _ => 0 } :=
    hu.listed.of_eq rfl rfl rfl rfl rfl
  refine ⟨⟨hl, hu.nodup, fun x hx => ⟨(hu.used x hx).1, ?_⟩, hu.mapped⟩, hlt, ?_, hfresh⟩
  · exact (hmark _).trans ((if_neg (hfresh x hx)).trans (hu.used x hx).2)
  · exact (hmark f).trans (if_pos rfl)

theorem Owned.free (h : Owned s) (hf : Fresh s f) (hs : s.pallocFreePage f = some s') : Owned s' := by
  obtain ⟨_, rfl⟩ := pallocFreePage_cases hs
  have hl : Listed { s with usedMap := s.usedMap.setMultiple f 1 false, memory := Function.update s.memory f fun _ => 0xcc } :=
    h.listed.of_eq rfl rfl rfl rfl rfl
  refine ⟨hl, h.nodup, fun x hx => ⟨(h.used x hx).1, ?_⟩, h.mapped⟩
  exact (Bitmap.bit_setMultiple_one ..).trans ((if_neg (hf.fresh x hx)).trans (h.used x hx).2)

theorem Owned.install (h : Owned s) (hf : Fresh s f) (he : s.hash p pg = some e) : Owned (s.install mem p pg e f) := by
  have hg : (s.install mem p pg e f).globalFrameList = s.globalFrameList ++ [⟨f, p, e.addr, pg⟩] := rfl
  refine ⟨h.listed.install (fun hm => hf.fresh _ hm rfl) he, ?_, fun x hx => ?_, fun q pg' hpres => ?_⟩
  · rw [hg, List.map_append, List.nodup_append]
    refine ⟨h.nodup, List.nodup_singleton _, ?_⟩
    rintro a ha b hb rfl
    obtain ⟨x, hx, rfl⟩ := List.mem_map.1 ha
    exact hf.fresh x hx (List.mem_singleton.1 hb)
  · rw [hg, List.mem_append, List.mem_singleton] at hx
    rw [install_usedMap]
    rcases hx with hx | rfl
    · exact h.used x hx
    · exact ⟨hf.lt, hf.used⟩
  · rw [hg]
    by_cases hq : q = p ∧ pg' = pg ∧ mem.pageTable = true
    · obtain ⟨rfl, rfl, hm⟩ := hq
      refine ⟨⟨f, q, e.addr, pg'⟩, List.mem_append_right _ List.mem_cons_self, ?_, rfl, rfl⟩
      rw [install_pagedir_same hm]
    · have hold : (s.install mem p pg e f).pagedir q pg' = s.pagedir q pg' := by
        cases hm : mem.pageTable with
        | false => rw [install_pagedir_full hm]
        | true => exact install_pagedir_of_ne fun hqp => hq ⟨hqp.1, hqp.2, hm⟩
      rw [hold] at hpres ⊢
      obtain ⟨x, hx, hxf⟩ := h.mapped q pg' hpres
      exact ⟨x, List.mem_append_left _ hx, hxf⟩

theorem Owned.allocateFrame {o : Option ℕ} (h : Owned s) (hs : s.allocateFrame mem p pg = some (o, s')) : Owned s' := by
  obtain ⟨f, t, hget, ⟨_, hfree, _⟩ | ⟨e, _, he, _, rfl⟩⟩ := allocateFrame_cases hs
  · exact (h.getFrame hget).1.free (h.getFrame hget).2 hfree
  · exact (h.getFrame hget).1.install (h.getFrame hget).2 he

/-- Contents, files and the swap device do not matter. -/
theorem Owned.of_eq (h : Owned s) (hl : Listed t) (hg : t.globalFrameList = s.globalFrameList) (hu : t.usedMap = s.usedMap)
    (hp : t.pagedir = s.pagedir) : Owned t :=
  h.of_perm hl (hg ▸ List.Perm.refl _) hu fun p pg hpres => by rw [hp] at hpres ⊢; exact ⟨hpres, rfl⟩

/-- An entry of the page table changes, but not what it maps. -/
theorem Owned.setPte {g : Pte → Pte} (h : Owned s) (hg : ∀ e, (g e).present = e.present ∧ (g e).frame = e.frame) :
    Owned (s.setPte p pg g) := by
  have hl : Listed (s.setPte p pg g) := h.listed.of_eq rfl rfl rfl rfl rfl
  refine h.of_perm hl (List.Perm.refl _) rfl fun q pg' hp => ?_
  by_cases hq : q = p ∧ pg' = pg
  · obtain ⟨rfl, rfl⟩ := hq
    rw [setPte_same] at hp ⊢
    exact ⟨(hg _).1 ▸ hp, (hg _).2⟩
  · rw [setPte_of_ne _ hq] at hp ⊢
    exact ⟨hp, rfl⟩

theorem Owned.setSpte {o : Option Spte} (h : Owned s) (hs : s.suppagetable p = true) : Owned (s.setSpte p pg o) :=
  h.of_eq (h.listed.setSpte hs) rfl rfl rfl

theorem Owned.swapIn (h : Owned s) (hs : s.swapIn mem p pg = some s') : Owned s' := by
  obtain ⟨f, t, e, hget, he, _, _, _, rfl⟩ := swapIn_cases hs
  have hi : Owned (t.install mem p pg e f) := (h.getFrame hget).1.install (h.getFrame hget).2 he
  have hset : Owned ((t.install mem p pg e f).setSpte p pg (some { e with swapindex := -1, inswap := false })) :=
    hi.setSpte (hi.listed.tabled (install_hash ▸ he))
  exact hset.of_eq (hset.listed.of_eq rfl rfl rfl rfl rfl) rfl rfl rfl

/-! ### Full reads -/

/-- The pages of a process that `P` selects, by page and `mapid`, find all the bytes they read in their files. -/
def Full (s : Vm) (p : Pid) (P : Page → ℕ → Prop) : Prop :=
  ∀ pg e file, s.hash p pg = some e → P pg e.mapid → e.file = some file →
    s.fileReadAt file e.readBytes e.ofs = e.readBytes

theorem Full.mono {P Q : Page → ℕ → Prop} (h : Full s p P) (hQ : ∀ pg m, Q pg m → P pg m) : Full s p Q :=
  fun pg e file he hq hfile => h pg e file he (hQ pg _ hq) hfile

theorem Full.kept {P : Page → ℕ → Prop} (h : Full s p P) (hk : Kept s t) : Full t p P := by
  intro pg e file he hP hfile
  obtain ⟨e', he', hb⟩ := hk.entry he
  obtain ⟨_, hm, hf, ho, hr, _⟩ := base_eq hb
  have hfull := h pg e' file he' (hm ▸ hP) (hf ▸ hfile)
  unfold fileReadAt at hfull ⊢
  rw [hk.files, ← hr, ← ho]
  exact hfull

/-- Files may grow. -/
theorem Full.grow {P : Page → ℕ → Prop} (h : Full s p P) (hh : t.hash = s.hash)
    (hf : ∀ file, (s.files file).length ≤ (t.files file).length) : Full t p P := by
  intro pg e file he hP hfile
  rw [hh] at he
  have hfull := h pg e file he hP hfile
  have hlen := hf file
  unfold fileReadAt at hfull ⊢
  omega

theorem Owned.load {file : ℕ} {r : Loaded} (h : Owned s) (hr : s.fileReadAt file e.readBytes e.ofs = e.readBytes)
    (hl : s.load mem p pg e file = some r) : Owned r.state := by
  obtain ⟨o, t, hal, ⟨_, rfl⟩ | ⟨f, u, _, rfl, ⟨_, rfl⟩ | ⟨hshort, _⟩⟩⟩ := load_cases hl
  · exact h.allocateFrame hal
  · have hu : Owned { t with memory := Function.update t.memory f (t.filled (t.memory f) file e.readBytes e.ofs) } :=
      (h.allocateFrame hal).of_eq ((h.allocateFrame hal).listed.of_eq rfl rfl rfl rfl rfl) rfl rfl rfl
    simp only [Loaded.state]
    exact hu.setPte fun _ => ⟨rfl, rfl⟩
  · -- the file has as many bytes as before the frame was allocated
    refine absurd ?_ hshort
    unfold fileReadAt at hr ⊢
    rw [(Kept.allocateFrame hal).files]
    exact hr

theorem Owned.touch {P : Page → ℕ → Prop} (h : Owned s) (hf : Full s p P) (he : s.hash p pg = some e) (hP : P pg e.mapid)
    (ht : s.touch mem p pg e = some t) : Owned t := by
  rcases touch_cases ht with rfl | ⟨_, file, hfile, hl⟩
  · exact h
  · exact h.load (hf pg e file he hP hfile) hl

/-! ### Exit -/

theorem Owned.destroySpt {visited : List Page} (h : Owned s) (hf : Full s p fun _ m => m ≠ 0)
    (hs : s.destroySpt mem p visited = some t) : Owned t := by
  suffices hI : Owned t ∧ Full t p (fun _ m => m ≠ 0) from hI.1
  refine foldlM_invariant (I := fun t => Owned t ∧ Full t p (fun _ m => m ≠ 0)) (fun pg _ t t' ht hb => ?_) ⟨h, hf⟩ hs
  obtain ⟨ho, hfull⟩ := ht
  rcases beforeMunmap_cases hb with rfl | ⟨e, file, u, he, hm, _, _, hu, c, rfl⟩
  · exact ⟨ho, hfull⟩
  · refine ⟨Owned.setPte ?_ fun _ => ⟨rfl, rfl⟩, (hfull.kept (.touch hu)).grow rfl fun file' => ?_⟩
    · have hown := ho.touch hfull he hm hu
      exact hown.of_eq (hown.listed.of_eq rfl rfl rfl rfl rfl) rfl rfl rfl
    · change (u.files file').length ≤ (Function.update u.files file _ file').length
      by_cases hf' : file' = file
      · subst hf'
        rw [Function.update_self]
        exact le_length_overwrite ..
      · rw [Function.update_of_ne hf']

/-- The frames of a process are taken off the lists and freed, and the process is gone. -/
theorem Owned.bury (h : Owned s) (ht : (s.dropFrames p).pagedirDestroy p = some t) : Owned (t.bury p) := by
  obtain ⟨hrest, hcnt, hbit⟩ := pagedirDestroy_cases ht
  have hg : (t.bury p).globalFrameList = (s.dropFrames p).globalFrameList := by rw [hrest]; rfl
  have hpd : t.pagedir = s.pagedir := by rw [hrest]; rfl
  refine ⟨h.listed.bury hrest, hg ▸ h.nodup.sublist (dropFrames_sublist.map _), fun x hx => ?_, fun q pg hp => ?_⟩
  · rw [hg, h.listed.mem_dropFrames] at hx
    -- no page of the process maps the frame of another
    have hfree : ∀ pg, (s.pagedir p pg).present = true → (s.pagedir p pg).frame ≠ x.frame := by
      intro pg hp hf
      obtain ⟨y, hy, hyf, hyo, _⟩ := h.mapped p pg hp
      exact hx.2 (h.eq_of_frame hx.1 hy (hf.symm.trans hyf.symm) ▸ hyo)
    change x.frame < t.usedMap.bitCnt ∧ t.usedMap.bit x.frame = true
    rw [hcnt, (hbit x.frame hfree).1]
    exact h.used x hx.1
  · by_cases hq : q = p
    · subst hq
      simp [Vm.bury, Pte.zero] at hp
    · have hpte : (t.bury p).pagedir q pg = s.pagedir q pg := by
        rw [← hpd]
        exact congrFun (Function.update_of_ne hq ..) pg
      rw [hpte] at hp ⊢
      rw [hg]
      obtain ⟨x, hx, hxf, hxo, hxu⟩ := h.mapped q pg hp
      exact ⟨x, h.listed.mem_dropFrames.2 ⟨hx, hxo ▸ hq⟩, hxf, hxo, hxu⟩

theorem Owned.processExit {visited : List Page} (h : Owned s) (hf : Full s p fun _ m => m ≠ 0)
    (hs : s.processExit mem p visited = some s') : Owned s' := by
  obtain ⟨s₁, u, t, ⟨_, hd, rfl⟩ | ⟨hsup, rfl, rfl⟩, ht, rfl⟩ := processExit_cases hs
  · exact (h.destroySpt hf hd).bury ht
  · rw [← h.listed.dropFrames_eq hsup] at ht
    exact h.bury ht

/-! ### Entries, faults and runs -/

theorem Owned.allocatePage {src : Option Source} {w : Bool} {m : ℕ} (h : Owned s) (ht : mem.table = true)
    (hl : s.live p = true) : Owned (s.allocatePage mem p pg src w m) := by
  have hent : Entered s p pg src (s.allocatePage mem p pg src w m) := h.listed.allocatePage ht hl
  refine h.of_eq hent.listed ?_ ?_ ?_
  · rw [hent.rest]
  · rw [hent.rest]
  · rw [hent.rest]

theorem Owned.growStack (h : Owned s) (ht : mem.table = true) (hl : s.live p = true)
    (hs : s.growStack mem p pg = some s') : Owned s' := by
  obtain ⟨⟨o, t⟩, hal, rfl⟩ := Option.map_eq_some_iff.1 hs
  exact (h.allocatePage ht hl).allocateFrame hal

theorem Owned.handled {user : Bool} {addr stack : ℕ} {visited : List Page} (h : Owned s) (ht : mem.table = true)
    (hl : s.live p = true) (hf : Full s p fun pg m => Paging.pageOf addr = some pg ∨ m ≠ 0)
    (hs : Handled mem p user addr stack visited s s') : Owned s' := by
  have hmaps : Full s p fun _ m => m ≠ 0 := hf.mono fun _ _ => .inr
  cases hs with
  | exit _ hx => exact h.processExit hmaps hx
  | ignored => exact h
  | grow _ _ _ _ _ hg => exact h.growStack ht hl hg
  | swapIn _ _ _ _ _ hi => exact h.swapIn hi
  | @load pg e file r _ _ _ hpg he _ _ hfile hload hr =>
    have hown := h.load (hf _ _ _ he (.inl hpg) hfile) hload
    cases r with
    | noFrame t => exact hown.processExit (hmaps.kept (Kept.load hload)) hr
    | done t => exact hr ▸ hown
    | short t => exact hr ▸ hown

theorem Owned.munmap {mapid : ℕ} {visited : List Page} (h : Owned s) (hf : Full s p fun _ m => m = mapid)
    (hs : s.munmap mem p mapid visited = some t) : Owned t := by
  suffices hI : Owned t ∧ Full t p (fun _ m => m = mapid) from hI.1
  refine foldlM_invariant (I := fun t => Owned t ∧ Full t p (fun _ m => m = mapid)) (fun pg _ t t' ht hb => ?_) ⟨h, hf⟩ hs
  obtain ⟨ho, hfull⟩ := ht
  rcases munmapPage_cases hb with rfl | ⟨e, u, he, hm, hu, rfl⟩
  · exact ⟨ho, hfull⟩
  · have hu' : Owned u ∧ Kept t u := by
      rcases hu with rfl | ⟨_, hu⟩
      · exact ⟨ho, .refl _⟩
      · exact ⟨ho.touch hfull he hm hu, .touch hu⟩
    have hsup : u.suppagetable p = true := by
      rw [hu'.2.suppagetable]
      exact ho.listed.tabled he
    refine ⟨hu'.1.setSpte hsup, fun pg' e' file he' hm' hfile => ?_⟩
    by_cases hq : pg' = pg
    · subst hq
      rw [setSpte_same] at he'
      cases he'
    · rw [setSpte_of_ne _ fun hqp => hq hqp.2] at he'
      exact hfull.kept hu'.2 pg' e' file he' hm' hfile

theorem Owned.spawn (h : Owned s) (hl : s.live p = false) : Owned (s.spawn p) := by
  refine ⟨(h.listed.spawn hl).1, h.nodup, h.used, fun q pg hp => ?_⟩
  by_cases hq : q = p
  · subst hq
    simp [Vm.spawn, Vm.bury, Pte.zero] at hp
  · have hold : (s.spawn p).pagedir q pg = s.pagedir q pg := congrFun (Function.update_of_ne hq ..) pg
    rw [hold] at hp ⊢
    exact h.mapped q pg hp

end Vm

open Vm

/-- **No load is cut short**: the file of the page that faults, and those of mapped pages that `process_exit` or
`SYS_MUNMAP` read, have all the bytes that are read from them. And `page_init` has memory for the table. -/
def Whole (e : Event) (s : Vm) : Prop :=
  e.memory.table = true ∧
    match e with
    | .fault _ p _ _ addr _ _ => Vm.Full s p fun pg m => Paging.pageOf addr = some pg ∨ m ≠ 0
    | .exit _ p _ => Vm.Full s p fun _ m => m ≠ 0
    | .munmap _ p mapid _ => Vm.Full s p fun _ m => m = mapid
    | _ => True

theorem Vm.Owned.step {e : Event} {s s' : Vm} (h : Owned s) (he : Whole e s) (hs : next e s = some s') : Owned s' := by
  obtain ⟨hroom, hfull⟩ := he
  cases e with
  | spawn p =>
    simp only [next, Option.ite_none_left_eq_some, Option.some.injEq] at hs
    obtain ⟨hl, rfl⟩ := hs
    exact h.spawn (by simpa using hl)
  | allocatePage mem p pg src w m =>
    simp only [next, Option.ite_none_right_eq_some, Option.some.injEq] at hs
    obtain ⟨hl, rfl⟩ := hs
    exact h.allocatePage hroom hl
  | allocateFrame mem p pg =>
    simp only [next, Option.ite_none_right_eq_some] at hs
    obtain ⟨⟨o, t⟩, hal, rfl⟩ := Option.map_eq_some_iff.1 hs.2
    exact h.allocateFrame hal
  | swapOut => exact h.swapOut hs
  | swapIn mem p pg =>
    simp only [next, Option.ite_none_right_eq_some] at hs
    exact h.swapIn hs.2
  | fault mem p user write addr stack visited =>
    simp only [next, Option.ite_none_right_eq_some] at hs
    obtain ⟨⟨hl, _⟩, hs⟩ := hs
    cases user with
    | true => exact h.handled hroom hl hfull (pageFaultUser_cases hs)
    | false => exact h.handled hroom hl hfull (pageFaultKernel_cases hs)
  | exit mem p visited =>
    simp only [next, Option.ite_none_right_eq_some] at hs
    exact h.processExit hfull hs.2
  | munmap mem p mapid visited =>
    simp only [next, Option.ite_none_right_eq_some] at hs
    exact h.munmap hfull hs.2
  | access p pg =>
    simp only [next, Option.ite_none_right_eq_some, Option.some.injEq] at hs
    obtain ⟨_, rfl⟩ := hs
    exact h.setPte fun _ => ⟨rfl, rfl⟩
  | store p pg o v =>
    simp only [next, Option.ite_none_right_eq_some, Option.some.injEq] at hs
    obtain ⟨_, rfl⟩ := hs
    have hpoke : Owned (s.poke (s.pagedir p pg).frame o v) :=
      h.of_eq (h.listed.of_eq rfl rfl rfl rfl rfl) rfl rfl rfl
    exact hpoke.setPte fun _ => ⟨rfl, rfl⟩
  | writeFile file data =>
    cases hs
    exact h.of_eq (h.listed.of_eq rfl rfl rfl rfl rfl) rfl rfl rfl

/-- Every frame that a process has mapped is used in the user pool, is mapped by no other page, and has one entry in the
frame table, which is on the list of all frames and on that of its owner. -/
def Exclusive (s : Vm) : Prop :=
  ∀ p pg, (s.pagedir p pg).present = true →
    (s.pagedir p pg).frame < s.usedMap.bitCnt ∧ s.usedMap.bit (s.pagedir p pg).frame = true ∧
      (∀ q pg', (s.pagedir q pg').present = true → (s.pagedir q pg').frame = (s.pagedir p pg).frame → q = p ∧ pg' = pg) ∧
      ∃ fte ∈ s.frameList p, fte.owner = p ∧ fte.uaddr = pg ∧
        s.globalFrameList.filter (fun x => x.frame = (s.pagedir p pg).frame) = [fte] ∧
        ∀ q, ∀ x ∈ s.frameList q, x.frame = (s.pagedir p pg).frame → x = fte

theorem Vm.Owned.exclusive {s : Vm} (h : Owned s) : Exclusive s := by
  intro p pg hp
  obtain ⟨fte, hfte, hf, ho, hu⟩ := h.mapped p pg hp
  have hone : ∀ x ∈ s.globalFrameList, x.frame = (s.pagedir p pg).frame → x = fte := fun x hx hxf =>
    h.eq_of_frame hx hfte (hxf.trans hf.symm)
  refine ⟨hf ▸ (h.used fte hfte).1, hf ▸ (h.used fte hfte).2, fun q pg' hq hqf => ?_, fte, (h.listed.lists p fte).2 ⟨hfte, ho⟩, ho, hu, ?_,
    fun q x hx hxf => hone x ((h.listed.lists q x).1 hx).1 hxf⟩
  · obtain ⟨x, hx, hxf, hxo, hxu⟩ := h.mapped q pg' hq
    obtain rfl := hone x hx (hxf.trans hqf)
    exact ⟨hxo.symm.trans ho, hxu.symm.trans hu⟩
  · refine List.perm_singleton.1 ((List.perm_ext_iff_of_nodup (h.listed.nodup.filter _) (List.nodup_singleton _)).2 fun x => ?_)
    rw [List.mem_filter, List.mem_singleton, decide_eq_true_eq]
    exact ⟨fun hx => hone x hx.1 hx.2, fun hx => hx ▸ ⟨hfte, hf⟩⟩

/-- **Frame ownership**: in whatever order processes allocate, fault, evict and exit, as long as no load is cut short,
every mapped frame is used, has one page and has one entry. -/
theorem frame_ownership {frames slots : ℕ} {files : ℕ → List UInt8} {s : Vm}
    (h : Reach next Whole (Vm.init frames slots files) s) : Exclusive s :=
  (h.invariant (owned_init frames slots files) fun _ _ _ ho he hn => ho.step he hn).exclusive

/-- Two processes share one frame: the first is evicted when the second has its stack set up, and is brought in again. -/
def oneFrame : List Event :=
  [.spawn 0, .allocatePage .ample 0 0xbffff none true 0, .allocateFrame .ample 0 0xbffff,
    .spawn 1, .allocatePage .ample 1 0xbffff none true 0, .allocateFrame .ample 1 0xbffff,
    .swapIn .ample 0 0xbffff]

/-- Events that load nothing from a file. -/
def loadsNothing (e : Event) : Bool :=
  match e with
  | .fault .. | .exit .. | .munmap .. => false
  | _ => e.memory.table

theorem Whole.of_loadsNothing {e : Event} {s : Vm} (h : loadsNothing e = true) : Whole e s := by
  cases e with
  | fault mem p user write addr stack visited => cases h
  | exit mem p visited => cases h
  | munmap mem p mapid visited => cases h
  | _ => exact ⟨h, trivial⟩

/-- The first process has the frame again. -/
theorem frame_ownership_oneFrame : ∃ s, Reach next Whole (Vm.init 1 2 fun _ => []) s ∧
    (s.pagedir 0 0xbffff).present = true ∧ (s.pagedir 1 0xbffff).present = false ∧ Exclusive s := by
  have hrun : (follow next (fun e _ => loadsNothing e) oneFrame (Vm.init 1 2 fun _ => [])).map (fun s =>
      ((s.pagedir 0 0xbffff).present, (s.pagedir 1 0xbffff).present)) = some (true, false) := by decide +kernel
  obtain ⟨s, hs, hend⟩ := Option.map_eq_some_iff.1 hrun
  obtain ⟨h0, h1⟩ := Prod.mk.inj hend
  have hreach : Reach next Whole (Vm.init 1 2 fun _ => []) s := Reach.of_follow hs (fun _ _ _ => Whole.of_loadsNothing) .refl
  exact ⟨s, hreach, h0, h1, frame_ownership hreach⟩

/-- A page whose file is too short is loaded, and then another process has its stack set up. -/
def shortLoad : List Event :=
  [.spawn 0, .allocatePage .ample 0 0x8048 (some ⟨0, 0, 1, 4095⟩) false 0,
    .fault .ample 0 true false 0x08048000 0xbffffff0 [],
    .spawn 1, .allocatePage .ample 1 0xbffff none true 0, .allocateFrame .ample 1 0xbffff]

/-- The frame of a load that was cut short stays mapped, and is given to the next process. -/
theorem short_load_shares_frame : ∃ s, Reach next (fun e _ => e.memory.table = true) (Vm.init 1 2 fun _ => []) s ∧
    (s.pagedir 0 0x8048).present = true ∧ (s.pagedir 1 0xbffff).present = true ∧
      (s.pagedir 0 0x8048).frame = (s.pagedir 1 0xbffff).frame ∧ ¬ Exclusive s := by
  have hrun : (follow next (fun e _ => e.memory.table) shortLoad (Vm.init 1 2 fun _ => [])).map (fun s =>
      ((s.pagedir 0 0x8048).present, (s.pagedir 1 0xbffff).present, (s.pagedir 0 0x8048).frame, (s.pagedir 1 0xbffff).frame)) =
      some (true, true, 0, 0) := by decide +kernel
  obtain ⟨s, hs, hend⟩ := Option.map_eq_some_iff.1 hrun
  simp only [Prod.mk.injEq] at hend
  obtain ⟨h0, h1, hf0, hf1⟩ := hend
  refine ⟨s, Reach.of_follow hs (fun _ _ _ hc => hc) .refl, h0, h1, hf0.trans hf1.symm, fun hex => ?_⟩
  have hsame := (hex 0 0x8048 h0).2.2.1 1 0xbffff h1 (hf1.trans hf0.symm)
  exact absurd hsame.1 (by decide)

end Pintos.Paging
