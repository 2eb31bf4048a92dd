import Pintos.Threads.Scheduler

/-!
# Where threads are

In every state that the kernel reaches, one thread runs, and every other one is
where its status says: the ready ones on `ready_list`, and of the blocked ones those
that wait for a semaphore on its list. A thread's place names the semaphore it waits
for, so that it is on one list only.
-/

namespace Pintos.Kernel

open Library Library.Prog

variable {θ σ : Type} [DecidableEq θ] {isLock : σ → Prop} {main : θ} {value : σ → Fin (2 ^ 32)}
  {k k' : Kernel θ σ} {s : σ} {t : θ}

/-! ### Fields -/

section Fields

variable (t u : θ) (st : Option Status) (pl : Place σ) (k : Kernel θ σ)

@[simp, grind =] theorem setStatus_status : (k.setStatus t st).status u = if u = t then st else k.status u :=
  Function.update_apply ..

@[simp, grind =] theorem setPlace_place : (k.setPlace t pl).place u = if u = t then pl else k.place u :=
  Function.update_apply ..

/-- The thread that was switched to runs, and one that was dying is gone. -/
@[grind =] theorem scheduleTail_status (prev curr : θ) : (scheduleTail prev curr k).status u =
    if u = curr then some .running
    else if u = prev ∧ k.status prev = some .dying ∧ prev ≠ k.initialThread then none else k.status u := by
  have hinit : (({ k with current := curr } : Kernel θ σ).setStatus curr (some .running)).initialThread = k.initialThread := rfl
  rw [scheduleTail, hinit, setStatus_status]
  split_ifs with hprev
  all_goals grind

theorem scheduleTail_eq (prev curr : θ) : ∃ f, scheduleTail prev curr k = { k with current := curr, status := f } := by
  unfold scheduleTail
  dsimp only
  split_ifs
  · exact ⟨_, rfl⟩
  · exact ⟨_, rfl⟩

end Fields

/-! ### Switching -/

/-- **What `schedule` does**: the first thread on `ready_list` runs, or the idle thread if there is none. -/
inductive Switches (k : Kernel θ σ) : Kernel θ σ → Prop
  | next {t : θ} {rest : List θ} : k.readyList = t :: rest →
      Switches k (scheduleTail k.current t { k with readyList := rest })
  | idle {t : θ} : k.readyList = [] → k.idleThread = some t → k.status t ≠ none → Switches k (scheduleTail k.current t k)

theorem schedule_switches : wp schedule (fun _ k' => Switches k k') (fun _ => True) k := by
  rw [schedule, wp_bind, wp_gets, wp_bind, nextThreadToRun, wp_bind, wp_gets]
  cases hr : k.readyList with
  | nil =>
    rw [wp_bind, wp_gets, wp_orStop]
    refine ⟨fun t ht => ?_, fun _ => trivial⟩
    rw [wp_bind, wp_gets, wp_ite, wp_ite]
    exact ⟨fun _ => trivial, fun _ => ⟨fun _ => trivial, fun hs => .idle hr ht hs⟩⟩
  | cons t rest =>
    rw [wp_bind, wp_modify, wp_pure, wp_bind, wp_gets, wp_ite, wp_ite]
    exact ⟨fun _ => trivial, fun _ => ⟨fun _ => trivial, fun _ => .next hr⟩⟩

/-! ### The invariant -/

/-- Every thread is where its status and its place say. -/
structure Lists (k : Kernel θ σ) : Prop where
  readyNodup : k.readyList.Nodup
  ready : ∀ t ∈ k.readyList, k.status t = some .ready ∧ k.idleThread ≠ some t
  listed : ∀ t, k.status t = some .ready → t ∈ k.readyList ∨ k.idleThread = some t
  waitersNodup : ∀ s, (k.sema s).waiters.Nodup
  waiting : ∀ s, ∀ t ∈ (k.sema s).waiters, k.status t = some .blocked ∧ (k.place t = .down s ∨ k.place t = .acquire s)
  idle : ∀ t, k.idleThread = some t → k.status t ≠ none ∧ k.status t ≠ some .dying ∧ k.place t = .free ∧ k.maker t = none
  parked : ∀ t, k.place t = .parked → k.status t = some .blocked ∧ k.maker t = none
  made : ∀ t c, k.maker t = some c → k.status t = some .blocked ∧ k.place t = .free
  gone : ∀ t, k.status t = none ∨ k.status t = some .dying → k.place t = .free

/-- **The invariant**: the lists are right, and the current thread alone runs. -/
structure Inv (k : Kernel θ σ) : Prop extends Lists k where
  current : k.status k.current = some .running
  running : ∀ t, k.status t = some .running → t = k.current

theorem Inv.boot : Inv (boot main value) := by
  have hst : ∀ t, (Kernel.boot main value).status t = if t = main then some .running else none := by
    intro t
    simp only [Kernel.boot, Function.update_apply]
  refine ⟨⟨List.nodup_nil, fun t ht => ?_, fun t ht => ?_, fun s => List.nodup_nil, fun s t ht => ?_, fun t ht => ?_,
    fun t ht => ?_, fun t c ht => ?_, fun t _ => rfl⟩, ?_, fun t ht => ?_⟩
  · cases ht
  · rw [hst] at ht
    split_ifs at ht
    cases ht
  · cases ht
  · cases ht
  · cases ht
  · cases ht
  · rw [hst]
    exact if_pos rfl
  · rw [hst] at ht
    split_ifs at ht with h
    exact h

/-- The current thread has given up the processor; after `schedule` there is a running one again. -/
theorem Lists.switches (h : Lists k) (hno : ∀ t, k.status t ≠ some .running) (hs : Switches k k') : Inv k' := by
  obtain ⟨hnodup, hready, hlisted, hwn, hwait, hidle, hparked, hmade, hgone⟩ := h
  cases hs with
  | @next t rest hr =>
    have hst := fun u => scheduleTail_status u { k with readyList := rest } k.current t
    obtain ⟨f, hf⟩ := scheduleTail_eq { k with readyList := rest } k.current t
    rw [hf] at hst ⊢
    rw [hr] at hnodup hready hlisted
    refine ⟨⟨?_, ?_, ?_, ?_, ?_, ?_, ?_, ?_, ?_⟩, ?_, ?_⟩
    all_goals grind
  | @idle t hr hi halive =>
    have hst := fun u => scheduleTail_status u k k.current t
    obtain ⟨f, hf⟩ := scheduleTail_eq k k.current t
    rw [hf] at hst ⊢
    rw [hr] at hnodup hready hlisted
    refine ⟨⟨?_, ?_, ?_, ?_, ?_, ?_, ?_, ?_, ?_⟩, ?_, ?_⟩
    all_goals grind

/-! ### What a step can do -/

section Moves

variable [DecidableEq σ]

/-- The thread `t` is put on `ready_list`. -/
def readied (t : θ) (k : Kernel θ σ) : Kernel θ σ := { k with readyList := k.readyList ++ [t] }.setStatus t (some .ready)

/-- The value of `s` is one more. -/
def raised (s : σ) (k : Kernel θ σ) : Kernel θ σ :=
  { k.setSema s { k.sema s with value := ((k.sema s).value + 1) % 2 ^ 32 } with
    ups := Function.update k.ups s (k.ups s + 1) }

/-- The value of `s` is one less. -/
def lowered (s : σ) (k : Kernel θ σ) : Kernel θ σ :=
  { k.setSema s { k.sema s with value := (k.sema s).value - 1 } with downs := Function.update k.downs s (k.downs s + 1) }

/-- The first of the waiters of `s` is off the list. -/
def popped (s : σ) (t : θ) (rest : List θ) (k : Kernel θ σ) : Kernel θ σ :=
  { k.setSema s { k.sema s with waiters := rest } with woken := Function.update k.woken s (t :: k.woken s) }

/-- The current thread has tested the value of `s`. -/
def tested (s : σ) (k : Kernel θ σ) : Kernel θ σ :=
  { k with woken := Function.update k.woken s ((k.woken s).erase k.current) }

/-- The current thread is on the list of `s`. -/
def queued (s : σ) (k : Kernel θ σ) : Kernel θ σ :=
  k.setSema s { k.sema s with waiters := (k.sema s).waiters ++ [k.current] }

/-- **What `sema_up` does.** -/
inductive Ups (s : σ) (k : Kernel θ σ) : Kernel θ σ → Prop
  | none : (k.sema s).waiters = [] → Ups s k (k.raised s)
  | wakes {t : θ} {rest : List θ} : (k.sema s).waiters = t :: rest → k.status t = some .blocked →
      Ups s k (((k.popped s t rest).readied t).raised s)

/-- What a thread in the loop of `sema_down` is at while it waits and when it is through: of a semaphore that is not a
lock's by itself, and of a lock's semaphore in `lock_acquire`. -/
inductive Turn (isLock : σ → Prop) (s : σ) : Place σ → Place σ → Prop
  | sema : ¬ isLock s → Turn isLock s (.down s) .free
  | lock : isLock s → Turn isLock s (.acquire s) (.acquired s)

/-- **What a step can do.** -/
inductive Moves (isLock : σ → Prop) (k : Kernel θ σ) : Kernel θ σ → Prop
  | create {t : θ} : k.status t = none → k.idleThread ≠ some k.current →
      Moves isLock k { k.setStatus t (some .blocked) with maker := Function.update k.maker t (some k.current) }
  | start {t : θ} : k.maker t = some k.current → k.status t = some .blocked →
      Moves isLock k { k.readied t with maker := Function.update k.maker t none }
  | yield {k' : Kernel θ σ} : k.idleThread ≠ some k.current → Switches (k.readied k.current) k' → Moves isLock k k'
  | idleYield {k' : Kernel θ σ} : k.idleThread = some k.current → Switches (k.setStatus k.current (some .ready)) k' →
      Moves isLock k k'
  | exit {k' : Kernel θ σ} : k.place k.current = .free → k.idleThread ≠ some k.current →
      Switches (k.setStatus k.current (some .dying)) k' → Moves isLock k k'
  | block {k' : Kernel θ σ} : k.place k.current = .free → k.idleThread ≠ some k.current →
      Switches ((k.setPlace k.current .parked).setStatus k.current (some .blocked)) k' → Moves isLock k k'
  | idleBlock {k' : Kernel θ σ} : k.idleThread = some k.current → Switches (k.setStatus k.current (some .blocked)) k' →
      Moves isLock k k'
  | wake {t : θ} : k.place t = .parked → k.status t = some .blocked → Moves isLock k ((k.readied t).setPlace t .free)
  | idle : k.idleThread = none → k.place k.current = .free → Moves isLock k { k with idleThread := some k.current }
  | through {s : σ} {waiting past : Place σ} : Turn isLock s waiting past → k.idleThread ≠ some k.current →
      k.place k.current = .free ∨ k.place k.current = waiting → (k.sema s).value ≠ 0 →
      Moves isLock k (((k.tested s).lowered s).setPlace k.current past)
  | sleep {s : σ} {waiting past : Place σ} {k' : Kernel θ σ} : Turn isLock s waiting past →
      k.idleThread ≠ some k.current → k.place k.current = .free ∨ k.place k.current = waiting → (k.sema s).value = 0 →
      Switches ((((k.tested s).queued s).setPlace k.current waiting).setStatus k.current (some .blocked)) k' →
      Moves isLock k k'
  | taken {s : σ} : ¬ isLock s → 0 < (k.sema s).value → Moves isLock k (k.lowered s)
  | tried {l : σ} : isLock l → k.idleThread ≠ some k.current → k.place k.current = .free → 0 < (k.sema l).value →
      Moves isLock k ((k.lowered l).setPlace k.current (.acquired l))
  | failed : Moves isLock k k
  | up {s : σ} {k' : Kernel θ σ} : ¬ isLock s → Ups s k k' → Moves isLock k k'
  | hold {l : σ} : k.place k.current = .acquired l →
      Moves isLock k { k.setPlace k.current .free with holder := Function.update k.holder l (some k.current) }
  | release {l : σ} : isLock l → k.idleThread ≠ some k.current → k.place k.current = .free → k.holder l = some k.current →
      Moves isLock k { k.setPlace k.current (.release l) with holder := Function.update k.holder l none }
  | raise {l : σ} {k' : Kernel θ σ} : k.place k.current = .release l → Ups l k k' →
      Moves isLock k (k'.setPlace k.current .free)

theorem semaUp_ups : wp (semaUp s) (fun _ k' => Ups s k k') (fun _ => ∃ t rest, (k.sema s).waiters = t :: rest ∧
    k.status t ≠ some .blocked) k := by
  rw [semaUp, wp_bind, semaWake, wp_bind, wp_gets]
  cases hw : (k.sema s).waiters with
  | nil =>
    rw [wp_pure, wp_modify]
    exact .none hw
  | cons t rest =>
    rw [wp_bind, wp_modify, threadUnblock, wp_bind, wp_gets, wp_ite]
    refine ⟨fun hb => ?_, fun hb => ⟨t, rest, rfl, hb⟩⟩
    rw [wp_modify, wp_modify]
    exact .wakes hw hb

theorem semaTurn_moves {waiting past : Place σ} (ht : Turn isLock s waiting past) (hi : k.idleThread ≠ some k.current)
    (hp : k.place k.current = .free ∨ k.place k.current = waiting) :
    wp (semaTurn s waiting past) (fun _ k' => Moves isLock k k') (fun _ => True) k := by
  rw [semaTurn, wp_bind, wp_gets, wp_bind, wp_gets]
  by_cases h0 : (k.sema s).value = 0
  · rw [Semaphore.down_of_zero _ h0]
    dsimp only
    rw [wp_bind, wp_modify, if_neg (by decide), wp_bind, wp_modify, threadBlock, wp_bind, wp_modify]
    exact wp_post schedule_switches fun _ k' hs => .sleep ht hi hp h0 hs
  · rw [Semaphore.down_of_pos _ (Nat.pos_of_ne_zero h0)]
    dsimp only
    rw [wp_bind, wp_modify, if_pos rfl, wp_modify]
    exact .through ht hi hp h0

/-- **Every step is one of these.** -/
theorem step_moves (a : Action θ σ) (hg : Guard isLock k a) :
    wp (step a) (fun _ k' => Moves isLock k k') (fun _ => True) k := by
  cases a with
  | create t => exact .create hg.1 hg.2
  | start t =>
    rw [step, wp_bind, threadUnblock, wp_bind, wp_gets, wp_ite]
    exact ⟨fun hb => .start hg hb, fun _ => trivial⟩
  | yield =>
    rw [step, threadYield, wp_bind, wp_modify, wp_bind, wp_modify]
    refine wp_post schedule_switches fun _ k' hs => ?_
    by_cases hi : k.idleThread = some k.current
    · rw [if_neg (not_not.2 hi)] at hs
      exact .idleYield hi hs
    · rw [if_pos hi] at hs
      exact .yield hi hs
  | exit =>
    rw [step, threadExit, wp_bind, wp_modify]
    exact wp_post schedule_switches fun _ k' hs => .exit hg.1 hg.2 hs
  | block =>
    rw [step, wp_bind, wp_modify, threadBlock, wp_bind, wp_modify]
    refine wp_post schedule_switches fun _ k' hs => ?_
    by_cases hi : k.idleThread = some k.current
    · rw [if_neg (not_not.2 hi)] at hs
      exact .idleBlock hi hs
    · rw [if_pos hi] at hs
      exact .block hg hi hs
  | wake t =>
    rw [step, wp_bind, threadUnblock, wp_bind, wp_gets, wp_ite]
    exact ⟨fun hb => .wake hg hb, fun _ => trivial⟩
  | idle => exact .idle hg.1 hg.2
  | down s => exact semaTurn_moves (.sema hg.1) hg.2.1 hg.2.2
  | tryDown s =>
    rw [step, wp_bind, semaTryDown, wp_bind, wp_gets, wp_ite]
    exact ⟨fun hv => .taken hg hv, fun _ => .failed⟩
  | up s => exact wp_mono semaUp_ups (fun _ k' hu => .up hg hu) fun _ _ => trivial
  | acquire l =>
    rw [step, wp_bind, wp_gets, wp_ite]
    exact ⟨fun _ => trivial, fun _ => semaTurn_moves (.lock hg.1) hg.2.1 hg.2.2⟩
  | tryAcquire l =>
    rw [step, wp_bind, wp_gets, wp_ite]
    refine ⟨fun _ => trivial, fun _ => ?_⟩
    rw [wp_bind, semaTryDown, wp_bind, wp_gets, wp_ite]
    exact ⟨fun hv => .tried hg.1 hg.2.1 hg.2.2 hv, fun _ => .failed⟩
  | hold l => exact .hold hg
  | release l =>
    rw [step, wp_bind, wp_gets, wp_ite]
    exact ⟨fun hh => .release hg.1 hg.2.1 hg.2.2 hh, fun _ => trivial⟩
  | raise l =>
    rw [step, wp_bind]
    refine wp_mono semaUp_ups (fun _ k' hu => ?_) fun _ _ => trivial
    have hcur : k'.current = k.current := by cases hu <;> rfl
    rw [wp_modify, hcur]
    exact .raise hg hu

/-! ### What every step keeps -/

omit [DecidableEq θ] [DecidableEq σ] in
/-- A running thread is on no list. -/
theorem Inv.current_notMem (h : Inv k) : k.current ∉ k.readyList ∧ ∀ s, k.current ∉ (k.sema s).waiters := by
  have hcur := h.current
  refine ⟨fun hmem => ?_, fun s hmem => ?_⟩
  · rw [(h.ready _ hmem).1] at hcur
    cases hcur
  · rw [(h.waiting s _ hmem).1] at hcur
    cases hcur

omit [DecidableEq σ] in
/-- The thread that was running is put on `ready_list`. -/
theorem Inv.lists_readied (h : Inv k) (hi : k.idleThread ≠ some k.current) : Lists (k.readied k.current) := by
  obtain ⟨hmem, hsem⟩ := h.current_notMem
  obtain ⟨⟨hnodup, hready, hlisted, hwn, hwait, hidle, hparked, hmade, hgone⟩, hcur, hrun⟩ := h
  refine ⟨?_, ?_, ?_, hwn, ?_, ?_, ?_, ?_, ?_⟩
  all_goals simp only [readied, setStatus, Function.update_apply] at *
  · exact hnodup.append (List.nodup_singleton _) (by simpa using hmem)
  all_goals grind

omit [DecidableEq σ] in
/-- The thread that was running has another status, and is on no list for it. -/
theorem Inv.lists_setStatus (h : Inv k) {st : Status} (hready : st = .ready → k.idleThread = some k.current)
    (hdying : st = .dying → k.place k.current = .free ∧ k.idleThread ≠ some k.current) :
    Lists (k.setStatus k.current (some st)) := by
  obtain ⟨hmem, hsem⟩ := h.current_notMem
  obtain ⟨⟨hnodup, hready, hlisted, hwn, hwait, hidle, hparked, hmade, hgone⟩, hcur, hrun⟩ := h
  refine ⟨hnodup, ?_, ?_, hwn, ?_, ?_, ?_, ?_, ?_⟩
  all_goals simp only [setStatus, Function.update_apply] at *
  all_goals grind

omit [DecidableEq σ] in
/-- A blocked thread that is on `ready_list` now, and on no other list. -/
theorem Inv.woken (h : Inv k) (hb : k.status t = some .blocked) (hi : k.idleThread ≠ some t)
    (hst : k'.status = Function.update k.status t (some .ready)) (hcur : k'.current = k.current)
    (hr : k'.readyList = k.readyList ++ [t]) (hidle : k'.idleThread = k.idleThread)
    (hsub : ∀ s, (k'.sema s).waiters.Sublist (k.sema s).waiters) (hw : ∀ s, t ∉ (k'.sema s).waiters)
    (hm : ∀ u ≠ t, k'.maker u = k.maker u) (hp : ∀ u ≠ t, k'.place u = k.place u)
    (htm : k'.maker t = none) (htp : k'.place t ≠ .parked) : Inv k' := by
  have hmem : t ∉ k.readyList := fun hmem => by
    rw [(h.ready t hmem).1] at hb
    cases hb
  have hsubset := fun s => (hsub s).subset
  obtain ⟨⟨hnodup, hready, hlisted, hwn, hwait, hidle', hparked, hmade, hgone⟩, hcur', hrun⟩ := h
  have hst' : ∀ u, k'.status u = if u = t then some .ready else k.status u := by
    intro u
    rw [hst, Function.update_apply]
  refine ⟨⟨?_, ?_, ?_, fun s => (hwn s).sublist (hsub s), ?_, ?_, ?_, ?_, ?_⟩, ?_, ?_⟩
  · rw [hr]
    exact hnodup.append (List.nodup_singleton t) (by simpa using hmem)
  all_goals grind

omit [DecidableEq θ] [DecidableEq σ] in
/-- No thread moves, and the current one is at another place. -/
theorem Inv.stays (h : Inv k) (hst : k'.status = k.status) (hcur : k'.current = k.current)
    (hr : k'.readyList = k.readyList) (hi : k'.idleThread = k.idleThread) (hm : k'.maker = k.maker)
    (hw : ∀ s, (k'.sema s).waiters = (k.sema s).waiters) (hp : ∀ t ≠ k.current, k'.place t = k.place t)
    (hpark : k'.place k.current ≠ .parked) (hidle : k.idleThread = some k.current → k'.place k.current = .free) :
    Inv k' := by
  obtain ⟨hmem, hsem⟩ := h.current_notMem
  obtain ⟨⟨hnodup, hready, hlisted, hwn, hwait, hidle', hparked, hmade, hgone⟩, hcur', hrun⟩ := h
  refine ⟨⟨?_, ?_, ?_, ?_, ?_, ?_, ?_, ?_, ?_⟩, ?_, ?_⟩
  all_goals simp only [hst, hcur, hr, hi, hm, hw]
  all_goals grind

omit [DecidableEq σ] in
/-- No thread moves, and the current one goes to the place `pl`. -/
theorem Inv.stays_at (h : Inv k) {pl : Place σ} (hst : k'.status = k.status) (hcur : k'.current = k.current)
    (hr : k'.readyList = k.readyList) (hi : k'.idleThread = k.idleThread) (hm : k'.maker = k.maker)
    (hw : ∀ s, (k'.sema s).waiters = (k.sema s).waiters) (hp : k'.place = Function.update k.place k.current pl)
    (hpark : pl ≠ .parked) (hidle : k.idleThread = some k.current → pl = .free) : Inv k' := by
  have hself : k'.place k.current = pl := by
    rw [hp]
    exact Function.update_self ..
  refine h.stays hst hcur hr hi hm hw (fun t ht => ?_) (hself ▸ hpark) fun hc => hself.trans (hidle hc)
  rw [hp]
  exact Function.update_of_ne ht ..

omit [DecidableEq θ] in
theorem raised_waiters (r : σ) : ((k.raised s).sema r).waiters = (k.sema r).waiters := by
  simp only [raised, setSema, Function.update_apply]
  split_ifs with hr
  · rw [hr]
  · rfl

omit [DecidableEq θ] in
theorem lowered_waiters (r : σ) : ((k.lowered s).sema r).waiters = (k.sema r).waiters := by
  simp only [lowered, setSema, Function.update_apply]
  split_ifs with hr
  · rw [hr]
  · rfl

omit [DecidableEq θ] [DecidableEq σ] in
theorem Inv.current_place (h : Inv k) : k.place k.current ≠ .parked := by
  intro hp
  have hb := (h.parked _ hp).1
  rw [h.current] at hb
  cases hb

omit [DecidableEq θ] [DecidableEq σ] in
theorem Inv.current_maker (h : Inv k) : k.maker k.current = none := by
  cases hm : k.maker k.current with
  | none => rfl
  | some c =>
    have hb := (h.made _ c hm).1
    rw [h.current] at hb
    cases hb

/-- `sema_up` keeps the invariant. -/
theorem Inv.ups (h : Inv k) (hu : Ups s k k') : Inv k' := by
  cases hu with
  | none hw =>
    exact h.stays rfl rfl rfl rfl rfl raised_waiters (fun _ _ => rfl) h.current_place fun hi => (h.idle _ hi).2.2.1
  | @wakes t rest hw hb =>
    have hmem : t ∈ (k.sema s).waiters := hw ▸ List.mem_cons_self
    have hplace := (h.waiting s t hmem).2
    have hnodup := h.waitersNodup s
    rw [hw] at hnodup
    have hwaiters : ∀ r, (((k.popped s t rest).readied t).raised s |>.sema r).waiters =
        if r = s then rest else (k.sema r).waiters := by
      intro r
      rw [raised_waiters]
      simp only [popped, readied, setStatus, setSema, Function.update_apply]
      split_ifs
      · rfl
      · rfl
    refine h.woken hb (fun hi => ?_) rfl rfl rfl rfl (fun r => ?_) (fun r => ?_) (fun _ _ => rfl) (fun _ _ => rfl) ?_ ?_
    · rw [(h.idle t hi).2.2.1] at hplace
      rcases hplace with hp | hp <;> cases hp
    · rw [hwaiters]
      split_ifs with hr
      · rw [hr, hw]
        exact List.sublist_cons_self ..
      · exact List.Sublist.refl _
    · rw [hwaiters]
      split_ifs with hr
      · exact (List.nodup_cons.1 hnodup).1
      · intro hr'
        have := (h.waiting r t hr').2
        grind
    · cases hmk : k.maker t with
      | none => exact hmk
      | some c =>
        have := (h.made t c hmk).2
        grind
    · show k.place t ≠ .parked
      grind

/-- **Every step keeps the invariant.** -/
theorem Inv.moves (h : Inv k) (hm : Moves isLock k k') : Inv k' := by
  have hnone : ∀ st : Status, st ≠ .running → ∀ t, (k.setStatus k.current (some st)).status t ≠ some .running := by
    intro st hst t ht
    rw [setStatus_status] at ht
    split_ifs at ht with hc
    · exact hst (Option.some.inj ht)
    · exact hc (h.running t ht)
  have hfree : k.idleThread = some k.current → k.place k.current = .free := fun hi => (h.idle _ hi).2.2.1
  cases hm with
  | @create t hf hi =>
    obtain ⟨⟨hnodup, hready, hlisted, hwn, hwait, hidle, hparked, hmade, hgone⟩, hcur, hrun⟩ := h
    refine ⟨⟨hnodup, ?_, ?_, hwn, ?_, ?_, ?_, ?_, ?_⟩, ?_, ?_⟩
    all_goals simp only [setStatus, Function.update_apply] at *
    all_goals grind
  | @start t hmk hb =>
    refine h.woken hb (fun hi => ?_) rfl rfl rfl rfl (fun r => .refl _) (fun r hr => ?_) (fun u hu => ?_) (fun _ _ => rfl) ?_ ?_
    · grind [h.idle t hi]
    · grind [h.waiting r t hr, h.made _ _ hmk]
    · exact Function.update_of_ne hu ..
    · exact Function.update_self ..
    · show k.place t ≠ .parked
      grind [h.made _ _ hmk]
  | yield hi hs => exact (h.lists_readied hi).switches (hnone .ready (by decide)) hs
  | idleYield hi hs =>
    have hl : Lists (k.setStatus k.current (some .ready)) := h.lists_setStatus (fun _ => hi) nofun
    exact hl.switches (hnone .ready (by decide)) hs
  | exit hp hi hs =>
    have hl : Lists (k.setStatus k.current (some .dying)) := h.lists_setStatus nofun fun _ => ⟨hp, hi⟩
    exact hl.switches (hnone .dying (by decide)) hs
  | block hp hi hs =>
    have hl : Lists ((k.setPlace k.current .parked).setStatus k.current (some .blocked)) := by
      obtain ⟨hmem, hsem⟩ := h.current_notMem
      have hmk := h.current_maker
      obtain ⟨⟨hnodup, hready, hlisted, hwn, hwait, hidle, hparked, hmade, hgone⟩, hcur, hrun⟩ := h
      refine ⟨hnodup, ?_, ?_, hwn, ?_, ?_, ?_, ?_, ?_⟩
      all_goals simp only [setPlace, setStatus, Function.update_apply] at *
      all_goals grind
    exact hl.switches (hnone .blocked (by decide)) hs
  | idleBlock hi hs =>
    have hl : Lists (k.setStatus k.current (some .blocked)) := h.lists_setStatus nofun nofun
    exact hl.switches (hnone .blocked (by decide)) hs
  | @wake t hp hb =>
    refine h.woken hb (fun hi => ?_) rfl rfl rfl rfl (fun r => .refl _) (fun r hr => ?_) (fun u hu => rfl)
      (fun u hu => ?_) ?_ ?_
    · grind [h.idle t hi]
    · grind [h.waiting r t hr]
    · exact Function.update_of_ne hu ..
    · exact (h.parked t hp).2
    · rw [setPlace_place, if_pos rfl]
      nofun
  | idle hi hp =>
    have hmk := h.current_maker
    obtain ⟨hmem, hsem⟩ := h.current_notMem
    obtain ⟨⟨hnodup, hready, hlisted, hwn, hwait, hidle, hparked, hmade, hgone⟩, hcur, hrun⟩ := h
    refine ⟨⟨hnodup, ?_, ?_, hwn, hwait, fun t ht => ?_, hparked, hmade, hgone⟩, hcur, hrun⟩
    · grind
    · grind
    · obtain rfl := Option.some.inj ht
      rw [hcur]
      exact ⟨nofun, nofun, hp, hmk⟩
  | through ht hi hp hv =>
    refine h.stays_at rfl rfl rfl rfl rfl (fun r => lowered_waiters r) rfl ?_ (absurd · hi)
    cases ht with
    | sema => nofun
    | lock => nofun
  | @sleep s waiting past _ ht hi hp hv hs =>
    have hl : Lists ((((k.tested s).queued s).setPlace k.current waiting).setStatus k.current (some .blocked)) := by
      obtain ⟨hmem, hsem⟩ := h.current_notMem
      have hmk := h.current_maker
      have hat : waiting = .down s ∨ waiting = .acquire s := by
        cases ht with
        | sema => exact .inl rfl
        | lock => exact .inr rfl
      obtain ⟨⟨hnodup, hready, hlisted, hwn, hwait, hidle, hparked, hmade, hgone⟩, hcur, hrun⟩ := h
      refine ⟨hnodup, ?_, ?_, fun r => ?_, ?_, ?_, ?_, ?_, ?_⟩
      all_goals simp only [tested, queued, setSema, setPlace, setStatus, Function.update_apply] at *
      case refine_3 =>
        split_ifs
        · exact (hwn s).append (List.nodup_singleton _) (by simpa using hsem s)
        · exact hwn r
      all_goals grind
    exact hl.switches (hnone .blocked (by decide)) hs
  | taken hl hv => exact h.stays rfl rfl rfl rfl rfl lowered_waiters (fun _ _ => rfl) h.current_place hfree
  | tried hl hi hp hv => exact h.stays_at rfl rfl rfl rfl rfl lowered_waiters rfl nofun (absurd · hi)
  | failed => exact h
  | up hl hu => exact h.ups hu
  | hold hp => exact h.stays_at rfl rfl rfl rfl rfl (fun _ => rfl) rfl nofun fun _ => rfl
  | release hl hi hp hh => exact h.stays_at rfl rfl rfl rfl rfl (fun _ => rfl) rfl nofun (absurd · hi)
  | @raise l k₁ hp hu =>
    have hcur : k₁.current = k.current := by cases hu <;> rfl
    rw [← hcur]
    exact (h.ups hu).stays_at rfl rfl rfl rfl rfl (fun _ => rfl) rfl nofun fun _ => rfl

theorem Reaches.step (h : Reaches isLock main value k) (a : Action θ σ) (hg : Guard isLock k a)
    (hs : Kernel.step a k = .ok ((), k')) : Reaches isLock main value k' := Run.tail h hg hs

/-- **Every state that the kernel reaches meets the invariant.** -/
theorem Inv.reaches (h : Reaches isLock main value k) : Inv k := by
  apply Run.invariant h Inv.boot
  intro a t ht hg
  exact wp_post (step_moves a hg) fun _ u hm => ht.moves hm

end Moves

/-! ### Placement -/

/-- **Where the threads are.** -/
structure Placement (k : Kernel θ σ) : Prop where
  /-- One thread runs. -/
  running : ∃! t, k.status t = some .running
  /-- A ready thread is on `ready_list` once, unless it is the idle thread. -/
  ready : ∀ t, k.status t = some .ready → k.idleThread ≠ some t → k.readyList.count t = 1
  /-- The threads on `ready_list` are ready. -/
  listed : ∀ t ∈ k.readyList, k.status t = some .ready
  /-- The threads that wait for a semaphore are blocked. -/
  waiting : ∀ s, ∀ t ∈ (k.sema s).waiters, k.status t = some .blocked
  /-- No thread is twice on one list. -/
  once : ∀ t, k.readyList.count t ≤ 1 ∧ ∀ s, (k.sema s).waiters.count t ≤ 1
  /-- No thread is on two lists. -/
  alone : ∀ s, ∀ t ∈ (k.sema s).waiters, t ∉ k.readyList ∧ ∀ r, t ∈ (k.sema r).waiters → r = s
  /-- The idle thread is not on `ready_list`. -/
  idle : ∀ t, k.idleThread = some t → t ∉ k.readyList

theorem Inv.placement (h : Inv k) : Placement k where
  running := ⟨k.current, h.current, h.running⟩
  ready t ht hi := List.count_eq_one_of_mem h.readyNodup ((h.listed t ht).resolve_right hi)
  listed t ht := (h.ready t ht).1
  waiting s t ht := (h.waiting s t ht).1
  once t := ⟨List.nodup_iff_count_le_one.1 h.readyNodup t, fun s => List.nodup_iff_count_le_one.1 (h.waitersNodup s) t⟩
  alone s t ht := by
    obtain ⟨hb, hp⟩ := h.waiting s t ht
    constructor
    · intro hr
      rw [(h.ready t hr).1] at hb
      cases hb
    · intro r hr
      -- the place names the semaphore
      have hp' := (h.waiting r t hr).2
      grind
  idle t ht hr := (h.ready t hr).2 ht

variable [DecidableEq σ]

/-- The first waiter of a semaphore is blocked, so the assertion in `thread_unblock` holds. -/
theorem Inv.semaUp_returns (h : Inv k) (s : σ) : wp (semaUp s) (fun _ _ => True) (fun _ => False) k := by
  apply wp_mono semaUp_ups
  · intro _ _ _
    trivial
  · rintro _ ⟨t, rest, hw, hb⟩
    exact hb (h.waiting s t (hw ▸ List.mem_cons_self)).1

/-- **In every state that the kernel reaches, one thread runs, every other one is where its status says, on one list at
most, and `sema_up` wakes a blocked thread.** -/
theorem reaches_placement (h : Reaches isLock main value k) :
    Placement k ∧ ∀ s, wp (semaUp s) (fun _ _ => True) (fun _ => False) k := by
  have hinv := Inv.reaches h
  exact ⟨hinv.placement, hinv.semaUp_returns⟩

/-- The thread 0 creates the thread 1 and sleeps on a semaphore, and the thread 1 runs. -/
theorem reaches_placement_asleep : ∃ k : Kernel ℕ ℕ, k.current = 1 ∧ (k.sema 0).waiters = [0] ∧
    Placement k ∧ ∀ s, wp (semaUp s) (fun _ _ => True) (fun _ => False) k := by
  have h₀ : Reaches (fun _ : ℕ => False) 0 (fun _ => 0) (boot 0 fun _ => 0) := .refl _
  have h₁ := h₀.step (.create 1) ⟨by decide, nofun⟩ rfl
  have h₂ := h₁.step (.start 1) rfl rfl
  have h₃ := h₂.step (.down 0) ⟨id, nofun, .inl rfl⟩ rfl
  exact ⟨_, rfl, rfl, reaches_placement h₃⟩

end Pintos.Kernel
