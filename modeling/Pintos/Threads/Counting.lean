import Pintos.Threads.Placement

/-!
# What semaphores count

`sema_up` wakes a thread before it raises the value, and does not hand the thread
the unit, so that another thread may get through first and the woken one sleeps
again. Over every order of the steps the value is still the initial one, with the
ups added and the downs taken away, as far as an `unsigned` goes; and while threads
wait, no more units are left than there are threads on their way to test the value.
From this a lock, whose semaphore starts at 1, lets one thread in at a time.
-/

namespace Pintos.Kernel

open Library Library.Prog

variable {θ σ : Type} [DecidableEq θ] [DecidableEq σ] {isLock : σ → Prop} {main : θ} {value : σ → Fin (2 ^ 32)}
  {k k' : Kernel θ σ} {s l : σ} {t : θ}

/-! ### The count -/

omit [DecidableEq σ] in
/-- `schedule` touches no semaphore and no place. -/
theorem Switches.frame (h : Switches k k') :
    k'.sema = k.sema ∧ k'.place = k.place ∧ k'.holder = k.holder ∧ k'.ups = k.ups ∧ k'.downs = k.downs ∧
      k'.woken = k.woken := by
  cases h with
  | @next t rest _ =>
    obtain ⟨f, hf⟩ := scheduleTail_eq { k with readyList := rest } k.current t
    rw [hf]
    exact ⟨rfl, rfl, rfl, rfl, rfl, rfl⟩
  | @idle t =>
    obtain ⟨f, hf⟩ := scheduleTail_eq k k.current t
    rw [hf]
    exact ⟨rfl, rfl, rfl, rfl, rfl, rfl⟩

/-- What a step does to the value of `s` and to the counts of its ups and downs. -/
inductive Counted (s : σ) (k k' : Kernel θ σ) : Prop
  | same : (k'.sema s).value = (k.sema s).value → k'.ups s = k.ups s → k'.downs s = k.downs s → Counted s k k'
  | up : (k'.sema s).value = ((k.sema s).value + 1) % 2 ^ 32 → k'.ups s = k.ups s + 1 → k'.downs s = k.downs s →
      Counted s k k'
  | down : (k.sema s).value = (k'.sema s).value + 1 → k'.ups s = k.ups s → k'.downs s = k.downs s + 1 → Counted s k k'

omit [DecidableEq θ] in
theorem lowered_counted {r : σ} (h : (k.sema r).value ≠ 0) (hsema : k'.sema = (k.lowered r).sema)
    (hups : k'.ups = k.ups) (hdowns : k'.downs = (k.lowered r).downs) : Counted s k k' := by
  by_cases hs : s = r
  · subst hs
    refine .down ?_ (by rw [hups]) ?_
    · rw [hsema]
      simp only [lowered, setSema, Function.update_self]
      omega
    · rw [hdowns]
      exact Function.update_self ..
  · refine .same ?_ (by rw [hups]) ?_
    · rw [hsema]
      simp only [lowered, setSema, Function.update_of_ne hs]
    · rw [hdowns]
      exact Function.update_of_ne hs ..

theorem Ups.counted {r : σ} (h : Ups r k k') : Counted s k k' := by
  have hpop : ∀ t rest, (((k.popped r t rest).readied t).sema s).value = (k.sema s).value := by
    intro t rest
    simp only [popped, readied, setStatus, setSema, Function.update_apply]
    split_ifs with hs
    · rw [hs]
    · rfl
  have hraise : ∀ k₁ : Kernel θ σ, (k₁.sema s).value = (k.sema s).value → k₁.ups = k.ups → k₁.downs = k.downs →
      Counted s k (k₁.raised r) := by
    intro k₁ hv hu hd
    by_cases hs : s = r
    · subst hs
      refine .up ?_ ?_ (by rw [← hd]; rfl)
      · simp only [raised, setSema, Function.update_self, hv]
      · simp only [raised, Function.update_self, hu]
    · refine .same ?_ ?_ (by rw [← hd]; rfl)
      · simp only [raised, setSema, Function.update_of_ne hs, hv]
      · simp only [raised, Function.update_of_ne hs, hu]
  cases h with
  | none _ => exact hraise k rfl rfl rfl
  | wakes _ _ => exact hraise _ (hpop ..) rfl rfl

/-- **Every step is an up of `s`, a down of `s`, or neither.** -/
theorem Moves.counted (h : Moves isLock k k') (s : σ) : Counted s k k' := by
  have hswitch : ∀ {k₁ k₂ : Kernel θ σ}, Switches k₁ k₂ → Counted s k k₁ → Counted s k k₂ := by
    intro k₁ k₂ hs hc
    obtain ⟨hsema, -, -, hups, hdowns, -⟩ := hs.frame
    cases hc with
    | same hv hu hd => exact .same (hsema ▸ hv) (hups ▸ hu) (hdowns ▸ hd)
    | up hv hu hd => exact .up (hsema ▸ hv) (hups ▸ hu) (hdowns ▸ hd)
    | down hv hu hd => exact .down (hsema ▸ hv) (hups ▸ hu) (hdowns ▸ hd)
  cases h with
  | create _ _ => exact .same rfl rfl rfl
  | start _ _ => exact .same rfl rfl rfl
  | yield _ hs => exact hswitch hs (.same rfl rfl rfl)
  | idleYield _ hs => exact hswitch hs (.same rfl rfl rfl)
  | exit _ _ hs => exact hswitch hs (.same rfl rfl rfl)
  | block _ _ hs => exact hswitch hs (.same rfl rfl rfl)
  | idleBlock _ hs => exact hswitch hs (.same rfl rfl rfl)
  | wake _ _ => exact .same rfl rfl rfl
  | idle _ _ => exact .same rfl rfl rfl
  | through _ _ _ hv => exact lowered_counted hv rfl rfl rfl
  | @sleep r _ _ _ _ _ _ _ hs =>
    refine hswitch hs (.same ?_ rfl rfl)
    simp only [tested, queued, setSema, setPlace, setStatus, Function.update_apply]
    split_ifs with hr
    · rw [hr]
    · rfl
  | taken _ hv => exact lowered_counted hv.ne' rfl rfl rfl
  | tried _ _ _ hv => exact lowered_counted hv.ne' rfl rfl rfl
  | failed => exact .same rfl rfl rfl
  | up _ hu => exact hu.counted
  | hold _ => exact .same rfl rfl rfl
  | release _ _ _ _ => exact .same rfl rfl rfl
  | raise _ hu =>
    cases hu.counted (s := s) with
    | same hv hu hd => exact .same hv hu hd
    | up hv hu hd => exact .up hv hu hd
    | down hv hu hd => exact .down hv hu hd

/-- The values and the counts agree, as far as an `unsigned` goes. -/
def Tally (value : σ → Fin (2 ^ 32)) (k : Kernel θ σ) : Prop :=
  ∀ s, (k.sema s).value < 2 ^ 32 ∧ k.downs s + (k.sema s).value ≤ value s + k.ups s ∧
    (value s + k.ups s) % 2 ^ 32 = (k.downs s + (k.sema s).value) % 2 ^ 32

theorem Tally.moves (h : Tally value k) (hm : Moves isLock k k') : Tally value k' := by
  intro s
  obtain ⟨hlt, hle, hmod⟩ := h s
  cases hm.counted s with
  | same hv hu hd =>
    rw [hv, hu, hd]
    exact ⟨hlt, hle, hmod⟩
  | up hv hu hd =>
    rw [hv, hu, hd]
    omega
  | down hv hu hd =>
    rw [hu, hd]
    omega

omit [DecidableEq θ] [DecidableEq σ] in
/-- The value is what the ups and the downs leave. -/
theorem Tally.value_eq (h : Tally value k) (s : σ) :
    k.downs s ≤ value s + k.ups s ∧ (k.sema s).value = (value s + k.ups s - k.downs s) % 2 ^ 32 := by
  obtain ⟨hlt, hle, hmod⟩ := h s
  omega

/-! ### Wakeups -/

/-- A thread at this place is in the loop of a `sema_down` of `s`. -/
def InLoop (s : σ) (p : Place σ) : Prop := p = .down s ∨ p = .acquire s

/-- The threads that are in the loop of `sema_down` and not on the list of `s` are the ones that `sema_up` woke; and
while a thread is on the list, there are as many of them as units. -/
structure Wakeups (k : Kernel θ σ) : Prop where
  nodup : ∀ s, (k.woken s).Nodup
  woken : ∀ s t, t ∈ k.woken s ↔ InLoop s (k.place t) ∧ t ∉ (k.sema s).waiters
  pending : ∀ s, (k.sema s).waiters ≠ [] → (k.sema s).value ≤ (k.woken s).length

omit [DecidableEq θ] [DecidableEq σ] in
/-- Nothing that the semaphores see changes. -/
theorem Wakeups.stays (h : Wakeups k) (hsema : k'.sema = k.sema) (hwoken : k'.woken = k.woken)
    (hp : ∀ t s, InLoop s (k'.place t) ↔ InLoop s (k.place t)) : Wakeups k' := by
  obtain ⟨hnodup, hmem, hpending⟩ := h
  refine ⟨fun s => ?_, fun s t => ?_, fun s => ?_⟩
  · rw [hwoken]
    exact hnodup s
  · rw [hwoken, hsema, hmem, hp]
  · rw [hwoken, hsema]
    exact hpending s

omit [DecidableEq σ] in
/-- A thread goes from one place to another, both in no loop. -/
theorem inLoop_update {u : θ} {pl : Place σ} (hold : ∀ s, ¬ InLoop s (k.place u)) (hnew : ∀ s, ¬ InLoop s pl)
    (t : θ) (s : σ) : InLoop s (Function.update k.place u pl t) ↔ InLoop s (k.place t) := by
  rw [Function.update_apply]
  split_ifs with ht
  · rw [ht]
    exact iff_of_false (hnew s) (hold s)
  · rfl

omit [DecidableEq θ] in
/-- The value is one less. -/
theorem Wakeups.lowered (h : Wakeups k) (s : σ) : Wakeups (k.lowered s) := by
  obtain ⟨hnodup, hmem, hpending⟩ := h
  refine ⟨hnodup, fun r t => ?_, fun r hw => ?_⟩
  · rw [lowered_waiters]
    exact hmem r t
  · rw [lowered_waiters] at hw
    have hle := hpending r hw
    simp only [Kernel.lowered, setSema, Function.update_apply]
    split_ifs with hr
    · subst hr
      exact (Nat.sub_le ..).trans hle
    · exact hle

/-- `sema_up` wakes one thread and adds one unit. -/
theorem Wakeups.ups (h : Wakeups k) (hi : Inv k) (hu : Ups s k k') : Wakeups k' := by
  obtain ⟨hnodup, hmem, hpending⟩ := h
  cases hu with
  | none hw =>
    refine ⟨hnodup, fun r t => ?_, fun r hr => ?_⟩
    · rw [raised_waiters]
      exact hmem r t
    · rw [raised_waiters] at hr
      have hne : r ≠ s := fun h => hr (h ▸ hw)
      simp only [raised, setSema, Function.update_of_ne hne]
      exact hpending r hr
  | @wakes t rest hw hb =>
    have hwn := hi.waitersNodup s
    have hloop := (hi.waiting s t (hw ▸ List.mem_cons_self)).2
    have hpend := hpending s (hw ▸ List.cons_ne_nil t rest)
    have hnew : t ∉ k.woken s := fun ht => ((hmem s t).1 ht).2 (hw ▸ List.mem_cons_self)
    have hone : ∀ r, InLoop r (k.place t) ↔ r = s := by
      intro r
      simp only [InLoop]
      grind
    rw [hw] at hwn
    refine ⟨fun r => ?_, fun r u => ?_, fun r hr => ?_⟩
    · simp only [raised, readied, popped, setSema, setStatus, Function.update_apply]
      split_ifs with hr
      · exact List.nodup_cons.2 ⟨hnew, hnodup s⟩
      · exact hnodup r
    · rw [raised_waiters]
      simp only [raised, readied, popped, setSema, setStatus, Function.update_apply]
      split_ifs with hr
      · subst hr
        have := hmem r u
        grind
      · exact hmem r u
    · rw [raised_waiters] at hr
      simp only [raised, readied, popped, setSema, setStatus, Function.update_apply] at hr ⊢
      split_ifs at hr ⊢ with hrs
      · rw [List.length_cons]
        exact (Nat.mod_le ..).trans (Nat.succ_le_succ hpend)
      · exact hpending r hr

omit [DecidableEq θ] [DecidableEq σ] in
/-- A thread that waits is in the loop of its semaphore, and of no other; one that is through is in no loop. -/
theorem Turn.inLoop {waiting past : Place σ} (h : Turn isLock s waiting past) (r : σ) :
    (InLoop r waiting ↔ r = s) ∧ ¬ InLoop r past := by
  cases h with
  | sema _ => simp [InLoop, eq_comm]
  | lock _ => simp [InLoop, eq_comm]

/-- The threads that were woken, but for the current one, which has tested the value. -/
theorem Wakeups.tested_woken {waiting past : Place σ} (h : Wakeups k) (ht : Turn isLock s waiting past)
    (hp : k.place k.current = .free ∨ k.place k.current = waiting) (r : σ) (u : θ) :
    u ∈ (k.tested s).woken r ↔ u ≠ k.current ∧ InLoop r (k.place u) ∧ u ∉ (k.sema r).waiters := by
  have hwoken : (k.tested s).woken r = if r = s then (k.woken s).erase k.current else k.woken r :=
    Function.update_apply ..
  rw [hwoken]
  split_ifs with hr
  · rw [(h.nodup s).mem_erase_iff, h.woken, hr]
  · rw [h.woken]
    refine (and_iff_right_of_imp fun hu => ?_).symm
    rintro rfl
    -- the current thread is in the loop of `s` or in none
    rcases hp with hp | hp
    · rw [hp] at hu
      simp [InLoop] at hu
    · rw [hp, (ht.inLoop r).1] at hu
      exact hr hu.1

theorem Wakeups.tested_nodup (h : Wakeups k) (r : σ) : ((k.tested s).woken r).Nodup := by
  simp only [tested, Function.update_apply]
  split_ifs
  · exact (h.nodup s).erase _
  · exact h.nodup r

/-- The current thread is through: it is not in the loop any more. -/
theorem Wakeups.through {waiting past : Place σ} (h : Wakeups k) (ht : Turn isLock s waiting past)
    (hp : k.place k.current = .free ∨ k.place k.current = waiting) :
    Wakeups (((k.tested s).lowered s).setPlace k.current past) := by
  have hwaiters : ∀ r, ((((k.tested s).lowered s).setPlace k.current past).sema r).waiters = (k.sema r).waiters :=
    fun r => lowered_waiters r
  refine ⟨fun r => h.tested_nodup r, fun r u => ?_, fun r hr => ?_⟩
  · rw [setPlace_place, hwaiters]
    refine (h.tested_woken ht hp r u).trans ?_
    split_ifs with hu
    · exact iff_of_false (fun h => h.1 hu) fun h => (ht.inLoop r).2 h.1
    · exact and_iff_right hu
  · rw [hwaiters] at hr
    have hle := h.pending r hr
    simp only [Kernel.lowered, Kernel.tested, setPlace, setSema, Function.update_apply]
    split_ifs with hrs
    · subst hrs
      exact (Nat.sub_le_sub_right hle 1).trans (List.le_length_erase ..)
    · exact hle

/-- The current thread has found the value 0, and is on the list. -/
theorem Wakeups.sleep {waiting past : Place σ} (h : Wakeups k) (ht : Turn isLock s waiting past)
    (hp : k.place k.current = .free ∨ k.place k.current = waiting) (hv : (k.sema s).value = 0) :
    Wakeups (((k.tested s).queued s).setPlace k.current waiting) := by
  have hwaiters : ∀ r, ((((k.tested s).queued s).setPlace k.current waiting).sema r).waiters =
      if r = s then (k.sema s).waiters ++ [k.current] else (k.sema r).waiters := by
    intro r
    simp only [tested, queued, setSema, setPlace, Function.update_apply]
    split_ifs <;> rfl
  refine ⟨fun r => h.tested_nodup r, fun r u => ?_, fun r hr => ?_⟩
  · rw [setPlace_place, hwaiters]
    refine (h.tested_woken ht hp r u).trans ?_
    split_ifs with hu hr hr
    · refine iff_of_false (fun h => h.1 hu) fun h => h.2 ?_
      rw [hu]
      exact List.mem_append_right _ (List.mem_singleton_self _)
    · exact iff_of_false (fun h => h.1 hu) fun h => hr ((ht.inLoop r).1.1 h.1)
    · rw [hr, List.mem_append, List.mem_singleton, not_or, and_iff_left hu, and_iff_right hu]
      rfl
    · exact and_iff_right hu
  · simp only [Kernel.queued, Kernel.tested, setPlace, setSema, Function.update_apply] at hr ⊢
    split_ifs at hr ⊢ with hrs
    · rw [hv]
      exact Nat.zero_le _
    · exact h.pending r hr

theorem Wakeups.moves (h : Wakeups k) (hi : Inv k) (hm : Moves isLock k k') : Wakeups k' := by
  have hswitch : ∀ {k₁ k₂ : Kernel θ σ}, Switches k₁ k₂ → Wakeups k₁ → Wakeups k₂ := by
    intro k₁ k₂ hs hk
    obtain ⟨hsema, hplace, -, -, -, hwoken⟩ := hs.frame
    exact hk.stays hsema hwoken fun t s => by rw [hplace]
  have hfree : ∀ s, ¬ InLoop s (.free : Place σ) := by simp [InLoop]
  cases hm with
  | create _ _ => exact h.stays rfl rfl fun _ _ => .rfl
  | start _ _ => exact h.stays rfl rfl fun _ _ => .rfl
  | yield _ hs => exact hswitch hs (h.stays rfl rfl fun _ _ => .rfl)
  | idleYield _ hs => exact hswitch hs (h.stays rfl rfl fun _ _ => .rfl)
  | exit _ _ hs => exact hswitch hs (h.stays rfl rfl fun _ _ => .rfl)
  | block hp _ hs =>
    exact hswitch hs (h.stays rfl rfl (inLoop_update (fun s => hp ▸ hfree s) (by simp [InLoop])))
  | idleBlock _ hs => exact hswitch hs (h.stays rfl rfl fun _ _ => .rfl)
  | @wake t hp _ =>
    have hloop : ∀ s, ¬ InLoop s (k.place t) := by simp [InLoop, hp]
    exact h.stays rfl rfl (inLoop_update hloop hfree)
  | idle _ _ => exact h.stays rfl rfl fun _ _ => .rfl
  | through ht _ hp _ => exact h.through ht hp
  | sleep ht _ hp hv hs => exact hswitch hs ((h.sleep ht hp hv).stays rfl rfl fun _ _ => .rfl)
  | taken _ hv => exact h.lowered _
  | tried _ _ hp hv =>
    exact (h.lowered _).stays rfl rfl (inLoop_update (fun s => hp ▸ hfree s) (by simp [InLoop]))
  | failed => exact h
  | up _ hu => exact h.ups hi hu
  | hold hp => exact h.stays rfl rfl (inLoop_update (fun s => by simp [InLoop, hp]) hfree)
  | release _ _ hp _ => exact h.stays rfl rfl (inLoop_update (fun s => hp ▸ hfree s) (by simp [InLoop]))
  | @raise l k₁ hp hu =>
    have hplace : k₁.place = k.place := by cases hu <;> rfl
    have hloop : ∀ s, ¬ InLoop s (k₁.place k.current) := by simp [hplace, InLoop, hp]
    exact (h.ups hi hu).stays rfl rfl (inLoop_update hloop hfree)

/-! ### Locks -/

/-- The thread is past the down of `lock_acquire` or `lock_try_acquire` and before the up of `lock_release`. -/
def Inside (k : Kernel θ σ) (l : σ) (t : θ) : Prop := k.place t = .acquired l ∨ k.holder l = some t ∨ k.place t = .release l

/-- No thread is inside and the value is 1, or one is and the value is 0; and a thread has the lock as its holder only
between `lock_acquire` and `lock_release`. -/
def Exclusive (l : σ) (k : Kernel θ σ) : Prop :=
  ((k.sema l).value = 1 ∧ ∀ t, ¬ Inside k l t) ∨
    ((k.sema l).value = 0 ∧ ∃ t, (∀ u, Inside k l u ↔ u = t) ∧
      (k.holder l = some t → k.place t ≠ .acquired l ∧ k.place t ≠ .release l))

omit [DecidableEq θ] [DecidableEq σ] in
/-- Nothing of the lock changes. -/
theorem Exclusive.stays (h : Exclusive l k) (hv : (k'.sema l).value = (k.sema l).value) (hh : k'.holder l = k.holder l)
    (hp : ∀ t, (k'.place t = .acquired l ↔ k.place t = .acquired l) ∧ (k'.place t = .release l ↔ k.place t = .release l)) :
    Exclusive l k' := by
  have hin : ∀ t, Inside k' l t ↔ Inside k l t := fun t => by rw [Inside, Inside, (hp t).1, (hp t).2, hh]
  rcases h with ⟨h1, hno⟩ | ⟨h0, t, ht, hk⟩
  · exact .inl ⟨hv.trans h1, fun t => (hin t).not.2 (hno t)⟩
  · refine .inr ⟨hv.trans h0, t, fun u => (hin u).trans (ht u), ?_⟩
    rw [hh, ne_eq, ne_eq, (hp t).1, (hp t).2]
    exact hk

omit [DecidableEq σ] in
/-- The thread `u` goes from one place to another, and neither is inside the lock. -/
theorem inside_update {u : θ} {pl : Place σ} (hold : k.place u ≠ .acquired l ∧ k.place u ≠ .release l)
    (hnew : pl ≠ .acquired l ∧ pl ≠ .release l) (t : θ) :
    (Function.update k.place u pl t = .acquired l ↔ k.place t = .acquired l) ∧
      (Function.update k.place u pl t = .release l ↔ k.place t = .release l) := by
  rw [Function.update_apply]
  split_ifs with ht
  · rw [ht]
    exact ⟨iff_of_false hnew.1 hold.1, iff_of_false hnew.2 hold.2⟩
  · exact ⟨.rfl, .rfl⟩

omit [DecidableEq σ] in
/-- The current thread gets through the down. -/
theorem Exclusive.enter (h : Exclusive l k) (hv : (k.sema l).value ≠ 0) (hv' : (k'.sema l).value = (k.sema l).value - 1)
    (hh : k'.holder = k.holder) (hp : k'.place = Function.update k.place k.current (.acquired l)) : Exclusive l k' := by
  obtain ⟨h1, hno⟩ := h.resolve_right fun h => hv h.1
  refine .inr ⟨by rw [hv', h1], k.current, fun u => ?_, fun hc => ?_⟩
  · have hu := hno u
    simp only [Inside, hh, hp, Function.update_apply] at hu ⊢
    grind
  · rw [hh] at hc
    exact absurd (.inr (.inl hc)) (hno k.current)

/-- The holder of the lock is set. -/
theorem Exclusive.hold (h : Exclusive l k) (hp : k.place k.current = .acquired l) :
    Exclusive l { k.setPlace k.current .free with holder := Function.update k.holder l (some k.current) } := by
  rcases h with ⟨-, hno⟩ | ⟨h0, t, ht, -⟩
  · exact absurd (.inl hp) (hno k.current)
  · obtain rfl := (ht _).1 (.inl hp)
    refine .inr ⟨h0, k.current, fun u => ?_, fun _ => ?_⟩
    · have hu := ht u
      simp only [Inside, setPlace, Function.update_apply] at hu ⊢
      grind
    · simp [setPlace]

/-- The holder of the lock is cleared. -/
theorem Exclusive.release (h : Exclusive l k) (hh : k.holder l = some k.current) :
    Exclusive l { k.setPlace k.current (.release l) with holder := Function.update k.holder l none } := by
  rcases h with ⟨-, hno⟩ | ⟨h0, t, ht, -⟩
  · exact absurd (.inr (.inl hh)) (hno k.current)
  · obtain rfl := (ht _).1 (.inr (.inl hh))
    refine .inr ⟨h0, k.current, fun u => ?_, fun hc => ?_⟩
    · have hu := ht u
      simp only [Inside, setPlace, Function.update_apply] at hu ⊢
      grind
    · simp only [Function.update_self] at hc
      cases hc

/-- The up of `lock_release`. -/
theorem Exclusive.raise (h : Exclusive l k) (hp : k.place k.current = .release l) (hu : Ups l k k') :
    Exclusive l (k'.setPlace k.current .free) := by
  have hplace : k'.place = k.place := by cases hu <;> rfl
  have hholder : k'.holder = k.holder := by cases hu <;> rfl
  have hvalue : (k'.sema l).value = ((k.sema l).value + 1) % 2 ^ 32 := by
    cases hu <;> simp only [raised, readied, popped, setSema, setStatus, Function.update_self]
  rcases h with ⟨-, hno⟩ | ⟨h0, t, ht, hk⟩
  · exact absurd (.inr (.inr hp)) (hno k.current)
  · obtain rfl := (ht _).1 (.inr (.inr hp))
    refine .inl ⟨?_, fun u => ?_⟩
    · exact hvalue.trans (by simp [h0])
    · have hu := ht u
      simp only [Inside, setPlace, Function.update_apply, hplace, hholder] at hu ⊢
      grind

/-- A semaphore that is not the lock's. -/
theorem Ups.other (h : Ups s k k') (hs : s ≠ l) :
    (k'.sema l).value = (k.sema l).value ∧ k'.holder = k.holder ∧ k'.place = k.place := by
  cases h <;> simp only [raised, readied, popped, setSema, setStatus, Function.update_of_ne hs.symm, and_self]

omit [DecidableEq θ] in
theorem lowered_other (hs : l ≠ s) : ((k.lowered s).sema l).value = (k.sema l).value := by
  simp only [lowered, setSema, Function.update_of_ne hs]

omit [DecidableEq θ] in
theorem lowered_self : ((k.lowered l).sema l).value = (k.sema l).value - 1 := by
  simp only [lowered, setSema, Function.update_self]

omit [DecidableEq θ] [DecidableEq σ] in
/-- A thread that is about to test the value of a semaphore is in no lock's code past the down. -/
theorem Turn.outside {waiting past : Place σ} (h : Turn isLock s waiting past)
    (hp : k.place k.current = .free ∨ k.place k.current = waiting) (l : σ) :
    k.place k.current ≠ .acquired l ∧ k.place k.current ≠ .release l := by
  cases h with
  | sema _ => rcases hp with hp | hp <;> simp [hp]
  | lock _ => rcases hp with hp | hp <;> simp [hp]

/-- **Every step keeps the threads out of a lock that one of them is in.** -/
theorem Exclusive.moves (h : Exclusive l k) (hl : isLock l) (hm : Moves isLock k k') : Exclusive l k' := by
  have hswitch : ∀ {k₁ k₂ : Kernel θ σ}, Switches k₁ k₂ → Exclusive l k₁ → Exclusive l k₂ := by
    intro k₁ k₂ hs hk
    obtain ⟨hsema, hplace, hholder, -, -, -⟩ := hs.frame
    exact hk.stays (by rw [hsema]) (by rw [hholder]) fun t => by rw [hplace]; exact ⟨.rfl, .rfl⟩
  have hfree : (.free : Place σ) ≠ .acquired l ∧ (.free : Place σ) ≠ .release l := by simp
  cases hm with
  | create _ _ => exact h.stays rfl rfl fun _ => ⟨.rfl, .rfl⟩
  | start _ _ => exact h.stays rfl rfl fun _ => ⟨.rfl, .rfl⟩
  | yield _ hs => exact hswitch hs (h.stays rfl rfl fun _ => ⟨.rfl, .rfl⟩)
  | idleYield _ hs => exact hswitch hs (h.stays rfl rfl fun _ => ⟨.rfl, .rfl⟩)
  | exit _ _ hs => exact hswitch hs (h.stays rfl rfl fun _ => ⟨.rfl, .rfl⟩)
  | block hp _ hs =>
    exact hswitch hs (h.stays rfl rfl (inside_update (hp ▸ hfree) (by simp)))
  | idleBlock _ hs => exact hswitch hs (h.stays rfl rfl fun _ => ⟨.rfl, .rfl⟩)
  | @wake t hp _ =>
    have hout : k.place t ≠ .acquired l ∧ k.place t ≠ .release l := by simp [hp]
    exact h.stays rfl rfl (inside_update hout hfree)
  | idle _ _ => exact h.stays rfl rfl fun _ => ⟨.rfl, .rfl⟩
  | @through s waiting past ht _ hp hv =>
    have hout := ht.outside hp l
    by_cases hs : l = s
    · subst hs
      cases ht with
      | sema hn => exact absurd hl hn
      | lock _ => exact h.enter hv lowered_self rfl rfl
    · refine h.stays (lowered_other hs) rfl (inside_update hout ?_)
      cases ht with
      | sema _ => exact hfree
      | lock _ => simp [Ne.symm hs]
  | @sleep s waiting past _ ht _ hp hv hs =>
    have hwait : waiting ≠ .acquired l ∧ waiting ≠ .release l := by
      cases ht with
      | sema _ => simp
      | lock _ => simp
    refine hswitch hs (h.stays ?_ rfl (inside_update (ht.outside hp l) hwait))
    simp only [tested, queued, setSema, setPlace, setStatus, Function.update_apply]
    split_ifs with hs
    · rw [hs]
    · rfl
  | @taken s hs hv => exact h.stays (lowered_other fun h => hs (h ▸ hl)) rfl fun _ => ⟨.rfl, .rfl⟩
  | @tried s _ _ hp hv =>
    by_cases hs : l = s
    · subst hs
      exact h.enter hv.ne' lowered_self rfl rfl
    · exact h.stays (lowered_other hs) rfl (inside_update (hp ▸ hfree) (by simp [Ne.symm hs]))
  | failed => exact h
  | up hs hu =>
    obtain ⟨hv, hh, hp⟩ := hu.other fun h => hs (h ▸ hl)
    exact h.stays hv (by rw [hh]) fun _ => by rw [hp]; exact ⟨.rfl, .rfl⟩
  | @hold s hp => 
    by_cases hs : l = s
    · subst hs
      exact h.hold hp
    · have hout : k.place k.current ≠ .acquired l ∧ k.place k.current ≠ .release l := by simp [hp, Ne.symm hs]
      exact h.stays rfl (Function.update_of_ne hs ..) (inside_update hout hfree)
  | @release s _ _ hp hh =>
    by_cases hs : l = s
    · subst hs
      exact h.release hh
    · exact h.stays rfl (Function.update_of_ne hs ..) (inside_update (hp ▸ hfree) (by simp [Ne.symm hs]))
  | @raise s k₁ hp hu =>
    by_cases hs : s = l
    · subst hs
      exact h.raise hp hu
    · obtain ⟨hv, hh, hplace⟩ := hu.other hs
      have hout : k₁.place k.current ≠ .acquired l ∧ k₁.place k.current ≠ .release l := by simp [hplace, hp, hs]
      have h₁ : Exclusive l k₁ := h.stays hv (by rw [hh]) fun _ => by rw [hplace]; exact ⟨.rfl, .rfl⟩
      exact h₁.stays rfl rfl (inside_update hout hfree)

/-! ### Every run -/

/-- **The invariant.** -/
structure Sound (isLock : σ → Prop) (value : σ → Fin (2 ^ 32)) (k : Kernel θ σ) : Prop extends Inv k, Wakeups k where
  tally : Tally value k
  locks : ∀ l, isLock l → Exclusive l k

omit [DecidableEq σ] in
theorem Sound.boot (hlocks : ∀ l, isLock l → value l = 1) : Sound isLock value (boot main value) where
  toInv := .boot
  nodup s := List.nodup_nil
  woken s t := iff_of_false List.not_mem_nil fun h => by simp [InLoop, Kernel.boot] at h
  pending s hs := absurd rfl hs
  tally s := ⟨(value s).2, (Nat.zero_add _).le, congrArg (· % 2 ^ 32) (Nat.zero_add _).symm⟩
  locks l hl := .inl ⟨congrArg Fin.val (hlocks l hl), fun t h => by simp [Inside, Kernel.boot] at h⟩

theorem Sound.reaches (hlocks : ∀ l, isLock l → value l = 1) (h : Reaches isLock main value k) :
    Sound isLock value k := by
  apply Run.invariant h (Sound.boot hlocks)
  intro a t ht hg
  refine wp_post (step_moves a hg) fun _ u hm => ?_
  exact { ht.toInv.moves hm, ht.toWakeups.moves ht.toInv hm with
    tally := ht.tally.moves hm
    locks := fun l hl => (ht.locks l hl).moves hl hm }

/-- **Semaphores and locks, over every order of the steps.** The value of a semaphore is its initial value with the
ups added and the downs taken away, modulo the range of an `unsigned`, and there are no more downs than units; one
thread at a time is inside a lock, whose value is then 0; and while threads wait, the value is at most the number of
threads that were woken and have not tested it again, which are those that are in the loop and do not wait. -/
theorem reaches_counts (hlocks : ∀ l, isLock l → value l = 1) (h : Reaches isLock main value k) :
    (∀ s, k.downs s ≤ value s + k.ups s ∧ (k.sema s).value = (value s + k.ups s - k.downs s) % 2 ^ 32) ∧
      (∀ l, isLock l → ∀ t, Inside k l t → (k.sema l).value = 0 ∧ ∀ u, Inside k l u → u = t) ∧
      ∀ s, (k.woken s).Nodup ∧ (∀ t, t ∈ k.woken s ↔ InLoop s (k.place t) ∧ t ∉ (k.sema s).waiters) ∧
        ((k.sema s).waiters ≠ [] → (k.sema s).value ≤ (k.woken s).length) := by
  have hk := Sound.reaches hlocks h
  refine ⟨hk.tally.value_eq, fun l hl t ht => ?_, fun s => ⟨hk.nodup s, hk.woken s, hk.pending s⟩⟩
  rcases hk.locks l hl with ⟨-, hno⟩ | ⟨h0, u, hu, -⟩
  · exact absurd ht (hno t)
  · refine ⟨h0, fun v hv => ?_⟩
    rw [(hu v).1 hv, (hu t).1 ht]

/-- The thread 1 sleeps on a lock that the thread 0 holds, and has been woken by the release. -/
theorem reaches_counts_woken : ∃ k : Kernel ℕ ℕ, k.woken 0 = [1] ∧
    (∀ s, k.downs s ≤ 1 + k.ups s ∧ (k.sema s).value = (1 + k.ups s - k.downs s) % 2 ^ 32) ∧
      (∀ l, True → ∀ t, Inside k l t → (k.sema l).value = 0 ∧ ∀ u, Inside k l u → u = t) ∧
      ∀ s, (k.woken s).Nodup ∧ (∀ t, t ∈ k.woken s ↔ InLoop s (k.place t) ∧ t ∉ (k.sema s).waiters) ∧
        ((k.sema s).waiters ≠ [] → (k.sema s).value ≤ (k.woken s).length) := by
  have h₀ : Reaches (fun _ : ℕ => True) 0 (fun _ => 1) (boot 0 fun _ => 1) := .refl _
  have h₁ := h₀.step (.create 1) ⟨by decide, nofun⟩ rfl
  have h₂ := h₁.step (.start 1) rfl rfl
  have h₃ := h₂.step (.acquire 0) ⟨trivial, nofun, .inl rfl⟩ rfl
  have h₄ := h₃.step (.hold 0) rfl rfl
  have h₅ := h₄.step .yield trivial rfl
  have h₆ := h₅.step (.acquire 0) ⟨trivial, nofun, .inl rfl⟩ rfl
  have h₇ := h₆.step (.release 0) ⟨trivial, nofun, rfl⟩ rfl
  have h₈ := h₇.step (.raise 0) rfl rfl
  exact ⟨_, rfl, reaches_counts (fun _ _ => rfl) h₈⟩

/-- A thread that does nothing but up a semaphore. -/
theorem reaches_ups (n : ℕ) : ∃ k : Kernel ℕ ℕ, Reaches (fun _ => False) 0 (fun _ => 0) k ∧
    (k.sema 0).waiters = [] ∧ (k.sema 0).value = n % 2 ^ 32 ∧ k.ups 0 = n ∧ k.downs 0 = 0 := by
  induction n with
  | zero => exact ⟨boot 0 fun _ => 0, .refl _, rfl, rfl, rfl, rfl⟩
  | succ n ih =>
    obtain ⟨k, hk, hw, hv, hu, hd⟩ := ih
    have hwp : wp (step (.up 0)) (fun _ k' => k' = k.raised 0) (fun _ => False) k := by
      rw [step, semaUp, wp_bind, semaWake, wp_bind, wp_gets, hw, wp_pure, wp_modify]
      rfl
    obtain ⟨⟨⟩, _, hup, rfl⟩ := exists_ok hwp
    refine ⟨k.raised 0, hk.step (.up 0) id hup, by rw [raised_waiters, hw], ?_, ?_, hd⟩
    · simp only [raised, setSema, Function.update_self, hv]
      omega
    · simp only [raised, Function.update_self, hu]

/-- **The value is an `unsigned`**: after `2 ^ 32` ups it is 0 again. -/
theorem value_wraps : ¬ ∀ k : Kernel ℕ ℕ, Reaches (fun _ => False) 0 (fun _ => 0) k → ∀ s,
    ((k.sema s).value : ℤ) = 0 + k.ups s - k.downs s := by
  intro h
  obtain ⟨k, hk, -, hv, hu, hd⟩ := reaches_ups (2 ^ 32)
  have hs := h k hk 0
  rw [hv, hu, hd] at hs
  omega

end Pintos.Kernel
