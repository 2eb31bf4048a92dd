import Mathlib.Algebra.Order.Ring.Int
import Mathlib.Order.Defs.Unbundled
import Mathlib.Tactic.Common

/-!
# Programs that may stop

A program over a state `σ` either returns a value and a new state, or stops with
a reason of type `ε`. `wp m Q E s` says of a program `m` started in `s` that it
returns only as `Q` allows and stops only for reasons that `E` allows: partial
correctness is `E = ⊤`, total correctness is `E = ⊥`, and a condition in between
says exactly when the program stops.

A run is a sequence of operations that all return, each started in a state that
its guard admits; `Run.invariant` carries a property along a whole run from what
one operation preserves.
-/

namespace Pintos.Library

variable {σ τ ε α β ι : Type}

/-- A program: from a state, a value and a new state, or a reason for stopping. -/
def Prog (σ ε α : Type) : Type := σ → Except ε (α × σ)

namespace Prog

instance : Monad (Prog σ ε) where
  pure a := fun s => .ok (a, s)
  bind m f := fun s =>
    match m s with
    | .ok (a, s') => f a s'
    | .error e => .error e

/-- Stop for the reason `e`. -/
def stop (e : ε) : Prog σ ε α := fun _ => .error e

/-- Read from the state. -/
def gets (f : σ → α) : Prog σ ε α := fun s => .ok (f s, s)

/-- Change the state. -/
def modify (f : σ → σ) : Prog σ ε Unit := fun s => .ok ((), f s)

/-- The value of an option, stopping for the reason `e` when there is none. -/
def orStop (o : Option α) (e : ε) : Prog σ ε α :=
  match o with
  | some a => pure a
  | none => stop e

/-- `if c then m`, with nothing to do otherwise. -/
def onlyIf (c : Prop) [Decidable c] (m : Prog σ ε Unit) : Prog σ ε Unit := if c then m else pure ()

/-- Run a program over a part of the state, which `get` reads and `put` replaces. -/
def within (get : τ → σ) (put : σ → τ → τ) (m : Prog σ ε α) : Prog τ ε α := fun t =>
  match m (get t) with
  | .ok (a, s) => .ok (a, put s t)
  | .error e => .error e

/-! ### Weakest preconditions -/

/-- **What a program does from `s`**: it returns only as `Q` allows, and stops only as `E`
allows. -/
def wp (m : Prog σ ε α) (Q : α → σ → Prop) (E : ε → Prop) (s : σ) : Prop :=
  match m s with
  | .ok (a, s') => Q a s'
  | .error e => E e

section Rules

variable {m : Prog σ ε α} {f : α → Prog σ ε β} {Q Q' : α → σ → Prop} {R : β → σ → Prop} {E E' : ε → Prop} {s : σ}

@[simp] theorem wp_pure (a : α) : wp (pure a : Prog σ ε α) Q E s ↔ Q a s := Iff.rfl

@[simp] theorem wp_stop (e : ε) : wp (stop e : Prog σ ε α) Q E s ↔ E e := Iff.rfl

@[simp] theorem wp_gets (g : σ → α) : wp (gets g : Prog σ ε α) Q E s ↔ Q (g s) s := Iff.rfl

@[simp] theorem wp_modify (g : σ → σ) {P : Unit → σ → Prop} :
    wp (modify g : Prog σ ε Unit) P E s ↔ P () (g s) := Iff.rfl

@[simp] theorem wp_bind : wp (m >>= f) R E s ↔ wp m (fun a s' => wp (f a) R E s') E s := by
  change (match (match m s with
    | .ok (a, s') => f a s'
    | .error e => .error e) with
    | .ok (a, s') => R a s'
    | .error e => E e) ↔ _
  unfold wp
  cases m s <;> rfl

@[simp] theorem wp_orStop (o : Option α) (e : ε) :
    wp (orStop o e : Prog σ ε α) Q E s ↔ (∀ a, o = some a → Q a s) ∧ (o = none → E e) := by
  cases o <;> simp [orStop]

theorem wp_orStop_some (a : α) (e : ε) : wp (orStop (some a) e : Prog σ ε α) Q E s ↔ Q a s := Iff.rfl

theorem wp_onlyIf {c : Prop} [Decidable c] {n : Prog σ ε Unit} {P : Unit → σ → Prop} :
    wp (onlyIf c n) P E s ↔ (c → wp n P E s) ∧ (¬ c → P () s) := by
  unfold onlyIf
  by_cases hc : c <;> simp [hc]

theorem wp_ite {c : Prop} [Decidable c] {n : Prog σ ε α} :
    wp (if c then m else n) Q E s ↔ (c → wp m Q E s) ∧ (¬ c → wp n Q E s) := by
  by_cases hc : c <;> simp [hc]

@[simp] theorem wp_within {get : τ → σ} {put : σ → τ → τ} {P : α → τ → Prop} {t : τ} :
    wp (within get put m) P E t ↔ wp m (fun a s' => P a (put s' t)) E (get t) := by
  unfold wp within
  cases m (get t) <;> rfl

/-- Weaken what is known of the returns and of the stops. -/
theorem wp_mono (h : wp m Q E s) (hQ : ∀ a s', Q a s' → Q' a s') (hE : ∀ e, E e → E' e) : wp m Q' E' s := by
  unfold wp at h ⊢
  cases hm : m s with
  | ok r => rw [hm] at h; exact hQ _ _ h
  | error e => rw [hm] at h; exact hE _ h

/-- Weaken what is known of the returns. -/
theorem wp_post (h : wp m Q E s) (hQ : ∀ a s', Q a s' → Q' a s') : wp m Q' E s :=
  wp_mono h hQ fun _ he => he

/-- A first program, described by its own specification, and then another. -/
theorem wp_seq (h : wp m Q E' s) (hE : ∀ e, E' e → E e) (hf : ∀ a s', Q a s' → wp (f a) R E s') :
    wp (m >>= f) R E s :=
  wp_bind.2 (wp_mono h hf hE)

/-- Two descriptions of one program hold together. -/
theorem wp_and (h : wp m Q E s) (h' : wp m Q' E' s) :
    wp m (fun a s' => Q a s' ∧ Q' a s') (fun e => E e ∧ E' e) s := by
  unfold wp at h h' ⊢
  cases hm : m s with
  | ok r => rw [hm] at h h'; exact ⟨h, h'⟩
  | error e => rw [hm] at h h'; exact ⟨h, h'⟩

theorem wp_of_ok (h : wp m Q E s) {a : α} {s' : σ} (hm : m s = .ok (a, s')) : Q a s' := by
  unfold wp at h
  rw [hm] at h
  exact h

theorem wp_of_error (h : wp m Q E s) {e : ε} (hm : m s = .error e) : E e := by
  unfold wp at h
  rw [hm] at h
  exact h

theorem wp_iff : wp m Q E s ↔ (∀ a s', m s = .ok (a, s') → Q a s') ∧ (∀ e, m s = .error e → E e) := by
  constructor
  · exact fun h => ⟨fun _ _ hm => wp_of_ok h hm, fun _ hm => wp_of_error h hm⟩
  · rintro ⟨hok, herr⟩
    unfold wp
    cases hm : m s with
    | ok r => exact hok _ _ hm
    | error e => exact herr _ hm

/-- A program that cannot stop returns. -/
theorem exists_ok (h : wp m Q (fun _ => False) s) : ∃ a s', m s = .ok (a, s') ∧ Q a s' := by
  cases hm : m s with
  | ok r => exact ⟨r.1, r.2, rfl, wp_of_ok h hm⟩
  | error e => exact (wp_of_error h hm).elim

/-- Nothing is claimed of the program. -/
theorem wp_true : wp m (fun _ _ => True) (fun _ => True) s := by
  unfold wp
  cases m s <;> trivial

end Rules

/-! ### Evaluation -/

/-- The program returns from `s`, and `check` is true of what it returns. -/
def returns (m : Prog σ ε α) (check : α → σ → Bool) (s : σ) : Bool :=
  match m s with
  | .ok (a, s') => check a s'
  | .error _ => false

theorem exists_of_returns {m : Prog σ ε α} {check : α → σ → Bool} {s : σ} (h : m.returns check s = true) :
    ∃ a s', m s = .ok (a, s') ∧ check a s' = true := by
  unfold returns at h
  cases hm : m s with
  | ok r => rw [hm] at h; exact ⟨r.1, r.2, rfl, h⟩
  | error e => rw [hm] at h; cases h

/-- The rest of a program, after a part of it that is known to return. -/
theorem bind_of_ok {m : Prog σ ε α} {f : α → Prog σ ε β} {s s' : σ} {a : α} (h : m s = .ok (a, s')) : (m >>= f) s = f a s' := by
  change (match m s with
    | .ok (a, s') => f a s'
    | .error e => .error e) = _
  rw [h]

/-- The two parts of a program that returned. -/
theorem ok_of_bind {m : Prog σ ε α} {f : α → Prog σ ε β} {s s' : σ} {b : β} (h : (m >>= f) s = .ok (b, s')) :
    ∃ a s₁, m s = .ok (a, s₁) ∧ f a s₁ = .ok (b, s') := by
  cases hm : m s with
  | ok r =>
    rw [bind_of_ok hm] at h
    exact ⟨r.1, r.2, rfl, h⟩
  | error e =>
    change (match m s with
      | .ok (a, s') => f a s'
      | .error e => .error e) = _ at h
    rw [hm] at h
    cases h

/-- The program stops for no other reasons than those of `E`, whatever the state. -/
def StopsFor (E : ε → Prop) (m : Prog σ ε α) : Prop := ∀ s, wp m (fun _ _ => True) E s

namespace StopsFor

variable {m : Prog σ ε α} {f : α → Prog σ ε β} {E : ε → Prop}

theorem pure (a : α) : StopsFor E (Pure.pure a : Prog σ ε α) := fun _ => trivial

theorem gets (g : σ → α) : StopsFor E (Prog.gets g : Prog σ ε α) := fun _ => trivial

theorem modify (g : σ → σ) : StopsFor E (Prog.modify g : Prog σ ε Unit) := fun _ => trivial

theorem stop {e : ε} (he : E e) : StopsFor E (Prog.stop e : Prog σ ε α) := fun _ => he

theorem bind (hm : StopsFor E m) (hf : ∀ a, StopsFor E (f a)) : StopsFor E (m >>= f) := fun s =>
  wp_bind.2 (wp_post (hm s) fun a s' _ => hf a s')

theorem orStop {o : Option α} {e : ε} (he : E e) : StopsFor E (Prog.orStop o e : Prog σ ε α) := by
  cases o with
  | none => exact stop he
  | some a => exact pure a

theorem ite {c : Prop} [Decidable c] {n : Prog σ ε α} (hm : StopsFor E m) (hn : StopsFor E n) :
    StopsFor E (if c then m else n) := by
  split_ifs
  · exact hm
  · exact hn

theorem dite {c : Prop} [Decidable c] {g : c → Prog σ ε α} {n : ¬ c → Prog σ ε α} (hg : ∀ h, StopsFor E (g h))
    (hn : ∀ h, StopsFor E (n h)) : StopsFor E (if h : c then g h else n h) := by
  split_ifs with h
  · exact hg h
  · exact hn h

theorem onlyIf {c : Prop} [Decidable c] {n : Prog σ ε Unit} (hn : StopsFor E n) : StopsFor E (Prog.onlyIf c n) :=
  ite hn (pure ())

theorem within {get : τ → σ} {put : σ → τ → τ} (hm : StopsFor E m) : StopsFor E (Prog.within get put m) := fun t =>
  wp_within.2 (hm (get t))

/-- What the program does, with what is known of its reasons for stopping. -/
theorem wp {s : σ} {Q : α → σ → Prop} {E' : ε → Prop} (hm : StopsFor E m) (h : Prog.wp m Q E' s) :
    Prog.wp m Q (fun e => E' e ∧ E e) s :=
  wp_mono (wp_and h (hm s)) (fun _ _ hq => hq.1) fun _ he => he

end StopsFor

/-! ### What a program does to any state -/

/-- The program returns only in states that `R` relates to the one it was started in, whatever that is. -/
def Leads (R : σ → σ → Prop) (m : Prog σ ε α) : Prop := ∀ s, wp m (fun _ s' => R s s') (fun _ => True) s

namespace Leads

variable {R R' : σ → σ → Prop} {m : Prog σ ε α} {f : α → Prog σ ε β}

theorem stop (e : ε) : Leads R (Prog.stop e : Prog σ ε α) := fun _ => trivial

theorem modify {g : σ → σ} (hg : ∀ s, R s (g s)) : Leads R (Prog.modify g : Prog σ ε Unit) := hg

theorem mono (hm : Leads R m) (hR : ∀ s s', R s s' → R' s s') : Leads R' m := fun s => wp_post (hm s) fun _ s' => hR s s'

theorem ite {c : Prop} [Decidable c] {n : Prog σ ε α} (hm : Leads R m) (hn : Leads R n) : Leads R (if c then m else n) := by
  split_ifs
  · exact hm
  · exact hn

theorem dite {c : Prop} [Decidable c] {g : c → Prog σ ε α} {n : ¬ c → Prog σ ε α} (hg : ∀ h, Leads R (g h))
    (hn : ∀ h, Leads R (n h)) : Leads R (if h : c then g h else n h) := by
  split_ifs with h
  · exact hg h
  · exact hn h

variable [IsPreorder σ R]

theorem pure (a : α) : Leads R (Pure.pure a : Prog σ ε α) := fun s => refl_of R s

theorem gets (g : σ → α) : Leads R (Prog.gets g : Prog σ ε α) := fun s => refl_of R s

theorem orStop (o : Option α) (e : ε) : Leads R (Prog.orStop o e : Prog σ ε α) := by
  cases o with
  | none => exact stop e
  | some a => exact pure a

theorem onlyIf {c : Prop} [Decidable c] {n : Prog σ ε Unit} (hn : Leads R n) : Leads R (Prog.onlyIf c n) := ite hn (pure ())

theorem bind (hm : Leads R m) (hf : ∀ a, Leads R (f a)) : Leads R (m >>= f) := fun s =>
  wp_bind.2 (wp_post (hm s) fun a s' h => wp_post (hf a s') fun _ _ h' => trans_of R h h')

end Leads

end Prog

/-! ### Runs -/

/-- `Run step guard s s'`: a sequence of operations leads from `s` to `s'`, each started in a
state its guard admits, and each returning. -/
inductive Run (step : ι → Prog σ ε α) (guard : ι → σ → Prop) : σ → σ → Prop
  /-- No operation. -/
  | refl (s : σ) : Run step guard s s
  /-- One more operation. -/
  | tail {s t u : σ} {i : ι} {a : α} : Run step guard s t → guard i t → step i t = .ok (a, u) → Run step guard s u

/-- **The invariant rule**: what every admitted operation preserves holds along every run. -/
theorem Run.invariant {step : ι → Prog σ ε α} {guard : ι → σ → Prop} {I : σ → Prop} {s s' : σ}
    (h : Run step guard s s') (hs : I s)
    (hstep : ∀ i t, I t → guard i t → Prog.wp (step i) (fun _ u => I u) (fun _ => True) t) : I s' := by
  induction h with
  | refl => exact hs
  | tail _ hg hr ih => exact Prog.wp_of_ok (hstep _ _ ih hg) hr

end Pintos.Library
