import Pintos.Devices.Intq
import Pintos.Library.Rings

/-!
# Interrupt queues are first in, first out

Whatever the threads and the interrupt handlers do, the bytes that `intq_getc` has
returned are the first of those that were put, in order, and the buffer holds the others:
a call that waits does not touch the buffer, and one that comes to its end puts a byte
behind the others or takes the first.
-/

namespace Pintos.Intq

open Library Library.Prog

variable {θ : Type} [DecidableEq θ]

/-- What the buffer holds. -/
def contents (q : Intq θ) : List UInt8 := ring intqBufsize q.buf q.head q.tail

/-- The byte that a call puts. -/
def Op.puts : Op → List UInt8
  | .putc byte => [byte]
  | .getc => []

/-- The call that a stretch brings to its end, unless it blocks. -/
def completes (a : Action θ) (q : Intq θ) : Option Op :=
  match a with
  | .call _ op => if Blocked q op.cond then none else some op
  | .handler op => if Blocked q op.cond then none else some op
  | .resume t =>
    match q.stage t with
    | .signalled op => if Blocked q op.cond then none else some op
    | _ => none

/-- The byte that a stretch puts. -/
def puts (a : Action θ) (q : Intq θ) : List UInt8 := ((completes a q).map Op.puts).getD []

/-- **A run of the queue**, with the bytes that were put and those that `intq_getc` returned. -/
inductive Logged : Intq θ → List UInt8 → List UInt8 → Prop
  /-- `intq_init`. -/
  | init (buf : ℕ → UInt8) : Logged (intqInit buf) [] []
  /-- One more stretch. -/
  | step {q q' : Intq θ} {ins outs : List UInt8} {a : Action θ} {byte : Option UInt8} : Logged q ins outs → Guard a q →
      Intq.step a q = .ok (byte, q') → Logged q' (ins ++ puts a q) (outs ++ byte.toList)

variable {q q' : Intq θ} {t : θ} {op : Op} {c : Cond} {ins outs : List UInt8}

theorem Logged.reaches (h : Logged q ins outs) : Reaches q := by
  induction h with
  | init buf => exact ⟨buf, .refl _⟩
  | step _ hg hs ih => exact ih.step _ hg hs

/-! ### What does not touch the buffer -/

/-- The buffer is the same. -/
def SameBuffer (q q' : Intq θ) : Prop := q'.buf = q.buf ∧ q'.head = q.head ∧ q'.tail = q.tail

omit [DecidableEq θ] in
instance sameBuffer_preorder : IsPreorder (Intq θ) SameBuffer where
  refl _ := ⟨rfl, rfl, rfl⟩
  trans _ _ _ h h' := ⟨h'.1.trans h.1, h'.2.1.trans h.2.1, h'.2.2.trans h.2.2⟩

omit [DecidableEq θ] in
theorem SameBuffer.contents (h : SameBuffer q q') : q'.contents = q.contents := by
  unfold Intq.contents
  rw [h.1, h.2.1, h.2.2]

omit [DecidableEq θ] in
theorem SameBuffer.blocked (h : SameBuffer q q') (c : Cond) : Blocked q' c ↔ Blocked q c := by
  obtain ⟨-, hh, ht⟩ := h
  cases c with
  | notFull =>
    change next q'.head = q'.tail ↔ next q.head = q.tail
    rw [hh, ht]
  | notEmpty =>
    change q'.head = q'.tail ↔ q.head = q.tail
    rw [hh, ht]

omit [DecidableEq θ] in
theorem sameBuffer_setWaiter (c : Cond) (w : Option θ) (q : Intq θ) : SameBuffer q (q.setWaiter c w) := by
  cases c <;> exact ⟨rfl, rfl, rfl⟩

theorem leads_unblockWaiting (u : θ) : Leads SameBuffer (unblockWaiting u) := by
  refine Leads.bind (Leads.gets _) fun stage => ?_
  split
  · exact Leads.modify fun q => ⟨rfl, rfl, rfl⟩
  · exact Leads.stop _

theorem leads_signal (c : Cond) : Leads SameBuffer (signal (θ := θ) c) := by
  refine Leads.bind (Leads.gets _) fun q => ?_
  refine Leads.ite (Leads.stop _) ?_
  split
  · exact Leads.pure _
  · exact Leads.bind (leads_unblockWaiting _) fun _ => Leads.modify fun q => sameBuffer_setWaiter c none q

theorem leads_wait (t : θ) (op : Op) : Leads SameBuffer (wait t op) := by
  refine Leads.bind (Leads.gets _) fun q => ?_
  refine Leads.ite (Leads.modify fun q => ?_) (Leads.stop _)
  obtain ⟨hb, hh, ht⟩ := sameBuffer_setWaiter op.cond (some t) q
  exact ⟨hb, hh, ht⟩

theorem leads_lockTurn (t : θ) (op : Op) : Leads SameBuffer (lockTurn t op) := by
  refine Leads.bind (Leads.gets _) fun lock => ?_
  refine Leads.bind (Leads.modify fun q => ⟨rfl, rfl, rfl⟩) fun _ => ?_
  refine Leads.ite (Leads.bind (Leads.modify fun q => ⟨rfl, rfl, rfl⟩) fun _ => leads_wait t op) ?_
  exact Leads.modify fun q => ⟨rfl, rfl, rfl⟩

theorem leads_lockAcquire (t : θ) (op : Op) : Leads SameBuffer (lockAcquire t op) :=
  Leads.bind (Leads.gets _) fun _ => Leads.ite (Leads.stop _) (leads_lockTurn t op)

theorem leads_lockWake : Leads SameBuffer (lockWake (θ := θ)) := by
  refine Leads.bind (Leads.gets _) fun lock => ?_
  split
  · exact Leads.pure _
  · refine Leads.bind (Leads.gets _) fun stage => ?_
    split
    · exact Leads.modify fun q => ⟨rfl, rfl, rfl⟩
    · exact Leads.stop _

theorem leads_lockRelease (t : θ) : Leads SameBuffer (lockRelease t) := by
  refine Leads.bind (Leads.gets _) fun holder => ?_
  refine Leads.ite ?_ (Leads.stop _)
  refine Leads.bind (Leads.modify fun q => ⟨rfl, rfl, rfl⟩) fun _ => ?_
  exact Leads.bind leads_lockWake fun _ => Leads.modify fun q => ⟨rfl, rfl, rfl⟩

/-! ### What does -/

/-- The buffer before and after a call: a byte that is put comes last, and the one that is returned was the first. -/
def Moves (q : Intq θ) (op : Op) (byte : Option UInt8) (q' : Intq θ) : Prop :=
  q.contents ++ op.puts = byte.toList ++ q'.contents ∧ (byte.isSome ↔ op = .getc)

/-- **A call that does not block.** -/
theorem transfer_moves (h : Inv q) (hb : ¬ Blocked q op.cond) :
    wp (transfer op) (fun byte q' => Moves q op byte q') (fun _ => True) q := by
  cases op with
  | getc =>
    rw [transfer, wp_bind, wp_gets, wp_bind, wp_modify, wp_bind]
    refine wp_post (leads_signal .notFull _) fun _ q' hs => ⟨?_, by simp⟩
    rw [hs.contents]
    have htake := @ring_take _ _ _ _ q.buf h.head h.tail hb
    simp only [Op.puts, List.append_nil, Option.toList_some, List.singleton_append]
    exact htake
  | putc byte =>
    rw [transfer, wp_bind, wp_modify, wp_bind]
    refine wp_post (leads_signal .notEmpty _) fun _ q' hs => ⟨?_, by simp⟩
    rw [hs.contents]
    exact (ring_put h.head h.tail hb byte).symm

/-- The bytes before and after a stretch. -/
def Flows (a : Action θ) (q : Intq θ) (byte : Option UInt8) (q' : Intq θ) : Prop :=
  q.contents ++ puts a q = byte.toList ++ q'.contents

theorem loop_flows (h : Inv q) : wp (loop t op)
    (fun byte q' => q.contents ++ (if Blocked q op.cond then [] else op.puts) = byte.toList ++ q'.contents) (fun _ => True) q := by
  rw [loop, wp_bind, wp_gets, wp_ite]
  constructor
  · intro hb
    have hb' : Blocked q op.cond := hb
    rw [wp_bind]
    refine wp_post (leads_lockAcquire t op q) fun _ q' hs => ?_
    rw [wp_pure, if_pos hb', List.append_nil, hs.contents]
    rfl
  · intro hb
    have hb' : ¬ Blocked q op.cond := hb
    refine wp_post (transfer_moves h hb') fun byte q' hm => ?_
    rw [if_neg hb']
    exact hm.1

omit [DecidableEq θ] in
theorem puts_of_completes {a : Action θ} (h : completes a q = if Blocked q op.cond then none else some op) :
    puts a q = if Blocked q op.cond then [] else op.puts := by
  rw [puts, h]
  split_ifs <;> rfl

/-- **One stretch** appends the byte that is put, and returns the first one if it returns any. -/
theorem step_flows (h : Inv q) {a : Action θ} (hg : Guard a q) :
    wp (Intq.step a) (fun byte q' => Flows a q byte q') (fun _ => True) q := by
  cases a with
  | call t op =>
    refine wp_post (loop_flows h) fun byte q' hf => ?_
    rw [Flows, @puts_of_completes _ q op _ rfl]
    exact hf
  | handler op =>
    rw [Intq.step, wp_bind, wp_gets, wp_ite]
    refine ⟨fun hb => absurd hb hg, fun hb => wp_post (transfer_moves h hb) fun byte q' hm => ?_⟩
    have hb' : ¬ Blocked q op.cond := hb
    rw [Flows, @puts_of_completes _ q op _ rfl, if_neg hb']
    exact hm.1
  | resume t =>
    obtain ⟨op, hs | hs⟩ := hg
    · rw [Intq.step, resume, wp_bind, wp_gets, hs]
      dsimp only
      rw [wp_bind]
      refine wp_post (leads_lockTurn t op q) fun _ q' hsame => ?_
      rw [wp_pure, Flows, puts, completes, hs, hsame.contents]
      exact List.append_nil _
    · rw [Intq.step, resume, wp_bind, wp_gets, hs]
      dsimp only
      have hrel : wp (lockRelease t) (fun _ q₁ => (Inv (q₁.setStage t .out) ∧ ∀ c, q₁.waiter c = q.waiter c) ∧ SameBuffer q q₁)
          (fun e => False ∧ True) q := wp_and (lockRelease_spec h hs) (leads_lockRelease t q)
      refine wp_seq hrel (fun _ _ => trivial) fun _ q₁ hpost => ?_
      obtain ⟨⟨h₁, _⟩, hsame⟩ := hpost
      rw [wp_bind, wp_modify]
      refine wp_post (loop_flows h₁) fun byte q' hf => ?_
      have hsame' : SameBuffer q (q₁.setStage t .out) := hsame
      rw [Flows, @puts_of_completes _ q op _ (by rw [completes, hs])]
      rw [hsame'.contents, if_congr (hsame'.blocked op.cond) rfl rfl] at hf
      exact hf

/-- **First in, first out**: what was put is what was returned, and behind it what the buffer holds. -/
theorem Logged.fifo (h : Logged q ins outs) : ins = outs ++ q.contents := by
  induction h with
  | init buf => rfl
  | @step q q' ins outs a byte hl hg hs ih =>
    have hf := wp_of_ok (step_flows (Inv.reaches hl.reaches) hg) hs
    rw [ih, List.append_assoc, hf, List.append_assoc]

/-- What a call returns: the first byte, or nothing. -/
def Op.returns (held : List UInt8) : Op → Option UInt8
  | .getc => held.head?
  | .putc _ => none

/-- A call that need not wait comes to its end. -/
theorem transfer_returns (h : Inv q) (hb : ¬ Blocked q op.cond) :
    ∃ q', transfer op q = .ok (op.returns q.contents, q') := by
  obtain ⟨byte, q', hrun, hmoves, hsome⟩ :=
    exists_ok (wp_mono (wp_and (transfer_spec h hb) (transfer_moves h hb)) (fun _ _ hq => hq.2) fun _ he => he.1)
  refine ⟨q', ?_⟩
  rw [hrun]
  cases op with
  | getc =>
    obtain ⟨x, rfl⟩ := Option.isSome_iff_exists.1 (hsome.2 rfl)
    rw [Op.puts, List.append_nil] at hmoves
    rw [Op.returns, hmoves]
    rfl
  | putc x =>
    cases byte with
    | none => rfl
    | some y => exact absurd (hsome.1 rfl) (by simp)

/-- **An interrupt queue is first in, first out.** In every run, the bytes that were returned are the first of those that were
put, in order; the buffer holds the others, at most 63; it is empty when there are none and full when there are 63; and a call
that need not wait, in a thread or a handler, comes to its end, and returns the first byte that is held. -/
theorem intq_fifo (h : Logged q ins outs) : ∃ held, ins = outs ++ held ∧ held.length ≤ intqBufsize - 1 ∧
    (intqEmpty q ↔ held.length = 0) ∧ (intqFull q ↔ held.length = intqBufsize - 1) ∧
    ∀ op, ¬ Blocked q op.cond → (∃ q', Intq.step (.handler op) q = .ok (op.returns held, q')) ∧
      ∀ t, q.stage t = .out → ∃ q', Intq.step (.call t op) q = .ok (op.returns held, q') := by
  have hi := Inv.reaches h.reaches
  have hlt := ringLength_lt hi.head hi.tail
  refine ⟨q.contents, h.fifo, ?_, ?_, ?_, fun op hb => ?_⟩
  · rw [contents, length_ring]
    omega
  · rw [contents, length_ring, ringLength_eq_zero hi.tail]
    rfl
  · rw [contents, length_ring, ringLength_full hi.head hi.tail]
    rfl
  · obtain ⟨q', hrun⟩ := transfer_returns hi hb
    have hloop : ∀ t, loop t op q = transfer op q := by
      intro t
      change (if Blocked q op.cond then _ else transfer op : IntqM θ (Option UInt8)) q = _
      rw [if_neg hb]
    have hhandler : Intq.step (.handler op) q = transfer op q := by
      change (if Blocked q op.cond then _ else transfer op : IntqM θ (Option UInt8)) q = _
      rw [if_neg hb]
    exact ⟨⟨q', hhandler.trans hrun⟩, fun t _ => ⟨q', (hloop t).trans hrun⟩⟩

/-- Two bytes are put, and one is taken. -/
theorem intq_fifo_two : ∃ q : Intq ℕ, Logged q [97, 98] [97] ∧ ∃ held : List UInt8, [97, 98] = [97] ++ held ∧ held.length ≤ intqBufsize - 1 ∧
    (intqEmpty q ↔ held.length = 0) ∧ (intqFull q ↔ held.length = intqBufsize - 1) := by
  have h₀ : Logged (intqInit fun _ => 0 : Intq ℕ) [] [] := .init _
  have h₁ := h₀.step (a := .call 0 (.putc 97)) rfl rfl
  have h₂ := h₁.step (a := .handler (.putc 98)) (Nat.succ_ne_zero 1) rfl
  have h₃ := h₂.step (a := .call 0 .getc) rfl rfl
  obtain ⟨held, hheld, hle, hempty, hfull, -⟩ := intq_fifo h₃
  exact ⟨_, h₃, held, hheld, hle, hempty, hfull⟩

end Pintos.Intq
