/-
Clocked.Proofs.Session.Counter — what a cycle that cannot be taken leaves.

Once a start went well, the run is `Underway`: its updates are in order, its signals are
bound, and the store's counter is at the last completed cycle, unless a latch can no longer
be sampled. Asking for a cycle then completes it, or is refused without any effect, or fails
because a latch has an unbound input (`Underway.next_cases`). In the last case nothing is
written, but the counter has moved on: it is advanced before the latches are sampled.
-/
import Clocked.Proofs.Session.Recording

namespace Clocked.Session

open Attempt (bind_of_ok)

variable {c : Circuit} {s s' m t' : Session} {r : Run} {t : Nat}

/-! ## 1. The counter in a cycle -/

/-- Cycle 0 is counted as cycle 0. -/
theorem Begun.cycle (h : Begun c s r) (hs : Regular c s) : r.store.cycle = 0 := by
  obtain ⟨σ, r', -, hrun, hp⟩ := Run.firstCycle_values hs.fits h.complete.ordered
    ((Run.whole_blank c).covers 0 c.length_pos)
  have hsame := h.run
  rw [hs.circuit, hrun] at hsame
  cases hsame
  exact hp.cycle

/-- A later cycle is counted as one more. -/
theorem Advanced.cycle (h : Advanced c s r) (hs : Regular c s) (hlt : s.upcoming < c.length) :
    r.store.cycle = s.run.store.cycle + 1 := by
  have hord := h.complete.ordered
  obtain ⟨σ, r', hrun, hp⟩ := Run.laterCycle_success hs.fits hord hlt h.sampled
    ((hs.whole hord).covers _ hlt)
  have hsame := h.run
  rw [hs.circuit, hrun] at hsame
  cases hsame
  exact hp.cycle

/-! ## 2. Runs under way -/

/-- A session in whose run some cycle was completed. -/
structure Underway (c : Circuit) (s : Session) : Prop where
  regular : Regular c s
  ordered : c.Ordered
  started : s.started
  signals : ∀ n ∈ c.signals, n ∈ s.run.store.names
  counter : s.run.store.cycle + 1 = s.upcoming ∨ ∃ l ∈ c.latches, l.input ∉ s.run.store.names

/-- So it is once a completed cycle was finished, whatever the hook does. -/
theorem Complete.underway_finish (h : Complete c t m) (hcycle : m.run.store.cycle = t) :
    Underway c (finishCycle t m).2 := by
  refine ⟨h.regular_finish, h.ordered, ?_, fun n hn => ?_, .inl ?_⟩ <;> rw [h.finish]
  · exact h.started
  · show n ∈ (m.run.store.writeAll (m.reaction t).writes).names
    rw [Store.names_writeAll, mem_addNames]
    exact .inl (h.signals n hn)
  · show (m.run.store.writeAll (m.reaction t).writes).cycle + 1 = m.upcoming
    rw [Store.cycle_writeAll, hcycle, h.upcoming]

/-- A start that goes well gets a run under way; if the updates are in order, any start does. -/
theorem Regular.underway_start (h : Regular c s) (hord : c.Ordered) :
    Underway c (Session.start s).2 := by
  obtain ⟨r, hr, hstart⟩ | ⟨e, r, -, hfail, -⟩ := h.start_cases
  · rw [hstart]
    exact hr.complete.underway_finish (hr.cycle h)
  · exact absurd hord hfail

/-- A cycle that is asked for is completed, or refused, or some latch cannot be sampled. -/
theorem Underway.next_cases (h : Underway c s) (time : Number) :
    (∃ r, s.Due time ∧ Advanced c s r ∧
      next time s = finishCycle s.upcoming { s with run := r, upcoming := s.upcoming + 1 }) ∨
    (¬ s.Due time ∧ next time s = (.error (.outOfTurn time s.lastCycle c.length), s)) ∨
    (s.Due time ∧ ∃ l ∈ c.latches, l.input ∉ s.run.store.names ∧
      next time s = (.error (.simulation (.unbound l.input)),
        { s with run := { s.run with store := s.run.store.advance } })) := by
  by_cases hdue : s.Due time
  · have hguard := hdue
    obtain ⟨hstarted, rfl, hlt⟩ := hguard
    by_cases hbound : ∀ l ∈ c.latches, l.input ∈ s.run.store.names
    · obtain ⟨r, hr⟩ := h.regular.laterCycle_ordered h.ordered hstarted hlt hbound
      exact .inl ⟨r, hdue, hr, next_of_ok hstarted hlt hr.run⟩
    · push Not at hbound
      obtain ⟨l, hl, hunbound⟩ := hbound
      obtain ⟨k, hk, hstray, hrun⟩ := Run.laterCycle_unbound hl hunbound s.stimuli s.upcoming
      rw [← h.regular.circuit] at hrun
      exact .inr (.inr ⟨hdue, k, hk, hstray, next_of_error hstarted hlt hrun⟩)
  · have hrefusal : s.refusal time = .outOfTurn time s.lastCycle c.length := by
      rw [refusal, if_pos h.started, h.regular.circuit]
    exact .inr (.inl ⟨hdue, hrefusal ▸ next_refused hdue⟩)

theorem Underway.next (h : Underway c s) (time : Number) : Underway c (next time s).2 := by
  obtain ⟨r, ⟨-, -, hlt⟩, hr, hnext⟩ | ⟨-, hnext⟩ | ⟨-, l, hl, hunbound, hnext⟩ :=
    h.next_cases time
  · rw [hnext]
    refine hr.complete.underway_finish ?_
    -- all latches could be sampled, so the counter was at the last completed cycle
    have hcounter : s.run.store.cycle + 1 = s.upcoming := by
      refine h.counter.resolve_right ?_
      rintro ⟨l, hl, hunbound⟩
      exact hunbound (hr.sampled l hl)
    exact (hr.cycle h.regular (h.regular.circuit ▸ hlt)).trans hcounter
  · rw [hnext]
    exact h
  · have hregular := h.regular.next time
    rw [hnext] at hregular ⊢
    exact ⟨hregular, h.ordered, h.started, h.signals, .inr ⟨l, hl, hunbound⟩⟩

/-- Nothing but the run, its number and the cycle to come matters. -/
theorem Underway.of_same (h : Underway c s) (hs' : Regular c s') (hstarted : s'.started = s.started)
    (hstore : s'.run.store = s.run.store) (hup : s'.upcoming = s.upcoming) : Underway c s' := by
  refine ⟨hs', h.ordered, hstarted.trans h.started, ?_, ?_⟩ <;> rw [hstore]
  · exact h.signals
  · rw [hup]
    exact h.counter

/-- The cycles of a whole run keep it under way. -/
theorem underway_runAll (hs : Regular c s) (hstart : (Session.start s).1 = .ok ()) :
    Underway c (runAll s).2 := by
  cases hrun : Session.start s with
  | mk outcome s₁ =>
    rw [hrun] at hstart
    cases hstart
    have h₁ := hs.underway_start (hs.ordered_of_start hrun)
    rw [hrun] at h₁
    unfold runAll
    rw [bind_of_ok hrun]
    refine Preserves.bind .get (fun _ => .bind (.forM (fun t s h => ?_) _) fun _ =>
      .bind .get fun _ => .bind (fun s h => ?_) fun _ => .pure _) s₁ h₁
    · exact Underway.next h (.ofNat t)
    · exact h.of_same (h.regular.logged _) rfl rfl rfl

theorem Underway.start (h : Underway c s) : Underway c (Session.start s).2 :=
  h.regular.underway_start h.ordered

theorem Underway.perform (h : Underway c s) (op : Operation) : Underway c (op.perform s) := by
  have hregular := h.regular.perform op
  cases op with
  | start => exact h.start
  | runAll =>
    refine Preserves.runAll (fun _ h => Underway.start h) (fun t _ h => Underway.next h t)
      (fun _ _ h => h.of_same (h.regular.logged _) rfl rfl rfl) s h
  | next time => exact h.next time
  | startRecording names => exact h.of_same hregular rfl rfl rfl
  | stopRecording => exact h.of_same hregular rfl rfl rfl
  | result => exact h
  | signal name =>
    show Underway c (Session.signal name s).2
    rwa [signal_snd]
  | setStimulus place time v =>
    obtain ⟨stimuli, hset, -⟩ := setStimulus_revises place time v s
    have hperform : (Operation.setStimulus place time v).perform s = { s with stimuli } := hset
    rw [hperform] at hregular ⊢
    exact h.of_same hregular rfl rfl rfl
  | setResultOutput result name time v =>
    obtain ⟨pastRuns, run, hset, hlength, hstore, -⟩ :=
      setResultOutput_revises result name time v s
    have hperform : (Operation.setResultOutput result name time v).perform s =
        { s with pastRuns, run } := hset
    rw [hperform] at hregular ⊢
    refine h.of_same hregular ?_ hstore rfl
    have hempty : pastRuns.isEmpty = s.pastRuns.isEmpty := by
      rw [Bool.eq_iff_iff, List.isEmpty_iff_length_eq_zero, List.isEmpty_iff_length_eq_zero,
        hlength]
    exact congrArg (!·) hempty

theorem underway_after (h : Underway c s) (ops : List Operation) : Underway c (after s ops) := by
  induction ops generalizing s with
  | nil => exact h
  | cons op ops ih => exact ih (h.perform op)

/-! ## 3. Failures -/

/-- A latch of the circuit cannot be sampled: nothing has bound its input in this run. -/
def Stuck (c : Circuit) (s : Session) (l : Latch) : Prop :=
  l ∈ c.latches ∧ l.input ∉ s.run.store.names

/-- **A cycle that fails changes nothing but the counter.** Let a start of a run have gone well,
as such or as part of a whole run, and any operations have been done since, whatever the hook
does. When asking for a cycle fails, and not because of the hook, either the cycle was not the
one to come, and the session is left as it was; or a latch could not be sampled, and the session
is left as it was but for the store's counter, which is one further. So the counter is at the
last completed cycle unless some latch cannot be sampled, and in a circuit whose latches read its
own signals a cycle that fails leaves everything as it was. -/
theorem next_changes_only_counter (c : Circuit) (hook : Option Hook) (before rest : List Operation)
    {op : Operation} (hop : op.begins)
    (hstart : (start (after (ofCircuit c hook) before)).1 = .ok ()) :
    let s := after (ofCircuit c hook) (before ++ op :: rest)
    (∀ time e t, next time s = (.error e, t) → (∀ e', e ≠ .hook e') →
      (¬ s.Due time ∧ e = .outOfTurn time s.lastCycle c.length ∧ t = s) ∨
      (s.Due time ∧ ∃ l, Stuck c s l ∧ e = .simulation (.unbound l.input) ∧
        t = { s with run := { s.run with store := s.run.store.advance } })) ∧
    (s.run.store.cycle = s.lastCycle ∨ ∃ l, Stuck c s l) ∧
    ((∀ l ∈ c.latches, l.input ∈ c.signals) → s.run.store.cycle = s.lastCycle ∧
      ∀ time e t, next time s = (.error e, t) → (∀ e', e ≠ .hook e') → t = s) := by
  intro s
  have hbefore : Regular c (after (ofCircuit c hook) before) :=
    regular_after (regular_ofCircuit c hook) before
  have hbegun : Underway c (op.perform (after (ofCircuit c hook) before)) := by
    cases op with
    | start =>
      refine hbefore.underway_start (hbefore.ordered_of_start (Prod.ext hstart rfl))
    | runAll => exact underway_runAll hbefore hstart
    | _ => cases hop
  have hs : Underway c s := by
    have hsplit : s = after (op.perform (after (ofCircuit c hook) before)) rest :=
      after_append (ofCircuit c hook) before (op :: rest)
    rw [hsplit]
    exact underway_after hbegun rest
  have hfails : ∀ time e t, Session.next time s = (.error e, t) → (∀ e', e ≠ .hook e') →
      (¬ s.Due time ∧ e = .outOfTurn time s.lastCycle c.length ∧ t = s) ∨
      (s.Due time ∧ ∃ l, Stuck c s l ∧ e = .simulation (.unbound l.input) ∧
        t = { s with run := { s.run with store := s.run.store.advance } }) := by
    intro time e t hnext hquiet
    obtain ⟨r, -, hr, hcase⟩ | ⟨hdue, hcase⟩ | ⟨hdue, l, hl, hunbound, hcase⟩ :=
      hs.next_cases time
    · obtain ⟨e', rfl⟩ := hr.complete.finish_error (hcase.symm.trans hnext)
      exact absurd rfl (hquiet e')
    · cases hcase.symm.trans hnext
      exact .inl ⟨hdue, rfl, rfl⟩
    · cases hcase.symm.trans hnext
      exact .inr ⟨hdue, l, ⟨hl, hunbound⟩, rfl, rfl⟩
  have hcounter : s.run.store.cycle = s.lastCycle ∨ ∃ l, Stuck c s l := by
    refine hs.counter.imp (fun hcycle => ?_) fun ⟨l, hl, hunbound⟩ => ⟨l, hl, hunbound⟩
    rw [lastCycle, ← hcycle]
    omega
  refine ⟨hfails, hcounter, fun hknown => ?_⟩
  have hnone : ¬ ∃ l, Stuck c s l := by
    rintro ⟨l, hl, hunbound⟩
    exact hunbound (hs.signals _ (hknown l hl))
  refine ⟨hcounter.resolve_right hnone, fun time e t hnext hquiet => ?_⟩
  obtain ⟨-, -, hsame⟩ | ⟨-, l, hl, -⟩ := hfails time e t hnext hquiet
  · exact hsame
  · exact absurd ⟨l, hl⟩ hnone

/-- A circuit with a latch whose input nothing produces. -/
def strayLatch : Circuit where
  name := "stray"
  inputs := ["a"]
  outputs := ["q"]
  latches := [⟨"ghost", "q"⟩]
  updates := []
  stimuli := [.ofList "a" [false, true]]
  sound := by decide

theorem next_changes_only_counter_strayLatch :
    Operation.start.begins ∧ (start (after (ofCircuit strayLatch none) [])).1 = .ok () ∧
    let s := after (ofCircuit strayLatch none) ([] ++ .start :: [])
    (∀ time e t, next time s = (.error e, t) → (∀ e', e ≠ .hook e') →
      (¬ s.Due time ∧ e = .outOfTurn time s.lastCycle strayLatch.length ∧ t = s) ∨
      (s.Due time ∧ ∃ l, Stuck strayLatch s l ∧ e = .simulation (.unbound l.input) ∧
        t = { s with run := { s.run with store := s.run.store.advance } })) ∧
    (s.run.store.cycle = s.lastCycle ∨ ∃ l, Stuck strayLatch s l) ∧
    ((∀ l ∈ strayLatch.latches, l.input ∈ strayLatch.signals) →
      s.run.store.cycle = s.lastCycle ∧
      ∀ time e t, next time s = (.error e, t) → (∀ e', e ≠ .hook e') → t = s) := by
  have hop : Operation.start.begins := rfl
  have hstart : (start (after (ofCircuit strayLatch none) [])).1 = .ok () := rfl
  exact ⟨hop, hstart, next_changes_only_counter strayLatch none [] [] hop hstart⟩

/-- The counter does move on when a latch cannot be sampled. -/
theorem next_strayLatch_counts :
    ∃ s t e, start (ofCircuit strayLatch none) = (.ok (), s) ∧
      next (.ofNat 1) s = (.error e, t) ∧ (∀ e', e ≠ .hook e') ∧
      s.run.store.cycle = 0 ∧ s.lastCycle = 0 ∧
      t.run.store.cycle = 1 ∧ t.lastCycle = 0 :=
  ⟨_, _, _, rfl, rfl, nofun, rfl, rfl, rfl, rfl⟩

end Clocked.Session
