/-
Clocked.Proofs.Session.Completed — completed cycles, with a hook or without one.

A cycle is completed once its last update was performed. Then a sample is taken, the
hook is called, and the outputs are logged; `finishCycle_eq` tells what is left, for
any hook.

`Regular` is what every operation keeps up, whatever the hook (`regular_after`). In a
regular session starting a run completes cycle 0 or fails over the order of the
updates (`start_cases`), and asking for a cycle completes it or fails
(`next_cases`). What a completed cycle has left is `Complete`: every signal is bound,
inputs have their stimuli's bits, and outputs have the bits of their traces.
-/
import Clocked.Proofs.Session.Operations

namespace Clocked

/-! ## 1. Output traces of a run -/

/-- The run has the output traces of the circuit, and they have every cycle. -/
structure Run.Whole (c : Circuit) (r : Run) : Prop where
  keys : r.outputs.keys = c.outputs.eraseDups
  covers : ∀ k < c.length, Run.Covers k r

namespace Run

variable {c : Circuit} {r r' : Run} {t : Nat} {written recorded : List String}
  {σ : String → Bool}

theorem whole_blank (c : Circuit) : Whole c (blank c) := by
  refine ⟨?_, fun k hk => covers_blank c hk⟩
  rw [blank, Table.keys_ofList]
  simp [List.map_map, Function.comp_def]

/-- Only the traces count. -/
theorem Whole.of_outputs (h : Whole c r) (heq : r'.outputs = r.outputs) : Whole c r' := by
  refine ⟨heq ▸ h.keys, fun k hk n tr htr => h.covers k hk n tr ?_⟩
  rwa [← heq]

theorem Produces.whole (hp : Produces t written recorded σ r r') (h : Whole c r) : Whole c r' :=
  ⟨hp.keys.trans h.keys, fun k hk => hp.covers (h.covers k hk)⟩

/-- A whole run has a trace for every output. -/
theorem Whole.exists_trace (h : Whole c r) {n : String} (hn : n ∈ c.outputs) :
    ∃ tr, r.outputs.get? n = some tr := by
  refine Option.isSome_iff_exists.1 ((Table.get?_isSome_iff _ _).2 ?_)
  simpa [h.keys] using hn

/-- The traces are those before the cycle, but for the bits of the cycle itself. -/
def TracesFrom (before : Table Trace) (time : Nat) (r : Run) : Prop :=
  ∀ n tr', r.outputs.get? n = some tr' → ∃ tr, before.get? n = some tr ∧
    tr'.signal = tr.signal ∧ tr'.length = tr.length ∧ ∀ k, k ≠ time → tr'.at? k = tr.at? k

/-- What a cycle recorded is in the traces, at that cycle. -/
theorem Produces.at?_output (hp : Produces t written recorded σ r r') {n : String}
    (hn : n ∈ recorded) (hcov : Covers t r) {tr' : Trace} (htr : r'.outputs.get? n = some tr') :
    tr'.at? t = some (σ n) := by
  rw [hp.output, if_pos hn] at htr
  obtain ⟨tr, hget, rfl⟩ := Option.map_eq_some_iff.1 htr
  rw [Trace.at?_put, if_pos ⟨rfl, hcov n tr hget⟩]

/-- Other cycles are left alone. -/
theorem Produces.tracesFrom (hp : Produces t written recorded σ r r') :
    TracesFrom r.outputs t r' := by
  intro n tr' htr'
  rw [hp.output] at htr'
  by_cases hn : n ∈ recorded
  · rw [if_pos hn] at htr'
    obtain ⟨tr, hget, rfl⟩ := Option.map_eq_some_iff.1 htr'
    exact ⟨tr, hget, tr.signal_put t _, tr.length_put t _, fun k hk => by simp [Trace.at?_put, hk]⟩
  · rw [if_neg hn] at htr'
    exact ⟨tr', htr', rfl, rfl, fun _ _ => rfl⟩

end Run

namespace Session

open Attempt (check bind_of_ok bind_of_error get_apply check_ok check_error)

variable {c : Circuit} {s m t' : Session} {t : Nat}

/-! ## 2. Finishing a cycle -/

/-- What the hook does after a cycle; without a hook that is nothing. -/
def reaction (time : Nat) (s : Session) : Reaction :=
  match s.hook with
  | none => {}
  | some hook => s.reactionAfter hook time

/-- The session once the cycle was sampled and the hook was called. -/
def answered (time : Nat) (s : Session) : Session :=
  { s with
    recording := s.sampled time
    calls := if s.hook.isSome then s.callAfter time :: s.calls else s.calls
    run := { s.run with store := s.run.store.writeAll (s.reaction time).writes } }

/-- How finishing a cycle ends, and what has been logged by then. -/
def closing (time : Nat) (s : Session) : Except Failure Unit × Array (Log.Level × String) :=
  match (s.reaction time).failure with
  | some e => (.error (.hook e), s.log)
  | none =>
    match outputValues (s.answered time).run.store s.circuit.outputs with
    | .ok values =>
      (.ok (), s.log.push (.debug, "Cycle " ++ toString time ++ ": " ++ " ".intercalate values))
    | .error e => (.error (.simulation e), s.log)

theorem callHook_any (time : Nat) (s : Session) :
    callHook time s =
      (match (s.reaction time).failure with
        | none => .ok ()
        | some e => .error (.hook e), { s.answered time with recording := s.recording }) := by
  cases hhook : s.hook with
  | none =>
    have hreaction : s.reaction time = {} := by simp only [reaction, hhook]
    have hsame : { s.answered time with recording := s.recording } = s := by
      obtain ⟨_, _, _, _, _, _, _, _, _, _, _⟩ := s
      cases hhook
      rfl
    unfold callHook
    rw [bind_of_ok (get_apply s), hhook, hreaction, hsame]
    rfl
  | some hook =>
    have hreaction : s.reaction time = s.reactionAfter hook time := by simp only [reaction, hhook]
    have hsame : { s.answered time with recording := s.recording } = s.called hook time := by
      simp [answered, hreaction, hhook, called]
    have hcall := callHook_eq hhook time
    rw [← hreaction, ← hsame] at hcall
    exact hcall

/-- Finishing a cycle takes a sample, calls the hook, and logs the outputs. -/
theorem finishCycle_eq
    (hwatched : ∀ names, s.watched = some names → ∀ n ∈ names, n ∈ s.run.store.names)
    (time : Nat) :
    finishCycle time s =
      ((s.closing time).1, { s.answered time with log := (s.closing time).2 }) := by
  have hcall := callHook_any time { s with recording := s.sampled time }
  have hreaction : ({ s with recording := s.sampled time } : Session).reaction time =
      s.reaction time := rfl
  rw [hreaction] at hcall
  unfold finishCycle closing
  rw [bind_of_ok (recordSample_ok hwatched time)]
  cases hfailure : (s.reaction time).failure with
  | some e =>
    simp only [hfailure] at hcall
    rw [bind_of_error hcall]
    rfl
  | none =>
    simp only [hfailure] at hcall
    rw [bind_of_ok hcall, bind_of_ok (get_apply _)]
    show (check (outputValues (s.answered time).run.store s.circuit.outputs) >>= _ : Action Unit)
      (s.answered time) = _
    cases outputValues (s.answered time).run.store s.circuit.outputs with
    | error e =>
      rw [bind_of_error (check_error e _)]
      rfl
    | ok values =>
      rw [bind_of_ok (check_ok values _)]
      rfl

/-! ## 3. What every operation keeps up -/

/-- What every session of a circuit is like. -/
structure Regular (c : Circuit) (s : Session) : Prop where
  circuit : s.circuit = c
  fits : c.Fits s.stimuli
  watched : ∀ names, s.watched = some names → ∀ n ∈ names, n ∈ c.signals
  /-- If no cycle can ever be completed, traces are of no interest. -/
  whole : c.Ordered → s.run.Whole c

/-- What a session is like in which the cycle `t` was just completed. -/
structure Complete (c : Circuit) (t : Nat) (m : Session) : Prop where
  regular : Regular c m
  ordered : c.Ordered
  started : m.started
  upcoming : m.upcoming = t + 1
  signals : ∀ n ∈ c.signals, n ∈ m.run.store.names
  input : ∀ tr ∈ m.stimuli, m.run.store.lookup tr.signal = tr.at? t
  output : ∀ n ∈ c.outputs, ∃ tr,
    m.run.outputs.get? n = some tr ∧ tr.at? t = m.run.store.lookup n

theorem regular_ofCircuit (c : Circuit) (hook : Option Hook) : Regular c (ofCircuit c hook) :=
  ⟨rfl, c.fits_stimuli, nofun, fun _ => Run.whole_blank c⟩

/-- A run that has produced all signals of a cycle has completed it. -/
theorem Regular.complete {r r' : Run} {σ : String → Bool} (h : Regular c m) (hord : c.Ordered)
    (hstarted : m.started) (hup : m.upcoming = t + 1) (ht : t < c.length) (hrun : m.run = r')
    (hr : r.Whole c) (hinput : ∀ tr ∈ m.stimuli, tr.at? t = some (σ tr.signal))
    (hp : Run.Produces t c.signals (c.latchOutputs ++ c.updateOutputs) σ r r') :
    Complete c t m where
  regular := h
  ordered := hord
  started := hstarted
  upcoming := hup
  signals := by
    intro n hn
    rw [hrun, hp.names, mem_addNames]
    exact .inr hn
  input := by
    intro tr htr
    have hin : tr.signal ∈ c.signals := by
      have hmem : tr.signal ∈ c.inputs := h.fits.signals ▸ List.mem_map_of_mem htr
      simp [Design.signals, hmem]
    rw [hrun, hp.lookup, if_pos hin, hinput tr htr]
  output := by
    intro n hn
    obtain ⟨tr, htr⟩ := (hp.whole hr).exists_trace hn
    refine ⟨tr, hrun ▸ htr, ?_⟩
    rw [hp.at?_output (c.output_driven hn) (hr.covers t ht) htr, hrun, hp.lookup,
      if_pos (c.output_mem_signals hn)]

/-! ## 4. Cycles -/

/-- A completed cycle is finished. -/
theorem Complete.finish (h : Complete c t m) :
    finishCycle t m = ((m.closing t).1, { m.answered t with log := (m.closing t).2 }) :=
  finishCycle_eq (fun names hnames n hn => h.signals n (h.regular.watched names hnames n hn)) t

theorem Complete.regular_finish (h : Complete c t m) : Regular c (finishCycle t m).2 := by
  rw [h.finish]
  have hm := h.regular
  exact ⟨hm.circuit, hm.fits, hm.watched, fun hord => (hm.whole hord).of_outputs rfl⟩

/-- If the hook does not fail a completed cycle is finished well. -/
theorem Complete.finish_ok (h : Complete c t m) (hquiet : (m.reaction t).failure = none) :
    ∃ log, finishCycle t m = (.ok (), { m.answered t with log }) := by
  have hbound : ∀ n ∈ m.circuit.outputs, ((m.answered t).run.store.lookup n).isSome := by
    intro n hn
    rw [h.regular.circuit] at hn
    rw [Store.lookup_isSome_iff]
    show n ∈ (m.run.store.writeAll (m.reaction t).writes).names
    rw [Store.names_writeAll, mem_addNames]
    exact .inl (h.signals n (c.output_mem_signals hn))
  obtain ⟨values, hvalues⟩ := outputValues_ok hbound
  rw [h.finish]
  simp only [closing, hquiet, hvalues]
  exact ⟨_, rfl⟩

/-- Only the hook can fail behind a completed cycle. -/
theorem Complete.finish_error (h : Complete c t m) {e : Failure}
    (hfail : finishCycle t m = (.error e, t')) : ∃ e', e = .hook e' := by
  obtain hquiet | ⟨e', hloud⟩ := Option.eq_none_or_eq_some (m.reaction t).failure
  · obtain ⟨log, hfin⟩ := h.finish_ok hquiet
    rw [hfin] at hfail
    cases hfail
  · rw [h.finish] at hfail
    simp only [closing, hloud] at hfail
    cases hfail
    exact ⟨e', rfl⟩

/-- Starting a run has taken cycle 0. -/
structure Begun (c : Circuit) (s : Session) (r : Run) : Prop where
  run : Run.firstCycle s.circuit s.stimuli (Run.blank s.circuit) = (.ok (), r)
  complete : Complete c 0 { s.restarted with run := r, upcoming := 1 }
  traces : r.TracesFrom (Run.blank c).outputs 0

/-- The cycle to come was taken: the latches could be sampled, and all other cycles in the
traces are left as they were. -/
structure Advanced (c : Circuit) (s : Session) (r : Run) : Prop where
  run : Run.laterCycle s.circuit s.stimuli s.upcoming s.run = (.ok (), r)
  complete : Complete c s.upcoming { s with run := r, upcoming := s.upcoming + 1 }
  sampled : ∀ l ∈ c.latches, l.input ∈ s.run.store.names
  names : ∀ n ∈ s.run.store.names, n ∈ r.store.names
  traces : r.TracesFrom s.run.outputs s.upcoming

/-- Starting a run completes cycle 0, or fails because the updates are out of order. -/
theorem Regular.start_cases (h : Regular c s) :
    (∃ r, Begun c s r ∧ start s = finishCycle 0 { s.restarted with run := r, upcoming := 1 }) ∨
    (∃ e r, Run.firstCycle s.circuit s.stimuli (Run.blank s.circuit) = (.error e, r) ∧
      ¬ c.Ordered ∧ start s = (.error e, { s.restarted with run := r })) := by
  have hc := h.circuit
  cases hrun : Run.firstCycle s.circuit s.stimuli (Run.blank s.circuit) with
  | mk outcome r =>
    by_cases hord : c.Ordered
    · have hblank := Run.whole_blank c
      obtain ⟨σ, r', hinput, hrun', hp⟩ :=
        Run.firstCycle_values h.fits hord (hblank.covers 0 c.length_pos)
      rw [hc, hrun'] at hrun
      cases hrun
      rw [← hc] at hrun'
      have hregular : Regular c { s.restarted with run := r, upcoming := 1 } :=
        ⟨hc, h.fits, h.watched, fun _ => hp.whole hblank⟩
      have hcomplete := hregular.complete hord s.started_restarted rfl c.length_pos rfl hblank
        hinput hp
      exact .inl ⟨r, ⟨hrun', hcomplete, hp.tracesFrom⟩, start_of_ok hrun'⟩
    · cases outcome with
      | ok u =>
        rw [hc] at hrun
        exact absurd (Run.ordered_of_firstCycle hrun) hord
      | error e => exact .inr ⟨e, r, rfl, hord, start_of_error hrun⟩

/-- A later cycle of an ordered circuit is completed if the inputs of the latches are bound. -/
theorem Regular.laterCycle_ordered (h : Regular c s) (hord : c.Ordered) (hstarted : s.started)
    (hlt : s.upcoming < s.circuit.length) (hbound : ∀ l ∈ c.latches, l.input ∈ s.run.store.names) :
    ∃ r, Advanced c s r := by
  rw [h.circuit] at hlt
  have hwhole := h.whole hord
  obtain ⟨σ, hinput, hvalues⟩ :=
    Run.laterCycle_values h.fits hord hlt fun n => (s.run.store.lookup n).getD false
  obtain ⟨r, hrun, hp⟩ := hvalues s.run (Run.lookup_input_eq hbound) (hwhole.covers _ hlt)
  have hadvanced : ({ s.run with store := s.run.store.advance } : Run).Whole c :=
    hwhole.of_outputs rfl
  have hregular : Regular c { s with run := r, upcoming := s.upcoming + 1 } :=
    ⟨h.circuit, h.fits, h.watched, fun _ => hp.whole hadvanced⟩
  refine ⟨r, by rw [h.circuit, hrun], ?_, hbound, fun n hn => ?_, hp.tracesFrom⟩
  · exact hregular.complete hord hstarted rfl hlt rfl hadvanced hinput hp
  · rw [hp.names, mem_addNames]
    exact .inl hn

/-- A later cycle is completed, or fails with the traces left as they were. -/
theorem Regular.laterCycle_cases (h : Regular c s) (hstarted : s.started)
    (hlt : s.upcoming < s.circuit.length) :
    (∃ r, Advanced c s r) ∨
    (∃ e r, Run.laterCycle s.circuit s.stimuli s.upcoming s.run = (.error e, r) ∧
      (c.Ordered → r.outputs = s.run.outputs)) := by
  by_cases hord : c.Ordered
  · by_cases hbound : ∀ l ∈ c.latches, l.input ∈ s.run.store.names
    · exact .inl (h.laterCycle_ordered hord hstarted hlt hbound)
    · push Not at hbound
      obtain ⟨l, hl, hunbound⟩ := hbound
      obtain ⟨_, -, -, hrun⟩ := Run.laterCycle_unbound hl hunbound s.stimuli s.upcoming
      rw [← h.circuit] at hrun
      exact .inr ⟨_, _, hrun, fun _ => rfl⟩
  · cases hrun : Run.laterCycle s.circuit s.stimuli s.upcoming s.run with
    | mk outcome r =>
      cases outcome with
      | ok u =>
        rw [h.circuit] at hrun
        exact absurd (Run.ordered_of_laterCycle hrun) hord
      | error e => exact .inr ⟨e, r, rfl, fun h => absurd h hord⟩

/-- Whether a cycle may be taken now. -/
def Due (time : Number) (s : Session) : Prop :=
  s.started ∧ time = .ofNat s.upcoming ∧ s.upcoming < s.circuit.length

instance (time : Number) (s : Session) : Decidable (s.Due time) :=
  inferInstanceAs (Decidable (_ ∧ _ ∧ _))

/-- Asking for a cycle completes it if it is due and goes well; else it leaves the
traces as they were. -/
theorem Regular.next_cases (h : Regular c s) (time : Number) :
    (∃ r, s.Due time ∧ Advanced c s r ∧
      next time s = finishCycle s.upcoming { s with run := r, upcoming := s.upcoming + 1 }) ∨
    (∃ e r, (s.Due time → Run.laterCycle s.circuit s.stimuli s.upcoming s.run = (.error e, r)) ∧
      (c.Ordered → r.outputs = s.run.outputs) ∧ next time s = (.error e, { s with run := r })) := by
  by_cases hdue : s.Due time
  · have hguard := hdue
    obtain ⟨hstarted, rfl, hlt⟩ := hguard
    obtain ⟨r, hr⟩ | ⟨e, r, hrun, houtputs⟩ := h.laterCycle_cases hstarted hlt
    · exact .inl ⟨r, hdue, hr, next_of_ok hstarted hlt hr.run⟩
    · exact .inr ⟨e, r, fun _ => hrun, houtputs, next_of_error hstarted hlt hrun⟩
  · exact .inr ⟨_, s.run, fun h => absurd h hdue, fun _ => rfl, next_refused hdue⟩

/-- Cycle 0 is taken once it went well. -/
theorem Regular.begun (h : Regular c s) {r : Run}
    (hrun : Run.firstCycle s.circuit s.stimuli (Run.blank s.circuit) = (.ok (), r)) :
    Begun c s r := by
  obtain ⟨r', hr, -⟩ | ⟨e, r', hfail, -⟩ := h.start_cases
  · have hsame := hr.run
    rw [hrun] at hsame
    cases hsame
    exact hr
  · rw [hrun] at hfail
    cases hfail

/-- A later cycle is taken once it went well. -/
theorem Regular.advanced (h : Regular c s) (hstarted : s.started)
    (hlt : s.upcoming < s.circuit.length) {r : Run}
    (hrun : Run.laterCycle s.circuit s.stimuli s.upcoming s.run = (.ok (), r)) :
    Advanced c s r := by
  obtain ⟨r', hr⟩ | ⟨e, r', hfail, -⟩ := h.laterCycle_cases hstarted hlt
  · have hsame := hr.run
    rw [hrun] at hsame
    cases hsame
    exact hr
  · rw [hrun] at hfail
    cases hfail

/-! ## 5. All operations -/

theorem Regular.start (h : Regular c s) : Regular c (start s).2 := by
  obtain ⟨r, hr, hstart⟩ | ⟨e, r, -, hord, hstart⟩ := h.start_cases
  · rw [hstart]
    exact hr.complete.regular_finish
  · rw [hstart]
    exact ⟨h.circuit, h.fits, h.watched, fun h => absurd h hord⟩

theorem Regular.next (h : Regular c s) (time : Number) : Regular c (next time s).2 := by
  obtain ⟨r, -, hr, hnext⟩ | ⟨e, r, -, houtputs, hnext⟩ := h.next_cases time
  · rw [hnext]
    exact hr.complete.regular_finish
  · rw [hnext]
    refine ⟨h.circuit, h.fits, h.watched, fun hord => ?_⟩
    exact (h.whole hord).of_outputs (houtputs hord)

theorem Regular.logged (h : Regular c s) (log : Array (Log.Level × String)) :
    Regular c { s with log } :=
  ⟨h.circuit, h.fits, h.watched, h.whole⟩

theorem Regular.runAll (h : Regular c s) : Regular c (runAll s).2 :=
  Preserves.runAll (fun _ h => Regular.start h) (fun t _ h => Regular.next h t)
    (fun _ _ h => Regular.logged h _) s h

/-- A cycle can only be completed if the updates are in order. -/
theorem Regular.ordered_of_start (h : Regular c s) (hstart : Session.start s = (.ok (), m)) :
    c.Ordered := by
  obtain ⟨r, hr, -⟩ | ⟨e, r, -, -, hfail⟩ := h.start_cases
  · exact hr.complete.ordered
  · rw [hfail] at hstart
    cases hstart

/-- A whole run is a run up to the last cycle, with a log line if it goes well. -/
theorem Regular.runAll_of_stepTo (h : Regular c s) {outcome : Except Failure Unit}
    (hstep : stepTo (c.length - 1) s = (outcome, m)) :
    ∃ log, Session.runAll s = (outcome.map fun _ => m.result, { m with log }) := by
  have hlength : c.length - 1 + 1 = c.length := Nat.sub_add_cancel c.length_pos
  unfold stepTo at hstep
  rw [hlength] at hstep
  cases hstart : Session.start s with
  | mk begun s₁ =>
    cases begun with
    | error e =>
      rw [bind_of_error hstart] at hstep
      cases hstep
      exact ⟨_, runAll_of_start_error hstart⟩
    | ok u =>
      rw [bind_of_ok hstart] at hstep
      have hcircuit : s₁.circuit = c := by
        have hs₁ := h.start
        rw [hstart] at hs₁
        exact hs₁.circuit
      rw [← hcircuit] at hstep
      cases outcome with
      | error e => exact ⟨_, runAll_of_laterCycles_error hstart hstep⟩
      | ok u =>
        obtain ⟨message, hall⟩ := runAll_of_ok hstart hstep
        exact ⟨_, hall⟩

/-- A whole run that returned went up to the last cycle. -/
theorem Regular.stepTo_of_runAll (h : Regular c s) {r : Result}
    (hrun : Session.runAll s = (.ok r, t')) :
    ∃ u log, stepTo (c.length - 1) s = (.ok (), u) ∧ r = u.result ∧ t' = { u with log } := by
  cases hstep : stepTo (c.length - 1) s with
  | mk outcome u =>
    obtain ⟨log, hall⟩ := h.runAll_of_stepTo hstep
    rw [hall] at hrun
    cases outcome with
    | error e => cases hrun
    | ok _ =>
      cases hrun
      exact ⟨u, log, rfl, rfl, rfl⟩

theorem ordered_of_runAll (h : Regular c s) {r : Result} (hrun : runAll s = (.ok r, t')) :
    c.Ordered := by
  obtain ⟨u, -, hstep, -⟩ := h.stepTo_of_runAll hrun
  obtain ⟨_, _, hstart, -⟩ := Attempt.bind_eq_ok hstep
  exact h.ordered_of_start hstart

theorem Regular.startRecording (h : Regular c s) (names : List String) :
    Regular c (startRecording names s).2 := by
  refine ⟨h.circuit, h.fits, fun watched hwatched n hn => ?_, h.whole⟩
  cases hwatched
  have hmem := (List.mem_filter.1 hn).2
  rw [← h.circuit]
  simpa using hmem

theorem Regular.perform (h : Regular c s) (op : Operation) : Regular c (op.perform s) := by
  cases op with
  | runAll => exact h.runAll
  | start => exact h.start
  | next time => exact h.next time
  | startRecording names => exact h.startRecording names
  | stopRecording => exact ⟨h.circuit, h.fits, nofun, h.whole⟩
  | result => exact h
  | signal name =>
    show Regular c (Session.signal name s).2
    rwa [signal_snd]
  | setStimulus place time v =>
    obtain ⟨stimuli, hset, hfits⟩ := setStimulus_revises place time v s
    show Regular c (Session.setStimulus place time v s).2
    rw [hset]
    exact ⟨h.circuit, hfits c h.fits, h.watched, h.whole⟩
  | setResultOutput r name time v =>
    obtain ⟨pastRuns, run, hset, -, -, hkeys, hcovers, -⟩ :=
      setResultOutput_revises r name time v s
    show Regular c (Session.setResultOutput r name time v s).2
    rw [hset]
    refine ⟨h.circuit, h.fits, h.watched, fun hord => ⟨hkeys.trans (h.whole hord).keys, ?_⟩⟩
    exact fun k hk => hcovers k ((h.whole hord).covers k hk)

theorem regular_after (h : Regular c s) (ops : List Operation) : Regular c (after s ops) := by
  induction ops generalizing s with
  | nil => exact h
  | cons op ops ih => exact ih (h.perform op)

end Session

end Clocked
