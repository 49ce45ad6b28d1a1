/-
Clocked.Proofs.Session.Rerun — a run depends on nothing that came before it.

Two sessions are compared, of a circuit and of the circuit with the stimuli that the
first session has by now. `InStep` says that they look alike from the inside: the
same run, the same cycle to come, the same calls of the hook since the run began,
the same samples. Starting a run puts them in step, whatever came before
(`start_inStep`); every further cycle keeps them so (`next_inStep`).

So running a session shows what running a new one shows (`runAll_sameRun`), for a
hook that answers to the time and the store. What a caller does in between
amounts to operations (`play_session`), and `rerun_independent` is about them all.
-/
import Clocked.Proofs.Run.Stimuli
import Clocked.Proofs.Session.Operations
import Clocked.Proofs.Session.Simulation

namespace Clocked

/-- A hook that answers to the time and the store, and to nothing else. -/
def Hook.ofStore (f : Nat → Store → Reaction) : Hook := fun call _ => f call.time call.given

/-- What such a hook sees of a call. -/
def Call.seen (call : Call) : Nat × Store := (call.time, call.given)

namespace Session

open Attempt (bind_of_ok bind_of_error)

variable {c : Circuit} {stimuli : List Trace} {f : Nat → Store → Reaction} {recorded : Prop}
  {past past' : List Call} {s s' : Session}

/-! ## 1. Steps of two sessions -/

/-- Both sessions take the step with the same outcome, and what it leaves is related. -/
def Together (R : Session → Session → Prop) (a : Action Unit) (s s' : Session) : Prop :=
  ∃ outcome t t', a s = (outcome, t) ∧ a s' = (outcome, t') ∧ R t t'

/-- A step that amounts to another one. -/
theorem Together.of_eq {R : Session → Session → Prop} {a b : Action Unit} {u u' : Session}
    (h : Together R b u u') (hs : a s = b u) (hs' : a s' = b u') : Together R a s s' := by
  obtain ⟨outcome, t, t', hrun, hrun', hr⟩ := h
  exact ⟨outcome, t, t', hs.trans hrun, hs'.trans hrun', hr⟩

/-- What every step keeps related, the steps keep related that are taken one after the other. -/
theorem Together.forM {α : Type} {R : Session → Session → Prop} {step : α → Action Unit}
    (hstep : ∀ x s s', R s s' → Together R (step x) s s') (xs : List α) (h : R s s') :
    Together R (xs.forM step) s s' := by
  induction xs generalizing s s' with
  | nil => exact ⟨_, _, _, rfl, rfl, h⟩
  | cons x xs ih =>
    have hcons (u : Session) : (x :: xs).forM step u = (step x >>= fun _ => xs.forM step) u := rfl
    obtain ⟨outcome, t, t', hrun, hrun', hnext⟩ := hstep x s s' h
    unfold Together
    rw [hcons s, hcons s']
    cases outcome with
    | error e =>
      rw [bind_of_error hrun, bind_of_error hrun']
      exact ⟨_, _, _, rfl, rfl, hnext⟩
    | ok u =>
      rw [bind_of_ok hrun, bind_of_ok hrun']
      exact ih hnext

/-! ## 2. Sessions in step -/

/-- The sessions look alike, as far as a run can tell, and have made the same calls since
`past` and `past'`. If they are `recorded`, the same signals are watched, with the same
samples. -/
structure Alike (stimuli : List Trace) (recorded : Prop) (past past' : List Call)
    (s s' : Session) : Prop where
  given : s.stimuli = stimuli
  given' : s'.stimuli = stimuli
  started : s'.started = s.started
  run : s'.run = s.run
  upcoming : s'.upcoming = s.upcoming
  calls : ∃ made made', s.calls = made ++ past ∧ s'.calls = made' ++ past' ∧
    made'.map Call.seen = made.map Call.seen
  watched : recorded → s.watched.isSome ∧ s'.watched = s.watched
  recording : recorded → s'.recording = s.recording

/-- Logging makes no difference. -/
theorem Alike.logged (h : Alike stimuli recorded past past' s s')
    (log log' : Array (Log.Level × String)) :
    Alike stimuli recorded past past' { s with log } { s' with log := log' } :=
  ⟨h.given, h.given', h.started, h.run, h.upcoming, h.calls, h.watched, h.recording⟩

/-- Sessions that are alike finish a cycle alike. -/
theorem Alike.finish (h : Alike stimuli recorded past past' s s')
    (hhook : s.hook = some (.ofStore f)) (hhook' : s'.hook = some (.ofStore f))
    (hbound : ∀ names, s.watched = some names → ∀ n ∈ names, n ∈ s.run.store.names)
    (hbound' : ∀ names, s'.watched = some names → ∀ n ∈ names, n ∈ s'.run.store.names)
    (houtputs : s'.circuit.outputs = s.circuit.outputs) (time : Nat) :
    Together (Alike stimuli recorded past past') (finishCycle time) s s' := by
  obtain ⟨log, hfin⟩ := finishCycle_called hhook hbound time
  obtain ⟨log', hfin'⟩ := finishCycle_called hhook' hbound' time
  -- the hook sees the same time and the same store
  have hreaction : s'.reactionAfter (.ofStore f) time = s.reactionAfter (.ofStore f) time :=
    congrArg (fun run : Run => f time run.store) h.run
  have hrun : (s'.called (.ofStore f) time).run = (s.called (.ofStore f) time).run := by
    simp only [called, hreaction, h.run]
  have houtcome : s'.finishOutcome (.ofStore f) time = s.finishOutcome (.ofStore f) time := by
    simp only [finishOutcome, hreaction, hrun, houtputs]
  rw [houtcome] at hfin'
  refine ⟨_, _, _, hfin, hfin', h.given, h.given', h.started, hrun, h.upcoming, ?_, h.watched,
    fun hrec => ?_⟩
  · obtain ⟨made, made', hmade, hmade', hseen⟩ := h.calls
    refine ⟨s.callAfter time :: made, s'.callAfter time :: made', ?_, ?_, ?_⟩
    · exact congrArg (s.callAfter time :: ·) hmade
    · exact congrArg (s'.callAfter time :: ·) hmade'
    · simp [Call.seen, callAfter, h.run, hseen]
  · show s'.sampled time = s.sampled time
    simp only [sampled, (h.watched hrec).2, h.recording hrec, h.run]

/-- Sessions of a circuit, and of the circuit with other stimuli, that are alike. -/
structure InStep (hfit : c.Fits stimuli) (f : Nat → Store → Reaction) (recorded : Prop)
    (past past' : List Call) (s s' : Session) : Prop where
  steady : Steady c (.ofStore f) s
  steady' : Steady (c.withStimuli stimuli hfit) (.ofStore f) s'
  alike : Alike stimuli recorded past past' s s'

/-- The circuits differ in nothing but their stimuli. -/
theorem InStep.circuit {hfit : c.Fits stimuli} (h : InStep hfit f recorded past past' s s') :
    s'.circuit.name = s.circuit.name ∧ s'.circuit.outputs = s.circuit.outputs ∧
      s'.circuit.length = s.circuit.length := by
  rw [h.steady.circuit, h.steady'.circuit]
  exact ⟨rfl, rfl, hfit.length_eq⟩

/-- Steps that leave alike sessions, in good order both, leave them in step. -/
theorem Together.inStep {hfit : c.Fits stimuli} {a : Action Unit}
    (hs : Steady c (.ofStore f) (a s).2)
    (hs' : Steady (c.withStimuli stimuli hfit) (.ofStore f) (a s').2)
    (h : Together (Alike stimuli recorded past past') a s s') :
    Together (InStep hfit f recorded past past') a s s' := by
  obtain ⟨outcome, t, t', hrun, hrun', halike⟩ := h
  rw [hrun] at hs
  rw [hrun'] at hs'
  exact ⟨outcome, t, t', hrun, hrun', hs, hs', halike⟩

/-! ## 3. Cycles in step -/

/-- Runs of sessions with the same stimuli start alike, whatever came before. -/
theorem start_inStep {hfit : c.Fits stimuli} (hs : Steady c (.ofStore f) s)
    (hs' : Steady (c.withStimuli stimuli hfit) (.ofStore f) s')
    (hgiven : s.stimuli = stimuli) (hgiven' : s'.stimuli = stimuli)
    (hwatched : recorded → s.watched.isSome ∧ s'.watched = s.watched) :
    Together (InStep hfit f recorded s.calls s'.calls) start s s' := by
  refine Together.inStep hs.start hs'.start ?_
  have hfirst : Run.firstCycle s'.circuit s'.stimuli (Run.blank s'.circuit) =
      Run.firstCycle s.circuit s.stimuli (Run.blank s.circuit) := by
    rw [hs.circuit, hs'.circuit, hgiven, hgiven', Run.firstCycle_withStimuli,
      Run.blank_withStimuli]
  have hrestarted {run : Run} {n n' : Nat} (hn : n' = n) :
      Alike stimuli recorded s.calls s'.calls { s.restarted with run, upcoming := n }
        { s'.restarted with run, upcoming := n' } := by
    have hstarted := s'.started_restarted.trans s.started_restarted.symm
    refine ⟨hgiven, hgiven', hstarted, rfl, hn, ⟨[], [], rfl, rfl, rfl⟩,
      hwatched, fun hrec => ?_⟩
    obtain ⟨hsome, hsame⟩ := hwatched hrec
    simp [restarted, hsame, hsome]
  cases hrun : Run.firstCycle s.circuit s.stimuli (Run.blank s.circuit) with
  | mk outcome r =>
    have hrun' := hfirst.trans hrun
    cases outcome with
    | ok u =>
      have hkept := (hs.firstCycle hrun).1
      have hkept' := (hs'.firstCycle hrun').1
      refine ((hrestarted rfl).finish hkept.hooked hkept'.hooked
        (hkept.watched_bound Nat.one_ne_zero) (hkept'.watched_bound Nat.one_ne_zero) ?_ 0).of_eq
        (start_of_ok hrun) (start_of_ok hrun')
      show s'.circuit.outputs = s.circuit.outputs
      rw [hs.circuit, hs'.circuit]
      rfl
    | error e =>
      refine ⟨_, _, _, start_of_error hrun, start_of_error hrun', hrestarted ?_⟩
      show s'.upcoming = s.upcoming
      rw [hs.upcoming_eq_zero (hs.not_ordered hrun), hs'.upcoming_eq_zero (hs'.not_ordered hrun')]

/-- A cycle that is to come is taken alike. -/
theorem next_upcoming_alike {hfit : c.Fits stimuli} (h : InStep hfit f recorded past past' s s')
    (hstarted : s.started) (hlt : s.upcoming < s.circuit.length) :
    Together (Alike stimuli recorded past past') (next (.ofNat s.upcoming)) s s' := by
  obtain ⟨-, houtputs, hlength⟩ := h.circuit
  obtain ⟨hs, hs', ha⟩ := h
  have hstarted' : s'.started := ha.started.trans hstarted
  have hlt' : s'.upcoming < s'.circuit.length := by rwa [ha.upcoming, hlength]
  have hlater : Run.laterCycle s'.circuit s'.stimuli s'.upcoming s'.run =
      Run.laterCycle s.circuit s.stimuli s.upcoming s.run := by
    rw [hs.circuit, hs'.circuit, ha.given, ha.given', ha.upcoming, ha.run,
      Run.laterCycle_withStimuli]
  have honward {run : Run} {n n' : Nat} (hn : n' = n) :
      Alike stimuli recorded past past' { s with run, upcoming := n }
        { s' with run, upcoming := n' } :=
    ⟨ha.given, ha.given', ha.started, rfl, hn, ha.calls, ha.watched, ha.recording⟩
  have hnext : next (.ofNat s.upcoming) s' = next (.ofNat s'.upcoming) s' := by
    rw [ha.upcoming]
  cases hrun : Run.laterCycle s.circuit s.stimuli s.upcoming s.run with
  | mk outcome r =>
    have hrun' := hlater.trans hrun
    cases outcome with
    | ok u =>
      have hkept := (hs.laterCycle hstarted hlt hrun).1
      have hkept' := (hs'.laterCycle hstarted' hlt' hrun').1
      have hgone := hnext.trans (next_of_ok hstarted' hlt' hrun')
      rw [ha.upcoming] at hkept' hgone
      exact ((honward rfl).finish hkept.hooked hkept'.hooked
        (hkept.watched_bound (Nat.succ_ne_zero _)) (hkept'.watched_bound (Nat.succ_ne_zero _))
        houtputs s.upcoming).of_eq (next_of_ok hstarted hlt hrun) hgone
    | error e =>
      exact ⟨_, _, _, next_of_error hstarted hlt hrun,
        hnext.trans (next_of_error hstarted' hlt' hrun'), honward ha.upcoming⟩

/-- Any other cycle is refused alike. -/
theorem next_refused_alike {hfit : c.Fits stimuli} (h : InStep hfit f recorded past past' s s')
    {time : Number}
    (hguard : ¬ (s.started ∧ time = .ofNat s.upcoming ∧ s.upcoming < s.circuit.length)) :
    Together (Alike stimuli recorded past past') (next time) s s' := by
  obtain ⟨hname, -, hlength⟩ := h.circuit
  have ha := h.alike
  have hguard' : ¬ (s'.started ∧ time = .ofNat s'.upcoming ∧
      s'.upcoming < s'.circuit.length) := by
    rwa [ha.started, ha.upcoming, hlength]
  have hrefusal : s'.refusal time = s.refusal time := by
    simp only [refusal, lastCycle, ha.started, ha.upcoming, hlength, hname]
  have hrefused' := next_refused hguard'
  rw [hrefusal] at hrefused'
  exact ⟨_, _, _, next_refused hguard, hrefused', ha⟩

/-- Sessions in step take a cycle alike. -/
theorem next_inStep {hfit : c.Fits stimuli} (h : InStep hfit f recorded past past' s s')
    (time : Number) :
    Together (InStep hfit f recorded past past') (next time) s s' := by
  refine Together.inStep (h.steady.next time) (h.steady'.next time) ?_
  by_cases hguard : s.started ∧ time = .ofNat s.upcoming ∧ s.upcoming < s.circuit.length
  · obtain ⟨hstarted, rfl, hlt⟩ := hguard
    exact next_upcoming_alike h hstarted hlt
  · exact next_refused_alike h hguard

/-- All later cycles are taken alike. -/
theorem laterCycles_inStep {hfit : c.Fits stimuli} (h : InStep hfit f recorded past past' s s')
    (length : Nat) : Together (InStep hfit f recorded past past') (laterCycles length) s s' :=
  Together.forM (fun time _ _ h => next_inStep h (.ofNat time)) _ h

/-! ## 4. Runs that show the same -/

/-- The traces that a result shows, outputs with their names and in order. -/
def shown (s : Session) (r : Result) : List Trace × List (String × Trace) :=
  (r.inputs, s.resultOutputs r)

/-- Running either session shows the same traces or fails the same way, and makes the same
calls of the hook. -/
structure SameRun (s s' : Session) : Prop where
  outcome : (runAll s').1.map (runAll s').2.shown = (runAll s).1.map (runAll s).2.shown
  calls : ∃ made made', (runAll s).2.calls = made ++ s.calls ∧
    (runAll s').2.calls = made' ++ s'.calls ∧ made'.map Call.seen = made.map Call.seen

theorem Alike.shown_result (h : Alike stimuli recorded past past' s s') :
    s'.shown s'.result = s.shown s.result := by
  have hinputs : s'.result.inputs = s.result.inputs := h.given'.trans h.given.symm
  rw [shown, shown, resultOutputs_result, resultOutputs_result, hinputs, h.run]

/-- Runs that leave sessions alike have made the same calls and the same samples. -/
theorem SameRun.of_alike {t t' : Session} {outcome outcome' : Except Failure Result}
    (hrun : runAll s = (outcome, t)) (hrun' : runAll s' = (outcome', t'))
    (hshown : outcome'.map t'.shown = outcome.map t.shown)
    (halike : Alike stimuli recorded s.calls s'.calls t t') :
    SameRun s s' ∧ (recorded → (runAll s').2.recording = (runAll s).2.recording) := by
  refine ⟨⟨?_, ?_⟩, ?_⟩
  all_goals rw [hrun, hrun']
  · exact hshown
  · exact halike.calls
  · exact halike.recording

/-- Runs of sessions with the same stimuli show the same, and record the same. -/
theorem runAll_sameRun (hfit : c.Fits stimuli) (hs : Steady c (.ofStore f) s)
    (hs' : Steady (c.withStimuli stimuli hfit) (.ofStore f) s')
    (hgiven : s.stimuli = stimuli) (hgiven' : s'.stimuli = stimuli)
    (hwatched : recorded → s.watched.isSome ∧ s'.watched = s.watched) :
    SameRun s s' ∧ (recorded → (runAll s').2.recording = (runAll s).2.recording) := by
  obtain ⟨outcome, t, t', hrun, hrun', hfirst⟩ := start_inStep hs hs' hgiven hgiven' hwatched
  cases outcome with
  | error e =>
    exact SameRun.of_alike (runAll_of_start_error hrun) (runAll_of_start_error hrun') rfl
      hfirst.alike
  | ok u =>
    obtain ⟨outcome, v, v', hrest, hrest', hlast⟩ := laterCycles_inStep hfirst t.circuit.length
    rw [← hfirst.circuit.2.2] at hrest'
    cases outcome with
    | error e =>
      exact SameRun.of_alike (runAll_of_laterCycles_error hrun hrest)
        (runAll_of_laterCycles_error hrun' hrest') rfl hlast.alike
    | ok u =>
      obtain ⟨message, hall⟩ := runAll_of_ok hrun hrest
      obtain ⟨message', hall'⟩ := runAll_of_ok hrun' hrest'
      exact SameRun.of_alike hall hall' (congrArg Except.ok hlast.alike.shown_result)
        (hlast.alike.logged _ _)

/-! ## 5. What a caller does in between -/

/-- A session, and the results that it has handed out. -/
structure Caller where
  session : Session
  results : List Result

/-- The results that an operation hands out. -/
def Operation.handed (s : Session) : Operation → List Result
  | .runAll =>
    match (Session.runAll s).1 with
    | .ok r => [r]
    | .error _ => []
  | .result => [s.result]
  | _ => []

/-- What a caller can do: ask for an operation, write to a trace of a result, or take an
output away from one. -/
inductive Move where
  | ask (op : Operation)
  | setInput (which place : Nat) (time : Number) (v : Bool)
  | setOutput (which : Nat) (name : String) (time : Number) (v : Bool)
  | dropOutput (which : Nat) (name : String)

/-- The caller after a move, whether it goes well or fails. -/
def Move.make (p : Caller) : Move → Caller
  | .ask op => ⟨op.perform p.session, p.results ++ op.handed p.session⟩
  | .setInput which place time v =>
    { p with
      results := p.results.modify which fun r =>
        match r.setInput place time v with
        | .ok r' => r'
        | .error _ => r }
  | .setOutput which name time v =>
    match p.results[which]? with
    | none => p
    | some r => { p with session := (Session.setResultOutput r name time v p.session).2 }
  | .dropOutput which name =>
    { p with results := p.results.modify which fun r => (r.dropOutput name).2 }

/-- The caller after moves, one after the other. -/
def Caller.play (p : Caller) (moves : List Move) : Caller := moves.foldl Move.make p

/-- To the session a move is an operation or nothing. -/
theorem Move.make_session (p : Caller) (m : Move) :
    ∃ ops, (m.make p).session = after p.session ops := by
  cases m with
  | ask op => exact ⟨[op], rfl⟩
  | setInput which place time v => exact ⟨[], rfl⟩
  | setOutput which name time v =>
    cases hr : p.results[which]? with
    | none => exact ⟨[], by simp only [make, hr]; rfl⟩
    | some r => exact ⟨[.setResultOutput r name time v], by simp only [make, hr]; rfl⟩
  | dropOutput which name => exact ⟨[], rfl⟩

theorem Caller.play_session (p : Caller) (moves : List Move) :
    ∃ ops, (p.play moves).session = after p.session ops := by
  induction moves generalizing p with
  | nil => exact ⟨[], rfl⟩
  | cons m moves ih =>
    obtain ⟨ops, hops⟩ := m.make_session p
    obtain ⟨more, hmore⟩ := ih (m.make p)
    refine ⟨ops ++ more, ?_⟩
    show ((m.make p).play moves).session = _
    rw [hmore, hops, after, after, after, List.foldl_append]

/-! ## 6. Running again -/

/-- **Running again.** Whatever a caller has done with the session of a circuit whose hook
answers to the time and the store, and however runs have ended, the next run shows what a
run of a new session shows, of the circuit with the stimuli as they are by now: the same
traces in the same order, or the same failure, and the same calls of the hook. If signals
are recorded, a new session that records them makes the same samples. -/
theorem rerun_independent (c : Circuit) (f : Nat → Store → Reaction) (moves : List Move) :
    let s := (Caller.play ⟨ofCircuit c (some (.ofStore f)), []⟩ moves).session
    ∃ c', Circuit.ofDesign { c.toDesign with stimuli := s.stimuli } = .ok c' ∧
      SameRun s (ofCircuit c' (some (.ofStore f))) ∧
      ∀ names, s.watched = some names →
        let recorder := (startRecording names (ofCircuit c' (some (.ofStore f)))).2
        SameRun s recorder ∧ (runAll recorder).2.recording = (runAll s).2.recording := by
  intro s
  obtain ⟨ops, hops⟩ := Caller.play_session ⟨ofCircuit c (some (.ofStore f)), []⟩ moves
  have hs : Steady c (.ofStore f) s := by
    show Steady c (.ofStore f) (Caller.play _ moves).session
    rw [hops]
    exact steady_after (steady_ofCircuit c (.ofStore f)) ops
  clear_value s
  have hnew := steady_ofCircuit (c.withStimuli s.stimuli hs.fits) (.ofStore f)
  refine ⟨c.withStimuli s.stimuli hs.fits, Circuit.ofDesign_withStimuli hs.fits, ?_, ?_⟩
  · exact (runAll_sameRun hs.fits hs hnew rfl rfl (False.elim : False → _)).1
  · intro names hnames recorder
    have hrecorder : recorder.watched = s.watched := by
      have hknown : names.filter (· ∈ c.signals) = names :=
        List.filter_eq_self.2 fun n hn => by simpa using hs.watched names hnames n hn
      rw [hnames]
      exact congrArg some hknown
    have hsome : s.watched.isSome := by rw [hnames]; rfl
    have hsame := runAll_sameRun hs.fits hs (hnew.startRecording names) rfl rfl
      fun _ : True => ⟨hsome, hrecorder⟩
    exact ⟨hsame.1, hsame.2 trivial⟩

end Session

end Clocked
