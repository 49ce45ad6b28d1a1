/-
Clocked.Session.Basic — a circuit under simulation.

A session goes through runs. The run before the first start shows output traces
of zeros; every start begins another run, and earlier runs keep their traces.
A result names its run: its input traces are copies, its output traces are the
run's own. Recordings work alike: every beginning makes another list of samples,
and a list once handed out is known by its number.

A hook is called after every completed cycle and may write to the store. It is
given all calls made so far, so that a hook with a memory of its own is one too.
-/
import Clocked.Log
import Clocked.Run
import Clocked.Waveform

namespace Clocked

/-! ## 1. Sessions -/

/-- A call of the hook: in which run, after which cycle, and the store then. -/
structure Call where
  run : Nat
  time : Nat
  given : Store

/-- What a hook does: the values it writes, in order, and how it fails
afterwards, if it does. -/
structure Reaction where
  writes : List (String × Bool) := []
  failure : Option SimulationError := none

/-- What is called after every completed cycle. It sees the present call and
then the earlier ones, the last one first. -/
abbrev Hook := Call → List Call → Reaction

/-- A circuit under simulation. -/
structure Session where
  circuit : Circuit
  hook : Option Hook
  /-- The circuit's own stimuli. -/
  stimuli : List Trace
  /-- The runs before the present one, the first one first. -/
  pastRuns : List Run
  /-- The present run. -/
  run : Run
  /-- The cycle to come. -/
  upcoming : Nat
  /-- The signals being recorded, while recording is on. -/
  watched : Option (List String)
  /-- The lists of samples before the present one, the first one first. -/
  pastRecordings : List (Array Sample)
  /-- The present list of samples. -/
  recording : Array Sample
  /-- The calls of the hook so far, the last one first. -/
  calls : List Call
  /-- The messages logged so far, the first one first. -/
  log : Array (Log.Level × String)

/-- An operation on a session that may fail. -/
abbrev Action := Attempt Session

/-- What a run has produced. -/
structure Result where
  /-- Copies of the input traces. -/
  inputs : List Trace
  /-- The number of the run. -/
  run : Nat
  /-- The outputs whose traces belong to the result, in order. -/
  outputs : List String
deriving DecidableEq, Inhabited

namespace Session

open Attempt (check checkTrace)

/-- A session in which nothing has happened. -/
def ofCircuit (c : Circuit) (hook : Option Hook) : Session where
  circuit := c
  hook := hook
  stimuli := c.stimuli
  pastRuns := []
  run := Run.blank c
  upcoming := 0
  watched := none
  pastRecordings := []
  recording := #[]
  calls := []
  log := #[]

/-- Whether a run has been started. -/
def started (s : Session) : Bool := !s.pastRuns.isEmpty

/-- The number of the present run. -/
def runNumber (s : Session) : Nat := s.pastRuns.length

/-- The run with a number. -/
def runAt? (s : Session) (number : Nat) : Option Run := (s.pastRuns ++ [s.run])[number]?

/-- The number of the present list of samples. -/
def recordingNumber (s : Session) : Nat := s.pastRecordings.length

/-- The list of samples with a number. -/
def recordingAt? (s : Session) (number : Nat) : Option (Array Sample) :=
  (s.pastRecordings ++ [s.recording])[number]?

/-- The last cycle that was completed, -1 if there is none. -/
def lastCycle (s : Session) : Int := (s.upcoming : Int) - 1

/-! ## 2. Small steps -/

/-- Takes a step of the present run. -/
def onRun {α : Type} (step : Cycle α) : Action α := fun s =>
  let (outcome, run) := step s.run
  (outcome, { s with run })

/-- Logs a message. -/
def debug (message : String) : Action Unit :=
  modify fun s => { s with log := s.log.push (.debug, message) }

/-- Begins another run. -/
def beginRun : Action Unit :=
  modify fun s => { s with pastRuns := s.pastRuns ++ [s.run], run := Run.blank s.circuit }

/-- Begins another list of samples. -/
def beginRecording : Action Unit :=
  modify fun s =>
    { s with pastRecordings := s.pastRecordings ++ [s.recording], recording := #[] }

/-- Takes a sample, if recording is on. -/
def recordSample (time : Nat) : Action Unit := do
  let s ← get
  match s.watched with
  | none => return
  | some names =>
    let sample ← check (Sample.take s.run.store time names)
    modify fun s => { s with recording := s.recording.push sample }

/-- Calls the hook, if there is one. -/
def callHook (time : Nat) : Action Unit := do
  let s ← get
  match s.hook with
  | none => return
  | some hook =>
    let call : Call := ⟨s.runNumber, time, s.run.store⟩
    let reaction := hook call s.calls
    let store := reaction.writes.foldl (fun store w => store.write w.1 w.2) s.run.store
    modify fun s => { s with calls := call :: s.calls, run := { s.run with store } }
    match reaction.failure with
    | none => return
    | some e => throw (.hook e)

/-- What is logged about the outputs after a cycle. -/
def outputValues (store : Store) (names : List String) : Except SimulationError (List String) :=
  names.mapM fun n => (store.read n).map fun v => n ++ "=" ++ (if v then "1" else "0")

/-- What follows every completed cycle: sample, hook, log line. -/
def finishCycle (time : Nat) : Action Unit := do
  recordSample time
  callHook time
  let s ← get
  let values ← check (outputValues s.run.store s.circuit.outputs)
  debug ("Cycle " ++ toString time ++ ": " ++ " ".intercalate values)

/-! ## 3. Simulation -/

/-- Starts a run: cycle 0, with the inputs loaded and every latch at 0. -/
def start : Action Unit := do
  beginRun
  if (← get).watched.isSome then beginRecording
  let s ← get
  onRun (Run.firstCycle s.circuit s.stimuli)
  modify fun s => { s with upcoming := 1 }
  finishCycle 0

/-- Goes on to a cycle, which must be the one to come. -/
def next (time : Number) : Action Unit := do
  let s ← get
  unless s.started do throw (.cycleBeforeStart s.circuit.name)
  unless time = .ofNat s.upcoming ∧ s.upcoming < s.circuit.length do
    throw (.outOfTurn time s.lastCycle s.circuit.length)
  onRun (Run.laterCycle s.circuit s.stimuli s.upcoming)
  modify fun t => { t with upcoming := s.upcoming + 1 }
  finishCycle s.upcoming

/-- The result of the present run as it stands. -/
def result (s : Session) : Result := ⟨s.stimuli, s.runNumber, s.run.outputs.keys⟩

/-- Runs the circuit through all its cycles. -/
def runAll : Action Result := do
  start
  let length := (← get).circuit.length
  (List.range' 1 (length - 1)).forM fun time => next (.ofNat time)
  let s ← get
  debug ("Simulated " ++ toString length ++ " cycles of " ++ s.circuit.name)
  return s.result

/-- The value of a signal as it stands. -/
def signal (name : String) : Action Bool := do
  let s ← get
  unless s.started do throw (.signalBeforeStart s.circuit.name)
  check (s.run.store.read name)

/-! ## 4. Recording -/

/-- Records signals from now on; names that the circuit does not produce are
left out. -/
def startRecording (names : List String) : Action Unit := do
  beginRecording
  modify fun s => { s with watched := some (names.filter (· ∈ s.circuit.signals)) }

/-- Ends the recording; the number of its list of samples. -/
def stopRecording : Action Nat := do
  modify fun s => { s with watched := none }
  return (← get).recordingNumber

/-! ## 5. Traces in the hands of a caller -/

/-- The output traces of the present run. -/
def outputTraces (s : Session) : List (String × Trace) := s.run.outputs.entries

/-- The output traces that belong to a result, as they stand. -/
def resultOutputs (s : Session) (r : Result) : List (String × Trace) :=
  match s.runAt? r.run with
  | none => []
  | some run => r.outputs.filterMap fun n => (run.outputs.get? n).map (n, ·)

/-- Changes a value of one of the circuit's own stimuli. -/
def setStimulus (place : Nat) (time : Number) (v : Bool) : Action Unit := do
  match (← get).stimuli[place]? with
  | none => return
  | some t =>
    let t ← checkTrace (t.set time v)
    modify fun s => { s with stimuli := s.stimuli.set place t }

/-- Changes the output trace of a name in the run with a number. -/
def putOutput (s : Session) (number : Nat) (name : String) (t : Trace) : Session :=
  let change (run : Run) : Run := { run with outputs := run.outputs.modify name fun _ => t }
  if number = s.runNumber then { s with run := change s.run }
  else { s with pastRuns := s.pastRuns.modify number change }

/-- Changes a value of an output trace of a result, which is its run's own. -/
def setResultOutput (r : Result) (name : String) (time : Number) (v : Bool) : Action Unit := do
  match (← get).resultOutputs r |>.find? (·.1 = name) with
  | none => return
  | some (_, t) =>
    let t ← checkTrace (t.set time v)
    modify (·.putOutput r.run name t)

end Session

namespace Result

/-- Changes a value of an input trace, which is the result's own. -/
def setInput (r : Result) (place : Nat) (time : Number) (v : Bool) :
    Except Trace.Error Result :=
  match r.inputs[place]? with
  | none => .ok r
  | some t => (t.set time v).map fun t => { r with inputs := r.inputs.set place t }

/-- Takes an output away; whether it was there. -/
def dropOutput (r : Result) (name : String) : Bool × Result :=
  (name ∈ r.outputs, { r with outputs := r.outputs.filter (· ≠ name) })

end Result

end Clocked
