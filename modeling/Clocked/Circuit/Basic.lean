/-
Clocked.Circuit.Basic — designs, and the circuits among them.

A design puts inputs, outputs, latches, updates and stimuli side by side. It is
a circuit if every signal is produced in one way, every input has one stimulus
and all of one length, and every output is driven. `Design.fault?` finds the
first thing wrong; a `Circuit` is a design of which nothing is wrong.
-/
import Clocked.Analysis.Levels
import Clocked.Description.Basic
import Clocked.Trace

namespace Clocked

/-! ## 1. Designs -/

/-- The parts of a circuit. -/
structure Design where
  name : String
  inputs : List String
  outputs : List String
  latches : List Latch
  updates : List Update
  /-- The values of the inputs, in the order of the inputs. -/
  stimuli : List Trace
deriving DecidableEq, Inhabited

namespace Design

/-- Outputs of the latches. -/
def latchOutputs (d : Design) : List String := d.latches.map (·.output)

/-- Outputs of the updates. -/
def updateOutputs (d : Design) : List String := d.updates.map (·.output)

/-- Every signal the design produces: inputs, latch outputs, update outputs. -/
def signals (d : Design) : List String := d.inputs ++ d.latchOutputs ++ d.updateOutputs

/-- The signals that have a value before the first update of a cycle. -/
def ready (d : Design) : List String := (d.inputs ++ d.latchOutputs).eraseDups

/-- Number of cycles: the length of the first stimulus. -/
def length (d : Design) : Nat :=
  match d.stimuli with
  | [] => 0
  | t :: _ => t.length

/-! ## 2. What can be wrong -/

/-- The elements that stand at least twice, where they stand for the second
time; `before` is what came earlier. -/
def repeated (before : List String) : List String → List String
  | [] => []
  | x :: xs =>
    if before.count x = 1 then x :: repeated (x :: before) xs else repeated (x :: before) xs

/-- Signals produced in more than one way. -/
def producedFault? (d : Design) : Option SimulationError :=
  match repeated [] d.signals with
  | [] => none
  | names => some (.producedTwice names)

/-- The first stimulus, counted from `place`, that is for another signal. -/
def mismatch? (place : Nat) : List Trace → List String → Option SimulationError
  | t :: ts, i :: is =>
    if t.signal = i then mismatch? (place + 1) ts is
    else some (.stimulusMismatch place t.signal i)
  | _, _ => none

/-- The first stimulus that is empty or differs in length from the first. -/
def lengthFault? : List Trace → Option SimulationError
  | [] => none
  | t :: ts =>
    if t.length = 0 then some (.emptyStimulus t.signal)
    else
      (ts.find? fun u => u.length ≠ t.length).map fun u =>
        .unequalStimuli t.signal t.length u.signal u.length

/-- What is wrong with the stimuli. -/
def stimulusFault? (d : Design) : Option SimulationError :=
  if d.inputs = [] then some .noInputs
  else if d.stimuli.length ≠ d.inputs.length then
    some (.stimulusCount d.inputs.length d.stimuli.length)
  else (mismatch? 0 d.stimuli d.inputs).or (lengthFault? d.stimuli)

/-- Outputs that nothing drives. -/
def undriven (d : Design) : List String :=
  d.outputs.filter fun n => n ∉ d.updateOutputs && n ∉ d.latchOutputs

/-- Whether an output is undriven. -/
def outputFault? (d : Design) : Option SimulationError :=
  match d.undriven with
  | [] => none
  | names => some (.undrivenOutputs names)

/-- The first thing wrong with a design. -/
def fault? (d : Design) : Option SimulationError :=
  (d.producedFault?.or d.stimulusFault?).or d.outputFault?

/-! ## 3. Designs from descriptions -/

/-- The stimulus that a description gives an input; of several the last. -/
def stimulusFor {α : Type} (d : Description α) (input : String) :
    Except SimulationError Trace :=
  match d.stimuli.findRev? (·.signal = input) with
  | some s => .ok (.ofList input s.values)
  | none => .error (.missingStimulus input)

/-- The design that a description describes; stimuli go to inputs by name. -/
def ofDescription {α : Type} (d : Description α) : Except SimulationError Design :=
  match d.stimuli.find? (·.signal ∉ d.inputs) with
  | some s => .error (.strayStimulus s.signal)
  | none =>
    (d.inputs.mapM (stimulusFor d)).map fun stimuli =>
      { name := d.name
        inputs := d.inputs
        outputs := d.outputs
        latches := d.latches.map (·.toLatch)
        updates := d.updates.map (·.toUpdate)
        stimuli }

end Design

/-! ## 4. Circuits -/

/-- A design of which nothing is wrong. -/
structure Circuit extends Design where
  sound : toDesign.fault? = none

namespace Circuit

/-- The circuit of a design, or what is wrong with it. -/
def ofDesign (d : Design) : Except SimulationError Circuit :=
  match h : d.fault? with
  | none => .ok ⟨d, h⟩
  | some e => .error e

/-- The circuit that a description describes. -/
def ofDescription {α : Type} (d : Description α) : Except SimulationError Circuit := do
  ofDesign (← Design.ofDescription d)

/-- Why an update cannot be evaluated in a cycle, given what it lacks. -/
def outOfOrder (c : Circuit) (u : Update) (missing : List String) (cycle : Nat) :
    SimulationError :=
  match (loops c.updates).find? (u.output ∈ ·) with
  | some loop => .combinationalLoop u.output cycle loop missing.eraseDups
  | none => .notYetDefined u.output cycle missing.eraseDups

/-- Levels of the circuit's updates. -/
def levels (c : Circuit) : Levels := Levels.ofUpdates c.updates c.ready

end Circuit

end Clocked
