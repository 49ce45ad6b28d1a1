/-
Clocked.SimulationError — what is wrong with a circuit or its run.

Each error names its cause with the signals concerned. `kind`, `message` and
`signals` say how an error is reported; the wording stands nowhere else.
-/
namespace Clocked

/-- What is wrong with a circuit or a run of it. -/
inductive SimulationError where
  /-- Signals produced in more than one way. -/
  | producedTwice (signals : List String)
  /-- A circuit without inputs has no length. -/
  | noInputs
  /-- The number of stimuli is not the number of inputs. -/
  | stimulusCount (inputs given : Nat)
  /-- The stimulus at a place is for another signal than the input there. -/
  | stimulusMismatch (place : Nat) (signal input : String)
  /-- A stimulus without cycles. -/
  | emptyStimulus (signal : String)
  /-- A stimulus differs in length from the first one. -/
  | unequalStimuli (first : String) (length : Nat) (signal : String) (given : Nat)
  /-- A stimulus for a signal that is no input. -/
  | strayStimulus (signal : String)
  /-- An input without stimulus. -/
  | missingStimulus (input : String)
  /-- Outputs that neither a latch nor an update drives. -/
  | undrivenOutputs (signals : List String)
  /-- A signal was read before anything wrote it. -/
  | unbound (signal : String)
  /-- An update on a combinational loop, with the signals it lacks. -/
  | combinationalLoop (output : String) (cycle : Nat) (loop missing : List String)
  /-- An update reads signals that are not yet produced in this cycle. -/
  | notYetDefined (output : String) (cycle : Nat) (missing : List String)
deriving DecidableEq, Repr, Inhabited

namespace SimulationError

/-- Names in a row, as messages list them. -/
def listed (names : List String) : String := ", ".intercalate names

/-- The class an error belongs to. -/
def kind : SimulationError → String
  | .producedTwice _ => "namespace"
  | .noInputs | .stimulusCount _ _ | .stimulusMismatch _ _ _ | .emptyStimulus _
  | .unequalStimuli _ _ _ _ | .strayStimulus _ | .missingStimulus _ => "stimulus-shape"
  | .undrivenOutputs _ => "undriven-output"
  | .unbound _ => "unbound-signal"
  | .combinationalLoop _ _ _ _ | .notYetDefined _ _ _ => "illegal-order"

/-- The signals an error is about. -/
def signals : SimulationError → List String
  | .producedTwice signals => signals
  | .noInputs => []
  | .stimulusCount _ _ => []
  | .stimulusMismatch _ signal input => [signal, input]
  | .emptyStimulus signal => [signal]
  | .unequalStimuli _ _ signal _ => [signal]
  | .strayStimulus signal => [signal]
  | .missingStimulus input => [input]
  | .undrivenOutputs signals => signals
  | .unbound signal => [signal]
  | .combinationalLoop output _ _ missing => output :: missing
  | .notYetDefined output _ missing => output :: missing

/-- How an update out of order is reported. -/
def outOfOrder (output : String) (cycle : Nat) (detail : String) : String :=
  "Variable " ++ output ++ " may be cyclical at cycle " ++ toString cycle ++ ": " ++ detail

/-- The wording of an error. -/
def message : SimulationError → String
  | .producedTwice signals =>
    "A signal must be precisely 1 of the following: input signal, output of a latch, " ++
      "output of an update (defined more than once: " ++ listed signals ++ ")"
  | .noInputs => "Circuit has no inputs to take a simulation length from"
  | .stimulusCount inputs given =>
    "Expected " ++ toString inputs ++ " input traces, got " ++ toString given
  | .stimulusMismatch place signal input =>
    "Input trace " ++ toString place ++ " is for " ++ signal ++ ", expected " ++ input
  | .emptyStimulus signal =>
    "Input traces must cover at least one cycle (" ++ signal ++ " is empty)"
  | .unequalStimuli first length signal given =>
    "All inputs must be same length (" ++ first ++ " has " ++ toString length ++ ", " ++
      signal ++ " has " ++ toString given ++ ")"
  | .strayStimulus signal => "Stimulus given for " ++ signal ++ ", which is not an input"
  | .missingStimulus input => "No stimulus for input " ++ input
  | .undrivenOutputs signals =>
    "Outputs must be driven by a latch or an update: " ++ listed signals
  | .unbound signal => "Variable not defined: " ++ signal
  | .combinationalLoop output cycle loop _ =>
    outOfOrder output cycle ("combinational loop through " ++ listed loop)
  | .notYetDefined output cycle missing =>
    outOfOrder output cycle (listed missing ++ " not yet defined when it is updated")

end SimulationError

end Clocked
