/-
Clocked.Session.Source — simulating a source text.

Reading, building and running a circuit in one go. What was logged until a
failure stays known.
-/
import Clocked.Description.Reader
import Clocked.Report.Traces
import Clocked.Session.Basic

namespace Clocked

/-- Why a source text cannot be simulated. -/
inductive SourceFailure where
  /-- The text describes no circuit. -/
  | unreadable (error : SyntaxError Location)
  /-- What it describes is no circuit, or its run fails. -/
  | failed (failure : Failure)
deriving DecidableEq

/-- The wording of a failure. -/
def SourceFailure.message : SourceFailure → String
  | .unreadable e => e.message
  | .failed f => f.message

/-- The circuit that a source text describes. -/
def Circuit.ofText (source : String) : Except SourceFailure Circuit :=
  match Description.ofText source with
  | .error e => .error (.unreadable e)
  | .ok d =>
    match Circuit.ofDescription d with
    | .error e => .error (.failed (.simulation e))
    | .ok c => .ok c

namespace Session

/-- The traces of a result, as they are printed. -/
def resultText (s : Session) (r : Result) : String :=
  Report.traces r.inputs ((s.resultOutputs r).map Prod.snd)

end Session

/-- Simulates a source text: the printed traces, and what was logged. -/
def simulate (source : String) : Except SourceFailure String × List (Log.Level × String) :=
  match Circuit.ofText source with
  | .error e => (.error e, [])
  | .ok c =>
    match Session.runAll (Session.ofCircuit c none) with
    | (.ok r, s) => (.ok (s.resultText r), s.log.toList)
    | (.error e, s) => (.error (.failed e), s.log.toList)

end Clocked
