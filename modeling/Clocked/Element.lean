/-
Clocked.Element — what drives the signals of a circuit.

A latch holds one bit: its output is its input, one cycle later. An update is
one combinational assignment, evaluated in every cycle.
-/
import Clocked.Expr.Text
import Clocked.Store

namespace Clocked

/-! ## 1. Latches -/

/-- A latch from an input signal to an output signal. -/
structure Latch where
  input : String
  output : String
deriving DecidableEq, Repr, Inhabited

namespace Latch

/-- Puts the output at 0, as at the start of a run. -/
def reset (l : Latch) (s : Store) : Store := s.write l.output false

/-- The value that the output takes in the next cycle. -/
def sample (l : Latch) (s : Store) : Except SimulationError Bool := s.read l.input

/-- Gives the output a value. -/
def commit (l : Latch) (v : Bool) (s : Store) : Store := s.write l.output v

/-- Copies the input's value to the output. -/
def advance (l : Latch) (s : Store) : Except SimulationError Store :=
  (l.sample s).map (l.commit · s)

/-- A latch as source text. -/
def text (l : Latch) : String := l.input ++ " -> " ++ l.output

end Latch

/-! ## 2. Updates -/

/-- An assignment of an expression to a signal. -/
structure Update where
  output : String
  expr : Expr Unit
deriving DecidableEq, Repr, Inhabited

namespace Update

/-- The signals read, in reading order. -/
def dependencies (u : Update) : List String := u.expr.freeVariables

/-- The signals read that are not among the given ones, in reading order. -/
def missing (u : Update) (ready : List String) : List String :=
  u.dependencies.filter (· ∉ ready)

/-- Evaluates the expression and writes the output; the value with the store. -/
def evaluate (u : Update) (s : Store) : Except SimulationError (Bool × Store) :=
  (u.expr.eval s).map fun v => (v, s.write u.output v)

/-- An update as source text. -/
def text (u : Update) : String := u.output ++ " = " ++ u.expr.text

end Update

end Clocked
