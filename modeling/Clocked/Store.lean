/-
Clocked.Store — the current value of every signal of a run.

A store is a table of signal values and a cycle counter. Reading a signal that
nothing has written is an error. `lookup` is the view: the lemmas say what
`write` does to it, and `Expr.eval` is an expression's value in that view when
all its signals are bound.
-/
import Clocked.Table
import Clocked.Expr.Basic
import Clocked.SimulationError

namespace Clocked

/-- Signal values of one run, and the number of the current cycle. -/
structure Store where
  values : Table Bool := Table.empty
  cycle : Nat := 0

namespace Store

instance : Inhabited Store := ⟨{}⟩

/-! ## 1. Signals -/

/-- The value of a signal, if something wrote it. -/
def lookup (s : Store) (name : String) : Option Bool := s.values.get? name

/-- Reads a signal. -/
def read (s : Store) (name : String) : Except SimulationError Bool :=
  match s.lookup name with
  | some v => .ok v
  | none => .error (.unbound name)

/-- Writes a signal. -/
def write (s : Store) (name : String) (v : Bool) : Store :=
  { s with values := s.values.set name v }

/-- Whether a signal has a value. -/
def has (s : Store) (name : String) : Bool := s.values.contains name

/-- The signals that have a value, in the order they were first written. -/
def names (s : Store) : List String := s.values.keys

/-- Moves on to the next cycle. -/
def advance (s : Store) : Store := { s with cycle := s.cycle + 1 }

@[simp] theorem lookup_write (s : Store) (k : String) (v : Bool) (n : String) :
    (s.write k v).lookup n = if n = k then some v else s.lookup n :=
  Table.get?_set s.values k v n

theorem names_write (s : Store) (k : String) (v : Bool) :
    (s.write k v).names = if k ∈ s.names then s.names else s.names ++ [k] :=
  Table.keys_set s.values k v

@[simp] theorem cycle_write (s : Store) (k : String) (v : Bool) :
    (s.write k v).cycle = s.cycle := rfl

@[simp] theorem lookup_advance (s : Store) (n : String) : s.advance.lookup n = s.lookup n := rfl

theorem lookup_isSome_iff (s : Store) (n : String) : (s.lookup n).isSome ↔ n ∈ s.names :=
  Table.get?_isSome_iff s.values n

theorem read_eq_ok_iff {s : Store} {n : String} {v : Bool} :
    s.read n = .ok v ↔ s.lookup n = some v := by
  cases h : s.lookup n <;> simp [read, h]

theorem read_eq_error_iff {s : Store} {n : String} {e : SimulationError} :
    s.read n = .error e ↔ s.lookup n = none ∧ e = .unbound n := by
  cases h : s.lookup n <;> simp [read, h, eq_comm]

end Store

/-! ## 2. Expressions over a store -/

namespace Expr

variable {α : Type}

/-- Evaluates an expression; both operands of an operator are evaluated, the
left one first, whatever their values. -/
def eval (s : Store) : Expr α → Except SimulationError Bool
  | .signal _ name => s.read name
  | .and _ l r => do
    let a ← l.eval s
    let b ← r.eval s
    return a && b
  | .or _ l r => do
    let a ← l.eval s
    let b ← r.eval s
    return a || b
  | .not _ e => do
    let a ← e.eval s
    return !a

end Expr

end Clocked
