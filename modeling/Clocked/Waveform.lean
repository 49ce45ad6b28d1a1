/-
Clocked.Waveform — recorded signal values.

A sample holds the values of the watched signals at the end of a cycle.
-/
import Clocked.Number.Basic
import Clocked.Store

namespace Clocked

/-- Signal values at the end of a cycle. -/
structure Sample where
  cycle : Number
  values : Table Bool
deriving Inhabited

/-- The values of signals in a store; a name given twice is taken once. -/
def Store.valuesOf (s : Store) (names : List String) : Except SimulationError (Table Bool) :=
  names.foldlM (fun t n => (s.read n).map (t.set n ·)) Table.empty

/-- The sample of some signals at the end of a cycle. -/
def Sample.take (s : Store) (time : Nat) (names : List String) :
    Except SimulationError Sample :=
  (s.valuesOf names).map (⟨.ofNat time, ·⟩)

end Clocked
