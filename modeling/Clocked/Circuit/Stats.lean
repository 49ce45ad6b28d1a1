/-
Clocked.Circuit.Stats — the size of a circuit.

Counts of its parts, its cycles, and its updates by level.
-/
import Clocked.Circuit.Basic

namespace Clocked

/-- The counts of a circuit. -/
structure Stats where
  inputs : Nat
  outputs : Nat
  latches : Nat
  updates : Nat
  length : Nat
  maxLevel : Nat
  updatesPerLevel : List Nat
deriving DecidableEq, Repr

/-- Counts a circuit's parts. -/
def Circuit.stats (c : Circuit) : Stats where
  inputs := c.inputs.length
  outputs := c.outputs.length
  latches := c.latches.length
  updates := c.updates.length
  length := c.length
  maxLevel := c.levels.maxLevel
  updatesPerLevel := c.levels.levels.tail.map (·.length)

/-- The counts as a block of text under the circuit's name. -/
def Stats.text (s : Stats) (name : String) : String :=
  "\n".intercalate [
    "Circuit " ++ name ++ ":",
    "  inputs: " ++ toString s.inputs,
    "  outputs: " ++ toString s.outputs,
    "  latches: " ++ toString s.latches,
    "  updates: " ++ toString s.updates,
    "  cycles: " ++ toString s.length,
    "  max level: " ++ toString s.maxLevel,
    "  updates per level: " ++ " ".intercalate (s.updatesPerLevel.map toString)]

end Clocked
