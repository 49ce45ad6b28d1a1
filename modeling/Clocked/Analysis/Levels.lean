/-
Clocked.Analysis.Levels — how deep each update lies.

Level 0 is given. An update has a level once all signals it reads have one: one
more than the greatest of them. Passes over the updates in list order assign
levels until a pass assigns none; what is then without a level lies on or behind
a combinational loop or an undriven signal.
-/
import Clocked.Analysis.Loops

namespace Clocked

/-- Signals by level, and the updates without one. -/
structure Levels where
  /-- Level 0, then the updates of every further level in list order. -/
  levels : List (List String)
  maxLevel : Nat
  /-- Outputs of the updates without level, in list order. -/
  unresolved : List String
deriving DecidableEq, Repr

namespace Levels

/-! ## 1. Assigning levels -/

/-- The level of an update whose signals all have levels. -/
def levelOf? (assigned : Table Nat) (u : Update) : Option Nat :=
  (u.dependencies.mapM assigned.get?).map fun levels => levels.foldl max 0 + 1

/-- Gives an update its level, if it has none yet and can have one. -/
def assign (assigned : Table Nat) (u : Update) : Table Nat :=
  if assigned.contains u.output then assigned
  else
    match levelOf? assigned u with
    | some level => assigned.set u.output level
    | none => assigned

/-- One pass over the updates. -/
def pass (us : List Update) (assigned : Table Nat) : Table Nat :=
  us.foldl assign assigned

/-- Passes until one assigns nothing, at most `fuel` of them. -/
def saturate (us : List Update) : Nat → Table Nat → Table Nat
  | 0, assigned => assigned
  | fuel + 1, assigned =>
    let more := pass us assigned
    if more.size = assigned.size then assigned else saturate us fuel more

/-- Level 0 for each of the given signals. -/
def ground (signals : List String) : Table Nat :=
  Table.ofList (signals.map (·, 0))

/-- All levels; every pass but the last adds an output, so there are no more
passes than updates. -/
def assignment (us : List Update) (signals : List String) : Table Nat :=
  saturate us us.length (ground signals)

/-! ## 2. The result -/

/-- The outputs of the updates whose level is as asked, in list order. -/
def outputsAt (us : List Update) (assigned : Table Nat) (level : Option Nat) : List String :=
  (us.filter fun u => assigned.get? u.output = level).map (·.output)

/-- Levels of the updates over given signals of level 0. -/
def ofUpdates (us : List Update) (signals : List String) : Levels :=
  let assigned := assignment us signals
  let deepest := (us.filterMap fun u => assigned.get? u.output).foldl max 0
  { levels :=
      (ground signals).keys ::
        (List.range deepest).map fun i => outputsAt us assigned (some (i + 1))
    maxLevel := deepest
    unresolved := outputsAt us assigned none }

end Levels

end Clocked
