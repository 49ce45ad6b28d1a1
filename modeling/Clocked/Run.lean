/-
Clocked.Run — one run of a circuit, cycle by cycle.

A run has a store and one output trace per declared output. A cycle loads the
inputs, gives every latch the value that its input had at the end of the cycle
before, and evaluates the updates in list order; whatever is produced is
recorded in the output trace of its name, if it has one. An update that reads a
signal not yet produced in the cycle stops it.

A `Cycle` is an attempt on a run.
-/
import Clocked.Circuit.Basic
import Clocked.Failure

namespace Clocked

/-- The state of a run. -/
structure Run where
  store : Store
  /-- Output traces by name, in the order the outputs were declared. -/
  outputs : Table Trace
deriving Inhabited

/-- A step of a run that may fail. -/
abbrev Cycle := Attempt Run

namespace Run

open Attempt (check checkTrace)

/-! ## 1. Small steps -/

/-- A run in which nothing has happened. -/
def blank (c : Circuit) : Run where
  store := {}
  outputs := Table.ofList (c.outputs.map fun n => (n, Trace.zeros n c.length))

/-- Writes a signal. -/
def write (name : String) (v : Bool) : Cycle Unit :=
  modify fun r => { r with store := r.store.write name v }

/-- Records a value in the output trace of a name, if there is one. -/
def record (name : String) (time : Nat) (v : Bool) : Cycle Unit := do
  match (← get).outputs.get? name with
  | none => return
  | some t =>
    let t ← checkTrace (t.set (.ofNat time) v)
    modify fun r => { r with outputs := r.outputs.set name t }

/-! ## 2. The parts of a cycle -/

/-- Gives every input its value. -/
def loadInputs (time : Nat) (stimuli : List Trace) : Cycle Unit :=
  stimuli.forM fun t => do
    let v ← checkTrace (t.get (.ofNat time))
    write t.signal v

/-- Puts every latch at 0. -/
def resetLatches (time : Nat) (latches : List Latch) : Cycle Unit :=
  latches.forM fun l => do
    modify fun r => { r with store := l.reset r.store }
    record l.output time false

/-- Gives every latch the value it sampled. -/
def commitLatches (time : Nat) (sampled : List (Latch × Bool)) : Cycle Unit :=
  sampled.forM fun (l, v) => do
    modify fun r => { r with store := l.commit v r.store }
    record l.output time v

/-- Evaluates the updates in list order; `ready` are the signals produced so
far in this cycle. -/
def performUpdates (c : Circuit) (time : Nat) : List String → List Update → Cycle Unit
  | _, [] => return
  | ready, u :: us =>
    if u.missing ready = [] then do
      let (v, store) ← check (u.evaluate (← get).store)
      modify fun r => { r with store }
      record u.output time v
      performUpdates c time (u.output :: ready) us
    else throw (.simulation (c.outOfOrder u (u.missing ready) time))

/-! ## 3. Cycles -/

/-- Cycle 0. -/
def firstCycle (c : Circuit) (stimuli : List Trace) : Cycle Unit := do
  loadInputs 0 stimuli
  resetLatches 0 c.latches
  performUpdates c 0 c.ready c.updates

/-- A later cycle. Every latch samples its input before any signal changes. -/
def laterCycle (c : Circuit) (stimuli : List Trace) (time : Nat) : Cycle Unit := do
  modify fun r => { r with store := r.store.advance }
  let store := (← get).store
  let sampled ← check (c.latches.mapM fun l => (l.sample store).map (l, ·))
  loadInputs time stimuli
  commitLatches time sampled
  performUpdates c time c.ready c.updates

end Run

end Clocked
