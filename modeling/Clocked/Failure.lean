/-
Clocked.Failure — operations on a simulation that may fail.

An `Attempt` changes a state and may fail; what it did before it failed stays
done. The lemmas of §2 run attempts step by step, and take them apart
again.
-/
import Clocked.SimulationError
import Clocked.Trace

namespace Clocked

/-! ## 1. Failures -/

/-- Why an operation on a simulation fails. -/
inductive Failure where
  /-- The circuit or its run is at fault. -/
  | simulation (error : SimulationError)
  /-- A trace was asked for a cycle that it does not have. -/
  | trace (error : Trace.Error)
  /-- A cycle was asked for before the first run. -/
  | cycleBeforeStart (circuit : String)
  /-- A signal was asked for before the first run. -/
  | signalBeforeStart (circuit : String)
  /-- A cycle was asked for that is not the next one; `last` is the last cycle
  that was completed, -1 if there is none. -/
  | outOfTurn (time : Number) (last : Int) (length : Nat)
  /-- The hook failed. -/
  | hook (error : SimulationError)
deriving DecidableEq, Inhabited

/-- The wording of a failure. -/
def Failure.message : Failure → String
  | .simulation e => e.message
  | .trace e => e.message
  | .cycleBeforeStart circuit => "Circuit " ++ circuit ++ " must be initialized before nextCycle"
  | .signalBeforeStart circuit => "Circuit " ++ circuit ++ " has not been initialized"
  | .outOfTurn time last length =>
    "Cycle " ++ time.text ++ " cannot follow cycle " ++ toString last ++
      " (simulation length " ++ toString length ++ ")"
  | .hook e => e.message

/-! ## 2. Attempts -/

/-- An operation on a state that may fail. -/
abbrev Attempt (σ : Type) := ExceptT Failure (StateM σ)

namespace Attempt

variable {σ α β : Type}

/-- Takes the result of something that can go wrong because of the circuit. -/
def check (r : Except SimulationError α) : Attempt σ α :=
  match r with
  | .ok a => pure a
  | .error e => throw (.simulation e)

/-- Takes the result of something that can go wrong because of a trace. -/
def checkTrace (r : Except Trace.Error α) : Attempt σ α :=
  match r with
  | .ok a => pure a
  | .error e => throw (.trace e)

/-- After a step that went well comes the next one. -/
theorem bind_of_ok {a : Attempt σ α} {f : α → Attempt σ β} {s s' : σ} {x : α}
    (h : a s = (.ok x, s')) : (a >>= f) s = f x s' := by
  simp only [bind, ExceptT.bind, ExceptT.mk, StateT.bind]
  rw [h]
  rfl

/-- After a step that failed comes nothing. -/
theorem bind_of_error {a : Attempt σ α} {f : α → Attempt σ β} {s s' : σ} {e : Failure}
    (h : a s = (.error e, s')) : (a >>= f) s = (.error e, s') := by
  simp only [bind, ExceptT.bind, ExceptT.mk, StateT.bind]
  rw [h]
  rfl

/-- What went well as a whole went well step by step. -/
theorem bind_eq_ok {a : Attempt σ α} {f : α → Attempt σ β} {s s'' : σ} {y : β}
    (h : (a >>= f) s = (.ok y, s'')) : ∃ x s', a s = (.ok x, s') ∧ f x s' = (.ok y, s'') := by
  cases ha : a s with
  | mk r s' =>
    cases r with
    | error e => rw [bind_of_error ha] at h; cases h
    | ok x => exact ⟨x, s', rfl, by rw [← h, bind_of_ok ha]⟩

/-- What failed as a whole failed in one of its steps. -/
theorem bind_eq_error {a : Attempt σ α} {f : α → Attempt σ β} {s s'' : σ} {e : Failure}
    (h : (a >>= f) s = (.error e, s'')) :
    a s = (.error e, s'') ∨ ∃ x s', a s = (.ok x, s') ∧ f x s' = (.error e, s'') := by
  cases ha : a s with
  | mk r s' =>
    cases r with
    | error e' =>
      rw [bind_of_error ha] at h
      cases h
      exact .inl rfl
    | ok x =>
      rw [bind_of_ok ha] at h
      exact .inr ⟨x, s', rfl, h⟩

theorem pure_apply (a : α) (s : σ) : (pure a : Attempt σ α) s = (.ok a, s) := rfl

theorem get_apply (s : σ) : (get : Attempt σ σ) s = (.ok s, s) := rfl

theorem modify_apply (f : σ → σ) (s : σ) :
    (modify f : Attempt σ Unit) s = (.ok (), f s) := rfl

theorem check_ok (a : α) (s : σ) : (check (.ok a) : Attempt σ α) s = (.ok a, s) := rfl

theorem check_error (e : SimulationError) (s : σ) :
    (check (.error e) : Attempt σ α) s = (.error (.simulation e), s) := rfl

theorem checkTrace_ok (a : α) (s : σ) : (checkTrace (.ok a) : Attempt σ α) s = (.ok a, s) :=
  rfl

theorem checkTrace_error (e : Trace.Error) (s : σ) :
    (checkTrace (.error e) : Attempt σ α) s = (.error (.trace e), s) := rfl

end Attempt

end Clocked
