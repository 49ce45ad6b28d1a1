/-
Clocked.Proofs.Session.Hooks — finishing a cycle when a hook is called.

Whatever the hook answers, a finished cycle leaves the session with one more
call and with what the hook wrote (`finishCycle_called`). `callTimes` and
`writtenIn` read off the calls what happened in one run.
-/
import Clocked.Proofs.Run.Names
import Clocked.Proofs.Session.Steps

namespace Clocked.Session

open Attempt (bind_of_ok bind_of_error get_apply modify_apply check_ok check_error)

variable {s : Session} {hook : Hook}

/-! ## 1. One call -/

/-- The call of the hook after a cycle. -/
def callAfter (s : Session) (time : Nat) : Call := ⟨s.runNumber, time, s.run.store⟩

/-- What the hook does after a cycle. -/
def reactionAfter (hook : Hook) (time : Nat) (s : Session) : Reaction :=
  hook (s.callAfter time) s.calls

/-- The session once the hook was called after a cycle. -/
def called (hook : Hook) (time : Nat) (s : Session) : Session :=
  { s with
    calls := s.callAfter time :: s.calls
    run := { s.run with store := s.run.store.writeAll (s.reactionAfter hook time).writes } }

theorem callHook_eq (hhook : s.hook = some hook) (time : Nat) :
    callHook time s =
      (match (s.reactionAfter hook time).failure with
        | none => .ok ()
        | some e => .error (.hook e), s.called hook time) := by
  unfold callHook
  rw [bind_of_ok (get_apply s), hhook]
  simp only
  rw [bind_of_ok (modify_apply _ s)]
  show (match (s.reactionAfter hook time).failure with
    | none => pure ()
    | some e => throw (.hook e) : Action Unit) (s.called hook time) = _
  cases (s.reactionAfter hook time).failure <;> rfl

/-! ## 2. Samples -/

/-- The list of samples once a cycle was sampled. -/
def sampled (time : Nat) (s : Session) : Array Sample :=
  match s.watched with
  | none => s.recording
  | some names =>
    match Sample.take s.run.store time names with
    | .ok sample => s.recording.push sample
    | .error _ => s.recording

/-- Recording succeeds if the watched signals are bound. -/
theorem recordSample_ok (h : ∀ names, s.watched = some names → ∀ n ∈ names, n ∈ s.run.store.names)
    (time : Nat) : recordSample time s = (.ok (), { s with recording := s.sampled time }) := by
  obtain hw | ⟨names, hw⟩ := Option.eq_none_or_eq_some s.watched
  · have hsampled : s.sampled time = s.recording := by simp only [sampled, hw]
    rw [recordSample_of_none hw, hsampled]
  · have hvalues : ∀ n ∈ names,
        s.run.store.lookup n = some ((s.run.store.lookup n).getD false) := by
      intro n hn
      obtain ⟨v, hv⟩ := Store.lookup_isSome_of_mem (h names hw n hn)
      rw [hv]
      rfl
    have hsampled : s.sampled time = s.recording.push
        ⟨.ofNat time, Table.ofList (names.map fun n => (n, (s.run.store.lookup n).getD false))⟩ := by
      simp only [sampled, hw, Sample.take, valuesOf_eq hvalues, Except.map]
    rw [recordSample_of_some hw hvalues, hsampled]

/-! ## 3. Finishing a cycle -/

/-- How finishing a cycle ends: as the hook does, then with what can be logged. -/
def finishOutcome (hook : Hook) (time : Nat) (s : Session) : Except Failure Unit :=
  match (s.reactionAfter hook time).failure with
  | some e => .error (.hook e)
  | none =>
    match outputValues (s.called hook time).run.store s.circuit.outputs with
    | .ok _ => .ok ()
    | .error e => .error (.simulation e)

/-- Finishing a cycle takes a sample and calls the hook once; whether it goes well is
up to the hook and to what can be logged. -/
theorem finishCycle_called (hhook : s.hook = some hook)
    (hwatched : ∀ names, s.watched = some names → ∀ n ∈ names, n ∈ s.run.store.names)
    (time : Nat) :
    ∃ log, finishCycle time s =
      (s.finishOutcome hook time,
        { s.called hook time with recording := s.sampled time, log }) := by
  have hcall := callHook_eq (s := { s with recording := s.sampled time }) hhook time
  have hreaction : ({ s with recording := s.sampled time } : Session).reactionAfter hook time =
      s.reactionAfter hook time := rfl
  rw [hreaction] at hcall
  unfold finishCycle finishOutcome
  rw [bind_of_ok (recordSample_ok hwatched time)]
  cases hfailure : (s.reactionAfter hook time).failure with
  | some e =>
    simp only [hfailure] at hcall
    rw [bind_of_error hcall]
    exact ⟨s.log, rfl⟩
  | none =>
    simp only [hfailure] at hcall
    rw [bind_of_ok hcall, bind_of_ok (get_apply _)]
    have hvalues : outputValues
        (({ s with recording := s.sampled time } : Session).called hook time).run.store
        (({ s with recording := s.sampled time } : Session).called hook time).circuit.outputs =
        outputValues (s.called hook time).run.store s.circuit.outputs := rfl
    rw [hvalues]
    cases outputValues (s.called hook time).run.store s.circuit.outputs with
    | error e =>
      rw [bind_of_error (check_error e _)]
      exact ⟨s.log, rfl⟩
    | ok values =>
      rw [bind_of_ok (check_ok values _)]
      exact ⟨s.log.push (.debug, _), rfl⟩

/-! ## 4. The calls of a run -/

/-- The times of the calls in a run, the first one first. -/
def callTimes (s : Session) (run : Nat) : List Nat :=
  ((s.calls.filter (·.run = run)).map (·.time)).reverse

/-- The names that the hook wrote in the calls of a run, in order. -/
def writtenIn (hook : Hook) (run : Nat) : List Call → List String
  | [] => []
  | call :: earlier =>
    writtenIn hook run earlier ++
      if call.run = run then (hook call earlier).writes.map Prod.fst else []

theorem callTimes_called (hook : Hook) (time run : Nat) (s : Session) :
    (s.called hook time).callTimes run =
      if run = s.runNumber then s.callTimes run ++ [time] else s.callTimes run := by
  by_cases hrun : run = s.runNumber
  · subst hrun
    simp [callTimes, called, callAfter]
  · simp [callTimes, called, callAfter, hrun, Ne.symm hrun]

theorem writtenIn_called (hook : Hook) (time : Nat) (s : Session) :
    writtenIn hook s.runNumber (s.called hook time).calls =
      writtenIn hook s.runNumber s.calls ++ (s.reactionAfter hook time).writes.map Prod.fst := by
  rw [called, writtenIn, callAfter, if_pos rfl]
  rfl

/-- In a run that no call belongs to there are no times and no names. -/
theorem callTimes_eq_nil {run : Nat} (h : ∀ call ∈ s.calls, call.run ≠ run) :
    s.callTimes run = [] := by
  have hnone : s.calls.filter (·.run = run) = [] := by simpa [List.filter_eq_nil_iff] using h
  rw [callTimes, hnone]
  rfl

theorem writtenIn_eq_nil {run : Nat} {calls : List Call} (h : ∀ call ∈ calls, call.run ≠ run) :
    writtenIn hook run calls = [] := by
  induction calls with
  | nil => rfl
  | cons call calls ih =>
    rw [writtenIn, ih fun k hk => h k (List.mem_cons_of_mem _ hk),
      if_neg (h call List.mem_cons_self), List.append_nil]

end Clocked.Session
