/-
Clocked.Proofs.Session.Steps — starting a run and going on with it.

`start` and `next` prepare the session, take one cycle of its run, and finish
the cycle. The equations of §1 and §2 say so for every session, whatever hook
or recording it has; only the cycle of the run decides between them.
-/
import Clocked.Proofs.Run.Cycle
import Clocked.Session.Basic

namespace Clocked.Session

open Attempt (bind_of_ok bind_of_error get_apply modify_apply check_ok pure_apply)

/-! ## 1. Starting a run -/

/-- A session about to take cycle 0 of another run. -/
def restarted (s : Session) : Session :=
  { s with
    pastRuns := s.pastRuns ++ [s.run]
    run := Run.blank s.circuit
    pastRecordings :=
      if s.watched.isSome then s.pastRecordings ++ [s.recording] else s.pastRecordings
    recording := if s.watched.isSome then #[] else s.recording }

@[simp] theorem started_restarted (s : Session) : s.restarted.started = true := by
  simp [started, restarted]

theorem onRun_eq {α : Type} {step : Cycle α} {s : Session} {outcome : Except Failure α} {r : Run}
    (h : step s.run = (outcome, r)) : onRun step s = (outcome, { s with run := r }) := by
  rw [onRun, h]

/-- Starting begins another run, and another list of samples while recording. -/
theorem start_eq (s : Session) :
    start s = (do
      onRun (Run.firstCycle s.circuit s.stimuli)
      modify fun s => { s with upcoming := 1 }
      finishCycle 0 : Action Unit) s.restarted := by
  unfold start beginRun
  rw [bind_of_ok (modify_apply _ s), bind_of_ok (get_apply _)]
  by_cases hw : s.watched.isSome
  · have hr : s.restarted = { s with
        pastRuns := s.pastRuns ++ [s.run], run := Run.blank s.circuit
        pastRecordings := s.pastRecordings ++ [s.recording], recording := #[] } := by
      simp [restarted, hw]
    simp only [hw, if_true]
    unfold beginRecording
    rw [bind_of_ok (modify_apply _ _), bind_of_ok (get_apply _), hr]
  · have hr : s.restarted =
        { s with pastRuns := s.pastRuns ++ [s.run], run := Run.blank s.circuit } := by
      simp [restarted, hw]
    simp only [hw, Bool.false_eq_true, if_false]
    rw [bind_of_ok (get_apply _), hr]

theorem start_of_ok {s : Session} {r : Run}
    (h : Run.firstCycle s.circuit s.stimuli (Run.blank s.circuit) = (.ok (), r)) :
    start s = finishCycle 0 { s.restarted with run := r, upcoming := 1 } := by
  rw [start_eq, bind_of_ok (onRun_eq (s := s.restarted) h), bind_of_ok (modify_apply _ _)]

theorem start_of_error {s : Session} {r : Run} {e : Failure}
    (h : Run.firstCycle s.circuit s.stimuli (Run.blank s.circuit) = (.error e, r)) :
    start s = (.error e, { s.restarted with run := r }) := by
  rw [start_eq, bind_of_error (onRun_eq (s := s.restarted) h)]

/-! ## 2. Going on -/

/-- The cycle to come may be taken once a run was started, if the circuit has it. -/
theorem next_eq {s : Session} (hs : s.started) (hlt : s.upcoming < s.circuit.length) :
    next (.ofNat s.upcoming) s = (do
      onRun (Run.laterCycle s.circuit s.stimuli s.upcoming)
      modify fun t => { t with upcoming := s.upcoming + 1 }
      finishCycle s.upcoming : Action Unit) s := by
  unfold next
  rw [bind_of_ok (get_apply s)]
  simp only [hs, if_true, hlt, and_self]

/-- Why a cycle may not be taken. -/
def refusal (s : Session) (time : Number) : Failure :=
  if s.started then .outOfTurn time s.lastCycle s.circuit.length
  else .cycleBeforeStart s.circuit.name

/-- No other cycle may be taken. -/
theorem next_refused {s : Session} {time : Number}
    (h : ¬ (s.started ∧ time = .ofNat s.upcoming ∧ s.upcoming < s.circuit.length)) :
    next time s = (.error (s.refusal time), s) := by
  unfold next refusal
  rw [bind_of_ok (get_apply s)]
  by_cases hs : s.started
  · have hturn : ¬ (time = .ofNat s.upcoming ∧ s.upcoming < s.circuit.length) :=
      fun hturn => h ⟨hs, hturn⟩
    simp only [hs, if_true, hturn, if_false]
    rfl
  · simp only [hs, Bool.false_eq_true, if_false]
    rfl

theorem next_of_ok {s : Session} {r : Run} (hs : s.started) (hlt : s.upcoming < s.circuit.length)
    (h : Run.laterCycle s.circuit s.stimuli s.upcoming s.run = (.ok (), r)) :
    next (.ofNat s.upcoming) s =
      finishCycle s.upcoming { s with run := r, upcoming := s.upcoming + 1 } := by
  rw [next_eq hs hlt, bind_of_ok (onRun_eq h), bind_of_ok (modify_apply _ _)]

theorem next_of_error {s : Session} {r : Run} {e : Failure} (hs : s.started)
    (hlt : s.upcoming < s.circuit.length)
    (h : Run.laterCycle s.circuit s.stimuli s.upcoming s.run = (.error e, r)) :
    next (.ofNat s.upcoming) s = (.error e, { s with run := r }) := by
  rw [next_eq hs hlt, bind_of_error (onRun_eq h)]

/-! ## 3. Finishing a cycle -/

/-- The outputs can be logged if all are bound. -/
theorem outputValues_ok {store : Store} {names : List String}
    (h : ∀ n ∈ names, (store.lookup n).isSome) :
    ∃ values, outputValues store names = .ok values := by
  induction names with
  | nil => exact ⟨[], rfl⟩
  | cons n names ih =>
    obtain ⟨v, hv⟩ := Option.isSome_iff_exists.1 (h n List.mem_cons_self)
    obtain ⟨values, hrest⟩ := ih fun m hm => h m (List.mem_cons_of_mem _ hm)
    unfold outputValues at hrest ⊢
    rw [List.mapM_cons, Store.read_eq_ok_iff.2 hv, hrest]
    exact ⟨_, rfl⟩

/-- The values of bound signals are those of any assignment that has them. -/
theorem valuesOf_eq {store : Store} {f : String → Bool} {names : List String}
    (h : ∀ n ∈ names, store.lookup n = some (f n)) :
    store.valuesOf names = .ok (Table.ofList (names.map fun n => (n, f n))) := by
  have hfrom : ∀ t : Table Bool, names.foldlM (fun t n => (store.read n).map (t.set n ·)) t =
      .ok ((names.map fun n => (n, f n)).foldl (fun t e => t.set e.1 e.2) t) := by
    induction names with
    | nil => exact fun t => rfl
    | cons n names ih =>
      intro t
      rw [List.foldlM_cons, Store.read_eq_ok_iff.2 (h n List.mem_cons_self)]
      exact ih (fun m hm => h m (List.mem_cons_of_mem _ hm)) (t.set n (f n))
  exact hfrom Table.empty

theorem recordSample_of_none {s : Session} (hwatched : s.watched = none) (time : Nat) :
    recordSample time s = (.ok (), s) := by
  unfold recordSample
  rw [bind_of_ok (get_apply s), hwatched]
  rfl

/-- A sample of bound signals. -/
theorem recordSample_of_some {s : Session} {names : List String} {f : String → Bool}
    (hwatched : s.watched = some names)
    (h : ∀ n ∈ names, s.run.store.lookup n = some (f n)) (time : Nat) :
    recordSample time s = (.ok (), { s with
      recording := s.recording.push
        ⟨.ofNat time, Table.ofList (names.map fun n => (n, f n))⟩ }) := by
  have htake : Sample.take s.run.store time names =
      .ok ⟨.ofNat time, Table.ofList (names.map fun n => (n, f n))⟩ := by
    rw [Sample.take, valuesOf_eq h]
    rfl
  obtain ⟨_, _, _, _, _, _, watched, _, _, _, _⟩ := s
  cases hwatched
  rw [recordSample, bind_of_ok (get_apply _)]
  simp only [htake]
  rw [bind_of_ok (check_ok _ _)]
  rfl

/-- Without a hook, finishing a cycle takes the sample and logs the outputs. -/
theorem finishCycle_unhooked {s : Session} {recording : Array Sample} (hhook : s.hook = none)
    {time : Nat} (hrecord : recordSample time s = (.ok (), { s with recording }))
    (hbound : ∀ n ∈ s.circuit.outputs, (s.run.store.lookup n).isSome) :
    ∃ message, finishCycle time s =
      (.ok (), { s with recording, log := s.log.push (.debug, message) }) := by
  have hcall : callHook time { s with recording } = (.ok (), { s with recording }) := by
    unfold callHook
    rw [bind_of_ok (get_apply _), hhook]
    rfl
  obtain ⟨values, hv⟩ := outputValues_ok hbound
  refine ⟨"Cycle " ++ toString time ++ ": " ++ " ".intercalate values, ?_⟩
  unfold finishCycle debug
  rw [bind_of_ok hrecord, bind_of_ok hcall, bind_of_ok (get_apply _), hv,
    bind_of_ok (check_ok values _), modify_apply]

/-! ## 4. All cycles -/

/-- The cycles after cycle 0, one after the other. -/
def laterCycles (length : Nat) : Action Unit :=
  (List.range' 1 (length - 1)).forM fun time => next (.ofNat time)

/-- A run up to a cycle. -/
def stepTo (k : Nat) : Action Unit := do
  start
  laterCycles (k + 1)

/-- A run goes on from where it is. -/
theorem stepTo_add (k d : Nat) :
    stepTo (k + d) = (do
      stepTo k
      (List.range' (k + 1) d).forM fun time => next (.ofNat time)) := by
  have hrange : List.range' 1 (k + d) = List.range' 1 k ++ List.range' (k + 1) d := by
    rw [← List.range'_append, Nat.one_mul, Nat.add_comm 1 k]
  unfold stepTo laterCycles
  rw [Nat.add_sub_cancel, Nat.add_sub_cancel, hrange]
  simp only [List.forM_eq_forM, List.forM_append, bind_assoc]

/-- A run of all cycles that goes well ends with a log line. -/
theorem runAll_of_ok {s s₁ s₂ : Session} (hstart : start s = (.ok (), s₁))
    (hrest : laterCycles s₁.circuit.length s₁ = (.ok (), s₂)) :
    ∃ message, runAll s =
      (.ok s₂.result, { s₂ with log := s₂.log.push (.debug, message) }) := by
  refine ⟨"Simulated " ++ toString s₁.circuit.length ++ " cycles of " ++ s₂.circuit.name, ?_⟩
  unfold laterCycles at hrest
  unfold runAll debug
  rw [bind_of_ok hstart, bind_of_ok (get_apply s₁), bind_of_ok hrest, bind_of_ok (get_apply s₂),
    bind_of_ok (modify_apply _ s₂), pure_apply]

theorem runAll_of_start_error {s s₁ : Session} {e : Failure} (hstart : start s = (.error e, s₁)) :
    runAll s = (.error e, s₁) := by
  unfold runAll
  rw [bind_of_error hstart]

theorem runAll_of_laterCycles_error {s s₁ s₂ : Session} {e : Failure}
    (hstart : start s = (.ok (), s₁))
    (hrest : laterCycles s₁.circuit.length s₁ = (.error e, s₂)) : runAll s = (.error e, s₂) := by
  unfold laterCycles at hrest
  unfold runAll
  rw [bind_of_ok hstart, bind_of_ok (get_apply s₁), bind_of_error hrest]

end Clocked.Session
