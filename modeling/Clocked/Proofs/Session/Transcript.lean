/-
Clocked.Proofs.Session.Transcript — recording changes nothing else.

`unrecorded` is a session less what it records. An action is `Blind` if neither its outcome
nor what else it leaves depends on the recording. Taking a sample is part of every cycle,
but it never fails in a regular session, so cycles are blind (`start_blind`,
`next_blind`), and so are runs and all other operations.

The `transcript` of a session tells of every operation what it answers and what it leaves:
the runs with their traces, the stimuli, the calls of the hook, the log. Operations that turn
recording on or off have no entry, and make no difference to the others
(`transcript_filter`).
-/
import Clocked.Proofs.Session.Completed

namespace Clocked.Session

open Attempt (bind_of_ok bind_of_error)

variable {c : Circuit} {s s' m m' : Session} {t : Nat} {α β : Type}

/-! ## 1. Sessions without their recording -/

/-- The session less what it records, and whether it does. -/
def unrecorded (s : Session) : Session :=
  { s with watched := none, pastRecordings := [], recording := #[] }

/-- What does not look at the recording is the same for sessions that differ in nothing else. -/
theorem congr_unrecorded {γ : Type} (g : Session → γ) (hg : ∀ u, g u = g u.unrecorded)
    (hsame : s.unrecorded = s'.unrecorded) : g s = g s' := by
  rw [hg s, hsame, ← hg s']

/-- Neither the outcome nor what else is left depends on the recording. -/
def Blind (c : Circuit) (a : Action α) : Prop :=
  ∀ s s', Regular c s → Regular c s' → s.unrecorded = s'.unrecorded →
    (a s).1 = (a s').1 ∧ (a s).2.unrecorded = (a s').2.unrecorded

namespace Blind

theorem of_outcome {a : Action α} (outcome : Except Failure α)
    (h : ∀ s, a s = (outcome, s)) : Blind c a := by
  intro s s' _ _ hsame
  rw [h s, h s']
  exact ⟨rfl, hsame⟩

theorem pure (x : α) : Blind c (Pure.pure x : Action α) := of_outcome (.ok x) fun _ => rfl

theorem of_change {f : Session → Session}
    (h : ∀ s, (f s).unrecorded = (f s.unrecorded).unrecorded) :
    Blind c (modify f : Action Unit) :=
  fun _ _ _ _ hsame => ⟨rfl, congr_unrecorded (fun u => (f u).unrecorded) h hsame⟩

theorem bind {a : Action α} {f : α → Action β} (hregular : Preserves (Regular c) a)
    (ha : Blind c a) (hf : ∀ x, Blind c (f x)) : Blind c (a >>= f) := by
  intro s s' hs hs' hsame
  have ht := hregular s hs
  have ht' := hregular s' hs'
  obtain ⟨houtcome, hleft⟩ := ha s s' hs hs' hsame
  cases hrun : a s with
  | mk outcome t =>
    cases hrun' : a s' with
    | mk outcome' t' =>
      rw [hrun] at ht
      rw [hrun'] at ht'
      rw [hrun, hrun'] at houtcome hleft
      cases houtcome
      cases outcome with
      | error e =>
        rw [bind_of_error hrun, bind_of_error hrun']
        exact ⟨rfl, hleft⟩
      | ok x =>
        rw [bind_of_ok hrun, bind_of_ok hrun']
        exact hf x t t' ht ht' hleft

/-- What looks at the session is blind if it does not look at the recording. -/
theorem get_bind {f : Session → Action α} (hlook : ∀ s, f s = f s.unrecorded)
    (hf : ∀ s, Blind c (f s)) : Blind c (get >>= f) := by
  intro s s' hs hs' hsame
  have hgot (u : Session) : (get >>= f) u = f u.unrecorded u :=
    congrFun (hlook u) u
  rw [hgot s, hgot s', hsame]
  exact hf _ s s' hs hs' hsame

theorem forM {f : α → Action Unit} (hregular : ∀ x, Preserves (Regular c) (f x))
    (hf : ∀ x, Blind c (f x)) (xs : List α) : Blind c (xs.forM f) := by
  induction xs with
  | nil => exact .pure ()
  | cons x xs ih => exact .bind (hregular x) (hf x) fun _ => ih

end Blind

/-! ## 2. Cycles -/

/-- Finishing a completed cycle is blind: the sample never fails. -/
theorem Complete.finish_same (hm : Complete c t m) (hm' : Complete c t m')
    (hsame : m.unrecorded = m'.unrecorded) :
    (finishCycle t m).1 = (finishCycle t m').1 ∧
      (finishCycle t m).2.unrecorded = (finishCycle t m').2.unrecorded := by
  -- the hook and the log see nothing of the recording
  have hclosing (u : Session) : u.closing t = u.unrecorded.closing t := rfl
  have hanswered (u : Session) (log : Array (Log.Level × String)) :
      ({ u.answered t with log } : Session).unrecorded =
        ({ u.unrecorded.answered t with log } : Session).unrecorded := rfl
  rw [hm.finish, hm'.finish, hclosing m, hclosing m', hanswered m, hanswered m', hsame]
  exact ⟨rfl, rfl⟩

theorem start_blind : Blind c start := by
  intro s s' hs hs' hsame
  have hfirst : Run.firstCycle s'.circuit s'.stimuli (Run.blank s'.circuit) =
      Run.firstCycle s.circuit s.stimuli (Run.blank s.circuit) :=
    congr_unrecorded (fun u => Run.firstCycle u.circuit u.stimuli (Run.blank u.circuit))
      (fun _ => rfl) hsame.symm
  cases hrun : Run.firstCycle s.circuit s.stimuli (Run.blank s.circuit) with
  | mk outcome r =>
    have hrun' := hfirst.trans hrun
    cases outcome with
    | ok u =>
      rw [start_of_ok hrun, start_of_ok hrun']
      exact (hs.begun hrun).complete.finish_same (hs'.begun hrun').complete <| congr_unrecorded
        (fun u => ({ u.restarted with run := r, upcoming := 1 } : Session).unrecorded)
        (fun _ => rfl) hsame
    | error e =>
      rw [start_of_error hrun, start_of_error hrun']
      exact ⟨rfl, congr_unrecorded
        (fun u => ({ u.restarted with run := r } : Session).unrecorded) (fun _ => rfl) hsame⟩

theorem next_blind (time : Number) : Blind c (next time) := by
  intro s s' hs hs' hsame
  by_cases hdue : s.Due time
  · have hdue' : s'.Due time := by
      show s'.unrecorded.Due time
      rw [← hsame]
      exact hdue
    have hlater : Run.laterCycle s'.circuit s'.stimuli s'.upcoming s'.run =
        Run.laterCycle s.circuit s.stimuli s.upcoming s.run :=
      congr_unrecorded (fun u => Run.laterCycle u.circuit u.stimuli u.upcoming u.run)
        (fun _ => rfl) hsame.symm
    have hup : s'.upcoming = s.upcoming :=
      congr_unrecorded Session.upcoming (fun _ => rfl) hsame.symm
    have hleft (r : Run) (n : Nat) :
        ({ s with run := r, upcoming := n } : Session).unrecorded =
          ({ s' with run := r, upcoming := n } : Session).unrecorded :=
      congrArg (fun u : Session => ({ u with run := r, upcoming := n } : Session)) hsame
    obtain ⟨hstarted, rfl, hlt⟩ := hdue
    obtain ⟨hstarted', -, hlt'⟩ := hdue'
    have hnext' : next (.ofNat s.upcoming) s' = next (.ofNat s'.upcoming) s' := by rw [hup]
    rw [hnext']
    cases hrun : Run.laterCycle s.circuit s.stimuli s.upcoming s.run with
    | mk outcome r =>
      have hrun' := hlater.trans hrun
      cases outcome with
      | ok u =>
        rw [next_of_ok hstarted hlt hrun, next_of_ok hstarted' hlt' hrun']
        have hm' := (hs'.advanced hstarted' hlt' hrun').complete
        rw [hup] at hm' ⊢
        exact (hs.advanced hstarted hlt hrun).complete.finish_same hm' (hleft r _)
      | error e =>
        rw [next_of_error hstarted hlt hrun, next_of_error hstarted' hlt' hrun']
        exact ⟨rfl, congrArg (fun u : Session => { u with run := r }) hsame⟩
  · have hdue' : ¬ s'.Due time := by
      show ¬ s'.unrecorded.Due time
      rw [← hsame]
      exact hdue
    rw [next_refused hdue, next_refused hdue']
    exact ⟨congr_unrecorded (fun u => Except.error (u.refusal time)) (fun _ => rfl) hsame, hsame⟩

/-! ## 3. Other operations -/

theorem Preserves.of_outcome {P : Session → Prop} {a : Action α} (outcome : Except Failure α)
    (h : ∀ s, a s = (outcome, s)) : Preserves P a := by
  intro s hs
  rwa [h s]

theorem runAll_blind : Blind c runAll := by
  have hdebug (message : String) : Preserves (Regular c) (debug message) :=
    fun s hs => hs.logged (s.log.push (.debug, message))
  refine .bind (fun s hs => hs.start) start_blind fun _ => ?_
  refine .get_bind (fun _ => rfl) fun s => ?_
  have hregular (time : Nat) : Preserves (Regular c) (next (.ofNat time)) :=
    fun s hs => hs.next _
  refine .bind (.forM hregular _) (.forM hregular (fun time => next_blind _) _) fun _ => ?_
  refine .get_bind (fun _ => rfl) fun s => ?_
  exact .bind (hdebug _) (.of_change fun _ => rfl) fun _ => .pure _

theorem signal_blind (name : String) : Blind c (signal name) := by
  refine .get_bind (fun _ => rfl) fun s => ?_
  by_cases hs : s.started
  · simp only [hs, if_true]
    cases s.run.store.read name with
    | ok v => exact .pure v
    | error e => exact .of_outcome (.error (.simulation e)) fun _ => rfl
  · simp only [hs, Bool.false_eq_true, if_false]
    exact .of_outcome (.error (.signalBeforeStart s.circuit.name)) fun _ => rfl

/-- Changing a trace, if it can be changed, is blind. -/
theorem Blind.of_trace (change : Trace → Session → Session)
    (h : ∀ t s, (change t s).unrecorded = (change t s.unrecorded).unrecorded)
    (outcome : Except Trace.Error Trace) :
    Blind c (do let t ← Attempt.checkTrace outcome; modify (change t) : Action Unit) := by
  cases outcome with
  | ok t =>
    exact .bind (.of_outcome (.ok t) fun _ => rfl) (.of_outcome (.ok t) fun _ => rfl) fun t =>
      .of_change (h t)
  | error e => exact .of_outcome (.error (.trace e)) fun _ => rfl

theorem setStimulus_blind (place : Nat) (time : Number) (v : Bool) :
    Blind c (setStimulus place time v) := by
  refine .get_bind (fun _ => rfl) fun s => ?_
  cases s.stimuli[place]? with
  | none => exact .pure ()
  | some t =>
    refine .of_trace (fun t s => { s with stimuli := s.stimuli.set place t }) ?_ _
    exact fun _ _ => rfl

theorem setResultOutput_blind (r : Result) (name : String) (time : Number) (v : Bool) :
    Blind c (setResultOutput r name time v) := by
  refine .get_bind (fun _ => rfl) fun s => ?_
  cases (s.resultOutputs r).find? (·.1 = name) with
  | none => exact .pure ()
  | some found =>
    refine .of_trace (fun t s => s.putOutput r.run name t) (fun t s => ?_) _
    unfold putOutput
    by_cases hr : r.run = s.runNumber
    · rw [if_pos hr, if_pos (show r.run = s.unrecorded.runNumber from hr)]
      rfl
    · rw [if_neg hr, if_neg (show r.run ≠ s.unrecorded.runNumber from hr)]
      rfl

/-! ## 4. Transcripts -/

/-- Whether an operation turns recording on or off. -/
def Operation.records : Operation → Bool
  | .startRecording _ => true
  | .stopRecording => true
  | _ => false

/-- What an operation answers. -/
inductive Answer where
  | done (outcome : Except Failure Unit)
  | result (outcome : Except Failure Result)
  | value (outcome : Except Failure Bool)
  | recording (outcome : Except Failure Nat)

/-- The answer of an operation. -/
def Operation.answer (s : Session) : Operation → Answer
  | .runAll => .result (Session.runAll s).1
  | .start => .done (Session.start s).1
  | .next time => .done (Session.next time s).1
  | .startRecording names => .done (Session.startRecording names s).1
  | .stopRecording => .recording (Session.stopRecording s).1
  | .result => .result (.ok s.result)
  | .signal name => .value (Session.signal name s).1
  | .setStimulus place time v => .done (Session.setStimulus place time v s).1
  | .setResultOutput r name time v => .done (Session.setResultOutput r name time v s).1

/-- What the operations answer and leave, one after the other, but for the recording. -/
def transcript (s : Session) : List Operation → List (Answer × Session)
  | [] => []
  | op :: ops =>
    if op.records then transcript (op.perform s) ops
    else (op.answer s, (op.perform s).unrecorded) :: transcript (op.perform s) ops

/-- An operation that turns recording on or off leaves everything else. -/
theorem Operation.perform_of_records {op : Operation} (h : op.records) (s : Session) :
    (op.perform s).unrecorded = s.unrecorded := by
  cases op with
  | startRecording names => rfl
  | stopRecording => rfl
  | _ => cases h

/-- Any other operation answers and leaves the same, whatever is recorded. -/
theorem Operation.blind {op : Operation} (h : ¬ op.records) (hs : Regular c s)
    (hs' : Regular c s') (hsame : s.unrecorded = s'.unrecorded) :
    op.answer s = op.answer s' ∧ (op.perform s).unrecorded = (op.perform s').unrecorded := by
  cases op with
  | startRecording names => exact absurd rfl h
  | stopRecording => exact absurd rfl h
  | runAll => exact (runAll_blind s s' hs hs' hsame).imp_left (congrArg Answer.result)
  | start => exact (start_blind s s' hs hs' hsame).imp_left (congrArg Answer.done)
  | next time => exact (next_blind time s s' hs hs' hsame).imp_left (congrArg Answer.done)
  | result =>
    exact ⟨congr_unrecorded (fun u => Answer.result (.ok u.result)) (fun _ => rfl) hsame, hsame⟩
  | signal name => exact (signal_blind name s s' hs hs' hsame).imp_left (congrArg Answer.value)
  | setStimulus place time v =>
    exact (setStimulus_blind place time v s s' hs hs' hsame).imp_left (congrArg Answer.done)
  | setResultOutput r name time v =>
    exact (setResultOutput_blind r name time v s s' hs hs' hsame).imp_left (congrArg Answer.done)

/-- Turning recording on or off makes no difference to a transcript, and sessions that differ
in their recording only have the same one. -/
theorem transcript_filter (hs : Regular c s) (hs' : Regular c s')
    (hsame : s.unrecorded = s'.unrecorded) (ops : List Operation) :
    transcript s ops = transcript s' (ops.filter fun op => !op.records) := by
  induction ops generalizing s s' with
  | nil => rfl
  | cons op ops ih =>
    by_cases h : op.records
    · rw [transcript, if_pos h, List.filter_cons_of_neg (by simp [h])]
      exact ih (hs.perform op) hs' ((op.perform_of_records h s).trans hsame)
    · obtain ⟨hanswer, hleft⟩ := Operation.blind h hs hs' hsame
      rw [List.filter_cons_of_pos (by simp [h]), transcript, transcript, if_neg h, if_neg h,
        hanswer, hleft, ih (hs.perform op) (hs'.perform op) hleft]

end Clocked.Session
