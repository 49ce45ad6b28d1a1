/-
Clocked.Proofs.Session.Recording — the samples that a recording holds.

A `Take` is what is recorded of operations: it begins when recording is turned on for the
last time, or with a run begun since then, and it ends when recording is turned off. Its list of
samples has one sample for every cycle that was completed in it, in order: the samples are
followed moment by moment (`Recording.perform`), and takes operation by operation
(`taken_or_idle`).

`samples_line_up` says so for any operations, whatever the hook does, and that a caller who
does not ask for the samples cannot tell whether there is a recording.
-/
import Clocked.Proofs.Session.Moments
import Clocked.Proofs.Session.Transcript
import Mathlib.Data.List.Induction

namespace Clocked.Session

variable {c : Circuit} {names : List String} {s t m : Session} {ms : List Session}

/-! ## 1. Samples -/

/-- The sample has the watched signals of the circuit, with their values at the end of the
cycle `time` that was completed at the moment `m`. -/
structure SampleOf (c : Circuit) (names : List String) (time : Nat) (m : Session)
    (sample : Sample) : Prop where
  cycle : sample.cycle = .ofNat time
  keys : sample.values.keys = (names.filter (· ∈ c.signals)).eraseDups
  values : ∀ n ∈ sample.values.keys, sample.values.get? n = m.run.store.lookup n
  /-- An input has the bit of its stimulus. -/
  input : ∀ tr ∈ m.stimuli, tr.signal ∈ sample.values.keys →
    sample.values.get? tr.signal = tr.at? time
  /-- An output has the bit of its trace. -/
  output : ∀ n ∈ c.outputs, n ∈ sample.values.keys → ∃ tr,
    m.run.outputs.get? n = some tr ∧ sample.values.get? n = tr.at? time

/-- When a cycle was completed, a sample of it is taken. -/
theorem Complete.sampled_push {time : Nat} (h : Complete c time m)
    (hwatched : m.watched = some (names.filter (· ∈ c.signals))) :
    ∃ sample, m.sampled time = m.recording.push sample ∧ SampleOf c names time m sample := by
  let value (n : String) : Bool := (m.run.store.lookup n).getD false
  have hvalue : ∀ n ∈ names.filter (· ∈ c.signals), m.run.store.lookup n = some (value n) := by
    intro n hn
    have hsignal : n ∈ c.signals := by simpa using (List.mem_filter.1 hn).2
    obtain ⟨v, hv⟩ := Store.lookup_isSome_of_mem (h.signals n hsignal)
    simp [value, hv]
  let table : Table Bool := .ofList ((names.filter (· ∈ c.signals)).map fun n => (n, value n))
  have hkeys : table.keys = (names.filter (· ∈ c.signals)).eraseDups := by
    rw [Table.keys_ofList]
    simp [List.map_map, Function.comp_def]
  have hvalues : ∀ n ∈ table.keys, table.get? n = m.run.store.lookup n := by
    intro n hn
    rw [hkeys, List.mem_eraseDups] at hn
    rw [Table.get?_ofList_map, if_pos hn, hvalue n hn]
  refine ⟨⟨.ofNat time, table⟩, ?_, rfl, hkeys, hvalues, fun tr htr hn => ?_, fun n hn hkey => ?_⟩
  · simp only [sampled, hwatched, Sample.take, valuesOf_eq hvalue, Except.map]
    rfl
  · rw [hvalues _ hn, h.input tr htr]
  · obtain ⟨tr, htr, hbit⟩ := h.output n hn
    exact ⟨tr, htr, (hvalues n hkey).trans hbit.symm⟩

/-- The samples are those of the cycles completed at the moments, in order. -/
def SamplesOf (c : Circuit) (names : List String) (samples : Array Sample)
    (ms : List Session) : Prop :=
  List.Forall₂ (fun sample (m : Session) => ∃ time : Nat, m.lastCycle = time ∧
    SampleOf c names time m sample) samples.toList ms

/-! ## 2. Recording -/

/-- The session is recording, and has the samples of the moments so far. -/
structure Recording (c : Circuit) (names : List String) (ms : List Session) (s : Session) :
    Prop where
  regular : Regular c s
  watched : s.watched = some (names.filter (· ∈ c.signals))
  samples : SamplesOf c names s.recording ms

/-- Without another moment there is no other sample. -/
theorem Recording.same (h : Recording c names ms s) (ht : Regular c t)
    (hwatched : t.watched = s.watched) (hrecording : t.recording = s.recording) :
    Recording c names (ms ++ []) t := by
  rw [List.append_nil]
  exact ⟨ht, hwatched.trans h.watched, hrecording ▸ h.samples⟩

/-- Finishing a completed cycle adds its sample. -/
theorem Recording.finish {time : Nat} (hm : Complete c time m)
    (hwatched : m.watched = some (names.filter (· ∈ c.signals)))
    (hsamples : SamplesOf c names m.recording ms) :
    Recording c names (ms ++ [m]) (finishCycle time m).2 := by
  refine ⟨hm.regular_finish, ?_, ?_⟩
  · rw [hm.finish]
    exact hwatched
  · obtain ⟨sample, hpush, hsample⟩ := hm.sampled_push hwatched
    have hrecording : (finishCycle time m).2.recording = m.recording.push sample := by
      rw [hm.finish]
      exact hpush
    unfold SamplesOf
    rw [hrecording, Array.toList_push]
    exact List.rel_append hsamples (.cons ⟨time, hm.lastCycle, hsample⟩ .nil)

/-- A run that begins while recording begins another list of samples. -/
theorem Recording.start (h : Recording c names ms s) :
    Recording c names ([] ++ s.begun?.toList) (start s).2 := by
  have hregular := h.regular.start
  have hempty (r : Run) (n : Nat) : SamplesOf c names
      ({ s.restarted with run := r, upcoming := n } : Session).recording [] := by
    simp [SamplesOf, restarted, h.watched]
  obtain ⟨r, hbegun, hm, hstart⟩ | ⟨e, r, hbegun, hstart⟩ := start_moment h.regular
  · rw [hbegun, hstart]
    exact .finish hm h.watched (hempty r 1)
  · rw [hstart] at hregular
    rw [hbegun, hstart]
    exact ⟨hregular, h.watched, hempty r s.upcoming⟩

theorem Recording.next (h : Recording c names ms s) (time : Number) :
    Recording c names (ms ++ (s.advanced? time).toList) (next time s).2 := by
  have hregular := h.regular.next time
  obtain ⟨r, hadv, hm, hnext⟩ | ⟨e, r, hadv, hnext⟩ := next_moment h.regular time
  · rw [hadv, hnext]
    exact .finish hm h.watched h.samples
  · rw [hnext] at hregular
    rw [hadv, hnext]
    exact h.same hregular rfl rfl

/-- Whether an operation begins a run. -/
def Operation.begins : Operation → Bool
  | .start => true
  | .runAll => true
  | _ => false

/-- An operation that begins a run begins another list of samples. -/
theorem Recording.perform_begins (h : Recording c names ms s) {op : Operation}
    (hbegins : op.begins) : Recording c names (op.completes s) (op.perform s) := by
  cases op with
  | runAll =>
    exact runAll_induction h.start (fun _ _ time h => Recording.next h time)
      fun _ _ log h => ⟨h.regular.logged log, h.watched, h.samples⟩
  | start => exact h.start
  | _ => cases hbegins

/-- An operation that does not, and leaves recording on, adds the samples of its moments. -/
theorem Recording.perform (h : Recording c names ms s) {op : Operation} (hbegins : ¬ op.begins)
    (hrecords : ¬ op.records) : Recording c names (ms ++ op.completes s) (op.perform s) := by
  have hregular := h.regular.perform op
  cases hrevises : op.revises with
  | true =>
    obtain ⟨stimuli, pastRuns, run, heq, -⟩ := Operation.perform_of_revises hrevises s
    rw [heq] at hregular ⊢
    rw [Operation.completes_of_revises hrevises]
    exact h.same hregular rfl rfl
  | false =>
    cases op with
    | next time => exact h.next time
    | runAll => exact absurd rfl hbegins
    | start => exact absurd rfl hbegins
    | startRecording names => exact absurd rfl hrecords
    | stopRecording => exact absurd rfl hrecords
    | _ => cases hrevises

/-- The session is not recording, and its list of samples is `samples`. -/
structure Idle (c : Circuit) (samples : Array Sample) (s : Session) : Prop where
  regular : Regular c s
  off : s.watched = none
  samples : s.recording = samples

variable {samples : Array Sample}

theorem Idle.finish {time : Nat} (hm : Complete c time m) (hoff : m.watched = none)
    (hsamples : m.recording = samples) : Idle c samples (finishCycle time m).2 := by
  refine ⟨hm.regular_finish, ?_, ?_⟩
  · rw [hm.finish]
    exact hoff
  · rw [hm.finish]
    exact (sampled_of_none hoff time).trans hsamples

theorem Idle.start (h : Idle c samples s) : Idle c samples (start s).2 := by
  have hregular := h.regular.start
  have hkept (r : Run) (n : Nat) :
      ({ s.restarted with run := r, upcoming := n } : Session).recording = samples := by
    simp [restarted, h.off, h.samples]
  obtain ⟨r, -, hm, hstart⟩ | ⟨e, r, -, hstart⟩ := start_moment h.regular
  · rw [hstart]
    exact .finish hm h.off (hkept r 1)
  · rw [hstart] at hregular ⊢
    exact ⟨hregular, h.off, hkept r s.upcoming⟩

theorem Idle.next (h : Idle c samples s) (time : Number) : Idle c samples (next time s).2 := by
  have hregular := h.regular.next time
  obtain ⟨r, -, hm, hnext⟩ | ⟨e, r, -, hnext⟩ := next_moment h.regular time
  · rw [hnext]
    exact .finish hm h.off h.samples
  · rw [hnext] at hregular ⊢
    exact ⟨hregular, h.off, h.samples⟩

/-- While nothing is recorded no operation but turning recording on changes the samples. -/
theorem Idle.perform (h : Idle c samples s) {op : Operation}
    (hop : ∀ names, op ≠ .startRecording names) : Idle c samples (op.perform s) := by
  have hregular := h.regular.perform op
  cases hrevises : op.revises with
  | true =>
    obtain ⟨stimuli, pastRuns, run, heq, -⟩ := Operation.perform_of_revises hrevises s
    rw [heq] at hregular ⊢
    exact ⟨hregular, h.off, h.samples⟩
  | false =>
    cases op with
    | runAll =>
      exact Preserves.runAll (fun _ h => Idle.start h) (fun time _ h => Idle.next h time)
        (fun _ _ h => ⟨h.regular.logged _, h.off, h.samples⟩) s h
    | start => exact h.start
    | next time => exact h.next time
    | startRecording names => exact absurd rfl (hop names)
    | stopRecording => exact ⟨hregular, rfl, h.samples⟩
    | _ => cases hrevises

/-! ## 3. Takes -/

/-- What is recorded of operations, of which at least one turns recording on. -/
structure Take (ops : List Operation) where
  /-- What was done before recording was turned on for the last time. -/
  earlier : List Operation
  /-- The signals to be recorded. -/
  names : List String
  /-- What was done while recording, before the run began that samples are kept of. -/
  dropped : List Operation
  /-- What was done while recording, and the samples are kept. -/
  window : List Operation
  /-- What was done since recording was turned off. -/
  rest : List Operation
  split : ops = earlier ++ .startRecording names :: (dropped ++ window ++ rest)
  on : ∀ op ∈ dropped ++ window, ¬ op.records
  off : rest = [] ∨ ∃ more, rest = .stopRecording :: more ∧
    ∀ op ∈ more, ∀ names, op ≠ .startRecording names
  /-- Every run that begins while recording drops what was recorded before. -/
  newest : dropped = [] ∧ (∀ op ∈ window, ¬ op.begins) ∨
    ∃ op more, window = op :: more ∧ op.begins ∧ ∀ op ∈ more, ¬ op.begins

namespace Take

variable {ops : List Operation} {op : Operation}

/-- The operations before the window. -/
def opening (take : Take ops) : List Operation :=
  take.earlier ++ .startRecording take.names :: take.dropped

/-- The cycles completed in the window. -/
def moments (take : Take ops) (s : Session) : List Session :=
  completed (after s take.opening) take.window

theorem after_eq (take : Take ops) (s : Session) :
    after s ops = after (after (after s take.opening) take.window) take.rest := by
  have hsplit : ops = take.opening ++ (take.window ++ take.rest) := by
    refine take.split.trans ?_
    simp [opening]
  rw [← after_append, ← after_append, ← hsplit]

/-- Recording is turned on. -/
def ofStart (ops : List Operation) (names : List String) :
    Take (ops ++ [.startRecording names]) where
  earlier := ops
  names := names
  dropped := []
  window := []
  rest := []
  split := rfl
  on := nofun
  off := .inl rfl
  newest := .inl ⟨rfl, nofun⟩

/-- A run begins while recording. -/
def restart (take : Take ops) (hrest : take.rest = []) (hbegins : op.begins) :
    Take (ops ++ [op]) where
  earlier := take.earlier
  names := take.names
  dropped := take.dropped ++ take.window
  window := [op]
  rest := []
  split := by
    conv_lhs => rw [take.split, hrest]
    simp
  on := by
    intro op' hop'
    rcases List.mem_append.1 hop' with hop' | hop'
    · exact take.on op' hop'
    · cases List.mem_singleton.1 hop'
      cases op with
      | startRecording names => cases hbegins
      | stopRecording => cases hbegins
      | _ => simp [Operation.records]
  off := .inl rfl
  newest := .inr ⟨op, [], rfl, hbegins, nofun⟩

/-- Something else is done while recording. -/
def extend (take : Take ops) (hrest : take.rest = []) (hbegins : ¬ op.begins)
    (hrecords : ¬ op.records) : Take (ops ++ [op]) where
  earlier := take.earlier
  names := take.names
  dropped := take.dropped
  window := take.window ++ [op]
  rest := []
  split := by
    conv_lhs => rw [take.split, hrest]
    simp
  on := by
    rw [← List.append_assoc]
    intro op' hop'
    rcases List.mem_append.1 hop' with hop' | hop'
    · exact take.on op' hop'
    · cases List.mem_singleton.1 hop'
      exact hrecords
  off := .inl rfl
  newest := by
    have hadd {window : List Operation} (h : ∀ op ∈ window, ¬ op.begins) :
        ∀ op' ∈ window ++ [op], ¬ op'.begins := by
      intro op' hop'
      rcases List.mem_append.1 hop' with hop' | hop'
      · exact h op' hop'
      · cases List.mem_singleton.1 hop'
        exact hbegins
    obtain ⟨hdropped, hwindow⟩ | ⟨first, more, hwindow, hfirst, hmore⟩ := take.newest
    · exact .inl ⟨hdropped, hadd hwindow⟩
    · exact .inr ⟨first, more ++ [op], by rw [hwindow, List.cons_append], hfirst, hadd hmore⟩

/-- Recording is turned off. -/
def stop (take : Take ops) (hrest : take.rest = []) : Take (ops ++ [.stopRecording]) where
  earlier := take.earlier
  names := take.names
  dropped := take.dropped
  window := take.window
  rest := [.stopRecording]
  split := by
    conv_lhs => rw [take.split, hrest]
    simp
  on := take.on
  off := .inr ⟨[], rfl, nofun⟩
  newest := take.newest

/-- Something is done after recording was turned off. -/
def follow (take : Take ops) (hrest : take.rest ≠ []) (hop : ∀ names, op ≠ .startRecording names) :
    Take (ops ++ [op]) where
  earlier := take.earlier
  names := take.names
  dropped := take.dropped
  window := take.window
  rest := take.rest ++ [op]
  split := by
    conv_lhs => rw [take.split]
    simp
  on := take.on
  off := by
    obtain ⟨more, hmore, hnone⟩ := take.off.resolve_left hrest
    refine .inr ⟨more ++ [op], by rw [hmore, List.cons_append], fun op' hop' => ?_⟩
    rcases List.mem_append.1 hop' with hop' | hop'
    · exact hnone op' hop'
    · cases List.mem_singleton.1 hop'
      exact hop
  newest := take.newest

end Take

/-- The session has the samples of the take, and is recording unless that was turned off. -/
structure Taken (c : Circuit) {ops : List Operation} (take : Take ops) (s t : Session) : Prop where
  samples : SamplesOf c take.names t.recording (take.moments s)
  on : take.rest = [] → Recording c take.names (take.moments s) t
  off : take.rest ≠ [] → Idle c t.recording t

theorem Taken.of_recording {ops : List Operation} {take : Take ops} (hrest : take.rest = [])
    (h : Recording c take.names (take.moments s) t) : Taken c take s t :=
  ⟨h.samples, fun _ => h, fun hne => absurd hrest hne⟩

/-- A take that is not over goes on with the next operation. -/
theorem Taken.perform_on {ops : List Operation} {op : Operation} {take : Take ops}
    (h : Taken c take s (after s ops)) (hrest : take.rest = [])
    (hop : ∀ names, op ≠ .startRecording names) :
    ∃ take' : Take (ops ++ [op]), Taken c take' s (op.perform (after s ops)) := by
  have hr := h.on hrest
  have hnow : after (after s take.opening) take.window = after s ops := by
    rw [take.after_eq s, hrest]
    rfl
  by_cases hbegins : op.begins
  · refine ⟨take.restart hrest hbegins, .of_recording rfl ?_⟩
    have hmoments : (take.restart hrest hbegins).moments s = op.completes (after s ops) := by
      have hopening : (take.restart hrest hbegins).opening = take.opening ++ take.window := by
        simp [Take.opening, Take.restart]
      rw [Take.moments, hopening, after_append, hnow]
      exact List.append_nil _
    rw [hmoments]
    exact hr.perform_begins hbegins
  · by_cases hstop : op = .stopRecording
    · subst hstop
      refine ⟨take.stop hrest, h.samples, fun hnil => absurd hnil (List.cons_ne_nil _ _),
        fun _ => ⟨hr.regular.perform .stopRecording, rfl, rfl⟩⟩
    · have hrecords : ¬ op.records := by
        cases op with
        | startRecording names => exact absurd rfl (hop names)
        | stopRecording => exact absurd rfl hstop
        | _ => simp [Operation.records]
      refine ⟨take.extend hrest hbegins hrecords, .of_recording rfl ?_⟩
      have hmoments : (take.extend hrest hbegins hrecords).moments s =
          take.moments s ++ op.completes (after s ops) := by
        show completed (after s take.opening) (take.window ++ [op]) = _
        rw [completed_append, hnow]
        exact congrArg _ (List.append_nil _)
      rw [hmoments]
      exact hr.perform hbegins hrecords

/-- What is recorded of operations: nothing if recording was never turned on, else a take. -/
theorem taken_or_idle (h : Idle c #[] s) (ops : List Operation) :
    ((∀ op ∈ ops, ∀ names, op ≠ .startRecording names) ∧ Idle c #[] (after s ops)) ∨
      ∃ take : Take ops, Taken c take s (after s ops) := by
  induction ops using List.reverseRecOn with
  | nil => exact .inl ⟨nofun, h⟩
  | append_singleton ops op ih =>
    have hregular : Regular c (after s ops) := regular_after h.regular ops
    have hlast : after s (ops ++ [op]) = op.perform (after s ops) := by
      rw [after_append]
      rfl
    rw [hlast]
    by_cases hstart : ∃ names, op = .startRecording names
    · obtain ⟨names, rfl⟩ := hstart
      refine .inr ⟨.ofStart ops names, .of_recording rfl ⟨hregular.perform _, ?_, .nil⟩⟩
      show some (names.filter (· ∈ (after s ops).circuit.signals)) = _
      rw [hregular.circuit]
      rfl
    · have hop : ∀ names, op ≠ .startRecording names := fun names hop => hstart ⟨names, hop⟩
      obtain ⟨hnone, hidle⟩ | ⟨take, htaken⟩ := ih
      · refine .inl ⟨fun op' hop' => ?_, hidle.perform hop⟩
        rcases List.mem_append.1 hop' with hop' | hop'
        · exact hnone op' hop'
        · cases List.mem_singleton.1 hop'
          exact hop
      · by_cases hrest : take.rest = []
        · exact .inr (htaken.perform_on hrest hop)
        · have hidle := (htaken.off hrest).perform hop
          refine .inr ⟨take.follow hrest hop, ?_, fun hnil => ?_, fun _ => ?_⟩
          · rw [hidle.samples]
            exact htaken.samples
          · exact absurd hnil (List.append_ne_nil_of_left_ne_nil hrest _)
          · rwa [hidle.samples]

/-! ## 4. What a caller is given -/

/-- **Samples line up with cycles.** Let any operations have been done with a session, failed
ones included, whatever its hook does. Stopping the recording gives one sample for every cycle
completed since recording was turned on, or since the last run begun while recording, in order,
up to when it was turned off. The sample of cycle `t` has the watched signals of the circuit, each
once, with their values at the end of the cycle: bit `t` of a stimulus, and bit `t` of the output
trace of its run, which stays so unless a caller writes to it. The cycles are those that the
hook is called for, with the same values. And no other operation answers differently, or leaves
anything else different, when recording is turned on or off in between. -/
theorem samples_line_up (c : Circuit) (hook : Option Hook) (ops : List Operation) :
    let s := ofCircuit c hook
    let t := after s ops
    (∃ number t' samples, stopRecording t = (.ok number, t') ∧
      t'.recordingAt? number = some samples ∧
      ((∀ op ∈ ops, ∀ names, op ≠ .startRecording names) ∧ samples = #[] ∨
        ∃ take : Take ops, SamplesOf c take.names samples (take.moments s) ∧
          ∀ m ∈ take.moments s, (∀ op ∈ take.window ++ take.rest, ¬ op.WritesTo m.runNumber) →
            InTraces c m t)) ∧
    (∀ f, hook = some f → t.calls.reverse = (completed s ops).map lastCall) ∧
    transcript s ops = transcript s (ops.filter fun op => !op.records) := by
  intro s t
  have hs : Regular c s := regular_ofCircuit c hook
  refine ⟨?_, fun f hf => ?_, transcript_filter hs hs rfl ops⟩
  · refine ⟨t.recordingNumber, { t with watched := none }, t.recording, rfl, ?_, ?_⟩
    · simp [recordingAt?, recordingNumber]
    · obtain ⟨hnone, hidle⟩ | ⟨take, htaken⟩ := taken_or_idle (s := s) ⟨hs, rfl, rfl⟩ ops
      · exact .inl ⟨hnone, hidle.samples⟩
      · refine .inr ⟨take, htaken.samples, fun m hm hwrites => ?_⟩
        have hlasts := lasts_after (regular_after hs take.opening) hm
          fun op hop => hwrites op (List.mem_append_left _ hop)
        have hnow := hlasts.after fun op hop => hwrites op (List.mem_append_right _ hop)
        rw [← take.after_eq s] at hnow
        exact hnow.traces
  · have hcalls : t.calls = ((completed s ops).map lastCall).reverse ++ s.calls :=
      calls_after hs hf ops
    rw [hcalls]
    show (((completed s ops).map lastCall).reverse ++ []).reverse = _
    simp

end Clocked.Session
