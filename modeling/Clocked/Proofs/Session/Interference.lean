/-
Clocked.Proofs.Session.Interference — what a hook can change.

A hook that makes the writes of a script changes values between the cycles. The next cycle
samples the inputs of the latches, and then gives every signal another value before any
update reads it. So runs that start alike stay alike as long as the stores agree on the
inputs of the latches: `Agree` is kept cycle by cycle (`Agree.next`), for scripts with the same
writes to these inputs, whatever else they write. Hence `runAll_agree`: a hook can change
what a run shows, how it fails, and what is recorded of it, through the inputs of latches only.
-/
import Clocked.Proofs.Session.Moments

namespace Clocked

/-! ## 1. Scripts -/

/-- Writes to be made: after which cycle, to which name, and the value. -/
abbrev Script := List (Nat × String × Bool)

namespace Script

/-- The writes of a script after a cycle. -/
def writesAt (script : Script) (time : Nat) : List (String × Bool) :=
  (script.filter (·.1 = time)).map (·.2)

/-- The writes of a script to inputs of latches. -/
def toLatches (script : Script) (c : Circuit) : Script :=
  script.filter fun w => w.2.1 ∈ c.latches.map (·.input)

end Script

/-- The hook that makes the writes of a script, and does not fail. -/
def Hook.ofScript (script : Script) : Hook := fun call _ => { writes := script.writesAt call.time }

/-- After some writes a name has the value last written to it. -/
theorem Store.lookup_writeAll (s : Store) (writes : List (String × Bool)) (n : String) :
    (s.writeAll writes).lookup n =
      (writes.filter (·.1 = n)).foldl (fun _ w => some w.2) (s.lookup n) := by
  induction writes generalizing s with
  | nil => rfl
  | cons w writes ih =>
    rw [writeAll, List.foldl_cons, ← writeAll, ih, lookup_write]
    by_cases h : w.1 = n
    · simp [h]
    · simp [h, Ne.symm h]

variable {c : Circuit} {script script' : Script}

/-- For a name that a latch reads only the writes to inputs of latches count. -/
theorem Script.filter_writesAt {l : Latch} (hl : l ∈ c.latches) (script : Script) (time : Nat) :
    (script.writesAt time).filter (·.1 = l.input) =
      ((script.toLatches c).writesAt time).filter (·.1 = l.input) := by
  have hread : l.input ∈ c.latches.map (·.input) := List.mem_map_of_mem hl
  unfold writesAt toLatches
  simp only [List.filter_map, List.filter_filter]
  congr 1
  refine List.filter_congr fun w _ => ?_
  by_cases h : w.2.1 = l.input
  · simp only [h, hread, decide_true, Bool.and_true]
  · simp [h]

/-- Scripts with the same writes to inputs of latches leave these inputs alike. -/
theorem Script.lookup_writeAll_eq (hsame : script'.toLatches c = script.toLatches c) {l : Latch}
    (hl : l ∈ c.latches) {store store' : Store}
    (h : store'.lookup l.input = store.lookup l.input) (time : Nat) :
    (store'.writeAll (script'.writesAt time)).lookup l.input =
      (store.writeAll (script.writesAt time)).lookup l.input := by
  rw [Store.lookup_writeAll, Store.lookup_writeAll, h, filter_writesAt hl script',
    filter_writesAt hl script, hsame]

namespace Session

open Attempt (bind_of_ok bind_of_error get_apply checkTrace_ok checkTrace_error)

variable {s s' m m' : Session} {time : Nat} {given given' : Option Script}

/-! ## 2. Cycles with a script -/

/-- A hook with a script, or none at all, makes the writes of the script and does not fail. -/
theorem reaction_ofScript (h : s.hook = given.map Hook.ofScript) (time : Nat) :
    s.reaction time = { writes := (given.getD []).writesAt time } := by
  cases given with
  | none => simp only [reaction, h, Option.map_none]; rfl
  | some script => simp only [reaction, h, Option.map_some]; rfl

/-- What a run depends on, besides what a hook has written. -/
structure Setup (c : Circuit) (given : Option Script) (stimuli : List Trace)
    (watched : Option (List String)) (s : Session) : Prop where
  regular : Regular c s
  hook : s.hook = given.map Hook.ofScript
  stimuli : s.stimuli = stimuli
  watched : s.watched = watched

variable {stimuli : List Trace} {watched watched' : Option (List String)}

theorem Setup.finish (h : Setup c given stimuli watched m) (hm : Complete c time m) :
    Setup c given stimuli watched (finishCycle time m).2 := by
  have hregular := hm.regular_finish
  rw [hm.finish] at hregular ⊢
  exact ⟨hregular, h.hook, h.stimuli, h.watched⟩

theorem Setup.start (h : Setup c given stimuli watched s) :
    Setup c given stimuli watched (start s).2 := by
  have hregular := h.regular.start
  obtain ⟨r, -, hm, hstart⟩ | ⟨e, r, -, hstart⟩ := start_moment h.regular
  · rw [hstart]
    exact Setup.finish ⟨hm.regular, h.hook, h.stimuli, h.watched⟩ hm
  · rw [hstart] at hregular ⊢
    exact ⟨hregular, h.hook, h.stimuli, h.watched⟩

theorem Setup.next (h : Setup c given stimuli watched s) (number : Number) :
    Setup c given stimuli watched (next number s).2 := by
  have hregular := h.regular.next number
  obtain ⟨r, -, hm, hnext⟩ | ⟨e, r, -, hnext⟩ := next_moment h.regular number
  · rw [hnext]
    exact Setup.finish ⟨hm.regular, h.hook, h.stimuli, h.watched⟩ hm
  · rw [hnext] at hregular ⊢
    exact ⟨hregular, h.hook, h.stimuli, h.watched⟩

/-! ## 3. Cycles of two sessions -/

/-- Sessions that run alike: their stores agree on what the latches are going to sample. -/
structure Agree (c : Circuit) (given given' : Option Script) (stimuli : List Trace)
    (watched watched' : Option (List String)) (s s' : Session) : Prop where
  left : Setup c given stimuli watched s
  right : Setup c given' stimuli watched' s'
  started : s'.started = s.started
  /-- If no cycle can ever be completed, there is none to come. -/
  upcoming : c.Ordered → s'.upcoming = s.upcoming
  outputs : ∀ n, s'.run.outputs.get? n = s.run.outputs.get? n
  latches : ∀ l ∈ c.latches, s'.run.store.lookup l.input = s.run.store.lookup l.input
  /-- If both record the same signals they have recorded the same. -/
  recording : watched' = watched → watched.isSome → s'.recording = s.recording

/-- Samples of the same values are the same. -/
theorem sampled_eq (hm : Complete c time m) (hwatched : m'.watched = m.watched)
    (hrecording : m'.recording = m.recording)
    (hsignals : ∀ n ∈ c.signals, m'.run.store.lookup n = m.run.store.lookup n) :
    m'.sampled time = m.sampled time := by
  cases hnames : m.watched with
  | none => simp only [sampled, hwatched, hnames, hrecording]
  | some names =>
    let value (n : String) : Bool := (m.run.store.lookup n).getD false
    have hvalue : ∀ n ∈ names, m.run.store.lookup n = some (value n) := by
      intro n hn
      have hsignal := hm.regular.watched names hnames n hn
      obtain ⟨v, hv⟩ := Store.lookup_isSome_of_mem (hm.signals n hsignal)
      simp [value, hv]
    have hvalue' : ∀ n ∈ names, m'.run.store.lookup n = some (value n) := by
      intro n hn
      rw [hsignals n (hm.regular.watched names hnames n hn)]
      exact hvalue n hn
    simp only [sampled, hwatched, hnames, Sample.take, valuesOf_eq hvalue, valuesOf_eq hvalue',
      hrecording]

/-- Cycles that end with the same values of the signals are finished alike. -/
theorem Agree.finish (h : Agree c given given' stimuli watched watched' m m')
    (hm : Complete c time m) (hm' : Complete c time m')
    (hsignals : ∀ n ∈ c.signals, m'.run.store.lookup n = m.run.store.lookup n)
    (hsame : (given'.getD []).toLatches c = (given.getD []).toLatches c) :
    Together (Agree c given given' stimuli watched watched') (finishCycle time) m m' := by
  have hreaction := reaction_ofScript h.left.hook time
  have hreaction' := reaction_ofScript h.right.hook time
  obtain ⟨log, hfin⟩ := hm.finish_ok (by rw [hreaction])
  obtain ⟨log', hfin'⟩ := hm'.finish_ok (by rw [hreaction'])
  have hleft := h.left.finish hm
  have hright := h.right.finish hm'
  rw [hfin] at hleft
  rw [hfin'] at hright
  refine ⟨_, _, _, hfin, hfin', hleft, hright, h.started, h.upcoming, h.outputs, fun l hl => ?_,
    fun heq hon => ?_⟩
  · show (m'.run.store.writeAll (m'.reaction time).writes).lookup l.input =
      (m.run.store.writeAll (m.reaction time).writes).lookup l.input
    rw [hreaction, hreaction']
    exact Script.lookup_writeAll_eq hsame hl (h.latches l hl) time
  · have hwatched : m'.watched = m.watched := by rw [h.right.watched, h.left.watched, heq]
    exact sampled_eq hm hwatched (h.recording heq hon) hsignals

theorem Agree.circuit_eq (h : Agree c given given' stimuli watched watched' s s') :
    s'.circuit = s.circuit :=
  h.right.regular.circuit.trans h.left.regular.circuit.symm

/-- If the latches can be sampled they sample the same, so both runs produce the same values. -/
theorem Agree.laterCycle (h : Agree c given given' stimuli watched watched' s s') (hord : c.Ordered)
    (hlt : s.upcoming < c.length) (hbound : ∀ l ∈ c.latches, l.input ∈ s.run.store.names) :
    ∃ r r', Run.laterCycle s.circuit s.stimuli s.upcoming s.run = (.ok (), r) ∧
      Run.laterCycle s'.circuit s'.stimuli s'.upcoming s'.run = (.ok (), r') ∧
      (∀ n, r'.outputs.get? n = r.outputs.get? n) ∧
      (∀ n ∈ c.signals, r'.store.lookup n = r.store.lookup n) ∧
      ∀ l ∈ c.latches, r'.store.lookup l.input = r.store.lookup l.input := by
  obtain ⟨σ, -, hvalues⟩ := Run.laterCycle_values h.left.regular.fits hord hlt
    fun n => (s.run.store.lookup n).getD false
  obtain ⟨r, hrun, hp⟩ := hvalues s.run (Run.lookup_input_eq hbound)
    ((h.left.regular.whole hord).covers _ hlt)
  obtain ⟨r', hrun', hp'⟩ := hvalues s'.run
    (fun l hl => (h.latches l hl).trans (Run.lookup_input_eq hbound l hl))
    ((h.right.regular.whole hord).covers _ hlt)
  refine ⟨r, r', ?_, ?_, fun n => ?_, fun n hn => ?_, fun l hl => ?_⟩
  · rw [h.left.regular.circuit, hrun]
  · rw [h.right.regular.circuit, h.right.stimuli, ← h.left.stimuli, h.upcoming hord, hrun']
  · rw [hp.output, hp'.output]
    simp [h.outputs]
  · rw [hp.lookup, hp'.lookup, if_pos hn, if_pos hn]
  · rw [hp.lookup, hp'.lookup]
    simp [h.latches l hl]

/-- If one of the latches cannot be sampled both runs fail alike. -/
theorem Agree.laterCycle_stray (h : Agree c given given' stimuli watched watched' s s')
    (hord : c.Ordered) (hbound : ¬ ∀ l ∈ c.latches, l.input ∈ s.run.store.names) :
    ∃ e, Run.laterCycle s.circuit s.stimuli s.upcoming s.run =
        (.error e, { s.run with store := s.run.store.advance }) ∧
      Run.laterCycle s'.circuit s'.stimuli s'.upcoming s'.run =
        (.error e, { s'.run with store := s'.run.store.advance }) := by
  push Not at hbound
  obtain ⟨l, hl, hunbound⟩ := hbound
  obtain ⟨k, -, -, hstray⟩ :=
    Run.laterCycle_stray (· ∈ s.run.store.names) hl hunbound s.stimuli s.upcoming
  refine ⟨.simulation (.unbound k.input), ?_, ?_⟩
  · rw [h.left.regular.circuit]
    exact hstray s.run fun _ _ => Iff.rfl
  · rw [h.right.regular.circuit, h.right.stimuli, ← h.left.stimuli, h.upcoming hord]
    refine hstray s'.run fun k hk => ?_
    rw [← Store.lookup_isSome_iff, ← Store.lookup_isSome_iff, h.latches k hk]

/-- Later cycles are taken alike: every signal gets another value before it is read. -/
theorem Agree.next (h : Agree c given given' stimuli watched watched' s s') (hord : c.Ordered)
    (hsame : (given'.getD []).toLatches c = (given.getD []).toLatches c) (number : Number) :
    Together (Agree c given given' stimuli watched watched') (next number) s s' := by
  have hup := h.upcoming hord
  by_cases hdue : s.Due number
  · obtain ⟨hstarted, rfl, hlt⟩ := hdue
    have hstarted' : s'.started := h.started.trans hstarted
    have hlt' : s'.upcoming < s'.circuit.length := by rwa [hup, h.circuit_eq]
    have hnext' : Session.next (.ofNat s.upcoming) s' = Session.next (.ofNat s'.upcoming) s' := by
      rw [hup]
    by_cases hbound : ∀ l ∈ c.latches, l.input ∈ s.run.store.names
    · obtain ⟨r, r', hrun, hrun', houtputs, hsignals, hlatches⟩ :=
        h.laterCycle hord (h.left.regular.circuit ▸ hlt) hbound
      have hm := (h.left.regular.advanced hstarted hlt hrun).complete
      have hm' := (h.right.regular.advanced hstarted' hlt' hrun').complete
      rw [hup] at hm'
      have hagree : Agree c given given' stimuli watched watched'
          { s with run := r, upcoming := s.upcoming + 1 }
          { s' with run := r', upcoming := s.upcoming + 1 } :=
        ⟨⟨hm.regular, h.left.hook, h.left.stimuli, h.left.watched⟩,
          ⟨hm'.regular, h.right.hook, h.right.stimuli, h.right.watched⟩, h.started, fun _ => rfl,
          houtputs, hlatches, h.recording⟩
      refine (hagree.finish hm hm' hsignals hsame).of_eq (next_of_ok hstarted hlt hrun) ?_
      rw [hnext', next_of_ok hstarted' hlt' hrun', hup]
    · obtain ⟨e, hrun, hrun'⟩ := h.laterCycle_stray hord hbound
      have hfail := next_of_error hstarted hlt hrun
      have hfail' := hnext'.trans (next_of_error hstarted' hlt' hrun')
      have hleft := h.left.next (.ofNat s.upcoming)
      have hright := h.right.next (.ofNat s.upcoming)
      rw [hfail] at hleft
      rw [hfail'] at hright
      exact ⟨_, _, _, hfail, hfail', hleft, hright, h.started, h.upcoming, h.outputs, h.latches,
        h.recording⟩
  · have hdue' : ¬ s'.Due number := by
      unfold Due at hdue ⊢
      rwa [h.started, hup, h.circuit_eq]
    have hrefusal : s'.refusal number = s.refusal number := by
      simp only [refusal, lastCycle, h.started, hup, h.circuit_eq]
    refine ⟨_, _, _, next_refused hdue, ?_, h⟩
    rw [next_refused hdue', hrefusal]

/-- Starting a run takes cycle 0 alike, or fails alike. -/
theorem start_agree (h : Setup c given stimuli watched s)
    (h' : Setup c given' stimuli watched' s')
    (hsame : (given'.getD []).toLatches c = (given.getD []).toLatches c) :
    Together (Agree c given given' stimuli watched watched') start s s' := by
  have hfirst : Run.firstCycle s'.circuit s'.stimuli (Run.blank s'.circuit) =
      Run.firstCycle s.circuit s.stimuli (Run.blank s.circuit) := by
    rw [h.regular.circuit, h'.regular.circuit, h.stimuli, h'.stimuli]
  have hstarted := s'.started_restarted.trans s.started_restarted.symm
  have hrecording : watched' = watched → watched.isSome →
      s'.restarted.recording = s.restarted.recording := by
    intro heq hon
    simp [restarted, h.watched, h'.watched, heq, hon]
  obtain ⟨r, hr, hstart⟩ | ⟨e, r, hrun, hord, hstart⟩ := h.regular.start_cases
  · have hrun' := hfirst.trans hr.run
    have hm := hr.complete
    have hm' := (h'.regular.begun hrun').complete
    have hagree : Agree c given given' stimuli watched watched'
        { s.restarted with run := r, upcoming := 1 }
        { s'.restarted with run := r, upcoming := 1 } :=
      ⟨⟨hm.regular, h.hook, h.stimuli, h.watched⟩, ⟨hm'.regular, h'.hook, h'.stimuli, h'.watched⟩,
        hstarted, fun _ => rfl, fun _ => rfl, fun _ _ => rfl, hrecording⟩
    exact (hagree.finish hm hm' (fun _ _ => rfl) hsame).of_eq hstart (start_of_ok hrun')
  · have hstart' := start_of_error (hfirst.trans hrun)
    have hleft := h.start
    have hright := h'.start
    rw [hstart] at hleft
    rw [hstart'] at hright
    exact ⟨_, _, _, hstart, hstart', hleft, hright, hstarted, fun h => absurd h hord,
      fun _ => rfl, fun _ _ => rfl, hrecording⟩

/-! ## 4. Runs of two sessions -/

theorem Agree.shown_result (h : Agree c given given' stimuli watched watched' s s')
    (hord : c.Ordered) :
    s'.shown s'.result = s.shown s.result := by
  have hinputs : s'.result.inputs = s.result.inputs :=
    h.right.stimuli.trans h.left.stimuli.symm
  rw [shown, shown, resultOutputs_result, resultOutputs_result, hinputs,
    (h.left.regular.whole hord).keys, (h.right.regular.whole hord).keys]
  simp only [h.outputs]

/-- Runs up to a cycle are taken alike. -/
theorem stepTo_agree (h : Setup c given stimuli watched s)
    (h' : Setup c given' stimuli watched' s')
    (hsame : (given'.getD []).toLatches c = (given.getD []).toLatches c) (k : Nat) :
    Together (Agree c given given' stimuli watched watched') (stepTo k) s s' := by
  obtain ⟨outcome, t, t', hstart, hstart', hfirst⟩ := start_agree h h' hsame
  cases outcome with
  | error e => exact ⟨_, _, _, bind_of_error hstart, bind_of_error hstart', hfirst⟩
  | ok u =>
    have hord : c.Ordered := h.regular.ordered_of_start hstart
    refine Together.of_eq ?_ (bind_of_ok hstart) (bind_of_ok hstart')
    exact Together.forM (fun time _ _ hs => Agree.next hs hord hsame (.ofNat time)) _ hfirst

/-- Runs of sessions whose scripts have the same writes to inputs of latches show the same, or
fail the same way, and record the same. -/
theorem runAll_agree (h : Setup c given stimuli watched s)
    (h' : Setup c given' stimuli watched' s')
    (hsame : (given'.getD []).toLatches c = (given.getD []).toLatches c) :
    (runAll s').1.map (runAll s').2.shown = (runAll s).1.map (runAll s).2.shown ∧
      (watched' = watched → watched.isSome → (runAll s').2.recording = (runAll s).2.recording) := by
  obtain ⟨outcome, t, t', hstep, hstep', hagree⟩ := stepTo_agree h h' hsame (c.length - 1)
  obtain ⟨log, hrun⟩ := h.regular.runAll_of_stepTo hstep
  obtain ⟨log', hrun'⟩ := h'.regular.runAll_of_stepTo hstep'
  rw [hrun, hrun']
  refine ⟨?_, hagree.recording⟩
  cases outcome with
  | error e => rfl
  | ok u =>
    obtain ⟨_, _, hstart, -⟩ := Attempt.bind_eq_ok hstep
    exact congrArg Except.ok (hagree.shown_result (h.regular.ordered_of_start hstart))

/-! ## 5. Operations -/

/-- Changing a stimulus leaves stimuli that depend on nothing but the ones before. -/
theorem setStimulus_uniform (stimuli : List Trace) (place : Nat) (number : Number) (v : Bool) :
    ∃ stimuli', ∀ s : Session, s.stimuli = stimuli →
      (setStimulus place number v s).2 = { s with stimuli := stimuli' } := by
  unfold setStimulus
  cases hplace : stimuli[place]? with
  | none =>
    refine ⟨stimuli, fun s hs => ?_⟩
    rw [bind_of_ok (get_apply s), hs, hplace]
    subst hs
    rfl
  | some tr =>
    cases hset : tr.set number v with
    | error e =>
      refine ⟨stimuli, fun s hs => ?_⟩
      rw [bind_of_ok (get_apply s), hs, hplace]
      simp only [hset]
      rw [bind_of_error (checkTrace_error e s)]
      subst hs
      rfl
    | ok tr' =>
      refine ⟨stimuli.set place tr', fun s hs => ?_⟩
      rw [bind_of_ok (get_apply s), hs, hplace]
      simp only [hset]
      rw [bind_of_ok (checkTrace_ok tr' s)]
      subst hs
      rfl

/-- What a run depends on after an operation depends on what it did before, and not on what a hook
has written. -/
theorem setup_perform (c : Circuit) (stimuli : List Trace) (watched : Option (List String))
    (op : Operation) :
    ∃ stimuli' watched', ∀ given s, Setup c given stimuli watched s →
      Setup c given stimuli' watched' (op.perform s) := by
  cases op with
  | runAll =>
    exact ⟨stimuli, watched, fun given s h =>
      Preserves.runAll (fun _ h => Setup.start h) (fun time _ h => Setup.next h time)
        (fun _ _ h => ⟨h.regular.logged _, h.hook, h.stimuli, h.watched⟩) s h⟩
  | start => exact ⟨stimuli, watched, fun _ _ h => h.start⟩
  | next number => exact ⟨stimuli, watched, fun _ _ h => h.next number⟩
  | startRecording names =>
    refine ⟨stimuli, some (names.filter (· ∈ c.signals)), fun given s h =>
      ⟨h.regular.perform (.startRecording names), h.hook, h.stimuli, ?_⟩⟩
    rw [← h.regular.circuit]
    rfl
  | stopRecording =>
    exact ⟨stimuli, none, fun _ _ h =>
      ⟨h.regular.perform .stopRecording, h.hook, h.stimuli, rfl⟩⟩
  | result => exact ⟨stimuli, watched, fun _ _ h => h⟩
  | signal name =>
    refine ⟨stimuli, watched, fun given s h => ?_⟩
    have hsame : (Operation.signal name).perform s = s := signal_snd name s
    rwa [hsame]
  | setStimulus place number v =>
    obtain ⟨stimuli', hset⟩ := setStimulus_uniform stimuli place number v
    refine ⟨stimuli', watched, fun given s h => ?_⟩
    have hregular := h.regular.perform (.setStimulus place number v)
    have hop : (Operation.setStimulus place number v).perform s = { s with stimuli := stimuli' } :=
      hset s h.stimuli
    rw [hop] at hregular ⊢
    exact ⟨hregular, h.hook, rfl, h.watched⟩
  | setResultOutput r name number v =>
    refine ⟨stimuli, watched, fun given s h => ?_⟩
    have hregular := h.regular.perform (.setResultOutput r name number v)
    obtain ⟨pastRuns, run, hset, -⟩ := setResultOutput_revises r name number v s
    have hop : (Operation.setResultOutput r name number v).perform s = { s with pastRuns, run } :=
      hset
    rw [hop] at hregular ⊢
    exact ⟨hregular, h.hook, h.stimuli, h.watched⟩

theorem setup_after (c : Circuit) (stimuli : List Trace) (watched : Option (List String))
    (ops : List Operation) :
    ∃ stimuli' watched', ∀ given s, Setup c given stimuli watched s →
      Setup c given stimuli' watched' (after s ops) := by
  induction ops generalizing stimuli watched with
  | nil => exact ⟨stimuli, watched, fun _ _ h => h⟩
  | cons op ops ih =>
    obtain ⟨stimuli₁, watched₁, hop⟩ := setup_perform c stimuli watched op
    obtain ⟨stimuli₂, watched₂, hops⟩ := ih stimuli₁ watched₁
    exact ⟨stimuli₂, watched₂, fun given s h => hops given _ (hop given s h)⟩

/-- **Hooks do not interfere.** Take two hooks, each of which makes the writes of a script or is
no hook at all. If the scripts make the same writes to inputs of latches, in the same order, then
running the circuit shows the same input and output traces, or fails the same way, whatever
else they write; and so it does after any operations. What is recorded of the run is the same. -/
theorem hooks_do_not_interfere (c : Circuit) (given given' : Option Script)
    (hsame : (given'.getD []).toLatches c = (given.getD []).toLatches c) (ops : List Operation) :
    let s := after (ofCircuit c (given.map Hook.ofScript)) ops
    let s' := after (ofCircuit c (given'.map Hook.ofScript)) ops
    (runAll s').1.map (runAll s').2.shown = (runAll s).1.map (runAll s).2.shown ∧
      s'.watched = s.watched ∧
      (s.watched.isSome → (runAll s').2.recording = (runAll s).2.recording) := by
  intro s s'
  have hnew (given : Option Script) :
      Setup c given c.stimuli none (ofCircuit c (given.map Hook.ofScript)) :=
    ⟨regular_ofCircuit c _, rfl, rfl, rfl⟩
  obtain ⟨stimuli, watched, hafter⟩ := setup_after c c.stimuli none ops
  have h : Setup c given stimuli watched s := hafter given _ (hnew given)
  have h' : Setup c given' stimuli watched s' := hafter given' _ (hnew given')
  obtain ⟨hshown, hrecording⟩ := runAll_agree h h' hsame
  refine ⟨hshown, h'.watched.trans h.watched.symm, fun hon => hrecording rfl ?_⟩
  rwa [← h.watched]

theorem hooks_do_not_interfere_pulseCounter :
    let given : Option Script := some [(0, "next", true), (1, "odd", false)]
    let given' : Option Script := some [(0, "pulse", false), (0, "next", true), (1, "before", true),
      (1, "odd", false), (2, "carry", true), (2, "more", true)]
    (given'.getD []).toLatches pulseCounter = (given.getD []).toLatches pulseCounter ∧
      let s := after (ofCircuit pulseCounter (given.map Hook.ofScript))
        [.startRecording ["odd", "carry"]]
      let s' := after (ofCircuit pulseCounter (given'.map Hook.ofScript))
        [.startRecording ["odd", "carry"]]
      (runAll s').1.map (runAll s').2.shown = (runAll s).1.map (runAll s).2.shown ∧
        s'.watched = s.watched ∧
        (s.watched.isSome → (runAll s').2.recording = (runAll s).2.recording) := by
  intro given given'
  have hsame : (given'.getD []).toLatches pulseCounter =
      (given.getD []).toLatches pulseCounter := by decide
  exact ⟨hsame, hooks_do_not_interfere pulseCounter given given' hsame _⟩

end Session

end Clocked
