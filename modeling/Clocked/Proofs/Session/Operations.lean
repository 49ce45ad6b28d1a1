/-
Clocked.Proofs.Session.Operations — any operations, in any order.

An `Operation` is what a caller can ask of a session; `after` is the session that
any number of them leave, those that fail included. Every operation keeps the
bookkeeping in step (`Steady.perform`), so all of them do (`steady_after`), and
`after_orderly` says what a caller can rely on at any point.
-/
import Clocked.Proofs.Session.Bookkeeping

namespace Clocked.Session

open Attempt (bind_of_ok bind_of_error get_apply check_ok checkTrace_ok
  checkTrace_error)

variable {c : Circuit} {hook : Hook} {m : Nat} {s : Session}

/-! ## 1. Operations -/

/-- What a caller can ask of a session. -/
inductive Operation where
  | runAll
  | start
  | next (time : Number)
  | startRecording (names : List String)
  | stopRecording
  | result
  | signal (name : String)
  | setStimulus (place : Nat) (time : Number) (v : Bool)
  | setResultOutput (r : Result) (name : String) (time : Number) (v : Bool)

/-- The session that an operation leaves, whether it fails or not. -/
def Operation.perform (s : Session) : Operation → Session
  | .runAll => (Session.runAll s).2
  | .start => (Session.start s).2
  | .next time => (Session.next time s).2
  | .startRecording names => (Session.startRecording names s).2
  | .stopRecording => (Session.stopRecording s).2
  | .result => s
  | .signal name => (Session.signal name s).2
  | .setStimulus place time v => (Session.setStimulus place time v s).2
  | .setResultOutput r name time v => (Session.setResultOutput r name time v s).2

/-- The session that operations leave, one after the other. -/
def after (s : Session) (ops : List Operation) : Session := ops.foldl Operation.perform s

/-! ## 2. What an action preserves -/

/-- Whether an action goes well or fails, the property is kept. -/
def Preserves {α : Type} (P : Session → Prop) (a : Action α) : Prop := ∀ s, P s → P (a s).2

namespace Preserves

variable {α β : Type} {P : Session → Prop}

theorem pure (x : α) : Preserves P (Pure.pure x : Action α) := fun _ h => h

theorem get : Preserves P (MonadState.get : Action Session) := fun _ h => h

theorem bind {a : Action α} {f : α → Action β} (ha : Preserves P a) (hf : ∀ x, Preserves P (f x)) :
    Preserves P (a >>= f) := by
  intro s h
  have hs := ha s h
  cases hrun : a s with
  | mk outcome s' =>
    rw [hrun] at hs
    cases outcome with
    | error e =>
      rw [bind_of_error hrun]
      exact hs
    | ok x =>
      rw [bind_of_ok hrun]
      exact hf x s' hs

theorem forM {f : α → Action Unit} (hf : ∀ x, Preserves P (f x)) (xs : List α) :
    Preserves P (xs.forM f) := by
  induction xs with
  | nil => exact .pure ()
  | cons x xs ih => exact .bind (hf x) fun _ => ih

/-- A whole run keeps what its cycles and its last message keep. -/
theorem runAll (hstart : Preserves P Session.start)
    (hnext : ∀ time, Preserves P (Session.next time))
    (hlogged : ∀ s message, P s → P { s with log := s.log.push (.debug, message) }) :
    Preserves P Session.runAll := by
  refine .bind hstart fun _ => .bind .get fun _ => ?_
  refine .bind (.forM (fun t => hnext (.ofNat t)) _) fun _ => .bind .get fun _ => ?_
  exact .bind (fun s h => hlogged s _ h) fun _ => .pure _

end Preserves

/-! ## 3. Every operation keeps the bookkeeping -/

theorem Steady.runAll (h : Steady c hook s) : Steady c hook (runAll s).2 :=
  Preserves.runAll (fun _ h => Steady.start h) (fun t _ h => Steady.next h t)
    (fun s _ h => Kept.adjusted h s.pastRecordings s.recording _ h.fits h.watched) s h

theorem Steady.startRecording (h : Steady c hook s) (names : List String) :
    Steady c hook (Session.startRecording names s).2 := by
  have hcirc := h.circuit
  refine h.adjusted _ _ s.log h.fits fun watched hwatched n hn => ?_
  cases hwatched
  rw [← hcirc]
  simpa using (List.mem_filter.1 hn).2

/-- Asking for a signal changes nothing. -/
theorem signal_snd (name : String) (s : Session) : (signal name s).2 = s := by
  unfold signal
  rw [bind_of_ok (get_apply s)]
  by_cases hs : s.started
  · simp only [hs, if_true]
    cases s.run.store.read name <;> rfl
  · simp only [hs, Bool.false_eq_true, if_false]
    rfl

theorem Steady.signal (h : Steady c hook s) (name : String) :
    Steady c hook (Session.signal name s).2 := by
  rwa [signal_snd]

/-! ## 4. Traces in the hands of a caller -/

/-- Changing a stimulus changes nothing else, and stimuli that fit a circuit still do. -/
theorem setStimulus_revises (place : Nat) (time : Number) (v : Bool) (s : Session) :
    ∃ stimuli, (Session.setStimulus place time v s).2 = { s with stimuli } ∧
      ∀ c : Circuit, c.Fits s.stimuli → c.Fits stimuli := by
  unfold Session.setStimulus
  rw [bind_of_ok (get_apply s)]
  cases hplace : s.stimuli[place]? with
  | none => exact ⟨s.stimuli, rfl, fun _ h => h⟩
  | some t =>
    simp only
    cases hset : t.set time v with
    | error e =>
      rw [bind_of_error (checkTrace_error e s)]
      exact ⟨s.stimuli, rfl, fun _ h => h⟩
    | ok t' =>
      rw [bind_of_ok (checkTrace_ok t' s)]
      obtain ⟨hsignal, hlength⟩ := Trace.set_eq_ok hset
      exact ⟨s.stimuli.set place t', rfl, fun _ h => h.set hplace hsignal hlength⟩

theorem Steady.setStimulus (h : Steady c hook s) (place : Nat) (time : Number) (v : Bool) :
    Steady c hook (Session.setStimulus place time v s).2 := by
  obtain ⟨stimuli, hset, hfits⟩ := setStimulus_revises place time v s
  rw [hset]
  exact h.adjusted s.pastRecordings s.recording s.log (hfits c h.fits) h.watched

/-- The output traces of runs change, their lengths do not. -/
theorem Kept.revised (h : Kept c hook m s) {pastRuns : List Run} {run : Run}
    (hlen : pastRuns.length = s.pastRuns.length) (hstore : run.store = s.run.store)
    (hcovers : ∀ k, Run.Covers k s.run → Run.Covers k run) :
    Kept c hook m { s with pastRuns, run } := by
  have hnumber : ({ s with pastRuns, run } : Session).runNumber = s.runNumber := hlen
  have hstarted : ({ s with pastRuns, run } : Session).started = s.started := by
    have hempty : pastRuns.isEmpty = s.pastRuns.isEmpty := by
      rw [Bool.eq_iff_iff, List.isEmpty_iff_length_eq_zero, List.isEmpty_iff_length_eq_zero, hlen]
    exact congrArg (!·) hempty
  refine ⟨h.circuit, h.hooked, h.fits, h.watched, h.upcoming, h.ordered, ?_, fun hne => ?_, ?_,
    h.given, h.times, ?_⟩
  · rw [hstarted]
    exact h.begun
  · have hlive := h.live hne
    refine ⟨hstarted.trans hlive.started, fun k hk => hcovers k (hlive.covers k hk), ?_, ?_⟩
    · rw [hnumber]
      exact hstore ▸ hlive.names
    · exact hstore ▸ hlive.cycle
  · rw [hnumber]
    exact h.runs
  · rw [hnumber]
    exact h.present

/-- A trace that a result shows of the present run is one of its output traces. -/
theorem get?_of_resultOutputs {r : Result} {name n : String} {t : Trace}
    (h : (s.resultOutputs r).find? (·.1 = name) = some (n, t)) (hr : r.run = s.runNumber) :
    s.run.outputs.get? name = some t := by
  have hrun : s.runAt? r.run = some s.run := by simp [runAt?, runNumber, hr]
  have hname : n = name := by simpa using List.find?_some h
  have hmem := List.mem_of_find?_eq_some h
  rw [resultOutputs, hrun] at hmem
  obtain ⟨k, -, hk⟩ := List.mem_filterMap.1 hmem
  obtain ⟨t', ht', heq⟩ := Option.map_eq_some_iff.1 hk
  cases heq
  rw [← hname]
  exact ht'

/-- Changing an output trace of a result changes nothing but the output traces of its run,
which keep their names and lengths. -/
theorem setResultOutput_revises (r : Result) (name : String) (time : Number) (v : Bool)
    (s : Session) :
    ∃ pastRuns run, (Session.setResultOutput r name time v s).2 = { s with pastRuns, run } ∧
      pastRuns.length = s.pastRuns.length ∧ run.store = s.run.store ∧
      run.outputs.keys = s.run.outputs.keys ∧ (∀ k, Run.Covers k s.run → Run.Covers k run) ∧
      ∀ k, k ≠ r.run → (pastRuns ++ [run])[k]? = (s.pastRuns ++ [s.run])[k]? := by
  unfold Session.setResultOutput
  rw [bind_of_ok (get_apply s)]
  cases hfind : (s.resultOutputs r).find? (·.1 = name) with
  | none => exact ⟨s.pastRuns, s.run, rfl, rfl, rfl, rfl, fun _ h => h, fun _ _ => rfl⟩
  | some found =>
    obtain ⟨n, t⟩ := found
    simp only
    cases hset : t.set time v with
    | error e =>
      rw [bind_of_error (checkTrace_error e s)]
      exact ⟨s.pastRuns, s.run, rfl, rfl, rfl, rfl, fun _ h => h, fun _ _ => rfl⟩
    | ok t' =>
      rw [bind_of_ok (checkTrace_ok t' s)]
      show ∃ pastRuns run, s.putOutput r.run name t' = { s with pastRuns, run } ∧ _
      unfold putOutput
      by_cases hr : r.run = s.runNumber
      · simp only [hr, if_true]
        have hget := get?_of_resultOutputs hfind hr
        refine ⟨s.pastRuns, _, rfl, rfl, rfl, Table.keys_modify .., fun k hk u tr hu => ?_,
          fun k hk => ?_⟩
        · rw [Table.get?_modify] at hu
          split at hu
          · next heq =>
            rw [heq, hget] at hu
            cases hu
            rw [(Trace.set_eq_ok hset).2]
            exact hk name t hget
          · exact hk u tr hu
        · rcases Nat.lt_or_gt_of_ne hk with hlt | hgt
          · rw [List.getElem?_append_left hlt, List.getElem?_append_left hlt]
          · have hbeyond : s.pastRuns.length + 1 ≤ k := hgt
            rw [List.getElem?_eq_none, List.getElem?_eq_none] <;> simpa using hbeyond
      · simp only [hr, if_false]
        refine ⟨_, s.run, rfl, List.length_modify .., rfl, rfl, fun _ h => h, fun k hk => ?_⟩
        rw [List.getElem?_append, List.getElem?_append, List.length_modify, List.getElem?_modify]
        simp [Ne.symm hk]

theorem Steady.setResultOutput (h : Steady c hook s) (r : Result) (name : String) (time : Number)
    (v : Bool) : Steady c hook (Session.setResultOutput r name time v s).2 := by
  obtain ⟨pastRuns, run, hset, hlen, hstore, -, hcovers, -⟩ :=
    setResultOutput_revises r name time v s
  rw [hset]
  exact h.revised hlen hstore hcovers

/-- Operations that look at values, or change values in traces. -/
def Operation.revises : Operation → Bool
  | .result | .signal _ | .setStimulus .. | .setResultOutput .. => true
  | _ => false

/-- An operation that writes to the traces of the run with a number. -/
def Operation.WritesTo (number : Nat) : Operation → Prop
  | .setResultOutput r _ _ _ => r.run = number
  | _ => False

/-- Such operations change nothing but traces, and of runs only those that they write to. -/
theorem Operation.perform_of_revises {op : Operation} (h : op.revises) (s : Session) :
    ∃ stimuli pastRuns run, op.perform s = { s with stimuli, pastRuns, run } ∧
      ({ s with stimuli, pastRuns, run } : Session).runNumber = s.runNumber ∧
      ∀ k, ¬ op.WritesTo k → (pastRuns ++ [run])[k]? = (s.pastRuns ++ [s.run])[k]? := by
  cases op with
  | result => exact ⟨s.stimuli, s.pastRuns, s.run, rfl, rfl, fun _ _ => rfl⟩
  | signal name =>
    exact ⟨s.stimuli, s.pastRuns, s.run, signal_snd name s, rfl, fun _ _ => rfl⟩
  | setStimulus place time v =>
    obtain ⟨stimuli, hset, -⟩ := setStimulus_revises place time v s
    exact ⟨stimuli, s.pastRuns, s.run, hset, rfl, fun _ _ => rfl⟩
  | setResultOutput r name time v =>
    obtain ⟨pastRuns, run, hset, hlen, -, -, -, hothers⟩ :=
      setResultOutput_revises r name time v s
    exact ⟨s.stimuli, pastRuns, run, hset, hlen, fun k hk => hothers k fun heq => hk heq.symm⟩
  | _ => cases h

/-! ## 5. All operations -/

theorem Steady.perform (h : Steady c hook s) (op : Operation) : Steady c hook (op.perform s) := by
  cases op with
  | runAll => exact h.runAll
  | start => exact h.start
  | next time => exact h.next time
  | startRecording names => exact h.startRecording names
  | stopRecording => exact h.adjusted s.pastRecordings s.recording s.log h.fits nofun
  | result => exact h
  | signal name => exact h.signal name
  | setStimulus place time v => exact h.setStimulus place time v
  | setResultOutput r name time v => exact h.setResultOutput r name time v

theorem steady_after (h : Steady c hook s) (ops : List Operation) :
    Steady c hook (after s ops) := by
  induction ops generalizing s with
  | nil => exact h
  | cons op ops ih => exact ih (h.perform op)

/-- What a caller can rely on, whatever was asked of a session before. -/
structure Orderly (c : Circuit) (hook : Hook) (s : Session) : Prop where
  /-- The last completed cycle is one of the circuit's. -/
  last : s.lastCycle < c.length
  /-- Once a cycle was completed, the store holds the signals of the circuit in
  their order, then what the hook added in this run. -/
  names : 0 ≤ s.lastCycle → s.run.store.names =
    c.signals ++ ((writtenIn hook s.runNumber s.calls).filter (· ∉ c.signals)).eraseDups
  /-- So every signal can be asked for. -/
  signals : 0 ≤ s.lastCycle → ∀ n ∈ c.signals, ∃ v, signal n s = (.ok v, s)
  /-- In every run the hook is called at the times 0, 1, 2 and so on. -/
  times : ∀ run, ∃ k, s.callTimes run = List.range k
  /-- In the present run it was called after every completed cycle. -/
  present : s.callTimes s.runNumber = List.range (s.lastCycle + 1).toNat
  /-- The counter of the store it is given is the time. -/
  given : ∀ call ∈ s.calls, call.given.cycle = call.time
  /-- If the updates are out of order, no cycle is completed and no hook called. -/
  ordered : ¬ c.Ordered → s.lastCycle = -1 ∧ s.calls = []

/-- **Any operations, in any order.** Whatever operations a session of a circuit
goes through, failed ones included, and whatever its hook does, it is orderly. -/
theorem after_orderly (c : Circuit) (hook : Hook) (ops : List Operation) :
    Orderly c hook (after (ofCircuit c (some hook)) ops) := by
  have h := steady_after (steady_ofCircuit c hook) ops
  generalize after (ofCircuit c (some hook)) ops = s at h
  have hlast : 0 ≤ s.lastCycle → Live c hook s := by
    intro hle
    refine h.live ?_
    unfold lastCycle at hle
    omega
  refine ⟨?_, fun hle => (hlast hle).names, fun hle n hn => ?_, h.times, ?_, h.given,
    fun hord => ?_⟩
  · have := h.upcoming
    have := c.length_pos
    unfold lastCycle
    omega
  · have hmem : n ∈ s.run.store.names := by
      rw [(hlast hle).names, mem_addNames]
      exact .inl hn
    obtain ⟨v, hv⟩ := Store.lookup_isSome_of_mem hmem
    refine ⟨v, ?_⟩
    unfold signal
    rw [bind_of_ok (get_apply s)]
    simp only [(hlast hle).started, if_true, Store.read_eq_ok_iff.2 hv]
    exact check_ok v s
  · have hnat : (s.lastCycle + 1).toNat = s.upcoming := by simp [lastCycle]
    rw [hnat]
    exact h.present
  · have hup := h.upcoming_eq_zero hord
    refine ⟨by simp [lastCycle, hup], ?_⟩
    by_contra hcalls
    exact hord (h.ordered (.inr hcalls))

end Clocked.Session
