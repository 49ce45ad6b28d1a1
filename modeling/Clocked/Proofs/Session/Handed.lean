/-
Clocked.Proofs.Session.Handed — what was handed out stays as it was.

The output traces of a result belong to the run that made them, and a list of samples
stays the session's own after recording was stopped. Neither changes any more,
whatever is asked of the session (`handed_out_last`):

* a run that went through all its cycles is `Over`: cycles are refused until another run
  begins, with traces of its own, and only a write through a result of the run
  reaches its traces (`Over.perform`);
* a list of samples that was stopped is `Closed`: samples are only added while recording,
  and recording again begins another list (`Closed.perform`).

A caller holds several results. `Move.Touches` tells which of its moves write through an
object that shares the traces of one of them.
-/
import Clocked.Proofs.Session.Completed
import Clocked.Proofs.Session.Rerun

namespace Clocked.Session

open Attempt (bind_of_ok)

variable {c : Circuit} {s t : Session} {number : Nat} {run : Run} {samples : Array Sample}

/-! ## 1. Runs that are over -/

/-- The run with a number is `run`, and the session does not go on with it. -/
structure Over (c : Circuit) (number : Nat) (run : Run) (s : Session) : Prop where
  regular : Regular c s
  kept : s.runAt? number = some run
  past : number ≠ s.runNumber ∨ c.length ≤ s.upcoming

theorem lt_of_runAt? (h : s.runAt? number = some run) : number < s.runNumber + 1 := by
  obtain ⟨hlt, -⟩ := List.getElem?_eq_some_iff.1 h
  simpa [runNumber] using hlt

/-- When another run begins the earlier ones are kept. -/
theorem runAt?_of_begun (hpast : t.pastRuns = s.pastRuns ++ [s.run])
    (h : s.runAt? number = some run) : t.runAt? number = some run ∧ number ≠ t.runNumber := by
  have hlt := lt_of_runAt? h
  have hnumber : t.runNumber = s.runNumber + 1 := by simp [runNumber, hpast]
  refine ⟨?_, by omega⟩
  unfold runAt? at h ⊢
  rwa [hpast, List.getElem?_append_left]
  simpa [runNumber] using hlt

/-- Going on with the present run leaves the earlier ones alone. -/
theorem runAt?_of_past (hpast : t.pastRuns = s.pastRuns) (hne : number ≠ s.runNumber)
    (h : s.runAt? number = some run) : t.runAt? number = some run ∧ number ≠ t.runNumber := by
  have hlt := lt_of_runAt? h
  have hbefore : number < s.pastRuns.length := by
    simp only [runNumber] at hlt hne
    omega
  have hnumber : t.runNumber = s.runNumber := by simp [runNumber, hpast]
  refine ⟨?_, hnumber ▸ hne⟩
  unfold runAt? at h ⊢
  rw [List.getElem?_append_left hbefore] at h
  rwa [hpast, List.getElem?_append_left hbefore]

theorem Over.of_begun (h : Over c number run s) (ht : Regular c t)
    (hpast : t.pastRuns = s.pastRuns ++ [s.run]) : Over c number run t := by
  obtain ⟨hkept, hne⟩ := runAt?_of_begun hpast h.kept
  exact ⟨ht, hkept, .inl hne⟩

theorem Over.of_past (h : Over c number run s) (ht : Regular c t)
    (hpast : t.pastRuns = s.pastRuns) (hne : number ≠ s.runNumber) : Over c number run t := by
  obtain ⟨hkept, hne⟩ := runAt?_of_past hpast hne h.kept
  exact ⟨ht, hkept, .inl hne⟩

theorem Over.start (h : Over c number run s) : Over c number run (start s).2 := by
  refine h.of_begun h.regular.start ?_
  obtain ⟨r, hr, hstart⟩ | ⟨e, r, -, -, hstart⟩ := h.regular.start_cases
  · rw [hstart, hr.complete.finish]
    rfl
  · rw [hstart]
    rfl

theorem Over.next (h : Over c number run s) (time : Number) :
    Over c number run (next time s).2 := by
  by_cases hdue : s.Due time
  · have hne : number ≠ s.runNumber := by
      refine h.past.resolve_right (Nat.not_le.2 ?_)
      exact h.regular.circuit ▸ hdue.2.2
    refine h.of_past (h.regular.next time) ?_ hne
    obtain ⟨r, -, hr, hnext⟩ | ⟨e, r, -, -, hnext⟩ := h.regular.next_cases time
    · rw [hnext, hr.complete.finish]
      rfl
    · rw [hnext]
  · rw [next_refused hdue]
    exact h

theorem Over.runAll (h : Over c number run s) : Over c number run (runAll s).2 :=
  Preserves.runAll (fun _ h => Over.start h) (fun t _ h => Over.next h t)
    (fun _ _ h => ⟨h.regular.logged _, h.kept, h.past⟩) s h

/-- A run that is over stays as it is, but for writes to its traces. -/
theorem Over.perform (h : Over c number run s) (op : Operation) (hop : ¬ op.WritesTo number) :
    Over c number run (op.perform s) := by
  have hregular := h.regular.perform op
  cases hrevises : op.revises with
  | true =>
    obtain ⟨stimuli, pastRuns, present, heq, hnumber, hothers⟩ :=
      Operation.perform_of_revises hrevises s
    rw [heq] at hregular ⊢
    refine ⟨hregular, (hothers number hop).trans h.kept, ?_⟩
    rw [hnumber]
    exact h.past
  | false =>
    cases op with
    | runAll => exact h.runAll
    | start => exact h.start
    | next time => exact h.next time
    | startRecording names => exact ⟨hregular, h.kept, h.past⟩
    | stopRecording => exact ⟨hregular, h.kept, h.past⟩
    | _ => cases hrevises

/-! ## 2. Runs that went through -/

/-- A cycle that was finished well is behind the session. -/
theorem upcoming_of_next (h : Regular c s) {time : Number}
    (hnext : next time s = (.ok (), t)) : t.upcoming = s.upcoming + 1 := by
  obtain ⟨r, -, hr, heq⟩ | ⟨e, r, -, -, heq⟩ := h.next_cases time
  · rw [heq, hr.complete.finish] at hnext
    rw [← (Prod.mk.inj hnext).2]
    rfl
  · rw [heq] at hnext
    cases hnext

theorem upcoming_of_forM_next (h : Regular c s) {times : List Nat}
    (hrest : times.forM (fun time => next (.ofNat time)) s = (.ok (), t)) :
    Regular c t ∧ t.upcoming = s.upcoming + times.length := by
  induction times generalizing s with
  | nil =>
    cases hrest
    exact ⟨h, rfl⟩
  | cons time times ih =>
    obtain ⟨u, s', hnext, hrest'⟩ := Attempt.bind_eq_ok
      (show (next (.ofNat time) >>= fun _ => times.forM fun time => next (.ofNat time)) s = _
        from hrest)
    have hs' : Regular c s' := by
      have := h.next (.ofNat time)
      rwa [hnext] at this
    obtain ⟨ht, hup⟩ := ih hs' hrest'
    refine ⟨ht, ?_⟩
    rw [hup, upcoming_of_next h hnext, List.length_cons]
    omega

theorem upcoming_of_start (h : Regular c s) (hstart : start s = (.ok (), t)) :
    t.upcoming = 1 := by
  obtain ⟨r, hr, heq⟩ | ⟨e, r, -, -, heq⟩ := h.start_cases
  · rw [heq, hr.complete.finish] at hstart
    rw [← (Prod.mk.inj hstart).2]
    rfl
  · rw [heq] at hstart
    cases hstart

theorem upcoming_of_stepTo (h : Regular c s) {k : Nat} (hstep : stepTo k s = (.ok (), t)) :
    Regular c t ∧ t.upcoming = k + 1 := by
  obtain ⟨_, u, hstart, hrest⟩ := Attempt.bind_eq_ok hstep
  have hu := h.start
  rw [hstart] at hu
  obtain ⟨ht, hup⟩ := upcoming_of_forM_next hu hrest
  refine ⟨ht, ?_⟩
  rw [hup, upcoming_of_start h hstart, List.length_range']
  omega

/-- A run that returned is over; its result is that of the session. -/
theorem over_of_runAll (h : Regular c s) {r : Result} (hrun : runAll s = (.ok r, t)) :
    r = t.result ∧ Over c r.run t.run t := by
  obtain ⟨u, log, hstep, rfl, rfl⟩ := h.stepTo_of_runAll hrun
  obtain ⟨hu, hup⟩ := upcoming_of_stepTo h hstep
  refine ⟨rfl, hu.logged log, ?_, .inr ?_⟩
  · simp [runAt?, result, runNumber]
  · have hpos := c.length_pos
    show c.length ≤ u.upcoming
    omega

/-! ## 3. Lists of samples that are closed -/

/-- The list of samples with a number is `samples`, and no sample is being added to it. -/
structure Closed (c : Circuit) (number : Nat) (samples : Array Sample) (s : Session) : Prop where
  regular : Regular c s
  kept : s.recordingAt? number = some samples
  closed : number ≠ s.recordingNumber ∨ s.watched = none

theorem lt_of_recordingAt? (h : s.recordingAt? number = some samples) :
    number < s.recordingNumber + 1 := by
  obtain ⟨hlt, -⟩ := List.getElem?_eq_some_iff.1 h
  simpa [recordingNumber] using hlt

/-- When another list begins the earlier ones are kept. -/
theorem Closed.of_begun (h : Closed c number samples s) (ht : Regular c t)
    (hpast : t.pastRecordings = s.pastRecordings ++ [s.recording]) :
    Closed c number samples t := by
  have hlt := lt_of_recordingAt? h.kept
  have hnumber : t.recordingNumber = s.recordingNumber + 1 := by simp [recordingNumber, hpast]
  refine ⟨ht, ?_, .inl (by omega)⟩
  have hkept := h.kept
  unfold recordingAt? at hkept ⊢
  rwa [hpast, List.getElem?_append_left]
  simpa [recordingNumber] using hlt

/-- Without another list nothing changes but the present one, and that only while
recording. -/
theorem Closed.of_same (h : Closed c number samples s) (ht : Regular c t)
    (hpast : t.pastRecordings = s.pastRecordings) (hwatched : s.watched = none → t.watched = none)
    (hrecording : s.watched = none → t.recording = s.recording) : Closed c number samples t := by
  have hnumber : t.recordingNumber = s.recordingNumber := by simp [recordingNumber, hpast]
  have hkept := h.kept
  rcases h.closed with hne | hnone
  · have hlt := lt_of_recordingAt? hkept
    have hbefore : number < s.pastRecordings.length := by
      simp only [recordingNumber] at hlt hne
      omega
    refine ⟨ht, ?_, .inl (hnumber ▸ hne)⟩
    unfold recordingAt? at hkept ⊢
    rw [List.getElem?_append_left hbefore] at hkept
    rwa [hpast, List.getElem?_append_left hbefore]
  · refine ⟨ht, ?_, .inr (hwatched hnone)⟩
    unfold recordingAt? at hkept ⊢
    rwa [hpast, hrecording hnone]

/-- No sample is taken while nothing is watched. -/
theorem sampled_of_none (h : s.watched = none) (time : Nat) : s.sampled time = s.recording := by
  simp only [sampled, h]

theorem Closed.start (h : Closed c number samples s) : Closed c number samples (start s).2 := by
  have hregular := h.regular.start
  by_cases hwatched : s.watched.isSome
  · refine h.of_begun hregular ?_
    obtain ⟨r, hr, hstart⟩ | ⟨e, r, -, -, hstart⟩ := h.regular.start_cases
    · rw [hstart, hr.complete.finish]
      simp [answered, restarted, hwatched]
    · rw [hstart]
      simp [restarted, hwatched]
  · have hnone : s.watched = none := by simpa using hwatched
    obtain ⟨r, hr, hstart⟩ | ⟨e, r, -, -, hstart⟩ := h.regular.start_cases
    · rw [hstart] at hregular ⊢
      rw [hr.complete.finish] at hregular ⊢
      refine h.of_same hregular (by simp [answered, restarted, hwatched]) id fun _ => ?_
      refine (sampled_of_none (s := { s.restarted with run := r, upcoming := 1 }) hnone 0).trans ?_
      simp [restarted, hwatched]
    · rw [hstart] at hregular ⊢
      refine h.of_same hregular ?_ id fun _ => ?_ <;> simp [restarted, hwatched]

theorem Closed.next (h : Closed c number samples s) (time : Number) :
    Closed c number samples (next time s).2 := by
  have hregular := h.regular.next time
  obtain ⟨r, -, hr, hnext⟩ | ⟨e, r, -, -, hnext⟩ := h.regular.next_cases time
  · rw [hnext] at hregular ⊢
    rw [hr.complete.finish] at hregular ⊢
    refine h.of_same hregular rfl id fun hnone => ?_
    exact sampled_of_none (s := { s with run := r, upcoming := s.upcoming + 1 }) hnone s.upcoming
  · rw [hnext] at hregular ⊢
    exact h.of_same hregular rfl id fun _ => rfl

theorem Closed.runAll (h : Closed c number samples s) : Closed c number samples (runAll s).2 :=
  Preserves.runAll (fun _ h => Closed.start h) (fun t _ h => Closed.next h t)
    (fun _ _ h => ⟨h.regular.logged _, h.kept, h.closed⟩) s h

/-- A list that is closed stays as it is. -/
theorem Closed.perform (h : Closed c number samples s) (op : Operation) :
    Closed c number samples (op.perform s) := by
  have hregular := h.regular.perform op
  cases hrevises : op.revises with
  | true =>
    obtain ⟨stimuli, pastRuns, run, heq, -⟩ := Operation.perform_of_revises hrevises s
    rw [heq] at hregular ⊢
    exact ⟨hregular, h.kept, h.closed⟩
  | false =>
    cases op with
    | runAll => exact h.runAll
    | start => exact h.start
    | next time => exact h.next time
    | startRecording names => exact h.of_begun hregular rfl
    | stopRecording => exact h.of_same hregular rfl (fun _ => rfl) fun _ => rfl
    | _ => cases hrevises

theorem closed_after (h : Closed c number samples s) (ops : List Operation) :
    Closed c number samples (after s ops) := by
  induction ops generalizing s with
  | nil => exact h
  | cons op ops ih => exact ih (h.perform op)

/-! ## 4. The results of a caller -/

/-- A move that writes to a trace of the result at a place, or takes one of its outputs away:
through the result itself, or through another object that shares its output traces. -/
def Move.Touches (p : Caller) (place : Nat) : Move → Prop
  | .ask op => ∃ r, p.results[place]? = some r ∧ op.WritesTo r.run
  | .setInput which _ _ _ => which = place
  | .setOutput which _ _ _ =>
    ∃ r q, p.results[place]? = some r ∧ p.results[which]? = some q ∧ q.run = r.run
  | .dropOutput which _ => which = place

/-- The caller holds a result at a place, and its run is over. -/
structure Holds (c : Circuit) (place : Nat) (r : Result) (run : Run) (p : Caller) : Prop where
  result : p.results[place]? = some r
  past : Over c r.run run p.session

/-- A move that does not touch a result leaves it and its run alone. -/
theorem Holds.make {place : Nat} {r : Result} {p : Caller} (h : Holds c place r run p) (m : Move)
    (hm : ¬ m.Touches p place) : Holds c place r run (m.make p) := by
  cases m with
  | ask op =>
    refine ⟨?_, h.past.perform op fun hop => hm ⟨r, h.result, hop⟩⟩
    show (p.results ++ op.handed p.session)[place]? = some r
    obtain ⟨hlt, -⟩ := List.getElem?_eq_some_iff.1 h.result
    rw [List.getElem?_append_left hlt, h.result]
  | setInput which place' time v =>
    have hne : which ≠ place := hm
    exact ⟨by simp [Move.make, hne, h.result], h.past⟩
  | setOutput which name time v =>
    cases hq : p.results[which]? with
    | none => simpa only [Move.make, hq] using h
    | some q =>
      simp only [Move.make, hq]
      refine ⟨h.result, ?_⟩
      exact h.past.perform (.setResultOutput q name time v) fun heq => hm ⟨r, q, h.result, hq, heq⟩
  | dropOutput which name =>
    have hne : which ≠ place := hm
    exact ⟨by simp [Move.make, hne, h.result], h.past⟩

/-- Moves leave a result and its run alone until one of them touches it. -/
theorem Holds.play {place : Nat} {r : Result} {p : Caller} (h : Holds c place r run p)
    (moves : List Move) :
    Holds c place r run (p.play moves) ∨
      ∃ before m after, moves = before ++ m :: after ∧ m.Touches (p.play before) place := by
  induction moves generalizing p with
  | nil => exact .inl h
  | cons m moves ih =>
    by_cases hm : m.Touches p place
    · exact .inr ⟨[], m, moves, rfl, hm⟩
    · rcases ih (h.make m hm) with hheld | ⟨before, m', after, rfl, htouch⟩
      · exact .inl hheld
      · exact .inr ⟨m :: before, m', after, rfl, htouch⟩

/-- What a result shows depends on its run only. -/
theorem Over.shown_eq {s s' : Session} {r : Result} (h : Over c r.run run s)
    (h' : Over c r.run run s') : s'.shown r = s.shown r := by
  simp only [shown, resultOutputs, h.kept, h'.kept]

/-- **What was handed out stays.** Let a caller have made any moves. A result that a run
then returns keeps its input traces, its outputs and their bits, whatever moves follow,
unless one of them writes through an object that shares its traces. And a list of samples
that is stopped then keeps its samples, whatever moves follow. -/
theorem handed_out_last (c : Circuit) (hook : Option Hook) (earlier : List Move) :
    let p := Caller.play ⟨ofCircuit c hook, []⟩ earlier
    (∀ r s, runAll p.session = (.ok r, s) → ∀ later : List Move,
      let given : Caller := Move.make p (.ask .runAll)
      given.results[p.results.length]? = some r ∧ given.session = s ∧
        ((given.play later).results[p.results.length]? = some r ∧
          (given.play later).session.shown r = s.shown r ∨
        ∃ before m after, later = before ++ m :: after ∧
          m.Touches (given.play before) p.results.length)) ∧
    ∀ number s, stopRecording p.session = (.ok number, s) → ∃ samples,
      s.recordingAt? number = some samples ∧ ∀ later : List Move,
        let given : Caller := Move.make p (.ask .stopRecording)
        given.session = s ∧ (given.play later).session.recordingAt? number = some samples := by
  intro p
  obtain ⟨ops, hops⟩ := Caller.play_session ⟨ofCircuit c hook, []⟩ earlier
  have hp : Regular c p.session := by
    show Regular c (Caller.play _ earlier).session
    rw [hops]
    exact regular_after (regular_ofCircuit c hook) ops
  clear_value p
  refine ⟨fun r s hrun later => ?_, fun number s hstop => ?_⟩
  · have hgiven : Move.make p (.ask .runAll) = ⟨s, p.results ++ [r]⟩ := by
      simp [Move.make, Operation.perform, Operation.handed, hrun]
    intro given
    have hholds : Holds c p.results.length r s.run given := by
      show Holds c _ r s.run (Move.make p (.ask .runAll))
      rw [hgiven]
      exact ⟨by simp, (over_of_runAll hp hrun).2⟩
    have hsession : given.session = s := congrArg Caller.session hgiven
    refine ⟨hholds.result, hsession, ?_⟩
    refine (hholds.play later).imp_left fun hheld => ⟨hheld.result, ?_⟩
    rw [← hsession]
    exact hholds.past.shown_eq hheld.past
  · cases hstop
    have hclosed : Closed c p.session.recordingNumber p.session.recording
        { p.session with watched := none } := by
      refine ⟨hp.perform .stopRecording, ?_, .inr rfl⟩
      simp [recordingAt?, recordingNumber]
    refine ⟨p.session.recording, hclosed.kept, fun later => ⟨rfl, ?_⟩⟩
    obtain ⟨more, hmore⟩ :=
      Caller.play_session ⟨{ p.session with watched := none }, p.results ++ []⟩ later
    have hlast := closed_after hclosed more
    rw [← hmore] at hlast
    exact hlast.kept

/-- Moves that run a circuit, and record the next run until it fails. -/
def eventfulMoves : List Move :=
  [.ask .runAll, .ask (.startRecording ["odd", "zero"]), .ask .start, .ask (.next (.ofNat 3))]

theorem handed_out_last_pulseCounter :
    let p := Caller.play ⟨ofCircuit pulseCounter none, []⟩ eventfulMoves
    ∃ r s stopped, runAll p.session = (.ok r, s) ∧ r.run = 3 ∧
      stopRecording p.session = (.ok 2, stopped) ∧
      (∀ later : List Move,
        let given : Caller := Move.make p (.ask .runAll)
        given.results[p.results.length]? = some r ∧ given.session = s ∧
          ((given.play later).results[p.results.length]? = some r ∧
            (given.play later).session.shown r = s.shown r ∨
          ∃ before m after, later = before ++ m :: after ∧
            m.Touches (given.play before) p.results.length)) ∧
      ∃ samples, stopped.recordingAt? 2 = some samples ∧ ∀ later : List Move,
        let given : Caller := Move.make p (.ask .stopRecording)
        given.session = stopped ∧ (given.play later).session.recordingAt? 2 = some samples := by
  have hrun : (runAll (Caller.play ⟨ofCircuit pulseCounter none, []⟩ eventfulMoves).session).1 =
      .ok ⟨pulseCounter.stimuli, 3, ["odd", "carry", "before"]⟩ := by decide +kernel
  have hstop : (stopRecording
      (Caller.play ⟨ofCircuit pulseCounter none, []⟩ eventfulMoves).session).1 = .ok 2 := by
    decide +kernel
  have hlast := handed_out_last pulseCounter none eventfulMoves
  generalize Caller.play ⟨ofCircuit pulseCounter none, []⟩ eventfulMoves = p at *
  cases hs : runAll p.session with
  | mk outcome s =>
    rw [hs] at hrun
    cases hrun
    have hstops : stopRecording p.session = (.ok 2, (stopRecording p.session).2) :=
      Prod.ext hstop rfl
    exact ⟨_, s, _, hs, rfl, hstops, hlast.1 _ s hs, hlast.2 2 _ hstops⟩

end Clocked.Session
