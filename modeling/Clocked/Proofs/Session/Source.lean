/-
Clocked.Proofs.Session.Source — simulating a source text.

A source text that is read describes a circuit, and its circuit is run without a hook. Such
a run fails only because of the circuit (`runAll_error`), it logs nothing but progress
(`runAll_level`), and it is the same run when signals are recorded meanwhile
(`runAll_startRecording`).
-/
import Clocked.Proofs.Session.Outcome
import Clocked.Proofs.Session.Permutation
import Clocked.Proofs.Session.Transcript
import Clocked.Session.Source

namespace Clocked

namespace Session

variable {c : Circuit} {s m : Session} {t : Nat}

/-! ## 1. Failures -/

/-- A run without a hook fails because of the circuit, or not at all. -/
theorem runAll_error {e : Failure} (h : runAll (ofCircuit c none) = (.error e, s)) :
    ∃ e', e = .simulation e' := by
  by_cases hord : c.Ordered
  · have hlatch : ¬ (c.length = 1 ∨ ∀ l ∈ c.latches, l.input ∈ c.signals) := by
      intro hknown
      obtain ⟨r, t, hok⟩ := (runAll_ok_iff hord).2 hknown
      rw [h] at hok
      cases hok
    rw [not_or] at hlatch
    have hlen : 2 ≤ c.length := by
      have := c.length_pos
      omega
    obtain ⟨l, hl⟩ := Design.exists_firstStray hlatch.2
    obtain ⟨t, -, -, hrun⟩ := runAll_of_firstStray hord hlen hl
    cases h.symm.trans hrun
    exact ⟨_, rfl⟩
  · obtain ⟨before, u, hearly⟩ := Design.exists_firstEarly hord
    obtain ⟨t, hrun, -⟩ := runAll_of_firstEarly hearly
    cases h.symm.trans hrun
    exact ⟨_, rfl⟩

/-! ## 2. The log -/

/-- A session that has logged nothing but progress. -/
structure Plain (c : Circuit) (s : Session) : Prop where
  regular : Regular c s
  level : ∀ m ∈ s.log.toList, m.1 = .debug

theorem Plain.logged (h : Plain c s) (message : String) :
    Plain c { s with log := s.log.push (.debug, message) } := by
  refine ⟨h.regular.logged _, fun m hm => ?_⟩
  rw [Array.toList_push] at hm
  rcases List.mem_append.1 hm with hm | hm
  · exact h.level m hm
  · rw [List.mem_singleton.1 hm]

/-- Finishing a completed cycle logs the outputs, at most. -/
theorem Complete.plain_finish (h : Complete c t m) (hlevel : ∀ l ∈ m.log.toList, l.1 = .debug) :
    Plain c (finishCycle t m).2 := by
  refine ⟨h.regular_finish, ?_⟩
  rw [h.finish]
  show ∀ l ∈ (m.closing t).2.toList, l.1 = .debug
  unfold closing
  cases (m.reaction t).failure with
  | some e => exact hlevel
  | none =>
    cases outputValues (m.answered t).run.store m.circuit.outputs with
    | error e => exact hlevel
    | ok values => exact (Plain.logged ⟨h.regular, hlevel⟩ _).level

theorem Plain.start (h : Plain c s) : Plain c (Session.start s).2 := by
  obtain ⟨r, hr, hstart⟩ | ⟨e, r, -, hord, hstart⟩ := h.regular.start_cases
  · rw [hstart]
    exact hr.complete.plain_finish h.level
  · have hregular := h.regular.start
    rw [hstart] at hregular ⊢
    exact ⟨hregular, h.level⟩

theorem Plain.next (h : Plain c s) (time : Number) : Plain c (Session.next time s).2 := by
  obtain ⟨r, -, hr, hnext⟩ | ⟨e, r, -, houtputs, hnext⟩ := h.regular.next_cases time
  · rw [hnext]
    exact hr.complete.plain_finish h.level
  · have hregular := h.regular.next time
    rw [hnext] at hregular ⊢
    exact ⟨hregular, h.level⟩

theorem Plain.runAll (h : Plain c s) : Plain c (Session.runAll s).2 :=
  Preserves.runAll (fun _ h => Plain.start h) (fun t _ h => Plain.next h t)
    (fun _ message h => Plain.logged h message) s h

/-- All that a run logs is progress. -/
theorem runAll_level (c : Circuit) : ∀ m ∈ (runAll (ofCircuit c none)).2.log.toList, m.1 = .debug :=
  have hfresh : Plain c (ofCircuit c none) := ⟨regular_ofCircuit c none, nofun⟩
  hfresh.runAll.level

/-! ## 3. Recording -/

/-- A run is the same when signals are recorded meanwhile. -/
theorem runAll_startRecording (c : Circuit) (names : List String) :
    (runAll (startRecording names (ofCircuit c none)).2).1 = (runAll (ofCircuit c none)).1 ∧
    (runAll (startRecording names (ofCircuit c none)).2).2.unrecorded =
      (runAll (ofCircuit c none)).2.unrecorded :=
  have hfresh := regular_ofCircuit c none
  runAll_blind _ _ (hfresh.startRecording names) hfresh rfl

end Session

/-! ## 4. Source texts -/

/-- What is wrong with a circuit that is read is wrong with the circuit. -/
theorem Circuit.ofText_failed {source : String} {e : Failure}
    (h : Circuit.ofText source = .error (.failed e)) : ∃ e', e = .simulation e' := by
  unfold Circuit.ofText at h
  cases hread : Description.ofText source with
  | error e' =>
    rw [hread] at h
    cases h
  | ok d =>
    simp only [hread] at h
    cases hbuild : Circuit.ofDescription d with
    | error e' =>
      simp only [hbuild] at h
      cases h
      exact ⟨e', rfl⟩
    | ok c =>
      simp only [hbuild] at h
      cases h

/-- A source text that simulates describes a circuit that runs. -/
theorem simulate_eq_ok_iff {source text : String} :
    (simulate source).1 = .ok text ↔
      ∃ c r s, Circuit.ofText source = .ok c ∧
        Session.runAll (Session.ofCircuit c none) = (.ok r, s) ∧ s.resultText r = text := by
  unfold simulate
  cases hbuild : Circuit.ofText source with
  | error e => simp
  | ok c =>
    dsimp only
    cases hrun : Session.runAll (Session.ofCircuit c none) with
    | mk outcome s =>
      cases outcome with
      | error e =>
        refine ⟨nofun, ?_⟩
        rintro ⟨c', r, s', hc, hr, -⟩
        cases hc
        cases hrun.symm.trans hr
      | ok r =>
        refine ⟨fun h => ⟨c, r, s, rfl, hrun, Except.ok.inj h⟩, ?_⟩
        rintro ⟨c', r', s', hc, hr, rfl⟩
        cases hc
        cases hrun.symm.trans hr
        rfl

end Clocked
