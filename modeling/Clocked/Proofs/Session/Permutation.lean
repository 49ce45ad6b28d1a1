/-
Clocked.Proofs.Session.Permutation — the order in which a circuit lists its parts.

The equations of a circuit do not mention the order of its inputs, latches and
updates, so circuits that list the same parts have the same solutions
(`Permutes.solves`). Running a circuit computes such a solution; if both lists of
updates are in order, both runs compute the same one, and so does what is
recorded of them.
-/
import Clocked.Proofs.Session.Outcome

namespace Clocked

/-! ## 1. Circuits of the same parts -/

/-- Every input has one stimulus. -/
theorem Circuit.length_inputs (c : Circuit) : c.inputs.length = c.stimuli.length := by
  rw [← c.map_signal_stimuli, List.length_map]

/-- The circuits have the same outputs, and otherwise list the same parts, every
input with its stimulus. -/
structure Circuit.Permutes (c c' : Circuit) : Prop where
  outputs : c.outputs = c'.outputs
  inputs : (c.inputs.zip c.stimuli).Perm (c'.inputs.zip c'.stimuli)
  latches : c.latches.Perm c'.latches
  updates : c.updates.Perm c'.updates

namespace Circuit.Permutes

variable {c c' : Circuit}

theorem symm (h : c.Permutes c') : c'.Permutes c :=
  ⟨h.outputs.symm, h.inputs.symm, h.latches.symm, h.updates.symm⟩

theorem stimuli (h : c.Permutes c') : c.stimuli.Perm c'.stimuli := by
  have hmap := h.inputs.map Prod.snd
  rwa [List.map_snd_zip c.length_inputs.ge, List.map_snd_zip c'.length_inputs.ge] at hmap

/-- The same signals are produced. -/
theorem signals (h : c.Permutes c') : c.signals.Perm c'.signals := by
  have hinputs := h.stimuli.map (·.signal)
  rw [c.map_signal_stimuli, c'.map_signal_stimuli] at hinputs
  exact (hinputs.append (h.latches.map _)).append (h.updates.map _)

theorem length_eq (h : c.Permutes c') : c.length = c'.length := by
  obtain ⟨t, ht⟩ : ∃ t, t ∈ c.stimuli := by
    refine List.exists_mem_of_ne_nil _ fun hnil => ?_
    have := c.length_pos
    simp [Design.length, hnil] at this
  rw [← c.length_stimulus ht, c'.length_stimulus (h.stimuli.mem_iff.1 ht)]

/-- The equations are the same. -/
theorem solves (h : c.Permutes c') {V : Nat → String → Bool} (hV : c.Solves V) : c'.Solves V where
  input := fun t ht i s his => hV.input t (h.length_eq ▸ ht) i s (h.inputs.mem_iff.2 his)
  reset := fun l hl => hV.reset l (h.latches.mem_iff.2 hl)
  latch := fun t ht l hl => hV.latch t (h.length_eq ▸ ht) l (h.latches.mem_iff.2 hl)
  update := fun t ht u hu => hV.update t (h.length_eq ▸ ht) u (h.updates.mem_iff.2 hu)

/-- The latches of both read signals of the circuit, or those of neither. -/
theorem latches_known (h : c.Permutes c')
    (hlatch : c.length = 1 ∨ ∀ l ∈ c.latches, l.input ∈ c.signals) :
    c'.length = 1 ∨ ∀ l ∈ c'.latches, l.input ∈ c'.signals := by
  refine hlatch.imp (h.length_eq ▸ ·) fun hknown l hl => ?_
  exact h.signals.mem_iff.1 (hknown l (h.latches.mem_iff.2 hl))

end Circuit.Permutes

namespace Session

open Attempt (bind_of_ok get_apply modify_apply pure_apply)

variable {c c' : Circuit} {V : Nat → String → Bool}

/-! ## 2. Runs that go through -/

/-- A circuit whose updates are in order goes through all cycles exactly if its
latches can be sampled. -/
theorem runAll_ok_iff (hord : c.Ordered) :
    (∃ r s, runAll (ofCircuit c none) = (.ok r, s)) ↔
      (c.length = 1 ∨ ∀ l ∈ c.latches, l.input ∈ c.signals) := by
  constructor
  · rintro ⟨r, s, hrun⟩
    by_contra hlatch
    rw [not_or] at hlatch
    have hlen : 2 ≤ c.length := by
      have := c.length_pos
      omega
    obtain ⟨l, hl⟩ := Design.exists_firstStray hlatch.2
    obtain ⟨s', -, -, hfail⟩ := runAll_of_firstStray hord hlen hl
    rw [hfail] at hrun
    cases hrun
  · intro hlatch
    obtain ⟨s, hrun, -⟩ :=
      runAll_shows (s := ofCircuit c none) (c.solves_wave hord) hord hlatch rfl rfl rfl rfl
    exact ⟨s.result, s, hrun⟩

/-! ## 3. Recording a run -/

/-- A run during which signals are recorded: its result, and the number of the
list of samples. -/
def recordRun (names : List String) : Action (Result × Nat) := do
  startRecording names
  let r ← runAll
  let number ← stopRecording
  return (r, number)

/-- The samples of a whole run, if the signals have their values in `V`. -/
def samplesOf (V : Nat → String → Bool) (length : Nat) (names : List String) : Array Sample :=
  ((List.range length).map fun t =>
    ⟨.ofNat t, Table.ofList (names.map fun n => (n, V t n))⟩).toArray

/-- A run is recorded as it is computed. -/
theorem recordRun_shows (hV : c.Solves V) (hord : c.Ordered)
    (hlatch : c.length = 1 ∨ ∀ l ∈ c.latches, l.input ∈ c.signals) (names : List String) :
    ∃ k s, recordRun names (ofCircuit c none) = (.ok (s.result, k), s) ∧
      Shows c V (c.length - 1) s ∧
      s.recordingAt? k = some (samplesOf V c.length (names.filter (· ∈ c.signals))) := by
  let known := names.filter (· ∈ c.signals)
  have hknown : ∀ ns ∈ some known, ∀ n ∈ ns, n ∈ c.signals := by
    intro ns hns n hn
    cases hns
    simpa using (List.mem_filter.1 hn).2
  let s₀ : Session :=
    { ofCircuit c none with pastRecordings := [#[]], watched := some known }
  have hstart : startRecording names (ofCircuit c none) = (.ok (), s₀) := rfl
  obtain ⟨s₁, hrun, hs₁, hsampled⟩ :=
    runAll_sampled (s := s₀) hV hord hlatch hknown rfl rfl rfl rfl
  refine ⟨s₁.recordingNumber, { s₁ with watched := none }, ?_, ?_, ?_⟩
  · unfold recordRun
    rw [bind_of_ok hstart, bind_of_ok hrun]
    rfl
  · exact ⟨hs₁.circuit, hs₁.hook, hs₁.stimuli, hs₁.started, hs₁.upcoming, hs₁.run⟩
  · have hlast : s₁.recordingAt? s₁.recordingNumber = some s₁.recording := by
      simp [recordingAt?, recordingNumber]
    have hsamples : s₁.recording = samplesOf V c.length known :=
      Array.toList_inj.1 (hsampled.samples known rfl)
    exact hlast.trans (congrArg some hsamples)

/-! ## 4. Permuted circuits -/

/-- **The order of listing does not matter.** Let two circuits list the same
parts, both with their updates in order. Then a run goes through all cycles of
one exactly if it does of the other. If so, both return the same output traces
and the same input traces, and recordings of the same names are the same. -/
theorem runAll_permutes (h : c.Permutes c') (hord : c.Ordered) (hord' : c'.Ordered) :
    ((∃ r s, runAll (ofCircuit c none) = (.ok r, s)) ↔
      ∃ r s, runAll (ofCircuit c' none) = (.ok r, s)) ∧
    ∀ r s r' s', runAll (ofCircuit c none) = (.ok r, s) →
      runAll (ofCircuit c' none) = (.ok r', s') →
      s.resultOutputs r = s'.resultOutputs r' ∧ r.inputs.Perm r'.inputs ∧
      ∀ names, ∃ q k u q' k' u' samples,
        recordRun names (ofCircuit c none) = (.ok (q, k), u) ∧
        recordRun names (ofCircuit c' none) = (.ok (q', k'), u') ∧
        u.recordingAt? k = some samples ∧ u'.recordingAt? k' = some samples ∧
        samples.size = c.length ∧
        u.resultOutputs q = s.resultOutputs r ∧ u'.resultOutputs q' = s'.resultOutputs r' := by
  refine ⟨?_, fun r s r' s' hrun hrun' => ?_⟩
  · rw [runAll_ok_iff hord, runAll_ok_iff hord']
    exact ⟨h.latches_known, h.symm.latches_known⟩
  -- both compute the one solution of the equations they share
  have hV : c.Solves c.wave := c.solves_wave hord
  have hV' : c'.Solves c.wave := h.solves hV
  have hlatch := (runAll_ok_iff hord).1 ⟨r, s, hrun⟩
  have hlatch' := h.latches_known hlatch
  obtain ⟨s₁, hrun₁, hs₁⟩ :=
    runAll_shows (s := ofCircuit c none) hV hord hlatch rfl rfl rfl rfl
  obtain ⟨s₁', hrun₁', hs₁'⟩ :=
    runAll_shows (s := ofCircuit c' none) hV' hord' hlatch' rfl rfl rfl rfl
  cases hrun.symm.trans hrun₁
  cases hrun'.symm.trans hrun₁'
  refine ⟨?_, ?_, fun names => ?_⟩
  · rw [hs₁.resultOutputs_eq, hs₁'.resultOutputs_eq, h.outputs, h.length_eq]
  · show s.stimuli.Perm s'.stimuli
    rw [hs₁.stimuli, hs₁'.stimuli]
    exact h.stimuli
  · obtain ⟨k, u, hrec, hu, hat⟩ := recordRun_shows hV hord hlatch names
    obtain ⟨k', u', hrec', hu', hat'⟩ := recordRun_shows hV' hord' hlatch' names
    have hsame : names.filter (· ∈ c'.signals) = names.filter (· ∈ c.signals) :=
      List.filter_congr fun n _ => decide_eq_decide.2 h.signals.mem_iff.symm
    rw [hsame, ← h.length_eq] at hat'
    refine ⟨_, k, u, _, k', u', _, hrec, hrec', hat, hat', by simp [samplesOf], ?_, ?_⟩
    · rw [hu.resultOutputs_eq, hs₁.resultOutputs_eq]
    · rw [hu'.resultOutputs_eq, hs₁'.resultOutputs_eq]

/-- A half adder that remembers its last result. -/
def halfAdder : Circuit where
  name := "half_adder"
  inputs := ["a", "b"]
  outputs := ["sum", "kept"]
  latches := [⟨"sum", "last"⟩, ⟨"carry", "kept"⟩]
  updates := [
    ⟨"carry", .and () (.signal () "a") (.signal () "b")⟩,
    ⟨"either", .or () (.signal () "a") (.signal () "b")⟩,
    ⟨"sum", .and () (.signal () "either") (.not () (.signal () "carry"))⟩]
  stimuli := [.ofList "a" [true, true, false], .ofList "b" [true, false, false]]
  sound := by decide

/-- The half adder with its parts listed in another order. -/
def halfAdder' : Circuit where
  name := "half_adder"
  inputs := ["b", "a"]
  outputs := ["sum", "kept"]
  latches := [⟨"carry", "kept"⟩, ⟨"sum", "last"⟩]
  updates := [
    ⟨"either", .or () (.signal () "a") (.signal () "b")⟩,
    ⟨"carry", .and () (.signal () "a") (.signal () "b")⟩,
    ⟨"sum", .and () (.signal () "either") (.not () (.signal () "carry"))⟩]
  stimuli := [.ofList "b" [true, false, false], .ofList "a" [true, true, false]]
  sound := by decide

theorem runAll_permutes_halfAdder :
    halfAdder.Permutes halfAdder' ∧ halfAdder.Ordered ∧ halfAdder'.Ordered ∧
    ((∃ r s, runAll (ofCircuit halfAdder none) = (.ok r, s)) ↔
      ∃ r s, runAll (ofCircuit halfAdder' none) = (.ok r, s)) ∧
    ∀ r s r' s', runAll (ofCircuit halfAdder none) = (.ok r, s) →
      runAll (ofCircuit halfAdder' none) = (.ok r', s') →
      s.resultOutputs r = s'.resultOutputs r' ∧ r.inputs.Perm r'.inputs ∧
      ∀ names, ∃ q k u q' k' u' samples,
        recordRun names (ofCircuit halfAdder none) = (.ok (q, k), u) ∧
        recordRun names (ofCircuit halfAdder' none) = (.ok (q', k'), u') ∧
        u.recordingAt? k = some samples ∧ u'.recordingAt? k' = some samples ∧
        samples.size = halfAdder.length ∧
        u.resultOutputs q = s.resultOutputs r ∧ u'.resultOutputs q' = s'.resultOutputs r' := by
  have hperm : halfAdder.Permutes halfAdder' := ⟨rfl, by decide, by decide, by decide⟩
  have hord : halfAdder.Ordered := by decide
  have hord' : halfAdder'.Ordered := by decide
  exact ⟨hperm, hord, hord', runAll_permutes hperm hord hord'⟩

end Session

end Clocked
