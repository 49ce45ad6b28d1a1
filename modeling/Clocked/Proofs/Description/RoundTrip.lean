/-
Clocked.Proofs.Description.RoundTrip — a description that is written is read back.

`ofText_text` says that what is read from the text of a description with proper
names is the description, but for its notes. Notes do not reach the circuit
(`Circuit.ofDescription_erase`), so simulating the text is running the circuit of
the description (`ofText_text_spec`).
-/
import Clocked.Proofs.Description.Places
import Clocked.Proofs.Description.Printing
import Clocked.Proofs.Description.Reading
import Clocked.Session.Source

namespace Clocked

variable {α : Type}

/-! ## 1. Circuits of descriptions -/

theorem Design.stimulusFor_erase (d : Description α) (input : String) :
    stimulusFor d.erase input = stimulusFor d input := by
  have hfind : d.erase.stimuli.findRev? (·.signal = input) =
      (d.stimuli.findRev? (·.signal = input)).map (·.map fun _ => ()) := by
    rw [List.findRev?_eq_find?_reverse, List.findRev?_eq_find?_reverse, Description.erase,
      Description.map, ← List.map_reverse, List.find?_map]
    rfl
  rw [stimulusFor, stimulusFor, hfind]
  cases d.stimuli.findRev? (·.signal = input) <;> rfl

/-- The design that a description describes does not depend on its notes. -/
theorem Design.ofDescription_erase (d : Description α) :
    ofDescription d.erase = ofDescription d := by
  have hstray : d.erase.stimuli.find? (fun s => decide (s.signal ∉ d.erase.inputs)) =
      (d.stimuli.find? fun s => decide (s.signal ∉ d.inputs)).map (·.map fun _ => ()) :=
    List.find?_map
  have hlatches : d.erase.latches.map (·.toLatch) = d.latches.map (·.toLatch) := by
    rw [Description.erase, Description.map, List.map_map]
    rfl
  have hupdates : d.erase.updates.map (·.toUpdate) = d.updates.map (·.toUpdate) := by
    rw [Description.erase, Description.map, List.map_map]
    refine List.map_congr_left fun u _ => ?_
    simp [Description.UpdateLine.map, Description.UpdateLine.toUpdate, Expr.erase_map]
  have hstimuli : stimulusFor d.erase = stimulusFor d := funext (stimulusFor_erase d)
  rw [ofDescription, ofDescription, hstray, hlatches, hupdates, hstimuli]
  cases d.stimuli.find? fun s => decide (s.signal ∉ d.inputs) <;> rfl

theorem Circuit.ofDescription_erase (d : Description α) :
    ofDescription d.erase = ofDescription d := by
  rw [ofDescription, ofDescription, Design.ofDescription_erase]

/-! ## 2. What simulating returns -/

/-- What a run of a circuit returns: the input traces, and the output traces by name. -/
def Circuit.traces (c : Circuit) : Except Failure (List Trace × List (String × Trace)) :=
  match Session.runAll (Session.ofCircuit c none) with
  | (.ok r, s) => .ok (r.inputs, s.resultOutputs r)
  | (.error e, _) => .error e

/-- What simulating a source text returns. -/
def tracesOfText (source : String) : Except SourceFailure (List Trace × List (String × Trace)) := do
  let c ← Circuit.ofText source
  c.traces.mapError .failed

/-- What building and running the circuit of a description returns. -/
def Description.traces (d : Description α) :
    Except SourceFailure (List Trace × List (String × Trace)) := do
  let c ← (Circuit.ofDescription d).mapError fun e => .failed (.simulation e)
  c.traces.mapError .failed

/-- Simulating a text prints the traces that it returns. -/
theorem simulate_fst (source : String) :
    (simulate source).1 = (tracesOfText source).map fun traces =>
      Report.traces traces.1 (traces.2.map Prod.snd) := by
  rw [simulate, tracesOfText]
  cases Circuit.ofText source with
  | error e => rfl
  | ok c =>
    simp only [bind, Except.bind, Circuit.traces]
    cases Session.runAll (Session.ofCircuit c none) with
    | mk outcome s => cases outcome <;> rfl

/-! ## 3. Reading back -/

namespace Description

theorem Writable.erase {d : Description α} (h : d.Writable) : d.erase.Writable where
  name := h.name
  inputs := h.inputs
  outputs := h.outputs
  latches := by simpa [Description.erase, map, LatchLine.map] using h.latches
  updates := by
    simpa [Description.erase, map, UpdateLine.map, Expr.Named] using h.updates
  stimuli := by
    simpa [StimuliFit, Description.erase, map, StimulusLine.map, Function.comp_def] using h.stimuli
  values := by simpa [Description.erase, map, StimulusLine.map] using h.values

/-- The text of a description is read as the description, but for notes. -/
theorem ofText_text {d : Description α} (h : d.Writable) :
    ∃ d', ofText d.text = .ok d' ∧ d'.erase = d.erase := by
  obtain ⟨us, place, hlex, hus⟩ := Spells.ofText (spells_text h.erase [])
  rw [text_erase] at hlex
  have hall : (us ++ [Token.endOfText place]).map Token.erase =
      d.erase.tokens ++ [Token.endOfText ()] := by
    rw [List.map_append, hus]
    rfl
  have htext := isText_tokens d.erase
  obtain ⟨s, hs, -⟩ := (isText_iff rfl).1 htext
  have hread : (ofTokens (d.erase.tokens ++ [Token.endOfText ()])).1 = .ok d.erase :=
    (ofTokens_ok_iff (State.kind_ne_of_steps? hs) rfl).2 ⟨htext, h.erase.stimuli⟩
  rw [← hall] at hread
  obtain ⟨d', hd', he⟩ := ofTokens_ok_of_erase hread
  refine ⟨d', ?_, he⟩
  rw [ofText, hlex]
  exact hd'

/-- **Writing and reading a description.** The text of a description with proper
names, fitting stimuli and no empty one is read as that description, but for
notes. So it has the same circuit, or the same fault, and simulating it returns
the traces of that circuit, or its failure. -/
theorem ofText_text_spec {d : Description α} (h : d.Writable) :
    (∃ d', ofText d.text = .ok d' ∧ d'.erase = d.erase) ∧
      Circuit.ofText d.text =
        (Circuit.ofDescription d).mapError (fun e => .failed (.simulation e)) ∧
      tracesOfText d.text = d.traces ∧
      (simulate d.text).1 =
        d.traces.map fun traces => Report.traces traces.1 (traces.2.map Prod.snd) := by
  obtain ⟨d', hread, he⟩ := ofText_text h
  have hcircuit : Circuit.ofText d.text =
      (Circuit.ofDescription d).mapError fun e => .failed (.simulation e) := by
    rw [← Circuit.ofDescription_erase d, ← he, Circuit.ofDescription_erase, Circuit.ofText, hread]
    simp only
    cases Circuit.ofDescription d' <;> rfl
  have htraces : tracesOfText d.text = d.traces := by rw [tracesOfText, hcircuit, traces]
  exact ⟨⟨d', hread, he⟩, hcircuit, htraces, by rw [simulate_fst, htraces]⟩

/-- A counter of pulses modulo 2 that can be held. -/
def heldCounter : Description Nat where
  name := "held_counter"
  inputs := ["pulse", "hold"]
  outputs := ["odd", "next"]
  latches := [⟨⟨"next", "odd"⟩, 3⟩]
  updates := [
    ⟨"on", .and 4 (.signal 5 "pulse") (.not 6 (.signal 7 "hold")), 8⟩,
    ⟨"next", .and 9 (.or 10 (.signal 11 "odd") (.signal 12 "on"))
      (.not 13 (.and 14 (.signal 15 "odd") (.signal 16 "on"))), 17⟩]
  stimuli := [⟨"hold", [false, false, true], 18⟩, ⟨"pulse", [true, true, true], 19⟩]
  note := 20

theorem ofText_text_spec_heldCounter : heldCounter.Writable ∧
    (∃ d', ofText heldCounter.text = .ok d' ∧ d'.erase = heldCounter.erase) ∧
      Circuit.ofText heldCounter.text =
        (Circuit.ofDescription heldCounter).mapError (fun e => .failed (.simulation e)) ∧
      tracesOfText heldCounter.text = heldCounter.traces ∧
      (simulate heldCounter.text).1 = heldCounter.traces.map fun traces =>
        Report.traces traces.1 (traces.2.map Prod.snd) := by
  have hwritable : heldCounter.Writable :=
    ⟨by decide, by decide, by decide, by decide, by decide, ⟨by decide, by decide⟩, by decide⟩
  exact ⟨hwritable, ofText_text_spec hwritable⟩

end Description

end Clocked
