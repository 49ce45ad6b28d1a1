/-
Clocked.Proofs.Run.Stimuli — a circuit with other stimuli.

A cycle is given its stimuli and reads everything else from the circuit. So a
circuit with other stimuli that fit it (`Circuit.withStimuli`) takes the same
cycles: of its own stimuli only their length matters, which is the same.
-/
import Clocked.Proofs.Run.Success

namespace Clocked

namespace Circuit

variable {c : Circuit} {stimuli : List Trace}

/-- Stimuli that fit a circuit make it as long as it was. -/
theorem Fits.length_eq (h : c.Fits stimuli) :
    ({ c.toDesign with stimuli } : Design).length = c.length := by
  have hne : c.inputs ≠ [] := (Design.stimulusFault?_eq_none_iff.1 c.checks.2.1).1
  cases stimuli with
  | nil => exact absurd h.signals.symm hne
  | cons t ts => exact h.lengths t List.mem_cons_self

/-- Nothing is wrong with a circuit that is given other stimuli that fit it. -/
theorem Fits.sound (h : c.Fits stimuli) :
    ({ c.toDesign with stimuli } : Design).fault? = none := by
  obtain ⟨hproduced, hstimuli, houtputs⟩ := c.checks
  obtain ⟨hne, -, hpos, -⟩ := Design.stimulusFault?_eq_none_iff.1 hstimuli
  refine Design.fault?_eq_none_iff.2 ⟨hproduced, ?_, houtputs⟩
  refine Design.stimulusFault?_eq_none_iff.2 ⟨hne, h.signals, ?_, fun t ht => ?_⟩
  · rwa [h.length_eq]
  · rw [h.length_eq]
    exact h.lengths t ht

/-- The circuit with other stimuli. -/
def withStimuli (c : Circuit) (stimuli : List Trace) (h : c.Fits stimuli) : Circuit :=
  ⟨{ c.toDesign with stimuli }, h.sound⟩

theorem ofDesign_withStimuli (h : c.Fits stimuli) :
    ofDesign { c.toDesign with stimuli } = .ok (c.withStimuli stimuli h) :=
  ofDesign_eq_ok_iff.2 rfl

end Circuit

namespace Run

variable {c : Circuit} {stimuli : List Trace} (h : c.Fits stimuli)

theorem blank_withStimuli : blank (c.withStimuli stimuli h) = blank c := by
  have hlength : (c.withStimuli stimuli h).length = c.length := h.length_eq
  unfold blank
  rw [hlength]
  rfl

theorem performUpdates_withStimuli (time : Nat) (ready : List String) (us : List Update) :
    performUpdates (c.withStimuli stimuli h) time ready us = performUpdates c time ready us := by
  induction us generalizing ready with
  | nil => rfl
  | cons u us ih =>
    rw [performUpdates, performUpdates]
    simp only [ih]
    rfl

theorem firstCycle_withStimuli (given : List Trace) :
    firstCycle (c.withStimuli stimuli h) given = firstCycle c given := by
  unfold firstCycle
  rw [performUpdates_withStimuli]
  rfl

theorem laterCycle_withStimuli (given : List Trace) (time : Nat) :
    laterCycle (c.withStimuli stimuli h) given time = laterCycle c given time := by
  unfold laterCycle
  rw [performUpdates_withStimuli]
  rfl

end Run

end Clocked
