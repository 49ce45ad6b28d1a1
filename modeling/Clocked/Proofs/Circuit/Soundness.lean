/-
Clocked.Proofs.Circuit.Soundness — what a design must be like to be a circuit.

Each check of a design finds nothing exactly when a plain property holds:

* `producedFault?_eq_none_iff` — no signal is produced twice;
* `stimulusFault?_eq_none_iff` — there is an input, the stimuli are for the
  inputs in order, and all have one length, which is not 0;
* `outputFault?_eq_none_iff` — every output is driven.

§4 says what is made of a design, and reads the three off a circuit's proof field, for use
wherever a circuit is run.
-/
import Mathlib.Data.List.Nodup
import Clocked.Circuit.Basic

namespace Clocked

namespace Design

/-! ## 1. Produced signals -/

theorem repeated_eq_nil_iff {before : List String} (xs : List String) (hb : before.Nodup) :
    repeated before xs = [] ↔ xs.Nodup ∧ ∀ x ∈ xs, x ∉ before := by
  induction xs generalizing before with
  | nil => simp [repeated]
  | cons x xs ih =>
    by_cases hx : x ∈ before
    · have hc : before.count x = 1 := List.count_eq_one_of_mem hb hx
      simp [repeated, hc, hx]
    · have hc : before.count x = 0 := List.count_eq_zero.2 hx
      have hb' : (x :: before).Nodup := List.nodup_cons.2 ⟨hx, hb⟩
      simp only [repeated, hc, Nat.zero_ne_one, if_false, ih hb', List.nodup_cons,
        List.mem_cons, not_or]
      constructor
      · rintro ⟨hnd, hmem⟩
        refine ⟨⟨fun h => (hmem x h).1 rfl, hnd⟩, ?_⟩
        rintro y (rfl | hy)
        · exact hx
        · exact (hmem y hy).2
      · rintro ⟨⟨hnx, hnd⟩, hmem⟩
        refine ⟨hnd, fun y hy => ⟨?_, hmem y (.inr hy)⟩⟩
        rintro rfl
        exact hnx hy

theorem producedFault?_eq_none_iff {d : Design} :
    d.producedFault? = none ↔ d.signals.Nodup := by
  have h := repeated_eq_nil_iff d.signals List.nodup_nil
  simp only [List.not_mem_nil, not_false_eq_true, implies_true, and_true] at h
  rw [← h]
  unfold producedFault?
  split <;> simp_all

/-! ## 2. Stimuli -/

theorem mismatch?_eq_none_iff {place : Nat} {ts : List Trace} {is : List String}
    (hlen : ts.length = is.length) :
    mismatch? place ts is = none ↔ ts.map (·.signal) = is := by
  induction ts generalizing place is with
  | nil =>
    have : is = [] := List.eq_nil_of_length_eq_zero (by simpa using hlen.symm)
    subst this
    simp [mismatch?]
  | cons t ts ih =>
    cases is with
    | nil => simp at hlen
    | cons i is =>
      have hlen' : ts.length = is.length := by simpa using hlen
      by_cases h : t.signal = i
      · simp [mismatch?, h, ih hlen']
      · simp [mismatch?, h]

theorem lengthFault?_cons_eq_none_iff {t : Trace} {ts : List Trace} :
    lengthFault? (t :: ts) = none ↔ 0 < t.length ∧ ∀ u ∈ ts, u.length = t.length := by
  by_cases h : t.length = 0
  · simp [lengthFault?, h]
  · have hpos : 0 < t.length := Nat.pos_of_ne_zero h
    simp [lengthFault?, h, hpos]

theorem stimulusFault?_eq_none_iff {d : Design} :
    d.stimulusFault? = none ↔
      d.inputs ≠ [] ∧ d.stimuli.map (·.signal) = d.inputs ∧
        0 < d.length ∧ ∀ t ∈ d.stimuli, t.length = d.length := by
  unfold stimulusFault?
  by_cases hi : d.inputs = []
  · simp [hi]
  by_cases hl : d.stimuli.length = d.inputs.length
  · obtain ⟨t, ts, hts⟩ : ∃ t ts, d.stimuli = t :: ts := by
      cases h : d.stimuli with
      | nil => rw [h] at hl; exact absurd (List.eq_nil_of_length_eq_zero hl.symm) hi
      | cons t ts => exact ⟨t, ts, rfl⟩
    have hlen : d.length = t.length := by simp [length, hts]
    rw [if_neg hi, if_neg (not_not.2 hl), Option.or_eq_none_iff, mismatch?_eq_none_iff hl]
    rw [hts, lengthFault?_cons_eq_none_iff, hlen]
    simp [hi]
  · rw [if_neg hi, if_pos hl]
    simp only [reduceCtorEq, false_iff]
    rintro ⟨-, hs, -⟩
    apply hl
    rw [← hs, List.length_map]

/-! ## 3. Outputs -/

theorem outputFault?_eq_none_iff {d : Design} :
    d.outputFault? = none ↔ ∀ n ∈ d.outputs, n ∈ d.latchOutputs ∨ n ∈ d.updateOutputs := by
  have h : d.undriven = [] ↔ ∀ n ∈ d.outputs, n ∈ d.latchOutputs ∨ n ∈ d.updateOutputs := by
    simp only [undriven, List.filter_eq_nil_iff, Bool.and_eq_true, decide_eq_true_eq, not_and_or,
      not_not]
    exact forall₂_congr fun n _ => or_comm
  rw [← h]
  unfold outputFault?
  split <;> simp_all

/-- Nothing is wrong exactly when no check finds anything. -/
theorem fault?_eq_none_iff {d : Design} :
    d.fault? = none ↔
      d.producedFault? = none ∧ d.stimulusFault? = none ∧ d.outputFault? = none := by
  simp [fault?, Option.or_eq_none_iff, and_assoc]

end Design

/-! ## 4. Circuits -/

namespace Circuit

/-- The only circuit that is made of a design has its parts. -/
theorem ofDesign_eq_ok_iff {d : Design} {c : Circuit} : ofDesign d = .ok c ↔ c.toDesign = d := by
  unfold ofDesign
  constructor
  · intro h
    split at h
    · cases h
      rfl
    · cases h
  · rintro rfl
    split
    · rfl
    · next e he =>
      rw [c.sound] at he
      cases he

/-- What is wrong with a design is reported. -/
theorem ofDesign_of_fault {d : Design} {e : SimulationError} (h : d.fault? = some e) :
    ofDesign d = .error e := by
  unfold ofDesign
  split
  · next hnone =>
    rw [h] at hnone
    cases hnone
  · next hsome =>
    rw [h] at hsome
    cases hsome
    rfl

variable (c : Circuit)

theorem checks : c.producedFault? = none ∧ c.stimulusFault? = none ∧ c.outputFault? = none :=
  Design.fault?_eq_none_iff.1 c.sound

/-- No signal of a circuit is produced twice. -/
theorem signals_nodup : c.signals.Nodup :=
  Design.producedFault?_eq_none_iff.1 c.checks.1

/-- The stimuli of a circuit are for its inputs, in order. -/
theorem map_signal_stimuli : c.stimuli.map (·.signal) = c.inputs :=
  (Design.stimulusFault?_eq_none_iff.1 c.checks.2.1).2.1

/-- A circuit runs for at least one cycle. -/
theorem length_pos : 0 < c.length :=
  (Design.stimulusFault?_eq_none_iff.1 c.checks.2.1).2.2.1

/-- All stimuli of a circuit have its length. -/
theorem length_stimulus {t : Trace} (ht : t ∈ c.stimuli) : t.length = c.length :=
  (Design.stimulusFault?_eq_none_iff.1 c.checks.2.1).2.2.2 t ht

/-- Every output of a circuit is driven. -/
theorem output_driven {n : String} (hn : n ∈ c.outputs) :
    n ∈ c.latchOutputs ++ c.updateOutputs :=
  List.mem_append.2 (Design.outputFault?_eq_none_iff.1 c.checks.2.2 n hn)

theorem output_mem_signals {n : String} (hn : n ∈ c.outputs) : n ∈ c.signals := by
  have hdriven := c.output_driven hn
  simp only [Design.signals, List.mem_append] at hdriven ⊢
  tauto

end Circuit

end Clocked
