/-
Clocked.Proofs.Circuit.Acceptance — which designs are circuits.

A design is checked three times: for names that are produced twice, for its stimuli,
and for outputs that nothing drives. Each check finds nothing exactly if a plain
property holds (`Proofs/Circuit/Soundness`); here stands what each of them reports
otherwise. The names of the first are `Repeats`: all that stand twice, in the order in
which they stand for the second time.

A description that is read gives its stimuli by name. Since none is for another signal
and no two are for the same one, their order does not matter
(`Circuit.ofDescription_perm`), and what is left to ask is `Description.Buildable`.
-/
import Mathlib.Data.Set.List
import Clocked.Proofs.Circuit.Behaviour
import Clocked.Proofs.Source.Notes

namespace Clocked

open Text (utf16)

/-! ## 1. Names that stand twice -/

/-- The names that stand at least twice in a list, each once, and ordered by where
they stand for the second time. -/
structure Repeats (xs names : List String) : Prop where
  mem_iff : ∀ x, x ∈ names ↔ 2 ≤ xs.count x
  nodup : names.Nodup
  /-- Some beginning of the list has the earlier name twice and the later one not yet. -/
  order : names.Pairwise fun x y =>
    ∃ before after, xs = before ++ after ∧ 2 ≤ before.count x ∧ before.count y < 2

namespace Design

/-- What is found behind some names stands there and had not stood twice before. -/
theorem mem_repeated {before xs : List String} {x : String} :
    x ∈ repeated before xs ↔ before.count x < 2 ∧ 2 ≤ before.count x + xs.count x := by
  induction xs generalizing before with
  | nil =>
    simp only [repeated, List.not_mem_nil, List.count_nil, false_iff]
    omega
  | cons y xs ih =>
    by_cases hxy : x = y
    · subst hxy
      by_cases hx : before.count x = 1 <;>
        simp only [repeated, hx, if_true, if_false, List.mem_cons, ih, List.count_cons_self]
      · simp only [true_or, true_iff]
        omega
      · omega
    · have hbefore : (y :: before).count x = before.count x := List.count_cons_of_ne (Ne.symm hxy)
      have hxs : (y :: xs).count x = xs.count x := List.count_cons_of_ne (Ne.symm hxy)
      by_cases hy : before.count y = 1 <;>
        simp only [repeated, hy, if_true, if_false, List.mem_cons, ih, hbefore, hxs, hxy, false_or]

theorem nodup_repeated {before xs : List String} : (repeated before xs).Nodup := by
  induction xs generalizing before with
  | nil => exact List.nodup_nil
  | cons x xs ih =>
    by_cases hx : before.count x = 1
    · rw [repeated, if_pos hx]
      refine List.nodup_cons.2 ⟨fun hmem => ?_, ih⟩
      have := (mem_repeated.1 hmem).1
      rw [List.count_cons_self] at this
      omega
    · rw [repeated, if_neg hx]
      exact ih

theorem pairwise_repeated {before xs : List String} :
    (repeated before xs).Pairwise fun x y => ∃ us vs, xs = us ++ vs ∧
      2 ≤ before.count x + us.count x ∧ before.count y + us.count y < 2 := by
  induction xs generalizing before with
  | nil => exact List.Pairwise.nil
  | cons z xs ih =>
    have hrest : (repeated (z :: before) xs).Pairwise fun x y => ∃ us vs, z :: xs = us ++ vs ∧
        2 ≤ before.count x + us.count x ∧ before.count y + us.count y < 2 := by
      refine ih.imp fun ⟨us, vs, heq, hx, hy⟩ => ⟨z :: us, vs, by rw [heq]; rfl, ?_, ?_⟩ <;>
        simp only [List.count_cons] at hx hy ⊢ <;> omega
    by_cases hz : before.count z = 1
    · rw [repeated, if_pos hz]
      refine List.pairwise_cons.2 ⟨fun y hy => ⟨[z], xs, rfl, ?_, ?_⟩, hrest⟩
      · simp [hz]
      · have := (mem_repeated.1 hy).1
        simp only [List.count_cons, List.count_nil] at this ⊢
        omega
    · rw [repeated, if_neg hz]
      exact hrest

theorem repeats_repeated (xs : List String) : Repeats xs (repeated [] xs) where
  mem_iff x := by simp [mem_repeated]
  nodup := nodup_repeated
  order := pairwise_repeated.imp fun ⟨us, vs, heq, hx, hy⟩ =>
    ⟨us, vs, heq, by simpa using hx, by simpa using hy⟩

/-! ## 2. What a design is refused for -/

/-- There are inputs, each has its stimulus at its place, and all stimuli are of one
length, which is not 0. -/
def Stimulated (d : Design) : Prop :=
  d.inputs ≠ [] ∧ d.stimuli.map (·.signal) = d.inputs ∧
    ∃ n, 0 < n ∧ ∀ t ∈ d.stimuli, t.length = n

/-- A latch or an update drives the signal. -/
def Drives (d : Design) (n : String) : Prop := n ∈ d.latchOutputs ∨ n ∈ d.updateOutputs

instance (d : Design) (n : String) : Decidable (d.Drives n) := by
  unfold Drives
  infer_instance

theorem stimulusFault?_eq_none_iff_stimulated {d : Design} :
    d.stimulusFault? = none ↔ d.Stimulated := by
  rw [stimulusFault?_eq_none_iff]
  constructor
  · rintro ⟨hin, hsignals, hpos, hlength⟩
    exact ⟨hin, hsignals, d.length, hpos, hlength⟩
  · rintro ⟨hin, hsignals, n, hpos, hlength⟩
    obtain ⟨t, ts, hts⟩ : ∃ t ts, d.stimuli = t :: ts := by
      refine List.exists_cons_of_ne_nil fun hnil => hin ?_
      rw [← hsignals, hnil, List.map_nil]
    have hn : d.length = n := by
      rw [length, hts]
      exact hlength t (hts ▸ List.mem_cons_self)
    exact ⟨hin, hsignals, hn ▸ hpos, fun t ht => hn ▸ hlength t ht⟩

theorem producedFault?_of_not_nodup {d : Design} (h : ¬ d.signals.Nodup) :
    ∃ e, d.producedFault? = some e ∧ e.kind = "namespace" ∧ Repeats d.signals e.signals := by
  have hsome : repeated [] d.signals ≠ [] := by
    rw [Ne, repeated_eq_nil_iff d.signals List.nodup_nil]
    simpa using h
  obtain ⟨x, names, hnames⟩ := List.exists_cons_of_ne_nil hsome
  refine ⟨.producedTwice (repeated [] d.signals), ?_, rfl, repeats_repeated d.signals⟩
  rw [producedFault?, hnames]

theorem mismatch?_kind {place : Nat} {ts : List Trace} {is : List String} {e : SimulationError}
    (h : mismatch? place ts is = some e) : e.kind = "stimulus-shape" := by
  induction ts generalizing place is with
  | nil =>
    rw [mismatch?] at h
    · cases h
    · intro _ _ _ _ hcons
      cases hcons
  | cons t ts ih =>
    cases is with
    | nil => cases h
    | cons i is =>
      rw [mismatch?] at h
      split at h
      · exact ih h
      · cases h
        rfl

theorem lengthFault?_kind {ts : List Trace} {e : SimulationError}
    (h : lengthFault? ts = some e) : e.kind = "stimulus-shape" := by
  cases ts with
  | nil => cases h
  | cons t ts =>
    rw [lengthFault?] at h
    split at h
    · cases h
      rfl
    · obtain ⟨u, -, rfl⟩ := Option.map_eq_some_iff.1 h
      rfl

theorem stimulusFault?_kind {d : Design} {e : SimulationError} (h : d.stimulusFault? = some e) :
    e.kind = "stimulus-shape" := by
  unfold stimulusFault? at h
  split at h
  · cases h
    rfl
  · split at h
    · cases h
      rfl
    · rcases Option.or_eq_some_iff.1 h with h | ⟨-, h⟩
      · exact mismatch?_kind h
      · exact lengthFault?_kind h

theorem outputFault?_of_not_driven {d : Design} (h : ¬ ∀ n ∈ d.outputs, d.Drives n) :
    ∃ e, d.outputFault? = some e ∧ e.kind = "undriven-output" ∧
      e.signals = d.outputs.filter fun n => ¬ d.Drives n := by
  have hundriven : d.undriven = d.outputs.filter fun n => ¬ d.Drives n := by
    refine List.filter_congr fun n _ => ?_
    simp [Drives, Bool.and_comm]
  obtain ⟨n, hn, hdrives⟩ : ∃ n ∈ d.outputs, ¬ d.Drives n := by simpa using h
  obtain ⟨x, names, hnames⟩ : ∃ x names, d.undriven = x :: names := by
    refine List.exists_cons_of_ne_nil (List.ne_nil_of_mem (a := n) ?_)
    rw [hundriven]
    exact List.mem_filter.2 ⟨hn, by simpa using hdrives⟩
  refine ⟨.undrivenOutputs d.undriven, ?_, rfl, hundriven⟩
  rw [outputFault?, hnames]

end Design

namespace Circuit

theorem exists_ofDesign_iff {d : Design} :
    (∃ c, ofDesign d = .ok c) ↔
      d.signals.Nodup ∧ d.Stimulated ∧ ∀ n ∈ d.outputs, d.Drives n := by
  rw [← Design.producedFault?_eq_none_iff, ← Design.stimulusFault?_eq_none_iff_stimulated]
  have houtputs : (∀ n ∈ d.outputs, d.Drives n) ↔ d.outputFault? = none :=
    Design.outputFault?_eq_none_iff.symm
  rw [houtputs, ← Design.fault?_eq_none_iff]
  constructor
  · rintro ⟨c, hc⟩
    rw [← ofDesign_eq_ok_iff.1 hc]
    exact c.sound
  · intro h
    exact ⟨⟨d, h⟩, ofDesign_eq_ok_iff.2 rfl⟩

end Circuit

/-! ## 3. Descriptions that are read -/

namespace Description

/-- The description is what is read of some source, be it a text or a row of units. -/
inductive IsRead : Description Location → Prop
  | ofText {text : String} {d : Description Location} (h : ofText text = .ok d) : IsRead d
  | ofUnits {source : List UInt16} {d : Description Location} (h : ofUnits source = .ok d) :
      IsRead d

theorem IsRead.exists_units {d : Description Location} (h : IsRead d) :
    ∃ source, Description.ofUnits source = .ok d := by
  cases h with
  | ofUnits h => exact ⟨_, h⟩
  | @ofText text _ h =>
    refine ⟨utf16 text.toList, ?_⟩
    have hsame := ofText_eq_ofUnits text
    rw [h] at hsame
    cases hunits : Description.ofUnits (utf16 text.toList) with
    | error e =>
      rw [hunits] at hsame
      cases hsame
    | ok d' =>
      rw [hunits] at hsame
      cases hsame
      rfl

/-- A stimulus that is read has a value, since bits are no empty token. -/
theorem IsText.values_ne_nil {source : List UInt16} {k : Nat} {ts : List (Token Location)}
    {d : Description Location} (h : IsText ts d) (hcovers : Covers source k ts) :
    ∀ s ∈ d.stimuli, s.values ≠ [] := by
  have hvalues : (d.stimuli.flatMap fun s => [s.values]).Sublist (ts.filterMap fun t =>
      if t.kind = .bits then some (t.text.toList.map (· == '1')) else none) :=
    h.stimuli_sublist fun _ _ s hs => by
      cases hs with
      | mk hi hq hb hle => simp [hi, hq, hb]
  intro s hs hnil
  have hmem : s.values ∈ d.stimuli.flatMap fun s => [s.values] :=
    List.mem_flatMap.2 ⟨s, hs, List.mem_singleton_self _⟩
  obtain ⟨t, ht, hbits⟩ := List.mem_filterMap.1 (hvalues.subset hmem)
  obtain ⟨init, rfl, hproper⟩ := hcovers.last
  obtain ⟨hkind, heq⟩ : t.kind = .bits ∧ t.text.toList.map (· == '1') = s.values := by
    simpa [Option.ite_none_right_eq_some] using hbits
  rcases List.mem_append.1 ht with ht | ht
  · have htext : t.text.toList = [] := List.map_eq_nil_iff.1 (heq.trans hnil)
    exact (hproper t ht).2 (by simpa using htext)
  · rw [List.mem_singleton.1 ht] at hkind
    cases hkind

theorem StimuliFit.perm {α : Type} {d : Description α} (h : StimuliFit d)
    {stimuli : List (StimulusLine α)} (hperm : stimuli.Perm d.stimuli) :
    StimuliFit { d with stimuli } :=
  ⟨fun s hs => h.1 s (hperm.mem_iff.1 hs), (hperm.map _).nodup_iff.2 h.2⟩

/-- What makes a description that is read a circuit's. -/
structure Buildable {α : Type} (d : Description α) : Prop where
  /-- Nothing is produced twice. -/
  single : (d.inputs ++ d.latches.map (·.output) ++ d.updates.map (·.output)).Nodup
  driven : ∀ n ∈ d.outputs, n ∈ d.latches.map (·.output) ∨ n ∈ d.updates.map (·.output)
  inputs : d.inputs ≠ []
  given : ∀ n ∈ d.inputs, ∃ s ∈ d.stimuli, s.signal = n
  even : ∀ s ∈ d.stimuli, ∀ t ∈ d.stimuli, s.values.length = t.values.length

end Description

open Description (StimuliFit)

section Lists

variable {α β ε : Type}

theorem mapM_eq_ok_iff {f : α → Except ε β} {xs : List α} {ys : List β} :
    xs.mapM f = .ok ys ↔ xs.map f = ys.map .ok := by
  induction xs generalizing ys with
  | nil => cases ys <;> simp [pure, Except.pure]
  | cons x xs ih =>
    rw [List.mapM_cons, List.map_cons]
    constructor
    · intro h
      cases hx : f x with
      | error e =>
        rw [hx] at h
        cases h
      | ok y =>
        rw [hx] at h
        cases hxs : xs.mapM f with
        | error e =>
          rw [hxs] at h
          cases h
        | ok zs =>
          rw [hxs] at h
          cases h
          rw [ih.1 hxs, List.map_cons]
    · intro h
      obtain ⟨y, zs, rfl, hx, hxs⟩ := List.map_eq_cons_iff.1 h.symm
      rw [← hx, ih.2 hxs.symm]
      rfl

theorem exists_mapM_eq_ok_iff {f : α → Except ε β} {xs : List α} :
    (∃ ys, xs.mapM f = .ok ys) ↔ ∀ x ∈ xs, ∃ y, f x = .ok y := by
  have hrange :=
    Set.ext_iff.1 (Set.range_list_map (Except.ok : β → Except ε β)) (xs.map f)
  rw [Set.mem_ofPred_eq, List.forall_mem_map] at hrange
  calc (∃ ys, xs.mapM f = .ok ys)
      ↔ ∃ ys : List β, ys.map Except.ok = xs.map f :=
        exists_congr fun ys => mapM_eq_ok_iff.trans eq_comm
    _ ↔ ∀ x ∈ xs, f x ∈ Set.range (Except.ok : β → Except ε β) := hrange
    _ ↔ ∀ x ∈ xs, ∃ y, f x = .ok y := forall₂_congr fun x _ => exists_congr fun y => eq_comm

end Lists

namespace Design

variable {α : Type} {d : Description α}

/-- The design of a description, with the stimuli of its inputs. -/
def ofParts (d : Description α) (stimuli : List Trace) : Design where
  name := d.name
  inputs := d.inputs
  outputs := d.outputs
  latches := d.latches.map (·.toLatch)
  updates := d.updates.map (·.toUpdate)
  stimuli := stimuli

theorem ofDescription_eq_map (hfit : StimuliFit d) :
    ofDescription d = (d.inputs.mapM (stimulusFor d)).map (ofParts d) := by
  have hstray : d.stimuli.find? (·.signal ∉ d.inputs) = none := by
    simpa using hfit.1
  rw [ofDescription, hstray]
  rfl

theorem stimulusFor_of_mem (hfit : StimuliFit d) {s : Description.StimulusLine α}
    (hs : s ∈ d.stimuli) : stimulusFor d s.signal = .ok (.ofList s.signal s.values) := by
  have hnd : (d.stimuli.reverse.map (·.signal)).Nodup := by
    rw [List.map_reverse]
    exact List.nodup_reverse.2 hfit.2
  have hfind := find?_key hnd (List.mem_reverse.2 hs)
  rw [stimulusFor, List.findRev?_eq_find?_reverse, hfind]

theorem stimulusFor_of_notMem {n : String} (hn : n ∉ d.stimuli.map (·.signal)) :
    stimulusFor d n = .error (.missingStimulus n) := by
  have hnone : d.stimuli.reverse.find? (·.signal = n) = none := by
    simpa using hn
  rw [stimulusFor, List.findRev?_eq_find?_reverse, hnone]

theorem exists_stimulusFor_iff (hfit : StimuliFit d) {n : String} :
    (∃ t, stimulusFor d n = .ok t) ↔ ∃ s ∈ d.stimuli, s.signal = n := by
  constructor
  · rintro ⟨t, ht⟩
    by_contra hnone
    have hn : n ∉ d.stimuli.map (·.signal) := by simpa using hnone
    rw [stimulusFor_of_notMem hn] at ht
    cases ht
  · rintro ⟨s, hs, rfl⟩
    exact ⟨_, stimulusFor_of_mem hfit hs⟩

/-- The stimuli of the inputs are those of the description. -/
theorem mem_iff_of_mapM (hfit : StimuliFit d) {ts : List Trace}
    (hts : d.inputs.mapM (stimulusFor d) = .ok ts) {t : Trace} :
    t ∈ ts ↔ ∃ s ∈ d.stimuli, Trace.ofList s.signal s.values = t := by
  have hmap := mapM_eq_ok_iff.1 hts
  constructor
  · intro ht
    have hok : Except.ok t ∈ d.inputs.map (stimulusFor d) := hmap ▸ List.mem_map_of_mem ht
    obtain ⟨n, -, hn⟩ := List.mem_map.1 hok
    obtain ⟨s, hs, rfl⟩ := (exists_stimulusFor_iff hfit).1 ⟨t, hn⟩
    rw [stimulusFor_of_mem hfit hs] at hn
    exact ⟨s, hs, Except.ok.inj hn⟩
  · rintro ⟨s, hs, rfl⟩
    have hok : stimulusFor d s.signal ∈ ts.map Except.ok :=
      hmap ▸ List.mem_map_of_mem (hfit.1 s hs)
    rw [stimulusFor_of_mem hfit hs] at hok
    obtain ⟨t, ht, heq⟩ := List.mem_map.1 hok
    rwa [← Except.ok.inj heq]

theorem map_signal_of_mapM (hfit : StimuliFit d) {ts : List Trace}
    (hts : d.inputs.mapM (stimulusFor d) = .ok ts) : ts.map (·.signal) = d.inputs := by
  have hmap := mapM_eq_ok_iff.1 hts
  have hsignal : ∀ n t, stimulusFor d n = .ok t → t.signal = n := by
    intro n t hn
    obtain ⟨s, hs, rfl⟩ := (exists_stimulusFor_iff hfit).1 ⟨t, hn⟩
    rw [stimulusFor_of_mem hfit hs] at hn
    rw [← Except.ok.inj hn]
    rfl
  rw [← List.forall₂_eq_eq_eq, List.forall₂_map_left_iff, List.forall₂_map_right_iff] at hmap
  rw [← List.forall₂_eq_eq_eq, List.forall₂_map_left_iff]
  exact (hmap.imp hsignal).flip

theorem stimulated_ofParts_iff (hfit : StimuliFit d) (hvalues : ∀ s ∈ d.stimuli, s.values ≠ [])
    {ts : List Trace} (hts : d.inputs.mapM (stimulusFor d) = .ok ts) :
    (ofParts d ts).Stimulated ↔
      d.inputs ≠ [] ∧ ∀ s ∈ d.stimuli, ∀ t ∈ d.stimuli, s.values.length = t.values.length := by
  have hlength : ∀ s : Description.StimulusLine α,
      (Trace.ofList s.signal s.values).length = s.values.length := fun s => by
    simp [Trace.length, Trace.ofList]
  constructor
  · rintro ⟨hinputs, -, n, -, hn⟩
    refine ⟨hinputs, fun s hs t ht => ?_⟩
    have hs := hn _ ((mem_iff_of_mapM hfit hts).2 ⟨s, hs, rfl⟩)
    have ht := hn _ ((mem_iff_of_mapM hfit hts).2 ⟨t, ht, rfl⟩)
    rw [← hlength, ← hlength, hs, ht]
  · rintro ⟨hinputs, heven⟩
    have hsignals := map_signal_of_mapM hfit hts
    obtain ⟨t, ht⟩ : ∃ t, t ∈ ts := by
      refine List.exists_mem_of_ne_nil ts fun hnil => hinputs ?_
      rw [← hsignals, hnil, List.map_nil]
    obtain ⟨s, hs, rfl⟩ := (mem_iff_of_mapM hfit hts).1 ht
    refine ⟨hinputs, hsignals, s.values.length, List.length_pos_iff.2 (hvalues s hs), ?_⟩
    intro t' ht'
    obtain ⟨s', hs', rfl⟩ := (mem_iff_of_mapM hfit hts).1 ht'
    rw [hlength]
    exact heven s' hs' s hs

theorem stimulusFor_perm (hfit : StimuliFit d) {stimuli : List (Description.StimulusLine α)}
    (hperm : stimuli.Perm d.stimuli) : stimulusFor { d with stimuli } = stimulusFor d := by
  funext n
  by_cases hn : n ∈ d.stimuli.map (·.signal)
  · obtain ⟨s, hs, rfl⟩ := List.mem_map.1 hn
    rw [stimulusFor_of_mem hfit hs]
    exact stimulusFor_of_mem (d := { d with stimuli }) (hfit.perm hperm) (hperm.mem_iff.2 hs)
  · rw [stimulusFor_of_notMem hn]
    exact stimulusFor_of_notMem fun hmem => hn ((hperm.map _).mem_iff.1 hmem)

end Design

namespace Circuit

variable {α : Type} {d : Description α}

/-- For stimuli that fit, their order does not matter. -/
theorem ofDescription_perm (hfit : StimuliFit d) {stimuli : List (Description.StimulusLine α)}
    (hperm : stimuli.Perm d.stimuli) :
    ofDescription { d with stimuli } = ofDescription d := by
  rw [ofDescription, ofDescription, Design.ofDescription_eq_map hfit,
    Design.ofDescription_eq_map (hfit.perm hperm), Design.stimulusFor_perm hfit hperm]
  rfl

theorem exists_ofDescription_iff (hfit : StimuliFit d) (hvalues : ∀ s ∈ d.stimuli, s.values ≠ []) :
    (∃ c, ofDescription d = .ok c) ↔ d.Buildable := by
  have hgiven : (∃ ts, d.inputs.mapM (Design.stimulusFor d) = .ok ts) ↔
      ∀ n ∈ d.inputs, ∃ s ∈ d.stimuli, s.signal = n := by
    simp only [exists_mapM_eq_ok_iff, Design.exists_stimulusFor_iff hfit]
  rw [ofDescription, Design.ofDescription_eq_map hfit]
  cases hts : d.inputs.mapM (Design.stimulusFor d) with
  | error e =>
    refine ⟨fun ⟨c, hc⟩ => (nomatch hc), fun h => ?_⟩
    obtain ⟨ts, hok⟩ := hgiven.2 h.given
    rw [hts] at hok
    cases hok
  | ok ts =>
    have hdesign : (∃ c, ofDesign (Design.ofParts d ts) = .ok c) ↔ _ := exists_ofDesign_iff
    rw [Design.stimulated_ofParts_iff hfit hvalues hts] at hdesign
    refine hdesign.trans ?_
    have hlatches : (Design.ofParts d ts).latchOutputs = d.latches.map (·.output) := List.map_map
    have hupdates : (Design.ofParts d ts).updateOutputs = d.updates.map (·.output) := List.map_map
    unfold Design.signals Design.Drives
    rw [hlatches, hupdates]
    constructor
    · rintro ⟨hsingle, ⟨hinputs, heven⟩, hdriven⟩
      exact ⟨hsingle, hdriven, hinputs, hgiven.1 ⟨ts, hts⟩, heven⟩
    · rintro ⟨hsingle, hdriven, hinputs, -, heven⟩
      exact ⟨hsingle, ⟨hinputs, heven⟩, hdriven⟩

/-- **Which circuits are built.** A design is a circuit exactly if its signals are distinct,
its stimuli fit and its outputs are driven, and otherwise the first of these that fails is
reported. A description that is read is a circuit's exactly if it is buildable, and the
order of its stimuli does not matter. -/
theorem accepted_iff :
    (∀ d : Design,
      ((∃ c, ofDesign d = .ok c) ↔
        d.signals.Nodup ∧ d.Stimulated ∧ ∀ n ∈ d.outputs, d.Drives n) ∧
      (∀ c, ofDesign d = .ok c → c.toDesign = d) ∧
      (¬ d.signals.Nodup →
        ∃ e, ofDesign d = .error e ∧ e.kind = "namespace" ∧ Repeats d.signals e.signals) ∧
      (d.signals.Nodup → ¬ d.Stimulated →
        ∃ e, ofDesign d = .error e ∧ e.kind = "stimulus-shape") ∧
      (d.signals.Nodup → d.Stimulated → (¬ ∀ n ∈ d.outputs, d.Drives n) →
        ∃ e, ofDesign d = .error e ∧ e.kind = "undriven-output" ∧
          e.signals = d.outputs.filter fun n => ¬ d.Drives n)) ∧
    ∀ d : Description Location, d.IsRead →
      ((∃ c, ofDescription d = .ok c) ↔ d.Buildable) ∧
      ∀ stimuli : List (Description.StimulusLine Location), stimuli.Perm d.stimuli →
        ofDescription { d with stimuli } = ofDescription d := by
  refine ⟨fun d => ⟨exists_ofDesign_iff, fun c => ofDesign_eq_ok_iff.1, ?_, ?_, ?_⟩, fun d hd => ?_⟩
  · intro hsignals
    obtain ⟨e, he, hkind, hrepeats⟩ := Design.producedFault?_of_not_nodup hsignals
    exact ⟨e, ofDesign_of_fault (by rw [Design.fault?, he]; rfl), hkind, hrepeats⟩
  · intro hsignals hstimuli
    have hproduced := Design.producedFault?_eq_none_iff.2 hsignals
    obtain ⟨e, he⟩ : ∃ e, d.stimulusFault? = some e := by
      rwa [← Design.stimulusFault?_eq_none_iff_stimulated, ← Ne,
        Option.ne_none_iff_exists'] at hstimuli
    exact ⟨e, ofDesign_of_fault (by rw [Design.fault?, hproduced, he]; rfl),
      Design.stimulusFault?_kind he⟩
  · intro hsignals hstimuli houtputs
    have hproduced := Design.producedFault?_eq_none_iff.2 hsignals
    have hstimulated := Design.stimulusFault?_eq_none_iff_stimulated.2 hstimuli
    obtain ⟨e, he, hkind, hundriven⟩ := Design.outputFault?_of_not_driven houtputs
    exact ⟨e, ofDesign_of_fault (by rw [Design.fault?, hproduced, hstimulated, he]; rfl), hkind,
      hundriven⟩
  · obtain ⟨source, hsource⟩ := hd.exists_units
    obtain ⟨ts, -, hcovers, htext, hfit⟩ := Description.exists_isText_of_ofUnits hsource
    exact ⟨exists_ofDescription_iff hfit (htext.values_ne_nil hcovers), fun _ hperm =>
      ofDescription_perm hfit hperm⟩

/-- Two inputs for one gate. -/
def gate : Design where
  name := "gate"
  inputs := ["a", "b"]
  outputs := ["x"]
  latches := []
  updates := [⟨"x", .and () (.signal () "a") (.signal () "b")⟩]
  stimuli := [.ofList "a" [true, true], .ofList "b" [false, true]]

/-- Two latches more, for what an input and what the update produce. -/
def doubleGate : Design := { gate with latches := [⟨"b", "x"⟩, ⟨"x", "a"⟩] }

/-- One stimulus less. -/
def silentGate : Design := { gate with stimuli := [.ofList "a" [true, true]] }

/-- Two outputs more, of which one is an input and the other nothing at all. -/
def looseGate : Design := { gate with outputs := ["b", "x", "y"] }

theorem accepted_iff_gates :
    (¬ doubleGate.signals.Nodup ∧ ∃ e, ofDesign doubleGate = .error e ∧ e.kind = "namespace" ∧
      Repeats doubleGate.signals e.signals) ∧
    (silentGate.signals.Nodup ∧ ¬ silentGate.Stimulated ∧
      ∃ e, ofDesign silentGate = .error e ∧ e.kind = "stimulus-shape") ∧
    (looseGate.signals.Nodup ∧ looseGate.Stimulated ∧
      (¬ ∀ n ∈ looseGate.outputs, looseGate.Drives n) ∧
      ∃ e, ofDesign looseGate = .error e ∧ e.kind = "undriven-output" ∧
        e.signals = looseGate.outputs.filter fun n => ¬ looseGate.Drives n) ∧
    Description.guardedLatchRead.IsRead ∧
      ((∃ c, ofDescription Description.guardedLatchRead = .ok c) ↔
        Description.guardedLatchRead.Buildable) ∧
      ofDescription { Description.guardedLatchRead with
          stimuli := Description.guardedLatchRead.stimuli.reverse } =
        ofDescription Description.guardedLatchRead := by
  have hdouble : ¬ doubleGate.signals.Nodup := by decide
  have hsilent : silentGate.signals.Nodup := by decide
  have hunfit : ¬ silentGate.Stimulated :=
    Design.stimulusFault?_eq_none_iff_stimulated.not.1 (by decide)
  have hloose : looseGate.signals.Nodup := by decide
  have hfit : looseGate.Stimulated := Design.stimulusFault?_eq_none_iff_stimulated.1 (by decide)
  have hundriven : ¬ ∀ n ∈ looseGate.outputs, looseGate.Drives n := by decide
  have htext : Description.ofText Description.guardedLatch = .ok Description.guardedLatchRead := by
    decide +kernel
  have hread : Description.guardedLatchRead.IsRead := .ofText htext
  obtain ⟨-, -, hnamespace, -, -⟩ := accepted_iff.1 doubleGate
  obtain ⟨-, -, -, hshape, -⟩ := accepted_iff.1 silentGate
  obtain ⟨-, -, -, -, houtputs⟩ := accepted_iff.1 looseGate
  obtain ⟨hbuilt, horder⟩ := accepted_iff.2 _ hread
  exact ⟨⟨hdouble, hnamespace hdouble⟩, ⟨hsilent, hunfit, hshape hsilent hunfit⟩,
    ⟨hloose, hfit, hundriven, houtputs hloose hfit hundriven⟩, hread, hbuilt,
    horder _ (List.reverse_perm _)⟩

end Circuit

end Clocked
