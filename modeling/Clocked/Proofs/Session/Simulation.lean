/-
Clocked.Proofs.Session.Simulation — a run computes the circuit's behaviour.

The main statement, `runAll_solves`: a circuit whose updates are in order, and
whose latches read signals that it produces, has exactly one solution of its
synchronous equations, and running it returns that solution.

What carries the proof over the cycles is `Shows V t`: after cycle `t` the store
holds the values of that cycle, and the output traces hold those of all cycles
up to it. Cycle 0 establishes it (`start_shows`), every further cycle keeps it
(`next_shows`), and so do all cycles in a row (`forM_next_shows`). A recording may
be on: `Sampled` says that its samples are the values in `V` (`runAll_sampled`).
-/
import Clocked.Proofs.Session.Steps

namespace Clocked

/-! ## 1. Output traces under way -/

/-- The trace of a signal of which the first `done` cycles are recorded. -/
def Trace.upTo (name : String) (length : Nat) (V : Nat → String → Bool) (done : Nat) : Trace :=
  .ofList name ((List.range length).map fun t => if t < done then V t name else false)

theorem Trace.upTo_zero (name : String) (length : Nat) (V : Nat → String → Bool) :
    upTo name length V 0 = zeros name length := by
  refine ext_toList rfl ?_
  rw [upTo, toList_ofList]
  simp [zeros, toList]

@[simp] theorem Trace.length_upTo (name : String) (length : Nat) (V : Nat → String → Bool)
    (done : Nat) : (upTo name length V done).length = length := by
  simp [upTo]

theorem Trace.at?_upTo (name : String) (length : Nat) (V : Nat → String → Bool) (done t : Nat) :
    (upTo name length V done).at? t =
      if t < length then some (if t < done then V t name else false) else none := by
  by_cases hl : t < length <;> simp [at?, upTo, ofList, hl]

/-- Recording one more cycle. -/
theorem Trace.put_upTo (name : String) (length : Nat) (V : Nat → String → Bool) (done : Nat) :
    (upTo name length V done).put done (V done name) = upTo name length V (done + 1) := by
  refine ext_toList rfl (List.ext_getElem? fun t => ?_)
  rw [← at?_eq_getElem?, ← at?_eq_getElem?, at?_put, at?_upTo, at?_upTo, length_upTo]
  by_cases hl : t < length
  · by_cases ht : t = done
    · subst ht
      rw [if_pos ⟨rfl, hl⟩, if_pos hl, if_pos (Nat.lt_succ_self t)]
    · have hiff : t < done + 1 ↔ t < done := by omega
      rw [if_neg (fun h => ht h.1)]
      simp only [hiff]
  · have hne : ¬ (t = done ∧ done < length) := by omega
    rw [if_neg hne, if_neg hl, if_neg hl]

/-- When all cycles are recorded the trace is the signal's wave. -/
theorem Trace.upTo_length (name : String) (length : Nat) (V : Nat → String → Bool) :
    upTo name length V length = .ofList name ((List.range length).map (V · name)) := by
  refine congrArg (ofList name) (List.map_congr_left fun t ht => ?_)
  rw [if_pos (List.mem_range.1 ht)]

/-! ## 2. Runs -/

namespace Run

/-- After cycle `t` the store holds the values of that cycle, and the output
traces those of all cycles so far. -/
structure Shows (c : Circuit) (V : Nat → String → Bool) (t : Nat) (r : Run) : Prop where
  lookup : ∀ n, r.store.lookup n = if n ∈ c.signals then some (V t n) else none
  keys : r.outputs.keys = c.outputs.eraseDups
  output : ∀ n, r.outputs.get? n =
    if n ∈ c.outputs then some (.upTo n c.length V (t + 1)) else none

theorem keys_blank (c : Circuit) : (blank c).outputs.keys = c.outputs.eraseDups := by
  rw [blank, Table.keys_ofList]
  simp [List.map_map, Function.comp_def]

theorem output_blank (c : Circuit) (V : Nat → String → Bool) (n : String) :
    (blank c).outputs.get? n = if n ∈ c.outputs then some (.upTo n c.length V 0) else none := by
  rw [blank, Table.get?_ofList_map (fun n => Trace.zeros n c.length), Trace.upTo_zero]

/-- The output traces have every cycle of the circuit. -/
theorem covers_of_output {c : Circuit} {V : Nat → String → Bool} {done t : Nat} {r : Run}
    (h : ∀ n, r.outputs.get? n = if n ∈ c.outputs then some (.upTo n c.length V done) else none)
    (ht : t < c.length) : Covers t r := by
  intro n tr htr
  rw [h] at htr
  split at htr
  · cases htr
    rwa [Trace.length_upTo]
  · cases htr

/-- A cycle that produces all signals shows them. -/
theorem Produces.shows {c : Circuit} {V : Nat → String → Bool} {t : Nat} {r r' : Run}
    (hp : Produces t c.signals (c.latchOutputs ++ c.updateOutputs) (V t) r r')
    (hstray : ∀ n, n ∉ c.signals → r.store.lookup n = none)
    (hkeys : r.outputs.keys = c.outputs.eraseDups)
    (hout : ∀ n, r.outputs.get? n =
      if n ∈ c.outputs then some (.upTo n c.length V t) else none) : Shows c V t r' where
  lookup := by
    intro n
    rw [hp.lookup]
    split
    · rfl
    · next hn => exact hstray n hn
  keys := hp.keys.trans hkeys
  output := by
    intro n
    rw [hp.output, hout]
    by_cases hn : n ∈ c.outputs
    · rw [if_pos (c.output_driven hn), if_pos hn, Option.map_some, Trace.put_upTo, if_pos hn]
    · simp [hn]

variable {c : Circuit} {V : Nat → String → Bool}

theorem Shows.lookup_of_mem {t : Nat} {r : Run} (h : Shows c V t r) {n : String}
    (hn : n ∈ c.signals) : r.store.lookup n = some (V t n) := by
  rw [h.lookup, if_pos hn]

/-- Every output is bound, as it is driven. -/
theorem Shows.output_bound {t : Nat} {r : Run} (h : Shows c V t r) :
    ∀ n ∈ c.outputs, (r.store.lookup n).isSome := by
  intro n hn
  rw [h.lookup_of_mem (c.output_mem_signals hn)]
  rfl

end Run

/-! ## 3. Sessions -/

namespace Session

open Attempt (bind_of_ok get_apply modify_apply check_ok pure_apply)

/-- A session without hook whose run shows `V` up to cycle `t`. -/
structure Shows (c : Circuit) (V : Nat → String → Bool) (t : Nat) (s : Session) : Prop where
  circuit : s.circuit = c
  hook : s.hook = none
  stimuli : s.stimuli = c.stimuli
  started : s.started
  upcoming : s.upcoming = t + 1
  run : s.run.Shows c V t

/-- What is recorded are the values in `V` of the watched signals, in the first
`k` cycles. -/
structure Sampled (V : Nat → String → Bool) (watch : Option (List String)) (k : Nat)
    (s : Session) : Prop where
  watched : s.watched = watch
  samples : ∀ names ∈ watch, s.recording.toList = (List.range k).map fun t =>
    ⟨.ofNat t, Table.ofList (names.map fun n => (n, V t n))⟩

variable {c : Circuit} {V : Nat → String → Bool} {watch : Option (List String)}

/-- What is logged does not matter. -/
theorem Shows.logged {t : Nat} {s : Session} (h : Shows c V t s)
    (log : Array (Log.Level × String)) : Shows c V t { s with log := log } :=
  ⟨h.circuit, h.hook, h.stimuli, h.started, h.upcoming, h.run⟩

/-- Taking the sample of a cycle. -/
theorem Shows.recordSample {t : Nat} {s : Session} (h : Shows c V t s)
    (hknown : ∀ names ∈ watch, ∀ n ∈ names, n ∈ c.signals) (hs : Sampled V watch t s) :
    ∃ recording, recordSample t s = (.ok (), { s with recording }) ∧
      Sampled V watch (t + 1) { s with recording } := by
  obtain hw | ⟨names, hw⟩ := Option.eq_none_or_eq_some watch
  · refine ⟨s.recording, recordSample_of_none (hs.watched.trans hw) t, hs.watched, ?_⟩
    rw [hw]
    nofun
  · have hvalues : ∀ n ∈ names, s.run.store.lookup n = some (V t n) :=
      fun n hn => h.run.lookup_of_mem (hknown names hw n hn)
    refine ⟨_, recordSample_of_some (hs.watched.trans hw) hvalues t, hs.watched, ?_⟩
    intro names' hnames'
    cases hw.symm.trans hnames'
    rw [Array.toList_push, hs.samples names hw, List.range_succ, List.map_append]
    rfl

/-- A cycle that shows its values is finished. -/
theorem Shows.finish {t : Nat} {s : Session} (h : Shows c V t s)
    (hknown : ∀ names ∈ watch, ∀ n ∈ names, n ∈ c.signals) (hs : Sampled V watch t s) :
    ∃ s', finishCycle t s = (.ok (), s') ∧ Shows c V t s' ∧ Sampled V watch (t + 1) s' := by
  have hbound : ∀ n ∈ s.circuit.outputs, (s.run.store.lookup n).isSome := by
    rw [h.circuit]
    exact h.run.output_bound
  obtain ⟨recording, hrecord, hs'⟩ := h.recordSample hknown hs
  obtain ⟨message, hfin⟩ := finishCycle_unhooked h.hook hrecord hbound
  exact ⟨_, hfin, ⟨h.circuit, h.hook, h.stimuli, h.started, h.upcoming, h.run⟩,
    hs'.watched, hs'.samples⟩

/-- Starting shows cycle 0. -/
theorem start_shows (hV : c.Solves V) (hord : c.Ordered)
    (hknown : ∀ names ∈ watch, ∀ n ∈ names, n ∈ c.signals) {s : Session}
    (hc : s.circuit = c) (hhook : s.hook = none) (hwatched : s.watched = watch)
    (hstim : s.stimuli = c.stimuli) :
    ∃ s', start s = (.ok (), s') ∧ Shows c V 0 s' ∧ Sampled V watch 1 s' := by
  subst hc
  have hcov : Run.Covers 0 (Run.blank s.circuit) :=
    Run.covers_of_output (V := V) (Run.output_blank s.circuit V) s.circuit.length_pos
  obtain ⟨r, hrun, hp⟩ := Run.firstCycle_ok (V 0) hord (hstim ▸ s.circuit.map_signal_stimuli)
    (hstim ▸ Circuit.stimulus_bit hV s.circuit.length_pos) hV.reset
    (hV.update 0 s.circuit.length_pos) hcov
  have hr : r.Shows s.circuit V 0 := hp.shows (fun _ _ => rfl) (Run.keys_blank s.circuit)
    (Run.output_blank s.circuit V)
  have hs : Shows s.circuit V 0 { s.restarted with run := r, upcoming := 1 } :=
    ⟨rfl, hhook, hstim, by simp [started, restarted], rfl, hr⟩
  -- the list of samples begins anew if there is one
  have hsampled : Sampled V watch 0 { s.restarted with run := r, upcoming := 1 } := by
    refine ⟨hwatched, fun names hnames => ?_⟩
    have hon : s.watched.isSome = true := by
      rw [hwatched, hnames]
      rfl
    simp [restarted, hon]
  obtain ⟨s', hfin, hs'⟩ := hs.finish hknown hsampled
  exact ⟨s', by rw [start_of_ok hrun, hfin], hs'⟩

/-- Going on shows the next cycle, if the circuit has it and the latches read
signals of the circuit. -/
theorem Shows.next_shows (hV : c.Solves V) (hord : c.Ordered)
    (hlatch : c.length = 1 ∨ ∀ l ∈ c.latches, l.input ∈ c.signals)
    (hknown : ∀ names ∈ watch, ∀ n ∈ names, n ∈ c.signals) {t : Nat} {s : Session}
    (h : Shows c V t s) (hsampled : Sampled V watch (t + 1) s) (ht : t + 1 < c.length) :
    ∃ s', next (.ofNat (t + 1)) s = (.ok (), s') ∧ Shows c V (t + 1) s' ∧
      Sampled V watch (t + 2) s' := by
  have hinputs : ∀ l ∈ c.latches, l.input ∈ c.signals := hlatch.resolve_left (by omega)
  obtain ⟨rfl, hhook, hstim, hstarted, hup, hrun⟩ := h
  have hbound : ∀ l ∈ s.circuit.latches,
      s.run.store.lookup l.input = some (V (t + 1) l.output) := by
    intro l hl
    rw [hV.latch t ht l hl]
    exact hrun.lookup_of_mem (hinputs l hl)
  have hcov : Run.Covers (t + 1) s.run := Run.covers_of_output hrun.output ht
  obtain ⟨r, hcycle, hp⟩ := Run.laterCycle_ok (V (t + 1)) hord
    (hstim ▸ s.circuit.map_signal_stimuli) (hstim ▸ Circuit.stimulus_bit hV ht) hbound
    (hV.update _ ht) hcov
  have hr : r.Shows s.circuit V (t + 1) := by
    refine hp.shows (fun n hn => ?_) hrun.keys hrun.output
    rw [Store.lookup_advance, hrun.lookup, if_neg hn]
  have hs : Shows s.circuit V (t + 1) { s with run := r, upcoming := s.upcoming + 1 } :=
    ⟨rfl, hhook, hstim, hstarted, by simp [hup], hr⟩
  obtain ⟨s', hfin, hs'⟩ := hs.finish hknown ⟨hsampled.watched, hsampled.samples⟩
  refine ⟨s', ?_, hs'⟩
  rw [← hup] at ht hcycle ⊢
  rw [next_of_ok hstarted ht hcycle, hup, ← hfin, hup]

/-- Cycle by cycle a run shows all of them. -/
theorem Shows.forM_next_shows (hV : c.Solves V) (hord : c.Ordered)
    (hlatch : c.length = 1 ∨ ∀ l ∈ c.latches, l.input ∈ c.signals)
    (hknown : ∀ names ∈ watch, ∀ n ∈ names, n ∈ c.signals) :
    ∀ (k t : Nat) (s : Session), Shows c V t s → Sampled V watch (t + 1) s → t + k < c.length →
      ∃ s', (List.range' (t + 1) k).forM (fun time => next (.ofNat time)) s = (.ok (), s') ∧
        Shows c V (t + k) s' ∧ Sampled V watch (t + k + 1) s'
  | 0, t, s, h, hs, _ => ⟨s, rfl, h, hs⟩
  | k + 1, t, s, h, hs, hk => by
    obtain ⟨s₁, hnext, h₁, hs₁⟩ := h.next_shows hV hord hlatch hknown hs (by omega)
    obtain ⟨s₂, hrest, h₂⟩ :=
      forM_next_shows hV hord hlatch hknown k (t + 1) s₁ h₁ hs₁ (by omega)
    refine ⟨s₂, ?_, by rwa [Nat.add_right_comm] at h₂⟩
    rw [List.range'_succ]
    show (next (.ofNat (t + 1)) >>= fun _ => _) s = _
    rw [bind_of_ok hnext, hrest]

/-- A run of all cycles shows and samples them, and returns the result. -/
theorem runAll_sampled (hV : c.Solves V) (hord : c.Ordered)
    (hlatch : c.length = 1 ∨ ∀ l ∈ c.latches, l.input ∈ c.signals)
    (hknown : ∀ names ∈ watch, ∀ n ∈ names, n ∈ c.signals) {s : Session}
    (hc : s.circuit = c) (hhook : s.hook = none) (hwatched : s.watched = watch)
    (hstim : s.stimuli = c.stimuli) :
    ∃ s', runAll s = (.ok s'.result, s') ∧ Shows c V (c.length - 1) s' ∧
      Sampled V watch c.length s' := by
  have hpos := c.length_pos
  obtain ⟨s₁, hstart, h₁, hs₁⟩ := start_shows hV hord hknown hc hhook hwatched hstim
  obtain ⟨s₂, hrest, h₂, hs₂⟩ :=
    h₁.forM_next_shows hV hord hlatch hknown (c.length - 1) 0 s₁ hs₁ (by omega)
  rw [Nat.zero_add] at h₂ hs₂ hrest
  rw [Nat.sub_add_cancel hpos] at hs₂
  rw [← h₁.circuit] at hrest
  obtain ⟨message, hrun⟩ := runAll_of_ok hstart hrest
  exact ⟨{ s₂ with log := s₂.log.push (.debug, message) }, hrun, h₂.logged _, hs₂.watched,
    hs₂.samples⟩

/-- Without a recording a run of all cycles just shows them. -/
theorem runAll_shows (hV : c.Solves V) (hord : c.Ordered)
    (hlatch : c.length = 1 ∨ ∀ l ∈ c.latches, l.input ∈ c.signals) {s : Session}
    (hc : s.circuit = c) (hhook : s.hook = none) (hwatched : s.watched = none)
    (hstim : s.stimuli = c.stimuli) :
    ∃ s', runAll s = (.ok s'.result, s') ∧ Shows c V (c.length - 1) s' := by
  have hknown : ∀ names ∈ (none : Option (List String)), ∀ n ∈ names, n ∈ c.signals := by simp
  obtain ⟨s', hrun, hs', -⟩ := runAll_sampled hV hord hlatch hknown hc hhook hwatched hstim
  exact ⟨s', hrun, hs'⟩

/-! ## 4. Results -/

/-- The output traces of a result just made are those of the run. -/
theorem resultOutputs_result (s : Session) :
    s.resultOutputs s.result =
      s.run.outputs.keys.filterMap fun n => (s.run.outputs.get? n).map (n, ·) := by
  have hrun : s.runAt? s.runNumber = some s.run := by simp [runAt?, runNumber]
  simp only [resultOutputs, result, hrun]

theorem Shows.signal_eq {t : Nat} {s : Session} (h : Shows c V t s) {n : String}
    (hn : n ∈ c.signals) : signal n s = (.ok (V t n), s) := by
  have hread : s.run.store.read n = .ok (V t n) :=
    Store.read_eq_ok_iff.2 (h.run.lookup_of_mem hn)
  unfold signal
  rw [bind_of_ok (get_apply s)]
  simp only [h.started, if_true, hread]
  exact check_ok (V t n) s

/-- The output traces after the last cycle are the waves of the outputs. -/
theorem Shows.resultOutputs_eq {s : Session} (h : Shows c V (c.length - 1) s) :
    s.resultOutputs s.result = c.outputs.eraseDups.map fun n =>
      (n, .ofList n ((List.range c.length).map (V · n))) := by
  have hdone : c.length - 1 + 1 = c.length := Nat.sub_add_cancel c.length_pos
  rw [resultOutputs_result, h.run.keys, ← List.filterMap_eq_map]
  refine List.filterMap_congr fun n hn => ?_
  rw [h.run.output, if_pos (List.mem_eraseDups.1 hn), hdone, Trace.upTo_length]
  rfl

/-- **A run computes the circuit's behaviour.** If the updates are in order and
the latches read signals of the circuit, the synchronous equations have one
solution `V`, the circuit runs through all its cycles, and it returns `V`: its
own stimuli as input traces, the wave of every declared output once, in order
of declaration, and afterwards every signal has its value of the last cycle. -/
theorem runAll_solves (c : Circuit) (hord : c.Ordered)
    (hlatch : c.length = 1 ∨ ∀ l ∈ c.latches, l.input ∈ c.signals) :
    ∃ V, c.Solves V ∧
      (∀ W, c.Solves W → ∀ t < c.length, ∀ n ∈ c.signals, W t n = V t n) ∧
      ∃ r s, runAll (ofCircuit c none) = (.ok r, s) ∧
        s.resultOutputs r = (c.outputs.eraseDups.map fun n =>
          (n, Trace.ofList n ((List.range c.length).map (V · n)))) ∧
        r.inputs = c.stimuli ∧ r.inputs.map (·.signal) = c.inputs ∧
        ∀ n ∈ c.signals, signal n s = (.ok (V (c.length - 1) n), s) := by
  have hV : c.Solves c.wave := c.solves_wave hord
  obtain ⟨s, hrun, hs⟩ := runAll_shows (s := ofCircuit c none) hV hord hlatch rfl rfl rfl rfl
  refine ⟨c.wave, hV, fun W hW => hW.unique hV hord hlatch, s.result, s, hrun,
    hs.resultOutputs_eq, hs.stimuli, ?_, fun n hn => hs.signal_eq hn⟩
  show s.stimuli.map (·.signal) = c.inputs
  rw [hs.stimuli, c.map_signal_stimuli]

/-- A circuit that counts pulses modulo 2; a second latch reads the first. -/
def pulseCounter : Circuit where
  name := "pulses"
  inputs := ["pulse"]
  outputs := ["odd", "carry", "before", "odd"]
  latches := [⟨"next", "odd"⟩, ⟨"odd", "before"⟩]
  updates := [
    ⟨"carry", .and () (.signal () "odd") (.signal () "pulse")⟩,
    ⟨"next", .and () (.or () (.signal () "odd") (.signal () "pulse"))
      (.not () (.signal () "carry"))⟩]
  stimuli := [.ofList "pulse" [true, true, false, true]]
  sound := by decide

theorem runAll_solves_pulseCounter :
    pulseCounter.Ordered ∧
      (pulseCounter.length = 1 ∨ ∀ l ∈ pulseCounter.latches, l.input ∈ pulseCounter.signals) ∧
      ∃ V, pulseCounter.Solves V ∧
        (∀ W, pulseCounter.Solves W →
          ∀ t < pulseCounter.length, ∀ n ∈ pulseCounter.signals, W t n = V t n) ∧
        ∃ r s, runAll (ofCircuit pulseCounter none) = (.ok r, s) ∧
          s.resultOutputs r = (pulseCounter.outputs.eraseDups.map fun n =>
            (n, Trace.ofList n ((List.range pulseCounter.length).map (V · n)))) ∧
          r.inputs = pulseCounter.stimuli ∧ r.inputs.map (·.signal) = pulseCounter.inputs ∧
          ∀ n ∈ pulseCounter.signals,
            signal n s = (.ok (V (pulseCounter.length - 1) n), s) := by
  have hord : pulseCounter.Ordered := by decide
  have hlatch : pulseCounter.length = 1 ∨
      ∀ l ∈ pulseCounter.latches, l.input ∈ pulseCounter.signals := by decide
  exact ⟨hord, hlatch, runAll_solves pulseCounter hord hlatch⟩

end Session

end Clocked
