/-
Clocked.Proofs.Run.Success — when a cycle goes well.

A cycle that goes well shows that the updates are in order
(`ordered_of_firstCycle`, `ordered_of_laterCycle`). The other way round, in an
ordered circuit cycle 0 always goes well, and a later cycle if the inputs of the
latches are bound, whatever other names the store holds (`firstCycle_success`,
`laterCycle_success`).

The stimuli need not be the circuit's own: it is enough that they fit it.
-/
import Clocked.Proofs.Run.Cycle

namespace Clocked

/-! ## 1. Values of a cycle -/

/-- The stimuli are for the inputs in order, and as long as the circuit's own. -/
structure Circuit.Fits (c : Circuit) (stimuli : List Trace) : Prop where
  signals : stimuli.map (·.signal) = c.inputs
  lengths : ∀ t ∈ stimuli, t.length = c.length

theorem Circuit.fits_stimuli (c : Circuit) : c.Fits c.stimuli :=
  ⟨c.map_signal_stimuli, fun _ ht => c.length_stimulus ht⟩

/-- Writing to a trace changes its values only. -/
theorem Trace.set_eq_ok {t t' : Trace} {time : Number} {v : Bool} (h : t.set time v = .ok t') :
    t'.signal = t.signal ∧ t'.length = t.length := by
  unfold set at h
  split at h
  · split at h
    · cases h
      exact ⟨t.signal_put _ v, t.length_put _ v⟩
    · cases h
  · cases h

variable {c : Circuit} {stimuli : List Trace} {time : Nat}

/-- A stimulus may be replaced by one for the same signal and of the same length. -/
theorem Circuit.Fits.set (h : c.Fits stimuli) {place : Nat} {t t' : Trace}
    (ht : stimuli[place]? = some t) (hsignal : t'.signal = t.signal)
    (hlength : t'.length = t.length) : c.Fits (stimuli.set place t') where
  signals := by
    obtain ⟨hlt, rfl⟩ := List.getElem?_eq_some_iff.1 ht
    rw [List.map_set, hsignal, ← List.map_set, List.set_getElem_self, h.signals]
  lengths := by
    intro u hu
    rcases List.mem_or_eq_of_mem_set hu with hu | rfl
    · exact h.lengths u hu
    · rw [hlength]
      exact h.lengths t (List.mem_of_getElem? ht)

/-- Over any state of the latches a cycle of an ordered circuit has values. -/
theorem Circuit.Fits.exists_values (h : c.Fits stimuli) (hord : c.Ordered) (ht : time < c.length)
    (state : String → Bool) :
    ∃ σ : String → Bool, (∀ s ∈ stimuli, s.at? time = some (σ s.signal)) ∧
      (∀ l ∈ c.latches, σ l.output = state l.output) ∧
      ∀ u ∈ c.updates, σ u.output = u.expr.value σ := by
  let d : Design := { c.toDesign with stimuli := stimuli }
  refine ⟨Update.settle c.updates (d.load time state), fun s hs => ?_, fun l hl => ?_,
    Update.settle_output (Design.ordered_iff.1 hord) c.signals_nodup⟩
  · have hin : s.signal ∈ c.inputs := h.signals ▸ List.mem_map_of_mem hs
    rw [c.settle_ready (List.mem_append_left _ hin)]
    exact Design.load_signal (h.signals ▸ c.inputs_nodup) hs (by rwa [h.lengths s hs]) state
  · rw [c.settle_ready (List.mem_append_right _ (List.mem_map_of_mem hl))]
    exact Design.load_of_not_mem (h.signals ▸ c.latchOutput_not_mem_inputs hl) time state

namespace Run

open Attempt (bind_eq_ok)

/-! ## 2. What success shows -/

theorem orderedFrom_of_performUpdates {ready : List String} {us : List Update} {r r' : Run}
    (h : performUpdates c time ready us r = (.ok (), r')) : Update.OrderedFrom ready us := by
  induction us generalizing ready r with
  | nil => trivial
  | cons u us ih =>
    by_cases hmiss : u.missing ready = []
    · rw [performUpdates, if_pos hmiss] at h
      obtain ⟨_, _, _, h₁⟩ := bind_eq_ok h
      obtain ⟨_, _, _, h₂⟩ := bind_eq_ok h₁
      obtain ⟨_, _, _, h₃⟩ := bind_eq_ok h₂
      obtain ⟨_, _, _, hrest⟩ := bind_eq_ok h₃
      exact ⟨missing_eq_nil_iff.1 hmiss, ih hrest⟩
    · rw [performUpdates_error hmiss] at h
      cases h

theorem ordered_of_performUpdates {r r' : Run}
    (h : performUpdates c time c.ready c.updates r = (.ok (), r')) : c.Ordered :=
  Design.ordered_iff.2 ((orderedFrom_of_performUpdates h).mono fun _ hn => mem_ready.1 hn)

theorem ordered_of_firstCycle {r r' : Run} (h : firstCycle c stimuli r = (.ok (), r')) :
    c.Ordered := by
  rw [firstCycle] at h
  obtain ⟨_, _, _, h₁⟩ := bind_eq_ok h
  obtain ⟨_, _, _, h₂⟩ := bind_eq_ok h₁
  exact ordered_of_performUpdates h₂

theorem ordered_of_laterCycle {r r' : Run} (h : laterCycle c stimuli time r = (.ok (), r')) :
    c.Ordered := by
  rw [laterCycle] at h
  obtain ⟨_, _, _, h₁⟩ := bind_eq_ok h
  obtain ⟨_, _, _, h₂⟩ := bind_eq_ok h₁
  obtain ⟨_, _, _, h₃⟩ := bind_eq_ok h₂
  obtain ⟨_, _, _, h₄⟩ := bind_eq_ok h₃
  obtain ⟨_, _, _, h₅⟩ := bind_eq_ok h₄
  exact ordered_of_performUpdates h₅

/-! ## 3. What makes for success -/

theorem covers_blank (c : Circuit) {k : Nat} (hk : k < c.length) : Covers k (blank c) := by
  intro n t ht
  rw [blank, Table.get?_ofList_map (fun n => Trace.zeros n c.length)] at ht
  split at ht
  · cases ht
    rwa [Trace.length_zeros]
  · cases ht

/-- Cycle 0 of an ordered circuit goes well, with the values of the inputs. -/
theorem firstCycle_values (h : c.Fits stimuli) (hord : c.Ordered) {r : Run} (hr : Covers 0 r) :
    ∃ σ r', (∀ s ∈ stimuli, s.at? 0 = some (σ s.signal)) ∧
      firstCycle c stimuli r = (.ok (), r') ∧
      Produces 0 c.signals (c.latchOutputs ++ c.updateOutputs) σ r r' := by
  obtain ⟨σ, hinput, hreset, hupdate⟩ :=
    h.exists_values hord c.length_pos fun _ => false
  obtain ⟨r', hrun, hp⟩ := firstCycle_ok σ hord h.signals hinput hreset hupdate hr
  exact ⟨σ, r', hinput, hrun, hp⟩

theorem firstCycle_success (h : c.Fits stimuli) (hord : c.Ordered) {r : Run} (hr : Covers 0 r) :
    ∃ σ r', firstCycle c stimuli r = (.ok (), r') ∧
      Produces 0 c.signals (c.latchOutputs ++ c.updateOutputs) σ r r' := by
  obtain ⟨σ, r', -, hrun, hp⟩ := firstCycle_values h hord hr
  exact ⟨σ, r', hrun, hp⟩

/-- A later cycle goes well over any values of the latches that the store can be sampled for;
what it produces depends on the stimuli and on these values only. -/
theorem laterCycle_values (h : c.Fits stimuli) (hord : c.Ordered) (ht : time < c.length)
    (state : String → Bool) :
    ∃ σ : String → Bool, (∀ s ∈ stimuli, s.at? time = some (σ s.signal)) ∧
      ∀ r : Run, (∀ l ∈ c.latches, r.store.lookup l.input = some (state l.input)) →
        Covers time r → ∃ r', laterCycle c stimuli time r = (.ok (), r') ∧
          Produces time c.signals (c.latchOutputs ++ c.updateOutputs) σ
            { r with store := r.store.advance } r' := by
  obtain ⟨σ, hinput, hstate, hupdate⟩ := h.exists_values hord ht (c.latched state)
  refine ⟨σ, hinput, fun r hlatch hr => ?_⟩
  refine laterCycle_ok σ hord h.signals hinput (fun l hl => ?_) hupdate hr
  rw [hlatch l hl, hstate l hl, c.latched_output hl]

/-- The value that each latch is going to sample. -/
theorem lookup_input_eq {r : Run} (hbound : ∀ l ∈ c.latches, l.input ∈ r.store.names) :
    ∀ l ∈ c.latches, r.store.lookup l.input = some ((r.store.lookup l.input).getD false) := by
  intro l hl
  obtain ⟨v, hv⟩ := Store.lookup_isSome_of_mem (hbound l hl)
  simp [hv]

theorem laterCycle_success (h : c.Fits stimuli) (hord : c.Ordered) (ht : time < c.length)
    {r : Run} (hbound : ∀ l ∈ c.latches, l.input ∈ r.store.names) (hr : Covers time r) :
    ∃ σ r', laterCycle c stimuli time r = (.ok (), r') ∧
      Produces time c.signals (c.latchOutputs ++ c.updateOutputs) σ
        { r with store := r.store.advance } r' := by
  obtain ⟨σ, -, hrun⟩ :=
    laterCycle_values h hord ht fun n => (r.store.lookup n).getD false
  exact ⟨σ, hrun r (lookup_input_eq hbound) hr⟩

/-- Latches one of which has an unbound input fail as a whole, over one of those inputs. Which
one depends on nothing but which of their inputs are bound. -/
theorem laterCycle_stray (bound : String → Prop) {l : Latch} (hl : l ∈ c.latches)
    (hunbound : ¬ bound l.input) (stimuli : List Trace) (time : Nat) :
    ∃ k ∈ c.latches, ¬ bound k.input ∧
      ∀ r : Run, (∀ m ∈ c.latches, m.input ∈ r.store.names ↔ bound m.input) →
        laterCycle c stimuli time r =
          (.error (.simulation (.unbound k.input)), { r with store := r.store.advance }) := by
  classical
  -- the first such latch is the one that fails
  obtain ⟨k, hk⟩ : ∃ k, c.latches.find? (fun k => ¬ bound k.input) = some k := by
    rw [← Option.isSome_iff_exists, List.find?_isSome]
    exact ⟨l, hl, by simpa using hunbound⟩
  obtain ⟨hkin, before, after, hsplit, hbefore⟩ := List.find?_eq_some_iff_append.1 hk
  have hk' : k ∈ c.latches := List.mem_of_find?_eq_some hk
  refine ⟨k, hk', by simpa using hkin, fun r hr => ?_⟩
  refine laterCycle_error stimuli time hsplit (fun m hm => ?_) ?_
  · have hm' : m ∈ c.latches := hsplit ▸ List.mem_append_left _ hm
    have hbound := hbefore m hm
    exact (r.store.lookup_isSome_iff _).2 ((hr m hm').2 (by simpa using hbound))
  · refine (Table.get?_eq_none_iff r.store.values k.input).2 fun hmem => ?_
    exact absurd ((hr k hk').1 hmem) (by simpa using hkin)

theorem laterCycle_unbound {r : Run} {l : Latch} (hl : l ∈ c.latches)
    (hunbound : l.input ∉ r.store.names) (stimuli : List Trace) (time : Nat) :
    ∃ k ∈ c.latches, k.input ∉ r.store.names ∧ laterCycle c stimuli time r =
      (.error (.simulation (.unbound k.input)), { r with store := r.store.advance }) := by
  obtain ⟨k, hk, hstray, hfail⟩ :=
    laterCycle_stray (· ∈ r.store.names) hl hunbound stimuli time
  exact ⟨k, hk, hstray, hfail r fun _ _ => Iff.rfl⟩

end Run

end Clocked
