/-
Clocked.Proofs.Session.Order — levels, loops and runs tell the same about order.

Starting a run makes a first pass over the updates, and fails over their order
exactly when they are out of order (`start_failsByOrder_iff`), whatever the hook:
what can fail behind the pass is of another kind (`finishCycle_error`).

`levels_agree` compares this with the analysis: all updates have levels exactly
when some order of them passes, which they do level by level, and exactly when
there is neither a loop nor a signal that nothing produces.
-/
import Clocked.Proofs.Circuit.Levels
import Clocked.Proofs.Run.Success
import Clocked.Proofs.Session.Hooks
import Clocked.Proofs.Session.Outcome

namespace Clocked

/-! ## 1. Errors of reading -/

section Reading

variable {α β ε : Type} {e : ε}

theorem mapM_eq_error {f : α → Except ε β} {xs : List α} (h : xs.mapM f = .error e) :
    ∃ x ∈ xs, f x = .error e := by
  induction xs with
  | nil => cases h
  | cons x xs ih =>
    rw [List.mapM_cons] at h
    cases hx : f x with
    | error e' =>
      rw [hx] at h
      cases h
      exact ⟨x, List.mem_cons_self, hx⟩
    | ok y =>
      rw [hx] at h
      cases hxs : xs.mapM f with
      | error e' =>
        rw [hxs] at h
        cases h
        obtain ⟨x', hx', he⟩ := ih hxs
        exact ⟨x', List.mem_cons_of_mem x hx', he⟩
      | ok ys =>
        rw [hxs] at h
        cases h

theorem foldlM_eq_error {f : β → α → Except ε β} {xs : List α} {b : β}
    (h : xs.foldlM f b = .error e) : ∃ b', ∃ x ∈ xs, f b' x = .error e := by
  induction xs generalizing b with
  | nil => cases h
  | cons x xs ih =>
    rw [List.foldlM_cons] at h
    cases hx : f b x with
    | error e' =>
      rw [hx] at h
      cases h
      exact ⟨b, x, List.mem_cons_self, hx⟩
    | ok b' =>
      rw [hx] at h
      obtain ⟨b'', x', hx', he⟩ := ih h
      exact ⟨b'', x', List.mem_cons_of_mem x hx', he⟩

/-- Reading a store fails over signals that have no value. -/
theorem Store.eq_unbound_of_map_read {s : Store} {n : String} {e : SimulationError} {f : Bool → β}
    (h : (s.read n).map f = .error e) : e = .unbound n := by
  cases hread : s.read n with
  | ok v =>
    rw [hread] at h
    cases h
  | error e' =>
    rw [hread] at h
    cases h
    exact (Store.read_eq_error_iff.1 hread).2

end Reading

namespace Session

open Attempt (bind_of_ok bind_eq_error get_apply)

variable {c : Circuit} {s s' : Session} {time : Nat} {e : SimulationError}

/-- A sample fails over a watched signal that has no value. -/
theorem recordSample_error (h : recordSample time s = (.error (.simulation e), s')) :
    ∃ n, e = .unbound n := by
  unfold recordSample at h
  rw [bind_of_ok (get_apply s)] at h
  cases hwatched : s.watched with
  | none =>
    rw [hwatched] at h
    cases h
  | some names =>
    rw [hwatched] at h
    rcases bind_eq_error h with htake | ⟨_, _, -, hpush⟩
    · cases hvalues : s.run.store.valuesOf names with
      | ok values =>
        rw [Sample.take, hvalues] at htake
        cases htake
      | error e' =>
        rw [Sample.take, hvalues] at htake
        cases htake
        obtain ⟨_, n, -, hn⟩ := foldlM_eq_error hvalues
        exact ⟨n, Store.eq_unbound_of_map_read hn⟩
    · cases hpush

/-- What the hook throws is told apart from an error of the simulation. -/
theorem callHook_error (h : callHook time s = (.error (.simulation e), s')) : False := by
  obtain hhook | ⟨hook, hhook⟩ := Option.eq_none_or_eq_some s.hook
  · unfold callHook at h
    rw [bind_of_ok (get_apply s), hhook] at h
    cases h
  · rw [callHook_eq hhook] at h
    cases hfailure : (s.reactionAfter hook time).failure <;> rw [hfailure] at h <;> cases h

/-- Behind the updates of a cycle only reading can fail, or the hook. -/
theorem finishCycle_error (h : finishCycle time s = (.error (.simulation e), s')) :
    ∃ n, e = .unbound n := by
  unfold finishCycle at h
  rcases bind_eq_error h with hrecord | ⟨_, s₁, -, h⟩
  · exact recordSample_error hrecord
  rcases bind_eq_error h with hcall | ⟨_, s₂, -, h⟩
  · exact (callHook_error hcall).elim
  -- the log line reads the outputs
  rw [bind_of_ok (get_apply s₂)] at h
  cases hvalues : outputValues s₂.run.store s₂.circuit.outputs with
  | ok values =>
    rw [hvalues] at h
    cases h
  | error e' =>
    rw [hvalues] at h
    cases h
    obtain ⟨n, -, hn⟩ := mapM_eq_error hvalues
    exact ⟨n, Store.eq_unbound_of_map_read hn⟩

/-! ## 2. Failing over order -/

/-- What was attempted failed because an update is out of order. -/
def FailsByOrder {α : Type} (outcome : Except Failure α) : Prop :=
  ∃ e, outcome = .error (.simulation e) ∧ e.kind = "illegal-order"

/-- Starting fails over order exactly when the updates are out of order. -/
theorem start_failsByOrder_iff (c : Circuit) (hook : Option Hook) :
    FailsByOrder (start (ofCircuit c hook)).1 ↔ ¬ c.Ordered := by
  constructor
  · rintro ⟨e, hfail, hkind⟩ hord
    obtain ⟨σ, r, hrun, -⟩ := Run.firstCycle_success c.fits_stimuli hord
      (Run.covers_blank c c.length_pos)
    rw [start_of_ok (s := ofCircuit c hook) hrun] at hfail
    obtain ⟨n, rfl⟩ := finishCycle_error (Prod.ext hfail rfl)
    have hother : "unbound-signal" = "illegal-order" := hkind
    exact absurd hother (by decide)
  · intro hord
    obtain ⟨before, u, hearly⟩ := Design.exists_firstEarly hord
    obtain ⟨s, hstart, -⟩ := start_of_firstEarly hook hearly
    obtain ⟨after, hsplit⟩ := hearly.1
    have hu : u ∈ c.updates := by
      rw [hsplit]
      exact List.mem_append_right _ List.mem_cons_self
    exact ⟨_, congrArg Prod.fst hstart, (c.outOfOrder_spec hu _ 0).1⟩

/-! ## 3. Analysis and simulation -/

/-- **Levels, loops and runs agree on order.** All updates of a circuit have
levels exactly when, listed in some order, they pass the start of a run; if so,
they pass listed level by level. Some update has no level exactly when there is
a loop, or when some update reads what is no input, no latch output and no update
output. So a circuit whose start passes has no update without level, and no loop. -/
theorem levels_agree (c : Circuit) :
    (c.levels.unresolved = [] ↔ ∃ us, ∃ h : us.Perm c.updates,
      ¬ FailsByOrder (start (ofCircuit (c.reorder us h) none)).1) ∧
    (c.levels.unresolved = [] → ∃ us, ∃ h : us.Perm c.updates,
      us.map (·.output) = c.levels.levels.tail.flatten ∧
        ∀ hook, ¬ FailsByOrder (start (ofCircuit (c.reorder us h) hook)).1) ∧
    (c.levels.unresolved ≠ [] ↔ loops c.updates ≠ [] ∨
      ∃ u ∈ c.updates, ∃ n ∈ u.dependencies,
        n ∉ c.inputs ∧ n ∉ c.latchOutputs ∧ n ∉ c.updateOutputs) ∧
    ∀ hook, ¬ FailsByOrder (start (ofCircuit c hook)).1 →
      c.levels.unresolved = [] ∧ loops c.updates = [] := by
  have hpasses (c : Circuit) (hook : Option Hook) :
      ¬ FailsByOrder (start (ofCircuit c hook)).1 ↔ c.Ordered := by
    rw [start_failsByOrder_iff, not_not]
  refine ⟨?_, fun hnone => ?_, Circuit.unresolved_ne_nil_iff, fun hook hpass => ?_⟩
  · simp only [hpasses]
    exact Circuit.unresolved_eq_nil_iff_exists_ordered
  · have hall := Circuit.unresolved_eq_nil_iff.1 hnone
    refine ⟨c.schedule, Circuit.schedule_perm hall, c.outputs_schedule, fun hook => ?_⟩
    rw [hpasses]
    exact Design.ordered_iff.2 (Circuit.schedule_orderedFrom hall)
  · have hord := (hpasses c hook).1 hpass
    have hnone : c.levels.unresolved = [] :=
      Circuit.unresolved_eq_nil_iff_exists_ordered.2 ⟨c.updates, .refl _, hord⟩
    refine ⟨hnone, ?_⟩
    by_contra hloops
    exact Circuit.unresolved_ne_nil_iff.2 (.inl hloops) hnone

end Session

end Clocked
