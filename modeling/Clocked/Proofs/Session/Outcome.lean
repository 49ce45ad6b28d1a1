/-
Clocked.Proofs.Session.Outcome — how a run can end.

`runAll_outcome` tells the three endings of a run apart by the circuit alone:
the updates are out of order, and cycle 0 is refused; a latch reads a signal
that nothing produces, and cycle 1 is refused; or the run goes through.
-/
import Clocked.Proofs.Circuit.OutOfOrder
import Clocked.Proofs.Session.Simulation

namespace Clocked.Session

open Attempt (bind_of_error)

variable {c : Circuit}

/-! ## 1. Updates out of order -/

/-- The first update that reads too early stops cycle 0, whatever the hook. -/
theorem start_of_firstEarly (hook : Option Hook) {before : List Update} {u : Update}
    (h : c.FirstEarly before u) :
    ∃ s, start (ofCircuit c hook) =
        (.error (.simulation (c.outOfOrder u (u.missing (c.available before)) 0)), s) ∧
      s.lastCycle = -1 := by
  obtain ⟨⟨after, hsplit⟩, ⟨n, hn, hmiss⟩, hbefore⟩ := h
  have hcov : Run.Covers 0 (Run.blank c) :=
    Run.covers_of_output (Run.output_blank c c.wave) c.length_pos
  have hlen : ∀ s ∈ c.stimuli, 0 < s.length := fun s hs => by
    rw [c.length_stimulus hs]
    exact c.length_pos
  have hne : u.missing (c.available before) ≠ [] := fun hnil =>
    hmiss (Run.missing_eq_nil_iff.1 hnil n hn)
  obtain ⟨r, hrun⟩ := Run.firstCycle_error c.map_signal_stimuli hlen hsplit
    (Update.orderedFrom_iff.2 hbefore) hne hcov
  exact ⟨_, start_of_error (s := ofCircuit c hook) hrun, rfl⟩

/-- So it stops the run before any cycle is completed. -/
theorem runAll_of_firstEarly {before : List Update} {u : Update} (h : c.FirstEarly before u) :
    ∃ s, runAll (ofCircuit c none) =
        (.error (.simulation (c.outOfOrder u (u.missing (c.available before)) 0)), s) ∧
      s.lastCycle = -1 := by
  obtain ⟨s, hstart, hlast⟩ := start_of_firstEarly none h
  exact ⟨s, runAll_of_start_error hstart, hlast⟩

/-! ## 2. Latches with stray inputs -/

/-- The first latch whose input nothing produces stops the run as soon as cycle 1
samples it; but for the store's counter the session is as cycle 0 left it. -/
theorem runAll_of_firstStray (hord : c.Ordered) (hlen : 2 ≤ c.length) {l : Latch}
    (h : c.FirstStray l) :
    ∃ s, start (ofCircuit c none) = (.ok (), s) ∧ s.lastCycle = 0 ∧
      runAll (ofCircuit c none) = (.error (.simulation (.unbound l.input)),
        { s with run := { s.run with store := s.run.store.advance } }) := by
  obtain ⟨before, after, hsplit, hl, hbefore⟩ := h
  have hknown : ∀ names ∈ (none : Option (List String)), ∀ n ∈ names, n ∈ c.signals := by simp
  obtain ⟨s, hstart, hs, -⟩ :=
    start_shows (s := ofCircuit c none) (c.solves_wave hord) hord hknown rfl rfl rfl rfl
  refine ⟨s, hstart, by simp [lastCycle, hs.upcoming], ?_⟩
  have hbound : ∀ k ∈ before, (s.run.store.lookup k.input).isSome := by
    intro k hk
    rw [hs.run.lookup_of_mem (hbefore k hk)]
    rfl
  have hunbound : s.run.store.lookup l.input = none := by
    rw [hs.run.lookup, if_neg hl]
  have hcycle := Run.laterCycle_error s.stimuli s.upcoming hsplit hbound hunbound
  have hcirc : s.circuit = c := hs.circuit
  have hup : 1 = s.upcoming := hs.upcoming.symm
  have hlt : s.upcoming < s.circuit.length := by
    rw [hcirc]
    omega
  rw [← hcirc] at hcycle
  have hnext := next_of_error hs.started hlt hcycle
  refine runAll_of_laterCycles_error hstart ?_
  obtain ⟨k, hk⟩ : ∃ k, s.circuit.length - 1 = k + 1 := ⟨s.circuit.length - 2, by omega⟩
  unfold laterCycles
  rw [hk, List.range'_succ, hup]
  show (next (.ofNat s.upcoming) >>= fun _ => _) s = _
  rw [bind_of_error hnext]

/-! ## 3. All endings -/

/-- **How a run ends.** Either an update reads too early: then the first such one
is reported at cycle 0, with what it lacks, and as on a loop exactly when its
output depends on itself. Or, in a run of two cycles or more, a latch reads a
signal that nothing produces: then cycle 0 is completed, and the first such
latch is reported before anything of cycle 1 is written. Or the run returns. -/
theorem runAll_outcome (c : Circuit) :
    (¬ c.Ordered ∧ ∃ before u e s, c.FirstEarly before u ∧
      runAll (ofCircuit c none) = (.error (.simulation e), s) ∧ s.lastCycle = -1 ∧
      e.kind = "illegal-order" ∧
      e.signals = u.output :: (u.dependencies.filter (· ∉ c.available before)).eraseDups ∧
      (Update.SelfDependent c.updates u.output ∧
          (∃ loop : List String, loop.Sublist c.updateOutputs ∧
            (∀ n, n ∈ loop ↔ Update.Linked c.updates u.output n) ∧
            e.message = "Variable " ++ u.output ++ " may be cyclical at cycle " ++ toString 0 ++
              ": " ++ ("combinational loop through " ++ ", ".intercalate loop)) ∨
        ¬ Update.SelfDependent c.updates u.output ∧
          e.message = "Variable " ++ u.output ++ " may be cyclical at cycle " ++ toString 0 ++
            ": " ++ (", ".intercalate (u.dependencies.filter (· ∉ c.available before)).eraseDups ++
              " not yet defined when it is updated"))) ∨
    (c.Ordered ∧ 2 ≤ c.length ∧ (∃ l ∈ c.latches, l.input ∉ c.signals) ∧
      ∃ l s, c.FirstStray l ∧ start (ofCircuit c none) = (.ok (), s) ∧ s.lastCycle = 0 ∧
        runAll (ofCircuit c none) = (.error (.simulation (.unbound l.input)),
          { s with run := { s.run with store := s.run.store.advance } })) ∨
    (c.Ordered ∧ (c.length = 1 ∨ ∀ l ∈ c.latches, l.input ∈ c.signals) ∧
      ∃ r s, runAll (ofCircuit c none) = (.ok r, s)) := by
  by_cases hord : c.Ordered
  · by_cases hlatch : c.length = 1 ∨ ∀ l ∈ c.latches, l.input ∈ c.signals
    · obtain ⟨s, hrun, -⟩ :=
        runAll_shows (s := ofCircuit c none) (c.solves_wave hord) hord hlatch rfl rfl rfl rfl
      exact .inr (.inr ⟨hord, hlatch, s.result, s, hrun⟩)
    · rw [not_or] at hlatch
      have hlen : 2 ≤ c.length := by
        have := c.length_pos
        omega
      obtain ⟨l, hl⟩ := Design.exists_firstStray hlatch.2
      obtain ⟨s, hstart, hlast, hrun⟩ := runAll_of_firstStray hord hlen hl
      have hstray : ∃ l ∈ c.latches, l.input ∉ c.signals := by
        by_contra hnone
        push Not at hnone
        exact hlatch.2 hnone
      exact .inr (.inl ⟨hord, hlen, hstray, l, s, hl, hstart, hlast, hrun⟩)
  · obtain ⟨before, u, hearly⟩ := Design.exists_firstEarly hord
    obtain ⟨s, hrun, hlast⟩ := runAll_of_firstEarly hearly
    obtain ⟨after, hsplit⟩ := hearly.1
    have hu : u ∈ c.updates := by
      rw [hsplit]
      exact List.mem_append_right _ List.mem_cons_self
    have hspec := c.outOfOrder_spec hu (u.missing (c.available before)) 0
    exact .inl ⟨hord, before, u, _, s, hearly, hrun, hlast, hspec⟩

end Clocked.Session
