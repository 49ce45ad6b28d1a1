/-
Clocked.Proofs.Session.Bookkeeping — what every operation keeps up.

`Kept c hook m` says what a session of the circuit `c` is like when the hook has
been called `m` times in the present run; between operations that is once for
every completed cycle (`Steady`). Operations fail half way: starting a run leaves
a store half filled, a latch with an unbound input has already moved the counter
on, a hook that fails has been called. `Kept` covers what is left each time:

* if the updates are out of order no cycle is ever completed (`ordered`);
* otherwise starting completes cycle 0 at once (`begun`), and the counter is at
  the last completed cycle unless some latch will never be sampled (`Live.cycle`).
-/
import Clocked.Proofs.Run.Success
import Clocked.Proofs.Session.Hooks

namespace Clocked.Session

variable {c : Circuit} {hook : Hook} {m : Nat} {s : Session}

/-! ## 1. The invariant -/

/-- What the present run is like once a cycle of it was completed. -/
structure Live (c : Circuit) (hook : Hook) (s : Session) : Prop where
  started : s.started
  covers : ∀ k < c.length, Run.Covers k s.run
  names : s.run.store.names = addNames c.signals (writtenIn hook s.runNumber s.calls)
  cycle : s.run.store.cycle + 1 = s.upcoming ∨ ∃ l ∈ c.latches, l.input ∉ s.run.store.names

/-- What a session is like when the hook was called `m` times in the present run. -/
structure Kept (c : Circuit) (hook : Hook) (m : Nat) (s : Session) : Prop where
  circuit : s.circuit = c
  hooked : s.hook = some hook
  fits : c.Fits s.stimuli
  watched : ∀ names, s.watched = some names → ∀ n ∈ names, n ∈ c.signals
  upcoming : s.upcoming ≤ c.length
  ordered : s.upcoming ≠ 0 ∨ s.calls ≠ [] → c.Ordered
  begun : s.started → c.Ordered → s.upcoming ≠ 0
  live : s.upcoming ≠ 0 → Live c hook s
  runs : ∀ call ∈ s.calls, call.run ≤ s.runNumber
  given : ∀ call ∈ s.calls, call.given.cycle = call.time
  times : ∀ run, ∃ k, s.callTimes run = List.range k
  present : s.callTimes s.runNumber = List.range m

/-- Between operations the hook was called once for every completed cycle. -/
def Steady (c : Circuit) (hook : Hook) (s : Session) : Prop := Kept c hook s.upcoming s

theorem steady_ofCircuit (c : Circuit) (hook : Hook) :
    Steady c hook (ofCircuit c (some hook)) where
  circuit := rfl
  hooked := rfl
  fits := c.fits_stimuli
  watched := nofun
  upcoming := Nat.zero_le _
  ordered := by simp [ofCircuit]
  begun := by simp [ofCircuit, started]
  live := fun h => absurd rfl h
  runs := nofun
  given := nofun
  times := fun run => ⟨0, rfl⟩
  present := rfl

theorem Kept.upcoming_eq_zero (h : Kept c hook m s) (hord : ¬ c.Ordered) : s.upcoming = 0 := by
  by_contra hne
  exact hord (h.ordered (.inl hne))

/-- Logging and recording do not touch it, nor do other stimuli that fit or other
signals to watch. -/
theorem Kept.adjusted (h : Kept c hook m s) {stimuli : List Trace}
    {watched : Option (List String)} (pastRecordings : List (Array Sample))
    (recording : Array Sample) (log : Array (Log.Level × String)) (hfits : c.Fits stimuli)
    (hwatched : ∀ names, watched = some names → ∀ n ∈ names, n ∈ c.signals) :
    Kept c hook m { s with stimuli, watched, pastRecordings, recording, log } where
  circuit := h.circuit
  hooked := h.hooked
  fits := hfits
  watched := hwatched
  upcoming := h.upcoming
  ordered := h.ordered
  begun := h.begun
  live := fun hne => ⟨(h.live hne).started, (h.live hne).covers, (h.live hne).names,
    (h.live hne).cycle⟩
  runs := h.runs
  given := h.given
  times := h.times
  present := h.present

/-! ## 2. Calling the hook -/

/-- The hook is called in a run in which `m` cycles were finished before. -/
theorem Kept.called (h : Kept c hook m s) (hup : s.upcoming = m + 1)
    (hcycle : s.run.store.cycle = m) : Kept c hook (m + 1) (s.called hook m) := by
  have hord : c.Ordered := h.ordered (.inl (by omega))
  have hlive : Live c hook s := h.live (by omega)
  refine ⟨h.circuit, h.hooked, h.fits, h.watched, h.upcoming, fun _ => hord, h.begun,
    fun _ => ⟨hlive.started, hlive.covers, ?_, .inl ?_⟩, ?_, ?_, fun run => ?_, ?_⟩
  · show (s.called hook m).run.store.names =
      addNames c.signals (writtenIn hook s.runNumber (s.called hook m).calls)
    rw [writtenIn_called, ← addNames_append, ← hlive.names]
    exact Store.names_writeAll _ _
  · show (s.called hook m).run.store.cycle + 1 = s.upcoming
    rw [hup, ← hcycle]
    exact congrArg (· + 1) (Store.cycle_writeAll _ _)
  · intro call hcall
    rcases List.mem_cons.1 hcall with rfl | hcall
    · exact Nat.le_refl _
    · exact h.runs call hcall
  · intro call hcall
    rcases List.mem_cons.1 hcall with rfl | hcall
    · exact hcycle
    · exact h.given call hcall
  · rw [callTimes_called]
    split
    · next hrun =>
      rw [hrun, h.present, ← List.range_succ]
      exact ⟨m + 1, rfl⟩
    · exact h.times run
  · show (s.called hook m).callTimes s.runNumber = _
    rw [callTimes_called, if_pos rfl, h.present, ← List.range_succ]

/-- Once a cycle was completed, the signals to watch are bound. -/
theorem Kept.watched_bound (h : Kept c hook m s) (hne : s.upcoming ≠ 0) :
    ∀ names, s.watched = some names → ∀ n ∈ names, n ∈ s.run.store.names := by
  intro names hnames n hn
  rw [(h.live hne).names, mem_addNames]
  exact .inl (h.watched names hnames n hn)

/-- A completed cycle is finished: the hook is called, whatever comes of it. -/
theorem Kept.finish (h : Kept c hook m s) (hup : s.upcoming = m + 1)
    (hcycle : s.run.store.cycle = m) : Steady c hook (finishCycle m s).2 := by
  obtain ⟨log, hfin⟩ := finishCycle_called h.hooked (h.watched_bound (by omega)) m
  have hkept := h.called hup hcycle
  rw [← hup] at hkept
  rw [hfin]
  exact hkept.adjusted _ _ _ hkept.fits hkept.watched

/-! ## 3. Starting a run -/

/-- Another run begins; if its cycle 0 was completed the updates are in order. -/
theorem Kept.restarted (h : Kept c hook m s) {r : Run} {n : Nat} (hn : n ≤ c.length)
    (hbegun : c.Ordered → n ≠ 0)
    (hlive : n ≠ 0 → c.Ordered ∧ (∀ k < c.length, Run.Covers k r) ∧
      r.store.names = c.signals ∧ r.store.cycle + 1 = n) :
    Kept c hook 0 { s.restarted with run := r, upcoming := n } := by
  have hnew : s.restarted.runNumber = s.runNumber + 1 := by simp [runNumber, Session.restarted]
  have hcalls : ∀ call ∈ s.calls, call.run ≠ s.runNumber + 1 := by
    intro call hcall
    have := h.runs call hcall
    omega
  refine ⟨h.circuit, h.hooked, h.fits, h.watched, hn, ?_, fun _ => hbegun, fun hne => ?_, ?_,
    h.given, h.times, ?_⟩
  · rintro (hne | hne)
    · exact (hlive hne).1
    · exact h.ordered (.inr hne)
  · obtain ⟨-, hcovers, hnames, hcycle⟩ := hlive hne
    refine ⟨by simp [started, Session.restarted], hcovers, ?_, .inl hcycle⟩
    show r.store.names = addNames c.signals (writtenIn hook s.restarted.runNumber s.calls)
    rw [hnames, hnew, writtenIn_eq_nil hcalls, addNames_nil]
  · intro call hcall
    show call.run ≤ s.restarted.runNumber
    rw [hnew]
    exact Nat.le_succ_of_le (h.runs call hcall)
  · show s.callTimes s.restarted.runNumber = []
    rw [hnew, callTimes_eq_nil hcalls]

/-- Cycle 0 of a new run was completed. -/
theorem Steady.firstCycle (h : Steady c hook s) {r : Run}
    (hrun : Run.firstCycle s.circuit s.stimuli (Run.blank s.circuit) = (.ok (), r)) :
    Kept c hook 0 { s.restarted with run := r, upcoming := 1 } ∧ r.store.cycle = 0 := by
  have hcovers : ∀ k < s.circuit.length, Run.Covers k (Run.blank s.circuit) :=
    fun k hk => Run.covers_blank s.circuit hk
  have hcirc := h.circuit
  subst hcirc
  have hord := Run.ordered_of_firstCycle hrun
  obtain ⟨σ, r', hrun', hp⟩ := Run.firstCycle_success h.fits hord (hcovers 0 s.circuit.length_pos)
  cases hrun.symm.trans hrun'
  have hnames : r.store.names = s.circuit.signals := by
    rw [hp.names]
    exact addNames_nil_left s.circuit.signals_nodup
  refine ⟨h.restarted s.circuit.length_pos (fun _ => Nat.one_ne_zero) fun _ => ?_, hp.cycle⟩
  exact ⟨hord, fun k hk => hp.covers (hcovers k hk), hnames, by rw [hp.cycle]; rfl⟩

/-- Cycle 0 fails only if the updates are out of order. -/
theorem Steady.not_ordered (h : Steady c hook s) {r : Run} {e : Failure}
    (hrun : Run.firstCycle s.circuit s.stimuli (Run.blank s.circuit) = (.error e, r)) :
    ¬ c.Ordered := by
  intro hord
  have hcirc := h.circuit
  subst hcirc
  obtain ⟨σ, r', hrun', -⟩ := Run.firstCycle_success h.fits hord
    (Run.covers_blank s.circuit s.circuit.length_pos)
  cases hrun.symm.trans hrun'

theorem Steady.start (h : Steady c hook s) : Steady c hook (start s).2 := by
  cases hrun : Run.firstCycle s.circuit s.stimuli (Run.blank s.circuit) with
  | mk outcome r =>
    cases outcome with
    | ok u =>
      obtain ⟨hkept, hcycle⟩ := h.firstCycle hrun
      rw [start_of_ok hrun]
      exact hkept.finish rfl hcycle
    | error e =>
      -- a cycle of updates out of order is never completed
      have hord := h.not_ordered hrun
      have hup : s.upcoming = 0 := h.upcoming_eq_zero hord
      have hkept : Kept c hook 0 { s.restarted with run := r, upcoming := s.upcoming } :=
        h.restarted h.upcoming (fun h => absurd h hord) fun hne => absurd hup hne
      rw [start_of_error hrun]
      show Kept c hook s.upcoming { s.restarted with run := r }
      rw [hup]
      exact hkept

/-! ## 4. Going on -/

/-- The present run goes on, with the calls it has had. -/
theorem Kept.onward (h : Kept c hook m s) {r : Run} {n : Nat} (hn : n ≤ c.length)
    (hzero : n = 0 ↔ s.upcoming = 0)
    (hlive : n ≠ 0 → (∀ k < c.length, Run.Covers k r) ∧ r.store.names = s.run.store.names ∧
      (r.store.cycle + 1 = n ∨ ∃ l ∈ c.latches, l.input ∉ r.store.names)) :
    Kept c hook m { s with run := r, upcoming := n } := by
  refine ⟨h.circuit, h.hooked, h.fits, h.watched, hn, ?_, ?_, fun hne => ?_, h.runs, h.given,
    h.times, h.present⟩
  · rintro (hne | hne)
    · exact h.ordered (.inl (mt hzero.2 hne))
    · exact h.ordered (.inr hne)
  · exact fun hstarted hord => mt hzero.1 (h.begun hstarted hord)
  · have hlive₀ := h.live (mt hzero.2 hne)
    obtain ⟨hcovers, hnames, hcycle⟩ := hlive hne
    exact ⟨hlive₀.started, hcovers, hnames.trans hlive₀.names, hcycle⟩

/-- Cycles of updates out of order leave nothing but a run that is not live. -/
theorem Kept.failed (h : Kept c hook m s) (hord : ¬ c.Ordered) (r : Run) :
    Kept c hook m { s with run := r } :=
  h.onward h.upcoming Iff.rfl fun hne => absurd (h.upcoming_eq_zero hord) hne

/-- A later cycle of the present run was completed. -/
theorem Steady.laterCycle (h : Steady c hook s) (hstarted : s.started)
    (hlt : s.upcoming < s.circuit.length) {r : Run}
    (hrun : Run.laterCycle s.circuit s.stimuli s.upcoming s.run = (.ok (), r)) :
    Kept c hook s.upcoming { s with run := r, upcoming := s.upcoming + 1 } ∧
      r.store.cycle = s.upcoming := by
  have hcirc := h.circuit
  subst hcirc
  have hord := Run.ordered_of_laterCycle hrun
  have hlive : Live s.circuit hook s := h.live (h.begun hstarted hord)
  have hbound : ∀ l ∈ s.circuit.latches, l.input ∈ s.run.store.names := by
    intro l hl
    by_contra hunbound
    obtain ⟨_, -, -, hfail⟩ := Run.laterCycle_unbound hl hunbound s.stimuli s.upcoming
    cases hrun.symm.trans hfail
  obtain ⟨σ, r', hrun', hp⟩ := Run.laterCycle_success h.fits hord hlt hbound
    (hlive.covers _ hlt)
  cases hrun.symm.trans hrun'
  have hnames : r.store.names = s.run.store.names := by
    rw [hp.names]
    refine addNames_of_forall_mem fun n hn => ?_
    show n ∈ s.run.store.names
    rw [hlive.names, mem_addNames]
    exact .inl hn
  have hcycle : r.store.cycle = s.upcoming := by
    rw [hp.cycle]
    refine hlive.cycle.resolve_right ?_
    rintro ⟨l, hl, hunbound⟩
    exact hunbound (hbound l hl)
  refine ⟨h.onward hlt (by have := h.begun hstarted hord; omega) fun _ => ?_, hcycle⟩
  exact ⟨fun k hk => hp.covers (hlive.covers k hk), hnames, .inl (by rw [hcycle])⟩

theorem Steady.next (h : Steady c hook s) (time : Number) : Steady c hook (next time s).2 := by
  by_cases hguard : s.started ∧ time = .ofNat s.upcoming ∧ s.upcoming < s.circuit.length
  · obtain ⟨hstarted, rfl, hlt⟩ := hguard
    cases hrun : Run.laterCycle s.circuit s.stimuli s.upcoming s.run with
    | mk outcome r =>
      cases outcome with
      | ok u =>
        obtain ⟨hkept, hcycle⟩ := h.laterCycle hstarted hlt hrun
        rw [next_of_ok hstarted hlt hrun]
        exact hkept.finish rfl hcycle
      | error e =>
        rw [next_of_error hstarted hlt hrun]
        have hcirc := h.circuit
        subst hcirc
        by_cases hord : s.circuit.Ordered
        · have hlive : Live s.circuit hook s := h.live (h.begun hstarted hord)
          -- a latch is never sampled, so the counter may run ahead
          obtain ⟨l, hl, hunbound⟩ : ∃ l ∈ s.circuit.latches, l.input ∉ s.run.store.names := by
            by_contra hbound
            push Not at hbound
            obtain ⟨σ, r', hrun', -⟩ := Run.laterCycle_success h.fits hord hlt hbound
              (hlive.covers _ hlt)
            cases hrun.symm.trans hrun'
          obtain ⟨_, -, -, hrun'⟩ := Run.laterCycle_unbound hl hunbound s.stimuli s.upcoming
          cases hrun.symm.trans hrun'
          exact h.onward h.upcoming Iff.rfl fun _ => ⟨hlive.covers, rfl, .inr ⟨l, hl, hunbound⟩⟩
        · exact h.failed hord r
  · rw [next_refused hguard]
    exact h

end Clocked.Session
