/-
Clocked.Proofs.Session.Moments — the cycles that operations complete.

A moment is the session as it is when a cycle was just completed: all its updates were
performed, and the hook was not called yet. `completed` lists the moments of operations, one
after the other. It does not look at what the hook does or what is recorded.

What a cycle leaves can be told from its moment: the hook is called once for every moment,
with the store of that moment (`calls_after`), and the output traces of the run keep the
values of that moment, unless a caller writes to them (`lasts_after`).

Both are proved along the moments: of a run cycle by cycle (`runAll_induction`), and
of operations one by one (`completed_induction`).
-/
import Clocked.Proofs.Session.Handed

namespace Clocked.Session

open Attempt (bind_of_ok bind_of_error)

variable {c : Circuit} {hook : Hook} {s t m : Session}

/-! ## 1. Moments -/

/-- The moment at which starting a run has completed cycle 0, if it does. -/
def begun? (s : Session) : Option Session :=
  match Run.firstCycle s.circuit s.stimuli (Run.blank s.circuit) with
  | (.ok (), r) => some { s.restarted with run := r, upcoming := 1 }
  | (.error _, _) => none

/-- The moment at which asking for a cycle has completed it, if it does. -/
def advanced? (time : Number) (s : Session) : Option Session :=
  if s.Due time then
    match Run.laterCycle s.circuit s.stimuli s.upcoming s.run with
    | (.ok (), r) => some { s with run := r, upcoming := s.upcoming + 1 }
    | (.error _, _) => none
  else none

/-- The moments of cycles that are asked for one after the other, up to the first failure. -/
def momentsOfNexts : List Nat → Session → List Session
  | [], _ => []
  | time :: times, s =>
    (s.advanced? (.ofNat time)).toList ++
      match next (.ofNat time) s with
      | (.ok (), s') => momentsOfNexts times s'
      | (.error _, _) => []

/-- The moments of a whole run. -/
def momentsOfRun (s : Session) : List Session :=
  s.begun?.toList ++
    match start s with
    | (.ok (), s') => momentsOfNexts (List.range' 1 (s'.circuit.length - 1)) s'
    | (.error _, _) => []

/-- The moments of an operation. -/
def Operation.completes (s : Session) : Operation → List Session
  | .start => s.begun?.toList
  | .next time => (s.advanced? time).toList
  | .runAll => s.momentsOfRun
  | _ => []

/-- The moments of operations, one after the other. -/
def completed (s : Session) : List Operation → List Session
  | [] => []
  | op :: ops => op.completes s ++ completed (op.perform s) ops

theorem Operation.completes_of_revises {op : Operation} (h : op.revises) (s : Session) :
    op.completes s = [] := by
  cases op with
  | runAll => cases h
  | start => cases h
  | next time => cases h
  | _ => rfl

theorem after_append (s : Session) (ops more : List Operation) :
    after s (ops ++ more) = after (after s ops) more :=
  List.foldl_append

theorem completed_append (s : Session) (ops more : List Operation) :
    completed s (ops ++ more) = completed s ops ++ completed (after s ops) more := by
  induction ops generalizing s with
  | nil => rfl
  | cons op ops ih => simp [completed, ih, after]

/-! ## 2. Cycles and their moments -/

/-- Starting a run ends by finishing cycle 0, if it completes it. -/
theorem start_moment (h : Regular c s) :
    (∃ r, s.begun? = some { s.restarted with run := r, upcoming := 1 } ∧
      Complete c 0 { s.restarted with run := r, upcoming := 1 } ∧
      start s = finishCycle 0 { s.restarted with run := r, upcoming := 1 }) ∨
    ∃ e r, s.begun? = none ∧ start s = (.error e, { s.restarted with run := r }) := by
  obtain ⟨r, hr, hstart⟩ | ⟨e, r, hrun, -, hstart⟩ := h.start_cases
  · exact .inl ⟨r, by simp only [begun?, hr.run], hr.complete, hstart⟩
  · exact .inr ⟨e, r, by simp only [begun?, hrun], hstart⟩

/-- Asking for a cycle ends by finishing it, if it completes it. -/
theorem next_moment (h : Regular c s) (time : Number) :
    (∃ r, s.advanced? time = some { s with run := r, upcoming := s.upcoming + 1 } ∧
      Complete c s.upcoming { s with run := r, upcoming := s.upcoming + 1 } ∧
      next time s = finishCycle s.upcoming { s with run := r, upcoming := s.upcoming + 1 }) ∨
    ∃ e r, s.advanced? time = none ∧ next time s = (.error e, { s with run := r }) := by
  obtain ⟨r, hdue, hr, hnext⟩ | ⟨e, r, hfail, -, hnext⟩ := h.next_cases time
  · exact .inl ⟨r, by simp only [advanced?, if_pos hdue, hr.run], hr.complete, hnext⟩
  · refine .inr ⟨e, r, ?_, hnext⟩
    by_cases hdue : s.Due time
    · simp only [advanced?, if_pos hdue, hfail hdue]
    · simp only [advanced?, if_neg hdue]

variable {P : List Session → Session → Prop} {ms : List Session}

theorem nexts_induction
    (hnext : ∀ ms s time, P ms s → P (ms ++ (s.advanced? time).toList) (next time s).2)
    (times : List Nat) (h : P ms s) :
    P (ms ++ momentsOfNexts times s) (times.forM (fun time => next (.ofNat time)) s).2 := by
  induction times generalizing ms s with
  | nil => rwa [momentsOfNexts, List.append_nil]
  | cons time times ih =>
    have h' := hnext ms s (.ofNat time) h
    show P (ms ++ momentsOfNexts (time :: times) s)
      ((next (.ofNat time) >>= fun _ => times.forM fun time => next (.ofNat time)) s).2
    rw [momentsOfNexts]
    cases hrun : next (.ofNat time) s with
    | mk outcome s' =>
      rw [hrun] at h'
      cases outcome with
      | error e =>
        rw [bind_of_error hrun]
        simpa using h'
      | ok u =>
        rw [bind_of_ok hrun, ← List.append_assoc]
        exact ih h'

/-- What holds once a run was started, and is kept cycle by cycle, holds after the run. -/
theorem runAll_induction (hstart : P (ms ++ s.begun?.toList) (start s).2)
    (hnext : ∀ ms s time, P ms s → P (ms ++ (s.advanced? time).toList) (next time s).2)
    (hlogged : ∀ ms s log, P ms s → P ms { s with log }) :
    P (ms ++ s.momentsOfRun) (runAll s).2 := by
  rw [momentsOfRun, ← List.append_assoc]
  cases hrun : start s with
  | mk outcome s₁ =>
    rw [hrun] at hstart
    cases outcome with
    | error e =>
      rw [runAll_of_start_error hrun]
      simpa using hstart
    | ok u =>
      have hrest := nexts_induction hnext (List.range' 1 (s₁.circuit.length - 1)) hstart
      cases hlater : laterCycles s₁.circuit.length s₁ with
      | mk outcome s₂ =>
        unfold laterCycles at hlater
        rw [hlater] at hrest
        cases outcome with
        | error e =>
          rw [runAll_of_laterCycles_error hrun hlater]
          exact hrest
        | ok u =>
          obtain ⟨message, hall⟩ := runAll_of_ok hrun hlater
          rw [hall]
          exact hlogged _ _ _ hrest

/-- What is kept operation by operation holds after all of them. -/
theorem completed_induction {ops : List Operation}
    (hop : ∀ ms s, ∀ op ∈ ops, P ms s → P (ms ++ op.completes s) (op.perform s)) (h : P ms s) :
    P (ms ++ completed s ops) (after s ops) := by
  induction ops generalizing ms s with
  | nil => rwa [completed, List.append_nil]
  | cons op ops ih =>
    rw [completed, ← List.append_assoc]
    refine ih (fun ms s op' hop' => hop ms s op' (List.mem_cons_of_mem _ hop')) ?_
    exact hop ms s op List.mem_cons_self h

/-! ## 3. Calls of the hook -/

theorem Complete.lastCycle {time : Nat} (h : Complete c time m) : m.lastCycle = time := by
  simp [Session.lastCycle, h.upcoming]

/-- The call of the hook after the cycle just completed. -/
def lastCall (m : Session) : Call := m.callAfter m.lastCycle.toNat

/-- The calls made so far are those of the moments so far. -/
structure CallsMade (c : Circuit) (hook : Hook) (past : List Call) (ms : List Session)
    (s : Session) : Prop where
  regular : Regular c s
  hooked : s.hook = some hook
  calls : s.calls = (ms.map lastCall).reverse ++ past

variable {past : List Call}

theorem CallsMade.finish {time : Nat} (hm : Complete c time m) (hhook : m.hook = some hook)
    (hcalls : m.calls = (ms.map lastCall).reverse ++ past) :
    CallsMade c hook past (ms ++ [m]) (finishCycle time m).2 := by
  refine ⟨hm.regular_finish, ?_, ?_⟩
  · rw [hm.finish]
    exact hhook
  · have hlast : m.lastCall = m.callAfter time := by simp [lastCall, hm.lastCycle]
    rw [hm.finish]
    simp [answered, hhook, hcalls, hlast]

/-- Without another moment there is no other call. -/
theorem CallsMade.same (h : CallsMade c hook past ms s) (ht : Regular c t) (hhook : t.hook = s.hook)
    (hcalls : t.calls = s.calls) : CallsMade c hook past (ms ++ []) t := by
  rw [List.append_nil]
  exact ⟨ht, hhook.trans h.hooked, hcalls.trans h.calls⟩

theorem CallsMade.start (h : CallsMade c hook past ms s) :
    CallsMade c hook past (ms ++ s.begun?.toList) (start s).2 := by
  have hregular := h.regular.start
  obtain ⟨r, hbegun, hm, hstart⟩ | ⟨e, r, hbegun, hstart⟩ := start_moment h.regular
  · rw [hbegun, hstart]
    exact .finish hm h.hooked h.calls
  · rw [hstart] at hregular
    rw [hbegun, hstart]
    exact h.same hregular rfl rfl

theorem CallsMade.next (h : CallsMade c hook past ms s) (time : Number) :
    CallsMade c hook past (ms ++ (s.advanced? time).toList) (next time s).2 := by
  have hregular := h.regular.next time
  obtain ⟨r, hadv, hm, hnext⟩ | ⟨e, r, hadv, hnext⟩ := next_moment h.regular time
  · rw [hadv, hnext]
    exact .finish hm h.hooked h.calls
  · rw [hnext] at hregular
    rw [hadv, hnext]
    exact h.same hregular rfl rfl

theorem CallsMade.perform (h : CallsMade c hook past ms s) (op : Operation) :
    CallsMade c hook past (ms ++ op.completes s) (op.perform s) := by
  have hregular := h.regular.perform op
  cases hrevises : op.revises with
  | true =>
    obtain ⟨stimuli, pastRuns, run, heq, -⟩ := Operation.perform_of_revises hrevises s
    rw [heq] at hregular ⊢
    rw [Operation.completes_of_revises hrevises]
    exact h.same hregular rfl rfl
  | false =>
    cases op with
    | runAll =>
      exact runAll_induction h.start (fun _ _ time h => CallsMade.next h time)
        fun _ _ log h => ⟨h.regular.logged log, h.hooked, h.calls⟩
    | start => exact h.start
    | next time => exact h.next time
    | startRecording names => exact h.same hregular rfl rfl
    | stopRecording => exact h.same hregular rfl rfl
    | _ => cases hrevises

/-- The hook is called once for every completed cycle, with the store as it is then. -/
theorem calls_after (h : Regular c s) (hhook : s.hook = some hook) (ops : List Operation) :
    (after s ops).calls = ((completed s ops).map lastCall).reverse ++ s.calls := by
  have hmade : CallsMade c hook s.calls [] s := ⟨h, hhook, rfl⟩
  have hall : CallsMade c hook s.calls ([] ++ completed s ops) (after s ops) :=
    completed_induction (fun _ _ op _ h => CallsMade.perform h op) hmade
  exact hall.calls

/-! ## 4. Output traces -/

/-- The values that the outputs have at the moment are in the output traces of its run. -/
def InTraces (c : Circuit) (m s : Session) : Prop :=
  ∃ run, s.runAt? m.runNumber = some run ∧ ∀ n ∈ c.outputs, ∃ tr,
    run.outputs.get? n = some tr ∧ tr.at? m.lastCycle.toNat = m.run.store.lookup n

/-- The cycle of the moment is behind the session, and its values are in the traces. -/
structure Lasts (c : Circuit) (m s : Session) : Prop where
  regular : Regular c s
  ordered : c.Ordered
  traces : InTraces c m s
  past : m.runNumber ≠ s.runNumber ∨ m.lastCycle.toNat < s.upcoming

/-- A completed cycle is in the traces. -/
theorem Complete.lasts {time : Nat} (h : Complete c time m) :
    Lasts c m (finishCycle time m).2 := by
  refine ⟨h.regular_finish, h.ordered, ⟨(finishCycle time m).2.run, ?_, ?_⟩, .inr ?_⟩
  · rw [h.finish]
    simp [runAt?, runNumber, answered]
  · rw [h.finish, h.lastCycle]
    exact h.output
  · rw [h.finish, h.lastCycle]
    show time < m.upcoming
    rw [h.upcoming]
    exact Nat.lt_succ_self time

/-- When another run begins the traces of the earlier ones are kept. -/
theorem Lasts.of_begun (h : Lasts c m s) (ht : Regular c t)
    (hpast : t.pastRuns = s.pastRuns ++ [s.run]) : Lasts c m t := by
  obtain ⟨run, hrun, hbits⟩ := h.traces
  obtain ⟨hkept, hne⟩ := runAt?_of_begun hpast hrun
  exact ⟨ht, h.ordered, ⟨run, hkept, hbits⟩, .inl hne⟩

/-- Going on with a run leaves the cycles in its traces that are behind it. -/
theorem Lasts.of_past (h : Lasts c m s) (ht : Regular c t) (hpast : t.pastRuns = s.pastRuns)
    (hup : s.upcoming ≤ t.upcoming)
    (htraces : t.run.TracesFrom s.run.outputs s.upcoming) : Lasts c m t := by
  obtain ⟨run, hrun, hvalues⟩ := h.traces
  by_cases hne : m.runNumber = s.runNumber
  · have hlt : m.lastCycle.toNat < s.upcoming := h.past.resolve_left (not_not.2 hne)
    have hnumber : t.runNumber = s.runNumber := by simp [runNumber, hpast]
    have hpresent (u : Session) : u.runAt? u.runNumber = some u.run := by
      simp [runAt?, runNumber]
    rw [hne, hpresent s] at hrun
    cases hrun
    refine ⟨ht, h.ordered, ⟨t.run, ?_, fun n hn => ?_⟩, .inr (Nat.lt_of_lt_of_le hlt hup)⟩
    · rw [hne, ← hnumber, hpresent t]
    · obtain ⟨tr', htr'⟩ := (ht.whole h.ordered).exists_trace hn
      obtain ⟨tr, htr, -, -, hsame⟩ := htraces n tr' htr'
      obtain ⟨tr₀, htr₀, hvalue⟩ := hvalues n hn
      rw [htr] at htr₀
      cases htr₀
      exact ⟨tr', htr', (hsame _ (Nat.ne_of_lt hlt)).trans hvalue⟩
  · obtain ⟨hkept, hne⟩ := runAt?_of_past hpast hne hrun
    exact ⟨ht, h.ordered, ⟨run, hkept, hvalues⟩, .inl hne⟩

theorem Lasts.start (h : Lasts c m s) : Lasts c m (start s).2 := by
  have hregular := h.regular.start
  refine h.of_begun hregular ?_
  obtain ⟨r, -, hm, hstart⟩ | ⟨e, r, -, hstart⟩ := start_moment h.regular
  · rw [hstart, hm.finish]
    rfl
  · rw [hstart]
    rfl

theorem Lasts.next (h : Lasts c m s) (time : Number) : Lasts c m (next time s).2 := by
  have hregular := h.regular.next time
  obtain ⟨r, -, hr, hnext⟩ | ⟨e, r, -, houtputs, hnext⟩ := h.regular.next_cases time
  · rw [hnext] at hregular ⊢
    rw [hr.complete.finish] at hregular ⊢
    exact h.of_past hregular rfl (Nat.le_succ _) hr.traces
  · rw [hnext] at hregular ⊢
    refine h.of_past hregular rfl (Nat.le_refl _) fun n tr' htr' =>
      ⟨tr', ?_, rfl, rfl, fun _ _ => rfl⟩
    rw [← houtputs h.ordered]
    exact htr'

theorem Lasts.logged (h : Lasts c m s) (log : Array (Log.Level × String)) :
    Lasts c m { s with log } :=
  ⟨h.regular.logged log, h.ordered, h.traces, h.past⟩

/-- Nothing but a write to the traces of its run changes what they say of a cycle. -/
theorem Lasts.perform (h : Lasts c m s) (op : Operation) (hop : ¬ op.WritesTo m.runNumber) :
    Lasts c m (op.perform s) := by
  have hregular := h.regular.perform op
  cases hrevises : op.revises with
  | true =>
    obtain ⟨stimuli, pastRuns, present, heq, hnumber, hothers⟩ :=
      Operation.perform_of_revises hrevises s
    rw [heq] at hregular ⊢
    obtain ⟨run, hrun, hvalues⟩ := h.traces
    refine ⟨hregular, h.ordered, ⟨run, (hothers _ hop).trans hrun, hvalues⟩, ?_⟩
    rw [hnumber]
    exact h.past
  | false =>
    cases op with
    | runAll =>
      exact Preserves.runAll (fun _ h => Lasts.start h) (fun time _ h => Lasts.next h time)
        (fun _ _ h => h.logged _) s h
    | start => exact h.start
    | next time => exact h.next time
    | startRecording names => exact ⟨hregular, h.ordered, h.traces, h.past⟩
    | stopRecording => exact ⟨hregular, h.ordered, h.traces, h.past⟩
    | _ => cases hrevises

/-- All moments of an operation are in the traces that it leaves. -/
structure AllLast (c : Circuit) (ms : List Session) (s : Session) : Prop where
  regular : Regular c s
  lasts : ∀ m ∈ ms, Lasts c m s

theorem AllLast.start (h : Regular c s) : AllLast c ([] ++ s.begun?.toList) (start s).2 := by
  refine ⟨h.start, ?_⟩
  obtain ⟨r, hbegun, hm, hstart⟩ | ⟨e, r, hbegun, hstart⟩ := start_moment h
  · rw [hbegun, hstart]
    simpa using hm.lasts
  · rw [hbegun]
    nofun

theorem AllLast.next (h : AllLast c ms s) (time : Number) :
    AllLast c (ms ++ (s.advanced? time).toList) (next time s).2 := by
  refine ⟨h.regular.next time, fun m hm => ?_⟩
  rcases List.mem_append.1 hm with hm | hm
  · exact (h.lasts m hm).next time
  · obtain ⟨r, hadv, hcomplete, hnext⟩ | ⟨e, r, hadv, hnext⟩ := next_moment h.regular time
    · rw [hadv] at hm
      cases List.mem_singleton.1 hm
      rw [hnext]
      exact hcomplete.lasts
    · rw [hadv] at hm
      cases hm

theorem allLast_perform (h : Regular c s) (op : Operation) :
    AllLast c ([] ++ op.completes s) (op.perform s) := by
  cases op with
  | runAll =>
    exact runAll_induction (AllLast.start h) (fun _ _ time h => AllLast.next h time)
      fun _ _ log h => ⟨h.regular.logged log, fun m hm => (h.lasts m hm).logged log⟩
  | start => exact AllLast.start h
  | next time => exact AllLast.next ⟨h, fun _ hm => absurd hm List.not_mem_nil⟩ time
  | _ => exact ⟨h.perform _, by simp [Operation.completes]⟩

theorem Lasts.after (h : Lasts c m s) {ops : List Operation}
    (hops : ∀ op ∈ ops, ¬ op.WritesTo m.runNumber) : Lasts c m (after s ops) := by
  induction ops generalizing s with
  | nil => exact h
  | cons op ops ih =>
    refine ih (h.perform op (hops op List.mem_cons_self)) fun op' hop' => ?_
    exact hops op' (List.mem_cons_of_mem _ hop')

/-- The output traces keep the values of every completed cycle, unless they are written to. -/
theorem lasts_after (h : Regular c s) {ops : List Operation} (hm : m ∈ completed s ops)
    (hops : ∀ op ∈ ops, ¬ op.WritesTo m.runNumber) : Lasts c m (after s ops) := by
  induction ops generalizing s with
  | nil => cases hm
  | cons op ops ih =>
    have hrest : ∀ op' ∈ ops, ¬ op'.WritesTo m.runNumber :=
      fun op' hop' => hops op' (List.mem_cons_of_mem _ hop')
    rcases List.mem_append.1 hm with hm | hm
    · exact ((allLast_perform h op).lasts m hm).after hrest
    · exact ih (h.perform op) hm hrest

end Clocked.Session
