/-
Clocked.Proofs.Circuit.OutOfOrder — what is reported about an update out of order.

`FirstEarly` picks the first update of a design that reads a signal too early.
`outOfOrder_spec` says what the error about it names: the signals it lacks, and,
if its output depends on itself, the outputs on the loop, found by reachability
and not by any search.
-/
import Clocked.Proofs.Analysis.Loops
import Clocked.Proofs.Circuit.Behaviour

namespace Clocked

/-! ## 1. The first update that reads too early -/

namespace Design

/-- `u` reads a signal that is not available after the updates `before` it, and
none of those does. -/
def FirstEarly (d : Design) (before : List Update) (u : Update) : Prop :=
  (∃ after, d.updates = before ++ u :: after) ∧
    (∃ n ∈ u.dependencies, n ∉ d.available before) ∧
    ∀ before' v after', before = before' ++ v :: after' →
      ∀ n ∈ v.dependencies, n ∈ d.available before'

theorem exists_firstEarly {d : Design} (h : ¬ d.Ordered) : ∃ before u, d.FirstEarly before u := by
  rw [ordered_iff] at h
  obtain ⟨before, u, after, hsplit, hbefore, hmiss⟩ := Update.exists_first_of_not_orderedFrom h
  exact ⟨before, u, ⟨after, hsplit⟩, hmiss, Update.orderedFrom_iff.1 hbefore⟩

/-- `l` is the first latch whose input nothing in the design produces. -/
def FirstStray (d : Design) (l : Latch) : Prop :=
  ∃ before after, d.latches = before ++ l :: after ∧ l.input ∉ d.signals ∧
    ∀ k ∈ before, k.input ∈ d.signals

theorem exists_firstStray {d : Design} (h : ¬ ∀ l ∈ d.latches, l.input ∈ d.signals) :
    ∃ l, d.FirstStray l := by
  cases hfind : d.latches.find? (·.input ∉ d.signals) with
  | none =>
    refine absurd (fun l hl => ?_) h
    have := List.find?_eq_none.1 hfind l hl
    simpa using this
  | some l =>
    obtain ⟨hl, before, after, hsplit, hbefore⟩ := List.find?_eq_some_iff_append.1 hfind
    refine ⟨l, before, after, hsplit, by simpa using hl, fun k hk => ?_⟩
    simpa using hbefore k hk

end Design

/-! ## 2. The error -/

/-- A signal depends on itself through reads of updates by updates. -/
def Update.SelfDependent (us : List Update) (m : String) : Prop :=
  Relation.TransGen (Update.Feeds us) m m

/-- The error about an update of a circuit that lacks signals: it is of the kind
for order, it names the output and what is missing, each once, and its message
names a loop exactly when the output depends on itself. -/
theorem Circuit.outOfOrder_spec (c : Circuit) {u : Update} (hu : u ∈ c.updates)
    (missing : List String) (cycle : Nat) :
    (c.outOfOrder u missing cycle).kind = "illegal-order" ∧
    (c.outOfOrder u missing cycle).signals = u.output :: missing.eraseDups ∧
    (Update.SelfDependent c.updates u.output ∧
        (∃ loop : List String, loop.Sublist c.updateOutputs ∧
          (∀ n, n ∈ loop ↔ Update.Linked c.updates u.output n) ∧
          (c.outOfOrder u missing cycle).message =
            "Variable " ++ u.output ++ " may be cyclical at cycle " ++ toString cycle ++ ": " ++
              ("combinational loop through " ++ ", ".intercalate loop)) ∨
      ¬ Update.SelfDependent c.updates u.output ∧
        (c.outOfOrder u missing cycle).message =
          "Variable " ++ u.output ++ " may be cyclical at cycle " ++ toString cycle ++ ": " ++
            (", ".intercalate missing.eraseDups ++ " not yet defined when it is updated")) := by
  have hout : u.output ∈ c.updates.map (·.output) := List.mem_map_of_mem hu
  unfold Circuit.outOfOrder
  cases hfind : (loops c.updates).find? (u.output ∈ ·) with
  | some loop =>
    have hloop : loop ∈ loops c.updates := List.mem_of_find?_eq_some hfind
    have hmem : u.output ∈ loop := by simpa using List.find?_some hfind
    have hself : Update.SelfDependent c.updates u.output :=
      (exists_loop_iff hout).1 ⟨loop, hloop, hmem⟩
    exact ⟨rfl, rfl, .inl ⟨hself, loop, loop_sublist hloop, mem_loop_iff hloop hmem, rfl⟩⟩
  | none =>
    have hself : ¬ Update.SelfDependent c.updates u.output := by
      intro h
      obtain ⟨loop, hloop, hmem⟩ := (exists_loop_iff hout).2 h
      rw [List.find?_eq_none] at hfind
      exact hfind loop hloop (decide_eq_true hmem)
    exact ⟨rfl, rfl, .inr ⟨hself, rfl⟩⟩

end Clocked
