/-
Clocked.Proofs.Expr.Evaluation — what an expression reads, and what an update writes.

An expression is evaluated by reading its signals in the order in which `freeVariables` lists
them, up to the first that is unbound (`Expr.eval_eq`). So all of them must be bound for a
value, whatever the operators do with the values, and nothing but them matters. An update
writes its output after that, and a cycle that it stops has not been changed by it
(`Run.performUpdates_of_eval_error`).
-/
import Clocked.Run

namespace Clocked

/-! ## 1. Signals read from a store -/

namespace Store

variable {s : Store} {names names' : List String} {n : String}

/-- The values of the signals; those without a value count as 0. -/
def assignment (s : Store) (n : String) : Bool := (s.lookup n).getD false

/-- The first of some signals that has no value. -/
def firstUnbound? (s : Store) (names : List String) : Option String :=
  names.find? fun n => !s.has n

theorem firstUnbound?_append :
    s.firstUnbound? (names ++ names') = (s.firstUnbound? names).or (s.firstUnbound? names') :=
  List.find?_append

theorem has_iff : s.has n = true ↔ n ∈ s.names := s.values.contains_iff n

theorem firstUnbound?_eq_none_iff : s.firstUnbound? names = none ↔ ∀ n ∈ names, n ∈ s.names := by
  simp [firstUnbound?, List.find?_eq_none, has_iff]

theorem firstUnbound?_eq_some_iff : s.firstUnbound? names = some n ↔
    ∃ before after, names = before ++ n :: after ∧ (∀ m ∈ before, m ∈ s.names) ∧ n ∉ s.names := by
  have hnot : s.has n = false ↔ n ∉ s.names := by rw [← has_iff, Bool.not_eq_true]
  simp only [firstUnbound?, List.find?_eq_some_iff_append, Bool.not_eq_true', Bool.not_not, has_iff,
    hnot]
  constructor
  · rintro ⟨hn, before, after, hsplit, hbound⟩
    exact ⟨before, after, hsplit, hbound, hn⟩
  · rintro ⟨before, after, hsplit, hbound, hn⟩
    exact ⟨hn, before, after, hsplit, hbound⟩

/-- Stores that agree on some signals have the same first one unbound. -/
theorem firstUnbound?_congr {s' : Store} (h : ∀ n ∈ names, s'.lookup n = s.lookup n) :
    s'.firstUnbound? names = s.firstUnbound? names := by
  induction names with
  | nil => rfl
  | cons n names ih =>
    have hn : s'.has n = s.has n := congrArg Option.isSome (h n List.mem_cons_self)
    have hrest := ih fun m hm => h m (List.mem_cons_of_mem _ hm)
    simp only [firstUnbound?, List.find?_cons, hn] at hrest ⊢
    rw [hrest]

end Store

/-! ## 2. Expressions -/

namespace Expr

variable {α : Type}

/-- Evaluation reads all signals of the expression from left to right, and then has its value. -/
theorem eval_eq (e : Expr α) (s : Store) :
    e.eval s = match s.firstUnbound? e.freeVariables with
      | some n => .error (.unbound n)
      | none => .ok (e.value s.assignment) := by
  induction e with
  | signal _ name =>
    have hhas : s.has name = (s.lookup name).isSome := rfl
    rw [eval, freeVariables, value, Store.read, Store.firstUnbound?, Store.assignment,
      List.find?_singleton, hhas]
    cases s.lookup name <;> rfl
  | and _ l r ihl ihr =>
    rw [eval, ihl, ihr, freeVariables, Store.firstUnbound?_append]
    cases s.firstUnbound? l.freeVariables with
    | some n => rfl
    | none => cases s.firstUnbound? r.freeVariables <;> rfl
  | or _ l r ihl ihr =>
    rw [eval, ihl, ihr, freeVariables, Store.firstUnbound?_append]
    cases s.firstUnbound? l.freeVariables with
    | some n => rfl
    | none => cases s.firstUnbound? r.freeVariables <;> rfl
  | not _ e ih =>
    rw [eval, ih, freeVariables]
    cases s.firstUnbound? e.freeVariables <;> rfl

variable {e : Expr α} {s : Store}

theorem eval_eq_ok_iff {v : Bool} : e.eval s = .ok v ↔
    (∀ n ∈ e.freeVariables, n ∈ s.names) ∧ v = e.value s.assignment := by
  rw [eval_eq, ← Store.firstUnbound?_eq_none_iff]
  cases s.firstUnbound? e.freeVariables with
  | some n => simp
  | none => simp [eq_comm]

theorem eval_eq_error_iff {err : SimulationError} : e.eval s = .error err ↔
    ∃ before n after, e.freeVariables = before ++ n :: after ∧
      (∀ m ∈ before, m ∈ s.names) ∧ n ∉ s.names ∧ err = .unbound n := by
  have hfirst : e.eval s = .error err ↔
      ∃ n, s.firstUnbound? e.freeVariables = some n ∧ err = .unbound n := by
    rw [eval_eq]
    cases s.firstUnbound? e.freeVariables with
    | some n => simp [eq_comm]
    | none => simp
  rw [hfirst]
  constructor
  · rintro ⟨n, hn, rfl⟩
    obtain ⟨before, after, hsplit, hbound, hn⟩ := Store.firstUnbound?_eq_some_iff.1 hn
    exact ⟨before, n, after, hsplit, hbound, hn, rfl⟩
  · rintro ⟨before, n, after, hsplit, hbound, hn, rfl⟩
    exact ⟨n, Store.firstUnbound?_eq_some_iff.2 ⟨before, after, hsplit, hbound, hn⟩, rfl⟩

/-- An expression whose signals are all bound has its Boolean value. -/
theorem eval_of_bound {σ : String → Bool} (h : ∀ n ∈ e.freeVariables, s.lookup n = some (σ n)) :
    e.eval s = .ok (e.value σ) := by
  refine eval_eq_ok_iff.2 ⟨fun n hn => ?_, value_congr fun n hn => ?_⟩
  · rw [← s.lookup_isSome_iff, h n hn]
    rfl
  · rw [Store.assignment, h n hn]
    rfl

/-- Stores that agree on the signals read give the same outcome. -/
theorem eval_congr {s' : Store} (h : ∀ n ∈ e.freeVariables, s'.lookup n = s.lookup n) :
    e.eval s' = e.eval s := by
  have hvalue : e.value s'.assignment = e.value s.assignment :=
    value_congr fun n hn => congrArg (·.getD false) (h n hn)
  rw [eval_eq, eval_eq, Store.firstUnbound?_congr h, hvalue]

end Expr

/-! ## 3. Updates -/

/-- From `s` to `s'` a signal got a value; it is a new one only if it had none, and nothing else
has changed. -/
structure Store.Assigns (s : Store) (name : String) (v : Bool) (s' : Store) : Prop where
  assigned : s'.lookup name = some v
  others : ∀ n, n ≠ name → s'.lookup n = s.lookup n
  names : s'.names = if name ∈ s.names then s.names else s.names ++ [name]
  cycle : s'.cycle = s.cycle

theorem Store.assigns_write (s : Store) (name : String) (v : Bool) :
    s.Assigns name v (s.write name v) where
  assigned := by rw [lookup_write, if_pos rfl]
  others := fun n hn => by rw [lookup_write, if_neg hn]
  names := s.names_write name v
  cycle := s.cycle_write name v

namespace Update

variable {u : Update} {s : Store}

/-- An update whose expression has a value writes it to its output, and writes nothing else. -/
theorem evaluate_of_eval_ok {v : Bool} (h : u.expr.eval s = .ok v) :
    ∃ s', u.evaluate s = .ok (v, s') ∧ s.Assigns u.output v s' := by
  refine ⟨s.write u.output v, ?_, s.assigns_write u.output v⟩
  rw [evaluate, h]
  rfl

theorem evaluate_of_eval_error {err : SimulationError} (h : u.expr.eval s = .error err) :
    u.evaluate s = .error err := by
  rw [evaluate, h]
  rfl

end Update

/-- A cycle that stops at an update with an unbound signal is as it was before the update. -/
theorem Run.performUpdates_of_eval_error {c : Circuit} {time : Nat} {ready : List String}
    {u : Update} {us : List Update} {r : Run} {err : SimulationError} (hready : u.missing ready = [])
    (h : u.expr.eval r.store = .error err) :
    performUpdates c time ready (u :: us) r = (.error (.simulation err), r) := by
  rw [performUpdates, if_pos hready, Attempt.bind_of_ok (Attempt.get_apply r),
    Update.evaluate_of_eval_error h]
  exact Attempt.bind_of_error (Attempt.check_error err r)

/-! ## 4. Evaluation -/

/-- **An expression has its Boolean value exactly if all its signals are bound.** Otherwise the
first unbound one is reported, whatever the values of the others; no other signals matter. So
an update changes its output and nothing else, or nothing at all. -/
theorem Expr.eval_spec {α : Type} (e : Expr α) (s : Store) :
    (∀ v, e.eval s = .ok v ↔
      (∀ n ∈ e.freeVariables, n ∈ s.names) ∧ v = e.value s.assignment) ∧
    (∀ err, e.eval s = .error err ↔ ∃ before n after, e.freeVariables = before ++ n :: after ∧
      (∀ m ∈ before, m ∈ s.names) ∧ n ∉ s.names ∧ err = .unbound n) ∧
    (∀ s' : Store, (∀ n ∈ e.freeVariables, s'.lookup n = s.lookup n) → e.eval s' = e.eval s) ∧
    ∀ u : Update,
      (∀ v, u.expr.eval s = .ok v → ∃ s', u.evaluate s = .ok (v, s') ∧ s.Assigns u.output v s') ∧
      ∀ err, u.expr.eval s = .error err → u.evaluate s = .error err ∧
        ∀ (c : Circuit) (time : Nat) (ready : List String) (us : List Update) (r : Run),
          r.store = s → u.missing ready = [] →
          Run.performUpdates c time ready (u :: us) r = (.error (.simulation err), r) := by
  refine ⟨fun v => eval_eq_ok_iff, fun err => eval_eq_error_iff, fun s' h => eval_congr h,
    fun u => ⟨fun v h => Update.evaluate_of_eval_ok h, fun err h =>
      ⟨Update.evaluate_of_eval_error h, fun c time ready us r hstore hready => ?_⟩⟩⟩
  subst hstore
  exact Run.performUpdates_of_eval_error hready h

end Clocked
