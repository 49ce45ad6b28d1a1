/-
Clocked.Analysis.Loops — combinational loops between updates.

The nodes of the dependency graph are the outputs of updates; an edge leads from
a signal to the output of every update that reads it. A loop is a component of
this graph with several members, or with one that reads itself.
-/
import Clocked.Analysis.Components
import Clocked.Element

namespace Clocked

namespace Update

/-! ## 1. The dependency graph -/

/-- The outputs of the updates that read a signal, in list order, each once. -/
def readers (us : List Update) (signal : String) : List String :=
  ((us.filter (signal ∈ ·.dependencies)).map (·.output)).eraseDups

/-- Whether an update with output `output` reads `signal`. -/
def Reads (us : List Update) (output signal : String) : Prop :=
  ∃ u ∈ us, u.output = output ∧ signal ∈ u.dependencies

instance (us : List Update) (output signal : String) : Decidable (Reads us output signal) :=
  inferInstanceAs (Decidable (∃ u ∈ us, u.output = output ∧ signal ∈ u.dependencies))

end Update

/-! ## 2. Order of signals -/

/-- Every element once, where it stands for the last time. -/
def lastPlaces {α : Type} [DecidableEq α] : List α → List α
  | [] => []
  | x :: xs => if x ∈ xs then lastPlaces xs else x :: lastPlaces xs

theorem mem_lastPlaces {α : Type} [DecidableEq α] {x : α} {xs : List α} :
    x ∈ lastPlaces xs ↔ x ∈ xs := by
  induction xs with
  | nil => simp [lastPlaces]
  | cons y ys ih =>
    by_cases h : y ∈ ys
    · simp only [lastPlaces, h, if_true, ih, List.mem_cons]
      exact ⟨.inr, fun hx => hx.elim (fun e => e ▸ h) id⟩
    · simp [lastPlaces, h, ih]

/-! ## 3. Loops -/

/-- Whether a component is a loop. -/
def isLoop (us : List Update) (component : List String) : Bool :=
  1 < component.length || component.any fun v => decide (Update.Reads us v v)

/-- The combinational loops between updates, in the order their search ends;
each in the order of the last update with each output. -/
def loops (us : List Update) : List (List String) :=
  let outputs := us.map (·.output)
  let found := Components.components (Update.readers us) outputs
  (found.filter (isLoop us)).map fun component =>
    (lastPlaces outputs).filter (· ∈ component)

end Clocked
