/-
Clocked.Expr.Basic — Boolean expressions over signals.

Every node carries a note of a type of the reader's choice: a description that
was read from text notes source locations, a circuit notes nothing.

* `erase` forgets the notes; `nodes` lists the nodes in preorder;
* `value` is the Boolean meaning under an assignment of the signals;
* `freeVariables` lists the signals read, and `value_congr` says that nothing
  else matters to the value.
-/
namespace Clocked

variable {α β : Type}

/-- A Boolean expression with notes of type `α`. -/
inductive Expr (α : Type) where
  | signal (note : α) (name : String)
  | and (note : α) (left right : Expr α)
  | or (note : α) (left right : Expr α)
  | not (note : α) (operand : Expr α)
deriving DecidableEq, Repr

namespace Expr

instance [Inhabited α] : Inhabited (Expr α) := ⟨.signal default ""⟩

/-! ## 1. Notes -/

/-- Changes the notes. -/
def map (f : α → β) : Expr α → Expr β
  | .signal n name => .signal (f n) name
  | .and n l r => .and (f n) (l.map f) (r.map f)
  | .or n l r => .or (f n) (l.map f) (r.map f)
  | .not n e => .not (f n) (e.map f)

/-- Forgets the notes. -/
def erase (e : Expr α) : Expr Unit := e.map fun _ => ()

theorem erase_map (f : α → β) (e : Expr α) : (e.map f).erase = e.erase := by
  induction e <;> simp_all [erase, map]

@[simp] theorem erase_erase (e : Expr α) : e.erase.erase = e.erase := erase_map _ e

/-- The note of the outermost node. -/
def note : Expr α → α
  | .signal n _ => n
  | .and n _ _ => n
  | .or n _ _ => n
  | .not n _ => n

/-- What a node is, apart from its operands. -/
inductive Head where
  | signal (name : String)
  | and
  | or
  | not
deriving DecidableEq, Repr

/-- The nodes in preorder, each with its note. -/
def nodes : Expr α → List (Head × α)
  | .signal n name => [(.signal name, n)]
  | .and n l r => (.and, n) :: (l.nodes ++ r.nodes)
  | .or n l r => (.or, n) :: (l.nodes ++ r.nodes)
  | .not n e => (.not, n) :: e.nodes

/-! ## 2. Meaning -/

/-- The Boolean value under an assignment. -/
def value (σ : String → Bool) : Expr α → Bool
  | .signal _ name => σ name
  | .and _ l r => l.value σ && r.value σ
  | .or _ l r => l.value σ || r.value σ
  | .not _ e => !e.value σ

/-- The signals read, from left to right; one read twice is listed twice. -/
def freeVariables : Expr α → List String
  | .signal _ name => [name]
  | .and _ l r => l.freeVariables ++ r.freeVariables
  | .or _ l r => l.freeVariables ++ r.freeVariables
  | .not _ e => e.freeVariables

/-- Assignments that agree on the signals read give the same value. -/
theorem value_congr {σ τ : String → Bool} {e : Expr α}
    (h : ∀ n ∈ e.freeVariables, σ n = τ n) : e.value σ = e.value τ := by
  induction e with
  | signal _ name => exact h name (by simp [freeVariables])
  | and _ l r ihl ihr =>
    simp only [value, freeVariables, List.mem_append] at *
    rw [ihl fun n hn => h n (.inl hn), ihr fun n hn => h n (.inr hn)]
  | or _ l r ihl ihr =>
    simp only [value, freeVariables, List.mem_append] at *
    rw [ihl fun n hn => h n (.inl hn), ihr fun n hn => h n (.inr hn)]
  | not _ e ih =>
    simp only [value, freeVariables] at *
    rw [ih h]

@[simp] theorem freeVariables_map (f : α → β) (e : Expr α) :
    (e.map f).freeVariables = e.freeVariables := by
  induction e <;> simp_all [map, freeVariables]

@[simp] theorem freeVariables_erase (e : Expr α) : e.erase.freeVariables = e.freeVariables :=
  freeVariables_map _ e

end Expr

end Clocked
