/-
Clocked.Expr.Text — expressions as source text.

`!` binds tightest, then `&&`, then `||`; both binary operators group to the
left. An operand is put in parentheses exactly when its own strength is below
the one its place asks for; a right operand's place asks for one more than its
operator's.
-/
import Clocked.Expr.Basic

namespace Clocked.Expr

variable {α β : Type}

/-- How tightly the outermost node binds. -/
def strength : Expr α → Nat
  | .or _ _ _ => 0
  | .and _ _ _ => 1
  | .not _ _ => 2
  | .signal _ _ => 3

/-- Text in parentheses unless its strength is what the place asks for. -/
def wrap (asked strength : Nat) (text : String) : String :=
  if strength < asked then "(" ++ text ++ ")" else text

/-- An expression with only the parentheses it needs. -/
def text : Expr α → String
  | .signal _ name => name
  | .not _ e => "!" ++ wrap 2 e.strength e.text
  | .and _ l r => wrap 1 l.strength l.text ++ " && " ++ wrap 2 r.strength r.text
  | .or _ l r => wrap 0 l.strength l.text ++ " || " ++ wrap 1 r.strength r.text

theorem strength_map (f : α → β) (e : Expr α) : (e.map f).strength = e.strength := by
  cases e <;> rfl

/-- The text does not depend on the notes. -/
theorem text_map (f : α → β) (e : Expr α) : (e.map f).text = e.text := by
  induction e <;> simp_all [map, text, strength_map]

@[simp] theorem text_erase (e : Expr α) : e.erase.text = e.text := text_map _ e

end Clocked.Expr
