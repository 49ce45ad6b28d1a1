/-
Clocked.Source.Location — places in a source text.

A location counts lines and columns from 1 and the offset from 0; columns and
the offset count 16-bit units. `Location.after` moves a location over a piece of
text, one character after the other.
-/
import Clocked.Text.Units

namespace Clocked

open Text (units)

/-- A place in a source text. -/
structure Location where
  line : Nat
  column : Nat
  offset : Nat
deriving DecidableEq, Repr

namespace Location

/-- Where a text begins. -/
def start : Location := ⟨1, 1, 0⟩

instance : Inhabited Location := ⟨start⟩

/-- The place after one character. -/
def next (l : Location) (c : Char) : Location :=
  if c = '\n' then ⟨l.line + 1, 1, l.offset + 1⟩
  else ⟨l.line, l.column + units c, l.offset + units c⟩

/-- The place after a piece of text. -/
def after (l : Location) (s : List Char) : Location :=
  s.foldl next l

@[simp] theorem after_nil (l : Location) : l.after [] = l := rfl

@[simp] theorem after_cons (l : Location) (c : Char) (s : List Char) :
    l.after (c :: s) = (l.next c).after s := rfl

theorem after_append (l : Location) (s t : List Char) :
    l.after (s ++ t) = (l.after s).after t := by
  simp [after, List.foldl_append]

end Location

end Clocked
