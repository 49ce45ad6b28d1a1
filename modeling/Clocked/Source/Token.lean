/-
Clocked.Source.Token — the tokens of a circuit description.

A token has a kind, the text it was read from, and a place. What a place is,
is left open: tokens read from a source text have locations there, a token list
made elsewhere may name places in its own way. Besides the kinds that the grammar
uses there are kinds `other word`, which no rule of the grammar takes; a token
list made elsewhere may hold any.
-/
import Clocked.Source.Location

namespace Clocked

namespace Token

/-! ## 1. Kinds -/

/-- What a token is to the grammar. -/
inductive Kind where
  | hardware
  | inputs
  | outputs
  | latch
  | update
  | simulate
  | arrow
  | equals
  | and
  | or
  | not
  | lparen
  | rparen
  | identifier
  | bits
  | newline
  | eof
  /-- A kind the grammar has no rule for. -/
  | other (word : String)
deriving DecidableEq, Repr, Inhabited

/-- The kinds of the grammar. -/
def Kind.all : List Kind :=
  [.hardware, .inputs, .outputs, .latch, .update, .simulate, .arrow, .equals, .and,
    .or, .not, .lparen, .rparen, .identifier, .bits, .newline, .eof]

/-- The name of a kind, as messages write it. -/
def Kind.name : Kind → String
  | .hardware => "HARDWARE"
  | .inputs => "INPUTS"
  | .outputs => "OUTPUTS"
  | .latch => "LATCH"
  | .update => "UPDATE"
  | .simulate => "SIMULATE"
  | .arrow => "ARROW"
  | .equals => "EQUALS"
  | .and => "AND"
  | .or => "OR"
  | .not => "NOT"
  | .lparen => "LPAREN"
  | .rparen => "RPAREN"
  | .identifier => "IDENTIFIER"
  | .bits => "BITS"
  | .newline => "NEWLINE"
  | .eof => "EOF"
  | .other word => word

/-- The kind with a given name. -/
def Kind.ofName (name : String) : Kind :=
  (Kind.all.find? (·.name = name)).getD (.other name)

/-- Whether a kind opens a section of a description. -/
def Kind.isSection : Kind → Bool
  | .hardware | .inputs | .outputs | .latch | .update | .simulate => true
  | _ => false

/-! ## 2. Section words -/

/-- How the kind of a reserved section word is shown. -/
def reservedKind (name : String) : Kind :=
  .other ("function " ++ name ++ "() \x7b [native code] \x7d")

/-- The kind of the section word after a point. Seven reserved words open no
section and are tokens of kinds of their own. -/
def sectionKind? : String → Option Kind
  | "hardware" => some .hardware
  | "inputs" => some .inputs
  | "outputs" => some .outputs
  | "latch" => some .latch
  | "latches" => some .latch
  | "update" => some .update
  | "simulate" => some .simulate
  | "constructor" => some (reservedKind "Object")
  | "toString" => some (reservedKind "toString")
  | "valueOf" => some (reservedKind "valueOf")
  | "hasOwnProperty" => some (reservedKind "hasOwnProperty")
  | "isPrototypeOf" => some (reservedKind "isPrototypeOf")
  | "propertyIsEnumerable" => some (reservedKind "propertyIsEnumerable")
  | "toLocaleString" => some (reservedKind "toLocaleString")
  | _ => none

end Token

/-! ## 3. Tokens -/

/-- A token with a place of type `α`. -/
structure Token (α : Type) where
  kind : Token.Kind
  text : String
  place : α
deriving DecidableEq, Repr, Inhabited

/-- The token that stands for the end of a text. -/
def Token.endOfText {α : Type} (place : α) : Token α := ⟨.eof, "", place⟩

end Clocked
