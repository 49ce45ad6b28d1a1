/-
Clocked.Source.SyntaxError — why a text is no circuit description.

An error is a cause and the place of the token or text at fault. The wording of
every cause stands in `Cause.message`; `Cause.messageAt` adds a line and a column.
-/
import Clocked.Source.Token

namespace Clocked

/-- What is wrong with a text or a list of tokens. -/
inductive SyntaxError.Cause where
  /-- No token begins with this character. -/
  | unexpectedCharacter (found : Char)
  /-- A block comment has no end. -/
  | unterminatedComment
  /-- The word after a point names no section. -/
  | unknownSection (name : String)
  /-- A digit other than 0 and 1. -/
  | invalidBit (found : Char)
  /-- One kind of token can stand here, and another does. -/
  | expected (wanted found : Token.Kind)
  /-- A section that may stand once stands again. -/
  | duplicateSection (word : String)
  /-- No section begins after the circuit's name. -/
  | expectedSection (found : Token.Kind)
  /-- A section holds a token that is not part of it. -/
  | unexpectedToken (found : Token.Kind)
  /-- Something follows on a line that is complete. -/
  | expectedLineEnd (found : Token.Kind)
  /-- An operand of an expression is missing. -/
  | expectedOperand (found : Token.Kind)
  /-- A stimulus for a signal that is no input. -/
  | strayStimulus (signal : String)
  /-- A second stimulus for an input. -/
  | repeatedStimulus (signal : String)
deriving DecidableEq, Repr, Inhabited

/-- A cause with the place it was found at. -/
structure SyntaxError (α : Type) where
  cause : SyntaxError.Cause
  place : α
deriving DecidableEq, Repr, Inhabited

/-- The wording of a cause. -/
def SyntaxError.Cause.message : SyntaxError.Cause → String
  | .unexpectedCharacter c => "Unexpected character '" ++ Text.firstUnit c ++ "'"
  | .unterminatedComment => "Unterminated comment"
  | .unknownSection name => "Unknown section '." ++ name ++ "'"
  | .invalidBit c => "Invalid bit '" ++ Text.firstUnit c ++ "'"
  | .expected wanted found => "Expected " ++ wanted.name ++ ", got " ++ found.name
  | .duplicateSection word => "Duplicate section '" ++ word ++ "'"
  | .expectedSection found => "Expected a section, got " ++ found.name
  | .unexpectedToken found => "Unexpected token: " ++ found.name
  | .expectedLineEnd found => "Expected end of line, got " ++ found.name
  | .expectedOperand found => "Expected signal, '!' or '(', got " ++ found.name
  | .strayStimulus signal => "Stimulus for '" ++ signal ++ "', which is not an input"
  | .repeatedStimulus signal => "Duplicate stimulus for '" ++ signal ++ "'"

/-- The wording of a cause with the line and the column it was found at. -/
def SyntaxError.Cause.messageAt (c : SyntaxError.Cause) (line column : String) : String :=
  c.message ++ " at line " ++ line ++ ", column " ++ column

/-- The message of an error in a source text. -/
def SyntaxError.message (e : SyntaxError Location) : String :=
  e.cause.messageAt (toString e.place.line) (toString e.place.column)

end Clocked
