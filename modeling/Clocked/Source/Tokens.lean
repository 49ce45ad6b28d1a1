/-
Clocked.Source.Tokens — the token list of a text.

Lexemes are read one after the other from the front, each placed after all text
before it; a token that marks the end of the text comes last.
-/
import Clocked.Source.Lexeme

namespace Clocked.Token

/-- The tokens of a text that begins at a place. -/
def ofTextFrom (start : Location) (s : List Char) :
    Except (SyntaxError Location) (List (Token Location)) :=
  match s with
  | [] => .ok [Token.endOfText start]
  | c :: s =>
    match h : Lexeme.read c s with
    | .error fault => .error (fault.toError start)
    | .ok (lexeme, rest) =>
      have : rest.length < s.length + 1 := Lexeme.length_lt_of_read h
      match ofTextFrom (start.after lexeme.text) rest with
      | .ok more => .ok (lexeme.tokens start ++ more)
      | .error e => .error e
termination_by s.length

/-- The tokens of a source text. -/
def ofText (source : String) : Except (SyntaxError Location) (List (Token Location)) :=
  ofTextFrom Location.start source.toList

/-! ## Equations -/

@[simp] theorem ofTextFrom_nil (start : Location) :
    ofTextFrom start [] = .ok [Token.endOfText start] := by
  rw [ofTextFrom]

theorem ofTextFrom_cons_error {start : Location} {c : Char} {s : List Char}
    {fault : Lexeme.Fault} (h : Lexeme.read c s = .error fault) :
    ofTextFrom start (c :: s) = .error (fault.toError start) := by
  rw [ofTextFrom]
  split
  · next f hf => rw [h] at hf; cases hf; rfl
  · next l r hr => rw [h] at hr; cases hr

theorem ofTextFrom_cons_ok {start : Location} {c : Char} {s rest : List Char}
    {lexeme : Lexeme} (h : Lexeme.read c s = .ok (lexeme, rest)) :
    ofTextFrom start (c :: s) =
      (ofTextFrom (start.after lexeme.text) rest).map (lexeme.tokens start ++ ·) := by
  rw [ofTextFrom]
  split
  · next f hf => rw [h] at hf; cases hf
  · next l r hr =>
    rw [h] at hr
    cases hr
    simp only
    split <;> next heq => simp [heq, Except.map]

end Clocked.Token
