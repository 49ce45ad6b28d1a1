/-
Clocked.Source.Lexeme — one piece of source text at a time.

A lexeme is a token's text or a stretch between tokens: blanks or a comment.
`Lexeme.read` takes the lexeme that a non-empty text begins with. Its one
general law is `read_eq_ok`: text and rest make up what was read, and the text
is not empty, so reading on ends.
-/
import Clocked.Source.SyntaxError

namespace Clocked

/-- A piece of source text: a token of the given kind, or, without a kind,
a stretch that separates tokens. -/
structure Lexeme where
  kind : Option Token.Kind
  text : List Char
deriving DecidableEq, Repr

namespace Lexeme

/-- Why no lexeme can be read, with the text before the place at fault. -/
structure Fault where
  cause : SyntaxError.Cause
  before : List Char
deriving DecidableEq, Repr

/-- A lexeme and the text after it. -/
abbrev Reading := Except Fault (Lexeme × List Char)

/-! ## 1. Classes of characters

Letters and digits are those of ASCII. -/

/-- Blanks other than the line end. -/
def isBlank (c : Char) : Bool := c = ' ' || c = '\t' || c = '\r'

/-- The two digits that are bits. -/
def isBit (c : Char) : Bool := c = '0' || c = '1'

/-- What a name may begin with. -/
def isNameStart (c : Char) : Bool := c.isAlpha || c = '_'

/-- What a name may go on with. -/
def isNamePart (c : Char) : Bool := c.isAlphanum || c = '_'

/-! ## 2. Comments -/

/-- Splits after the first `*/`. -/
def splitComment : List Char → Option (List Char × List Char)
  | [] => none
  | '*' :: '/' :: r => some (['*', '/'], r)
  | c :: r => (splitComment r).map fun p => (c :: p.1, p.2)

/-- Reads what begins with a slash: a comment to the end of the line, or one
that ends at `*/`. -/
def readComment : List Char → Reading
  | '/' :: r =>
    .ok (⟨none, '/' :: '/' :: r.takeWhile (· ≠ '\n')⟩, r.dropWhile (· ≠ '\n'))
  | '*' :: r =>
    match splitComment r with
    | some (body, rest) => .ok (⟨none, '/' :: '*' :: body⟩, rest)
    | none => .error ⟨.unterminatedComment, []⟩
  | _ => .error ⟨.unexpectedCharacter '/', []⟩

/-! ## 3. Symbols and words -/

/-- Reads a symbol, if one stands at the front. -/
def readSymbol? : Char → List Char → Option (Lexeme × List Char)
  | '\n', r => some (⟨some .newline, ['\n']⟩, r)
  | '-', '>' :: r => some (⟨some .arrow, ['-', '>']⟩, r)
  | '&', '&' :: r => some (⟨some .and, ['&', '&']⟩, r)
  | '|', '|' :: r => some (⟨some .or, ['|', '|']⟩, r)
  | '=', r => some (⟨some .equals, ['=']⟩, r)
  | '!', r => some (⟨some .not, ['!']⟩, r)
  | '(', r => some (⟨some .lparen, ['(']⟩, r)
  | ')', r => some (⟨some .rparen, [')']⟩, r)
  | _, _ => none

/-- Reads the section word after a point. -/
def readSection (s : List Char) : Reading :=
  let name := s.takeWhile Char.isAlpha
  match Token.sectionKind? (String.ofList name) with
  | some kind => .ok (⟨some kind, '.' :: name⟩, s.dropWhile Char.isAlpha)
  | none => .error ⟨.unknownSection (String.ofList name), []⟩

/-- Reads a run of digits, all of which must be bits. -/
def readBits (s : List Char) : Reading :=
  let digits := s.takeWhile Char.isDigit
  match digits.dropWhile isBit with
  | [] => .ok (⟨some .bits, digits⟩, s.dropWhile Char.isDigit)
  | d :: _ => .error ⟨.invalidBit d, digits.takeWhile isBit⟩

/-- Reads what is neither blank, comment nor symbol. -/
def readWord (c : Char) (s : List Char) : Reading :=
  if c = '.' then readSection s
  else if c.isDigit then readBits (c :: s)
  else if isNameStart c then
    .ok (⟨some .identifier, c :: s.takeWhile isNamePart⟩, s.dropWhile isNamePart)
  else .error ⟨.unexpectedCharacter c, []⟩

/-! ## 4. One lexeme -/

/-- Reads the lexeme that the text `c :: s` begins with. -/
def read (c : Char) (s : List Char) : Reading :=
  if isBlank c then .ok (⟨none, c :: s.takeWhile isBlank⟩, s.dropWhile isBlank)
  else if c = '/' then readComment s
  else
    match readSymbol? c s with
    | some p => .ok p
    | none => readWord c s

theorem splitComment_eq_some {s body rest : List Char}
    (h : splitComment s = some (body, rest)) : s = body ++ rest := by
  fun_induction splitComment s generalizing body with
  | case1 => simp at h
  | case2 r =>
    simp only [Option.some.injEq, Prod.mk.injEq] at h
    obtain ⟨rfl, rfl⟩ := h
    rfl
  | case3 c r _ ih =>
    simp only [Option.map_eq_some_iff, Prod.mk.injEq, Prod.exists] at h
    obtain ⟨b, t, hb, rfl, rfl⟩ := h
    rw [ih hb, List.cons_append]

theorem readComment_eq_ok {s rest : List Char} {l : Lexeme}
    (h : readComment s = .ok (l, rest)) : '/' :: s = l.text ++ rest ∧ l.text ≠ [] := by
  unfold readComment at h
  split at h
  · next r =>
    simp only [Except.ok.injEq, Prod.mk.injEq] at h
    obtain ⟨rfl, rfl⟩ := h
    simp
  · next r =>
    split at h
    · next body t hb =>
      simp only [Except.ok.injEq, Prod.mk.injEq] at h
      obtain ⟨rfl, rfl⟩ := h
      simp [splitComment_eq_some hb]
    · simp at h
  · simp at h

theorem readSymbol?_eq_some {c : Char} {s rest : List Char} {l : Lexeme}
    (h : readSymbol? c s = some (l, rest)) : c :: s = l.text ++ rest ∧ l.text ≠ [] := by
  unfold readSymbol? at h
  split at h <;> cases h <;> simp

theorem readWord_eq_ok {c : Char} {s rest : List Char} {l : Lexeme}
    (h : readWord c s = .ok (l, rest)) : c :: s = l.text ++ rest ∧ l.text ≠ [] := by
  unfold readWord at h
  split at h
  · next hc =>
    subst hc
    unfold readSection at h
    simp only at h
    split at h
    · simp only [Except.ok.injEq, Prod.mk.injEq] at h
      obtain ⟨rfl, rfl⟩ := h
      simp
    · simp at h
  · split at h
    · next hd =>
      unfold readBits at h
      simp only at h
      split at h
      · simp only [Except.ok.injEq, Prod.mk.injEq] at h
        obtain ⟨rfl, rfl⟩ := h
        simp [hd]
      · simp at h
    · split at h
      · simp only [Except.ok.injEq, Prod.mk.injEq] at h
        obtain ⟨rfl, rfl⟩ := h
        simp
      · simp at h

/-- A lexeme's text and the rest are what was read, and the text is not empty. -/
theorem read_eq_ok {c : Char} {s rest : List Char} {l : Lexeme}
    (h : read c s = .ok (l, rest)) : c :: s = l.text ++ rest ∧ l.text ≠ [] := by
  unfold read at h
  split at h
  · simp only [Except.ok.injEq, Prod.mk.injEq] at h
    obtain ⟨rfl, rfl⟩ := h
    simp
  · split at h
    · next hc => subst hc; exact readComment_eq_ok h
    · split at h
      · next p hp =>
        simp only [Except.ok.injEq] at h
        subst h
        exact readSymbol?_eq_some hp
      · exact readWord_eq_ok h

/-- Reading a lexeme leaves less to read. -/
theorem length_lt_of_read {c : Char} {s rest : List Char} {l : Lexeme}
    (h : read c s = .ok (l, rest)) : rest.length < (c :: s).length := by
  obtain ⟨heq, hne⟩ := read_eq_ok h
  rw [heq, List.length_append]
  have := List.length_pos_iff.2 hne
  omega

/-! ## 5. From lexemes to tokens -/

/-- The tokens of a lexeme that begins at a place: one, or none for a stretch
between tokens. -/
def tokens (l : Lexeme) (start : Location) : List (Token Location) :=
  match l.kind with
  | some kind => [⟨kind, String.ofList l.text, start⟩]
  | none => []

/-- A fault in a text that begins at a place. -/
def Fault.toError (f : Fault) (start : Location) : SyntaxError Location :=
  ⟨f.cause, start.after f.before⟩

end Lexeme

end Clocked
