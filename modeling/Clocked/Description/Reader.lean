/-
Clocked.Description.Reader — reading a description from tokens.

The reader takes one token at a time. Its state says what it has gathered and
what may come next; `step?` is the state after a token, or nothing if the token
cannot stand there, and `refusal` is then the reason. Since each token is
judged by the state alone, the first token that fits no description is the one
refused, and reading stops in front of it. The end-of-text token is never
taken: `finish?` decides whether the description may end there.

Tokens may name their places in any type; the notes of the description are the
places of the tokens it was read from.

Expressions are read with a stack of open parentheses; each level keeps the
operands that wait for a right-hand side, `||` outside `&&` outside `!`.
-/
import Clocked.Description.Basic
import Clocked.Source.Tokens

namespace Clocked.Description

variable {α : Type}

/-! ## 1. Expressions under way -/

/-- What waits for the next operand at one level of parentheses. -/
structure Waiting (α : Type) where
  /-- Left-hand side and place of an `||`. -/
  disjunct : Option (Expr α × α) := none
  /-- Left-hand side and place of an `&&`. -/
  conjunct : Option (Expr α × α) := none
  /-- Places of the `!` before the operand, the last one first. -/
  negations : List α := []

namespace Waiting

/-- The operand of `&&`, once `e` has been read. -/
def factor (w : Waiting α) (e : Expr α) : Expr α :=
  w.negations.foldl (fun e place => .not place e) e

/-- The operand of `||`, once `e` has been read. -/
def term (w : Waiting α) (e : Expr α) : Expr α :=
  match w.conjunct with
  | none => w.factor e
  | some (left, place) => .and place left (w.factor e)

/-- The whole level, once `e` has been read. -/
def close (w : Waiting α) (e : Expr α) : Expr α :=
  match w.disjunct with
  | none => w.term e
  | some (left, place) => .or place left (w.term e)

/-- Waits inside one more `!`. -/
def negate (w : Waiting α) (place : α) : Waiting α :=
  { w with negations := place :: w.negations }

/-- Waits for the right-hand side of an `&&` after `e`. -/
def conjoin (w : Waiting α) (e : Expr α) (place : α) : Waiting α :=
  { disjunct := w.disjunct, conjunct := some (w.term e, place) }

/-- Waits for the right-hand side of an `||` after `e`. -/
def disjoin (w : Waiting α) (e : Expr α) (place : α) : Waiting α :=
  { disjunct := some (w.close e, place) }

end Waiting

/-! ## 2. States -/

/-- What the reader is in the middle of. -/
inductive Mode (α : Type) where
  /-- Before the word that opens a description. -/
  | opening
  /-- Before the circuit's name. -/
  | title
  /-- After the name, before a section. -/
  | top
  /-- Among the names of the inputs. -/
  | inputs
  /-- Among the names of the outputs. -/
  | outputs
  /-- Before a latch. -/
  | latch
  /-- After a latch's input. -/
  | latchArrow (input : String) (place : α)
  /-- After a latch's arrow. -/
  | latchOutput (input : String) (place : α)
  /-- Before an update. -/
  | update
  /-- After an update's output. -/
  | updateEquals (output : String) (place : α)
  /-- Before an operand, inside the levels `outer`. -/
  | operand (output : String) (place : α) (level : Waiting α) (outer : List (Waiting α))
  /-- After the operand `value`, inside the levels `outer`. -/
  | operator (output : String) (place : α) (level : Waiting α) (value : Expr α)
      (outer : List (Waiting α))
  /-- Before a stimulus. -/
  | stimulus
  /-- After a stimulus's signal. -/
  | stimulusEquals (signal : String) (place : α)
  /-- After a stimulus's equals sign. -/
  | stimulusBits (signal : String) (place : α)
  /-- After a stimulus, on its line. -/
  | stimulusEnd

/-- The description so far, the sections that may not come again, and the mode. -/
structure State (α : Type) where
  draft : Description α
  closed : List Token.Kind
  mode : Mode α

/-- A description of which nothing is known yet. -/
def blank [Inhabited α] : Description α := ⟨"", [], [], [], [], [], default⟩

/-- The state before the first token. -/
def State.initial [Inhabited α] : State α := ⟨blank, [], .opening⟩

/-- Whether a section may begin, or the description end. -/
def Mode.betweenSections : Mode α → Bool
  | .top | .inputs | .outputs | .latch | .update | .stimulus => true
  | _ => false

/-! ## 3. One token -/

namespace State

/-- Begins the section that a kind of token opens. -/
def enter? (s : State α) : Token.Kind → Option (State α)
  | .inputs =>
    if .inputs ∈ s.closed then none
    else some { s with mode := .inputs, closed := .inputs :: s.closed }
  | .outputs =>
    if .outputs ∈ s.closed then none
    else some { s with mode := .outputs, closed := .outputs :: s.closed }
  | .simulate =>
    if .simulate ∈ s.closed then none
    else some { s with mode := .stimulus, closed := .simulate :: s.closed }
  | .latch => some { s with mode := .latch }
  | .update => some { s with mode := .update }
  | _ => none

/-- Between the lines of a section: line ends are skipped and sections begin. -/
def between? (s : State α) (t : Token α) : Option (State α) :=
  if t.kind = .newline then some s else s.enter? t.kind

/-- Adds an update to the description. -/
def addUpdate (s : State α) (output : String) (place : α) (e : Expr α) : State α :=
  { s with
    mode := .update
    draft := { s.draft with updates := s.draft.updates ++ [⟨output, e, place⟩] } }

/-- A token where an operand must stand. -/
def operand? (s : State α) (output : String) (place : α) (level : Waiting α)
    (outer : List (Waiting α)) (t : Token α) : Option (State α) :=
  match t.kind with
  | .not => some { s with mode := .operand output place (level.negate t.place) outer }
  | .lparen => some { s with mode := .operand output place {} (level :: outer) }
  | .identifier =>
    some { s with mode := .operator output place level (.signal t.place t.text) outer }
  | _ => none

/-- A token after an operand. -/
def operator? (s : State α) (output : String) (place : α) (level : Waiting α)
    (value : Expr α) (outer : List (Waiting α)) (t : Token α) : Option (State α) :=
  match t.kind with
  | .and => some { s with mode := .operand output place (level.conjoin value t.place) outer }
  | .or => some { s with mode := .operand output place (level.disjoin value t.place) outer }
  | .rparen =>
    match outer with
    | [] => none
    | up :: outer => some { s with mode := .operator output place up (level.close value) outer }
  | .newline =>
    match outer with
    | [] => some (s.addUpdate output place (level.close value))
    | _ :: _ => none
  | _ => none

/-- The state after a token other than the end of the text. -/
def step? (s : State α) (t : Token α) : Option (State α) :=
  match s.mode with
  | .opening =>
    match t.kind with
    | .newline => some s
    | .hardware => some { s with mode := .title, draft := { s.draft with note := t.place } }
    | _ => none
  | .title =>
    match t.kind with
    | .identifier => some { s with mode := .top, draft := { s.draft with name := t.text } }
    | _ => none
  | .top => s.between? t
  | .inputs =>
    match t.kind with
    | .identifier =>
      some { s with draft := { s.draft with inputs := s.draft.inputs ++ [t.text] } }
    | _ => s.between? t
  | .outputs =>
    match t.kind with
    | .identifier =>
      some { s with draft := { s.draft with outputs := s.draft.outputs ++ [t.text] } }
    | _ => s.between? t
  | .latch =>
    match t.kind with
    | .identifier => some { s with mode := .latchArrow t.text t.place }
    | _ => s.between? t
  | .latchArrow input place =>
    match t.kind with
    | .arrow => some { s with mode := .latchOutput input place }
    | _ => none
  | .latchOutput input place =>
    match t.kind with
    | .identifier =>
      some { s with
        mode := .latch
        draft := { s.draft with latches := s.draft.latches ++ [⟨⟨input, t.text⟩, place⟩] } }
    | _ => none
  | .update =>
    match t.kind with
    | .identifier => some { s with mode := .updateEquals t.text t.place }
    | _ => s.between? t
  | .updateEquals output place =>
    match t.kind with
    | .equals => some { s with mode := .operand output place {} [] }
    | _ => none
  | .operand output place level outer => s.operand? output place level outer t
  | .operator output place level value outer => s.operator? output place level value outer t
  | .stimulus =>
    match t.kind with
    | .identifier => some { s with mode := .stimulusEquals t.text t.place }
    | _ => s.between? t
  | .stimulusEquals signal place =>
    match t.kind with
    | .equals => some { s with mode := .stimulusBits signal place }
    | _ => none
  | .stimulusBits signal place =>
    match t.kind with
    | .bits =>
      let values := t.text.toList.map (· == '1')
      some { s with
        mode := .stimulusEnd
        draft := { s.draft with stimuli := s.draft.stimuli ++ [⟨signal, values, place⟩] } }
    | _ => none
  | .stimulusEnd =>
    match t.kind with
    | .newline => some { s with mode := .stimulus }
    | _ => none

/-- The description, if it may end here. -/
def finish? (s : State α) : Option (Description α) :=
  match s.mode with
  | .operator output place level value [] =>
    some (s.addUpdate output place (level.close value)).draft
  | .stimulusEnd => some s.draft
  | mode => if mode.betweenSections then some s.draft else none

/-- Why a token cannot stand next. -/
def refusal (s : State α) (t : Token α) : SyntaxError.Cause :=
  if s.mode.betweenSections && t.kind.isSection then .duplicateSection t.text
  else
    match s.mode with
    | .opening => .expected .hardware t.kind
    | .title => .expected .identifier t.kind
    | .top => .expectedSection t.kind
    | .inputs | .outputs | .latch | .update | .stimulus => .unexpectedToken t.kind
    | .latchArrow _ _ => .expected .arrow t.kind
    | .latchOutput _ _ => .expected .identifier t.kind
    | .updateEquals _ _ => .expected .equals t.kind
    | .operand _ _ _ _ => .expectedOperand t.kind
    | .operator _ _ _ _ [] => .expectedLineEnd t.kind
    | .operator _ _ _ _ (_ :: _) => .expected .rparen t.kind
    | .stimulusEquals _ _ => .expected .equals t.kind
    | .stimulusBits _ _ => .expected .bits t.kind
    | .stimulusEnd => .expectedLineEnd t.kind

/-- Refuses a token at its place. -/
def refuse (s : State α) (t : Token α) : SyntaxError α := ⟨s.refusal t, t.place⟩

end State

/-! ## 4. A list of tokens -/

/-- Ends the reading at an end-of-text token. -/
def State.conclude (s : State α) (t : Token α) : Except (SyntaxError α) (Description α) :=
  match s.finish? with
  | some d =>
    match stimulusFault? d.inputs [] d.stimuli with
    | none => .ok d
    | some e => .error e
  | none => .error (s.refuse t)

/-- Reads on from a state; the outcome and the tokens not taken. A list that
runs out is read as if an end-of-text token followed, at the default place. -/
def State.read [Inhabited α] (s : State α) :
    List (Token α) → Except (SyntaxError α) (Description α) × List (Token α)
  | [] => (s.conclude (Token.endOfText default), [])
  | t :: ts =>
    if t.kind = .eof then (s.conclude t, t :: ts)
    else
      match s.step? t with
      | some s' => s'.read ts
      | none => (.error (s.refuse t), t :: ts)

/-- Reads a description from tokens; the outcome and the tokens not taken. -/
def ofTokens [Inhabited α] (ts : List (Token α)) :
    Except (SyntaxError α) (Description α) × List (Token α) :=
  State.initial.read ts

/-- Reads a description from a source text. -/
def ofText (source : String) : Except (SyntaxError Location) (Description Location) := do
  let ts ← Token.ofText source
  (ofTokens ts).1

end Clocked.Description

namespace Clocked.Expr

/-- Reads an expression as the right-hand side of the first update of a small
description; places count from the start of that description. -/
def ofText (text : String) : Except (SyntaxError Location) (Expr Location) := do
  let d ← Description.ofText (".hardware h\n.update\nx = " ++ text)
  match d.updates with
  | u :: _ => return u.expr
  | [] => throw ⟨.expectedOperand .eof, Location.start⟩

end Clocked.Expr
