/-
Clocked.Description.Basic — circuits as they are described.

A description lists names, latches, updates and stimuli as a text gives them;
nothing ties them together yet. Like expressions, descriptions carry notes:
those read from text note where each part was found.
-/
import Clocked.Element
import Clocked.Source.SyntaxError

namespace Clocked

variable {α β : Type}

namespace Description

/-- A latch of a description. -/
structure LatchLine (α : Type) extends Latch where
  note : α
deriving DecidableEq, Repr, Inhabited

/-- An update of a description. -/
structure UpdateLine (α : Type) where
  output : String
  expr : Expr α
  note : α
deriving DecidableEq, Repr, Inhabited

/-- The values of one input. -/
structure StimulusLine (α : Type) where
  signal : String
  values : List Bool
  note : α
deriving DecidableEq, Repr, Inhabited

/-- Changes the note of a latch. -/
def LatchLine.map (f : α → β) (l : LatchLine α) : LatchLine β := ⟨l.toLatch, f l.note⟩

/-- Changes the notes of an update. -/
def UpdateLine.map (f : α → β) (u : UpdateLine α) : UpdateLine β :=
  ⟨u.output, u.expr.map f, f u.note⟩

/-- Changes the note of a stimulus. -/
def StimulusLine.map (f : α → β) (s : StimulusLine α) : StimulusLine β :=
  ⟨s.signal, s.values, f s.note⟩

/-- The update without notes. -/
def UpdateLine.toUpdate (u : UpdateLine α) : Update := ⟨u.output, u.expr.erase⟩

end Description

/-- A circuit as described. -/
structure Description (α : Type) where
  name : String
  inputs : List String
  outputs : List String
  latches : List (Description.LatchLine α)
  updates : List (Description.UpdateLine α)
  stimuli : List (Description.StimulusLine α)
  note : α
deriving DecidableEq, Repr, Inhabited

namespace Description

/-- Changes all notes. -/
def map (f : α → β) (d : Description α) : Description β where
  name := d.name
  inputs := d.inputs
  outputs := d.outputs
  latches := d.latches.map (·.map f)
  updates := d.updates.map (·.map f)
  stimuli := d.stimuli.map (·.map f)
  note := f d.note

/-- Forgets all notes. -/
def erase (d : Description α) : Description Unit := d.map fun _ => ()

/-! ## Stimuli and inputs -/

/-- The first stimulus, after those for `given`, that is for no input or comes
a second time. -/
def stimulusFault? (inputs : List String) (given : List String) :
    List (StimulusLine α) → Option (SyntaxError α)
  | [] => none
  | s :: rest =>
    if s.signal ∉ inputs then some ⟨.strayStimulus s.signal, s.note⟩
    else if s.signal ∈ given then some ⟨.repeatedStimulus s.signal, s.note⟩
    else stimulusFault? inputs (s.signal :: given) rest

end Description

end Clocked
