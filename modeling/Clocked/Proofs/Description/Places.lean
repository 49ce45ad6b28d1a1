/-
Clocked.Proofs.Description.Places — places do not steer the reader.

The reader copies places into notes and never looks at them. So changing the
places of all tokens changes the notes of what is read, and nothing else:
`step?_map` says so for one token, `read_map` for a list of tokens, and
`ofTokens_erase` is the case in which all places are forgotten.
-/
import Clocked.Description.Reader
import Clocked.Proofs.Source.Spelling

namespace Clocked

variable {α β : Type} (f : α → β)

/-- Changes the place of an error. -/
def SyntaxError.map (e : SyntaxError α) : SyntaxError β := ⟨e.cause, f e.place⟩

namespace Description

/-! ## 1. Other places, level by level -/

/-- A left-hand side that waits, with other places. -/
def Waiting.mapSide (p : Expr α × α) : Expr β × β := (p.1.map f, f p.2)

def Waiting.map (w : Waiting α) : Waiting β where
  disjunct := w.disjunct.map (mapSide f)
  conjunct := w.conjunct.map (mapSide f)
  negations := w.negations.map f

def Mode.map : Mode α → Mode β
  | .opening => .opening
  | .title => .title
  | .top => .top
  | .inputs => .inputs
  | .outputs => .outputs
  | .latch => .latch
  | .latchArrow input place => .latchArrow input (f place)
  | .latchOutput input place => .latchOutput input (f place)
  | .update => .update
  | .updateEquals output place => .updateEquals output (f place)
  | .operand output place level outer =>
    .operand output (f place) (level.map f) (outer.map (·.map f))
  | .operator output place level value outer =>
    .operator output (f place) (level.map f) (value.map f) (outer.map (·.map f))
  | .stimulus => .stimulus
  | .stimulusEquals signal place => .stimulusEquals signal (f place)
  | .stimulusBits signal place => .stimulusBits signal (f place)
  | .stimulusEnd => .stimulusEnd

def State.map (s : State α) : State β := ⟨s.draft.map f, s.closed, s.mode.map f⟩

/-- What has been read, or why nothing could be, with other places. -/
def mapOutcome : Except (SyntaxError α) (Description α) → Except (SyntaxError β) (Description β)
  | .ok d => .ok (d.map f)
  | .error e => .error (e.map f)

/-! ## 2. Expressions under way -/

namespace Waiting

variable {f}

@[simp] theorem map_empty : ({} : Waiting α).map f = {} := rfl

theorem map_factor (w : Waiting α) (e : Expr α) :
    (w.factor e).map f = (w.map f).factor (e.map f) := by
  obtain ⟨d, c, places⟩ := w
  simp only [factor, map]
  induction places generalizing e with
  | nil => rfl
  | cons place places ih => exact ih (.not place e)

theorem map_term (w : Waiting α) (e : Expr α) : (w.term e).map f = (w.map f).term (e.map f) := by
  obtain ⟨d, c, places⟩ := w
  cases c with
  | none => exact map_factor _ e
  | some p =>
    have hfactor := map_factor (f := f) ⟨d, some p, places⟩ e
    simp only [term, map, Option.map_some, mapSide, Expr.map, hfactor]

theorem map_close (w : Waiting α) (e : Expr α) :
    (w.close e).map f = (w.map f).close (e.map f) := by
  obtain ⟨d, c, places⟩ := w
  cases d with
  | none => exact map_term _ e
  | some p =>
    have hterm := map_term (f := f) ⟨some p, c, places⟩ e
    simp only [close, map, Option.map_some, mapSide, Expr.map, hterm]

@[simp] theorem map_conjoin (w : Waiting α) (e : Expr α) (place : α) :
    (w.conjoin e place).map f = (w.map f).conjoin (e.map f) (f place) := by
  rw [conjoin, conjoin, ← map_term]
  rfl

@[simp] theorem map_disjoin (w : Waiting α) (e : Expr α) (place : α) :
    (w.disjoin e place).map f = (w.map f).disjoin (e.map f) (f place) := by
  rw [disjoin, disjoin, ← map_close]
  rfl

end Waiting

/-! ## 3. One token -/

namespace State

variable {f}

theorem map_addUpdate (s : State α) (output : String) (place : α) (e : Expr α) :
    (s.addUpdate output place e).map f = (s.map f).addUpdate output (f place) (e.map f) := by
  simp [addUpdate, map, Description.map, Mode.map, UpdateLine.map]

theorem enter?_map (s : State α) (kind : Token.Kind) :
    (s.map f).enter? kind = (s.enter? kind).map (map f) := by
  cases kind with
  | inputs =>
    by_cases h : .inputs ∈ s.closed <;> simp [enter?, map, h, Mode.map]
  | outputs =>
    by_cases h : .outputs ∈ s.closed <;> simp [enter?, map, h, Mode.map]
  | simulate =>
    by_cases h : .simulate ∈ s.closed <;> simp [enter?, map, h, Mode.map]
  | _ => rfl

theorem between?_map (s : State α) (t : Token α) :
    (s.map f).between? (t.map f) = (s.between? t).map (map f) := by
  unfold between?
  by_cases ht : t.kind = .newline <;> simp [ht, enter?_map]

theorem operand?_map (s : State α) (output : String) (place : α) (level : Waiting α)
    (outer : List (Waiting α)) (t : Token α) :
    (s.map f).operand? output (f place) (level.map f) (outer.map (·.map f)) (t.map f) =
      (s.operand? output place level outer t).map (map f) := by
  unfold operand?
  simp only [Token.kind_map]
  split <;> rfl

theorem operator?_map (s : State α) (output : String) (place : α) (level : Waiting α)
    (value : Expr α) (outer : List (Waiting α)) (t : Token α) :
    (s.map f).operator? output (f place) (level.map f) (value.map f) (outer.map (·.map f))
      (t.map f) = (s.operator? output place level value outer t).map (map f) := by
  unfold operator?
  simp only [Token.kind_map]
  split
  · simp [map, Mode.map]
  · simp [map, Mode.map]
  · cases outer with
    | nil => rfl
    | cons up outer => simp [map, Mode.map, Waiting.map_close]
  · cases outer with
    | nil => simp [map_addUpdate, Waiting.map_close]
    | cons up outer => rfl
  · rfl

theorem step?_map (s : State α) (t : Token α) :
    (s.map f).step? (t.map f) = (s.step? t).map (map f) := by
  obtain ⟨draft, closed, mode⟩ := s
  unfold step?
  cases mode with
  | top => exact between?_map _ t
  | operand output place level outer => exact operand?_map _ output place level outer t
  | operator output place level value outer =>
    exact operator?_map _ output place level value outer t
  | inputs | outputs | latch | update | stimulus =>
    simp only [map, Mode.map, Token.kind_map]
    split
    · simp [map, Mode.map, Description.map]
    · rw [← between?_map]
      rfl
  | opening | title | latchArrow _ _ | latchOutput _ _ | updateEquals _ _ | stimulusEquals _ _
  | stimulusBits _ _ | stimulusEnd =>
    simp only [map, Mode.map, Token.kind_map]
    split <;> simp [map, Mode.map, Description.map, LatchLine.map, StimulusLine.map]

theorem finish?_map (s : State α) : (s.map f).finish? = s.finish?.map (Description.map f) := by
  obtain ⟨draft, closed, mode⟩ := s
  cases mode with
  | operator output place level value outer =>
    cases outer with
    | cons up outer => rfl
    | nil =>
      have hadd := map_addUpdate (f := f) ⟨draft, closed, .operator output place level value []⟩
        output place (level.close value)
      rw [Waiting.map_close] at hadd
      exact congrArg (fun s => some s.draft) hadd.symm
  | _ => rfl

theorem refusal_map (s : State α) (t : Token α) : (s.map f).refusal (t.map f) = s.refusal t := by
  obtain ⟨draft, closed, mode⟩ := s
  cases mode with
  | operator output place level value outer => cases outer <;> rfl
  | _ => rfl

/-! ## 4. A list of tokens -/

theorem stimulusFault?_map (inputs given : List String) (ss : List (StimulusLine α)) :
    stimulusFault? inputs given (ss.map (·.map f)) =
      (stimulusFault? inputs given ss).map (SyntaxError.map f) := by
  induction ss generalizing given with
  | nil => rfl
  | cons s ss ih =>
    have hsignal : (s.map f).signal = s.signal := rfl
    simp only [List.map_cons, stimulusFault?, hsignal]
    split
    · rfl
    · split
      · rfl
      · exact ih _

theorem conclude_map (s : State α) (t : Token α) :
    (s.map f).conclude (t.map f) = mapOutcome f (s.conclude t) := by
  unfold conclude
  rw [finish?_map]
  cases s.finish? with
  | none =>
    simp only [Option.map_none, refuse, refusal_map]
    rfl
  | some d =>
    have hfault := stimulusFault?_map (f := f) d.inputs [] d.stimuli
    simp only [Option.map_some]
    rw [show (d.map f).inputs = d.inputs from rfl,
      show (d.map f).stimuli = d.stimuli.map (·.map f) from rfl, hfault]
    cases stimulusFault? d.inputs [] d.stimuli <;> rfl

/-- Other places give other notes, and the same tokens are left over. -/
theorem read_map [Inhabited α] [Inhabited β] (hdefault : f default = default)
    (s : State α) (ts : List (Token α)) :
    (s.map f).read (ts.map (Token.map f)) =
      (mapOutcome f (s.read ts).1, (s.read ts).2.map (Token.map f)) := by
  induction ts generalizing s with
  | nil =>
    have hend : (Token.endOfText (default : α)).map f = Token.endOfText default := by
      rw [← hdefault]
      rfl
    rw [List.map_nil, read, read, ← hend, conclude_map]
    rfl
  | cons t ts ih =>
    rw [List.map_cons, read, read, Token.kind_map]
    by_cases ht : t.kind = .eof
    · rw [if_pos ht, if_pos ht, conclude_map]
      rfl
    · rw [if_neg ht, if_neg ht, step?_map]
      cases s.step? t with
      | none =>
        simp only [Option.map_none, refuse, refusal_map]
        rfl
      | some s' => exact ih s'

end State

/-- Forgetting all places of the tokens is forgetting all notes of the description. -/
theorem ofTokens_erase [Inhabited α] (ts : List (Token α)) :
    (ofTokens (ts.map Token.erase)).1 = mapOutcome (fun _ => ()) (ofTokens ts).1 := by
  have hread := State.read_map (f := fun _ : α => ()) rfl State.initial ts
  exact congrArg Prod.fst hread

/-- What is read from tokens without places is read from the tokens, but for notes. -/
theorem ofTokens_ok_of_erase [Inhabited α] {ts : List (Token α)} {d : Description Unit}
    (h : (ofTokens (ts.map Token.erase)).1 = .ok d) :
    ∃ d', (ofTokens ts).1 = .ok d' ∧ d'.erase = d := by
  rw [ofTokens_erase] at h
  cases hread : (ofTokens ts).1 with
  | error e =>
    rw [hread] at h
    cases h
  | ok d' =>
    rw [hread] at h
    cases h
    exact ⟨d', rfl, rfl⟩

end Description

end Clocked
