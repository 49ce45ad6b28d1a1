/-
Clocked.Proofs.Description.Parts — what a description lists, section by section.

A description is put together from sections, so each of its lists is what the
sections list, one after the other (`assemble_eq`). What an item of a section is
made of stands among the item's tokens, in their order; `Many.sublist` carries
this from items to sections, and `IsText.latches_sublist` and its like to a
whole text.
-/
import Mathlib.Data.List.Induction
import Clocked.Proofs.Description.Reading

namespace Clocked.Description

variable {α β γ : Type}

/-! ## 1. The lists of a section -/

/-- The inputs that a section lists. -/
def Part.inputNames : Part α → List String
  | .inputs names => names
  | _ => []

/-- The outputs that a section lists. -/
def Part.outputNames : Part α → List String
  | .outputs names => names
  | _ => []

/-- The latches that a section lists. -/
def Part.latchLines : Part α → List (LatchLine α)
  | .latches lines => lines
  | _ => []

/-- The updates that a section lists. -/
def Part.updateLines : Part α → List (UpdateLine α)
  | .updates lines => lines
  | _ => []

/-- The stimuli that a section lists. -/
def Part.stimulusLines : Part α → List (StimulusLine α)
  | .stimuli lines => lines
  | _ => []

/-- A description lists what its sections list, in their order. -/
theorem assemble_eq (name : String) (note : α) (parts : List (Part α)) :
    assemble name note parts =
      { name, note
        inputs := parts.flatMap Part.inputNames
        outputs := parts.flatMap Part.outputNames
        latches := parts.flatMap Part.latchLines
        updates := parts.flatMap Part.updateLines
        stimuli := parts.flatMap Part.stimulusLines } := by
  induction parts using List.reverseRecOn with
  | nil => rfl
  | append_singleton parts p ih =>
    rw [assemble_snoc, ih]
    cases p <;>
      simp [add, Part.inputNames, Part.outputNames, Part.latchLines, Part.updateLines,
        Part.stimulusLines]

/-! ## 2. Items among their tokens -/

variable {φ : Token α → Option γ} {last : Bool} {ts : List (Token α)}

/-- What every item has among its tokens, many items have among theirs. -/
theorem Many.sublist {item : Bool → List (Token α) → β → Prop} {F : β → List γ}
    (hitem : ∀ ⦃last us x⦄, item last us x → (F x).Sublist (us.filterMap φ)) {xs : List β}
    (h : Many item last ts xs) : (xs.flatMap F).Sublist (ts.filterMap φ) := by
  induction h with
  | none => exact List.nil_sublist _
  | more _ hx ih =>
    rw [List.flatMap_append, List.filterMap_append, List.flatMap_singleton]
    exact ih.append (hitem hx)

theorem Headed.sublist {kind : Token.Kind} {item : Bool → List (Token α) → β → Prop}
    {F : β → List γ}
    (hitem : ∀ ⦃last us x⦄, item last us x → (F x).Sublist (us.filterMap φ)) {xs : List β}
    (h : Headed kind item last ts xs) : (xs.flatMap F).Sublist (ts.filterMap φ) := by
  cases h with
  | @mk w nl us _ hw hnl hmany =>
    have hlines : us.Sublist (w :: (nl ++ us)) :=
      (List.sublist_append_right nl us).cons w
    exact (hmany.sublist hitem).trans (hlines.filterMap φ)

/-- What every section has among its tokens, the sections of a text have among
the tokens of the text. -/
theorem IsText.parts_sublist {F : Part α → List γ} {d : Description α} (h : IsText ts d)
    (hsection : ∀ ⦃last us p⦄, IsSection last us p → (F p).Sublist (us.filterMap φ)) :
    ∃ name note parts, d = assemble name note parts ∧
      (parts.flatMap F).Sublist (ts.filterMap φ) := by
  cases h with
  | @mk _ eof name note parts hbody heof =>
    cases hbody with
    | @mk ts us _ _ _ htitle hsections honce =>
      refine ⟨name, note, parts, rfl, (hsections.sublist hsection).trans ?_⟩
      have hus : us.Sublist (ts ++ us ++ [eof]) :=
        (List.sublist_append_right ts us).trans (List.sublist_append_left _ _)
      exact hus.filterMap φ

variable {d : Description α}

theorem IsText.latches_sublist {F : LatchLine α → List γ} (h : IsText ts d)
    (hitem : ∀ ⦃last us l⦄, IsLatch last us l → (F l).Sublist (us.filterMap φ)) :
    (d.latches.flatMap F).Sublist (ts.filterMap φ) := by
  obtain ⟨name, note, parts, rfl, hparts⟩ :=
    h.parts_sublist (φ := φ) (F := fun p => p.latchLines.flatMap F) fun _ _ _ hp => by
      cases hp with
      | latches hp => exact hp.sublist hitem
      | _ => exact List.nil_sublist _
  rwa [assemble_eq, List.flatMap_assoc]

theorem IsText.updates_sublist {F : UpdateLine α → List γ} (h : IsText ts d)
    (hitem : ∀ ⦃last us u⦄, IsUpdate last us u → (F u).Sublist (us.filterMap φ)) :
    (d.updates.flatMap F).Sublist (ts.filterMap φ) := by
  obtain ⟨name, note, parts, rfl, hparts⟩ :=
    h.parts_sublist (φ := φ) (F := fun p => p.updateLines.flatMap F) fun _ _ _ hp => by
      cases hp with
      | updates hp => exact hp.sublist hitem
      | _ => exact List.nil_sublist _
  rwa [assemble_eq, List.flatMap_assoc]

theorem IsText.stimuli_sublist {F : StimulusLine α → List γ} (h : IsText ts d)
    (hitem : ∀ ⦃last us s⦄, IsStimulus last us s → (F s).Sublist (us.filterMap φ)) :
    (d.stimuli.flatMap F).Sublist (ts.filterMap φ) := by
  obtain ⟨name, note, parts, rfl, hparts⟩ :=
    h.parts_sublist (φ := φ) (F := fun p => p.stimulusLines.flatMap F) fun _ _ _ hp => by
      cases hp with
      | stimuli hp => exact hp.sublist hitem
      | _ => exact List.nil_sublist _
  rwa [assemble_eq, List.flatMap_assoc]

end Clocked.Description
