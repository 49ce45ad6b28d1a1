/-
Clocked.Proofs.Description.RightHandSide — tokens read as one expression.

`ReadAs ts e` asks the reader: in a description with one update, with the tokens
as its right-hand side, the update has the expression `e`. `readAs_iff` says
that this is what the grammar derives from the tokens.

From left to right the proof follows the reader over the tokens. `Midway` is
what it holds on the way: no line end is among them, so it stays inside the
right-hand side, where only levels of parentheses are open.
-/
import Clocked.Proofs.Description.Reading

namespace Clocked.Expr

variable {α : Type}

/-! ## 1. Right-hand sides -/

/-- The tokens of a description in front of its one update's right-hand side. -/
def updateOpening [Inhabited α] : List (Token α) :=
  [⟨.hardware, ".hardware", default⟩, ⟨.identifier, "h", default⟩, ⟨.newline, "\n", default⟩,
    ⟨.update, ".update", default⟩, ⟨.newline, "\n", default⟩, ⟨.identifier, "x", default⟩,
    ⟨.equals, "=", default⟩]

/-- The tokens, all on one line, are read as the right-hand side of an update. -/
def ReadAs [Inhabited α] (ts : List (Token α)) (e : Expr α) : Prop :=
  (∀ t ∈ ts, t.kind ≠ .newline ∧ t.kind ≠ .eof) ∧
    ∃ d, (Description.ofTokens (updateOpening ++ ts ++ [Token.endOfText default])).1 = .ok d ∧
      d.updates.map (·.expr) = [e]

/-- An expression stays on its line. -/
theorem Derives.kind_ne {rank : Rank} {ts : List (Token α)} {e : Expr α}
    (h : Derives rank ts e) :
    ∀ t ∈ ts, t.kind ≠ .newline ∧ t.kind ≠ .eof := by
  induction h with
  | signal ht =>
    intro u hu
    rw [List.mem_singleton.1 hu, ht]
    decide
  | not ht _ ih =>
    intro u hu
    rcases List.mem_cons.1 hu with rfl | hu
    · rw [ht]
      decide
    · exact ih u hu
  | parens hl _ hr ih =>
    intro u hu
    rcases List.mem_cons.1 hu with rfl | hu
    · rw [hl]
      decide
    rcases List.mem_append.1 hu with hu | hu
    · exact ih u hu
    · rw [List.mem_singleton.1 hu, hr]
      decide
  | factor _ ih | term _ ih => exact ih
  | and _ ht _ ihl ihr | or _ ht _ ihl ihr =>
    intro u hu
    rcases List.mem_append.1 hu with hu | hu
    · exact ihl u hu
    rcases List.mem_cons.1 hu with rfl | hu
    · rw [ht]
      decide
    · exact ihr u hu

end Clocked.Expr

namespace Clocked.Description

open Clocked.Expr (Derives ReadAs updateOpening)

variable {α : Type} {output : String} {place : α} {s s' : State α} {t : Token α}
  {ts us : List (Token α)}

/-! ## 2. Inside a right-hand side -/

/-- The reader's mode once it has taken some tokens of a right-hand side. -/
inductive Midway (output : String) (place : α) : Mode α → List (Token α) → Prop
  | operand {w : Waiting α} {outer : List (Waiting α)} {ts : List (Token α)}
      (hw : AreLevels (w :: outer) ts) : Midway output place (.operand output place w outer) ts
  | operator {w : Waiting α} {outer : List (Waiting α)} {ts us : List (Token α)} {e : Expr α}
      (hw : AreLevels (w :: outer) ts) (he : Derives .factor us e) :
      Midway output place (.operator output place w e outer) (ts ++ us)

theorem midway_operand {w : Waiting α} {outer : List (Waiting α)} (hw : AreLevels (w :: outer) ts)
    (hstep : s.operand? output place w outer t = some s') :
    Midway output place s'.mode (ts ++ [t]) ∧ s'.draft = s.draft := by
  unfold State.operand? at hstep
  split at hstep
  · next ht =>
    cases hstep
    obtain ⟨before, us, rfl, hu, hrest⟩ := hw.innermost
    rw [List.append_assoc]
    exact ⟨.operand (hrest _ _ (hu.negate ht)), rfl⟩
  · next ht =>
    cases hstep
    exact ⟨.operand (.inner hw ht isLevel_empty), rfl⟩
  · next ht =>
    cases hstep
    exact ⟨.operator hw (.signal ht), rfl⟩
  · cases hstep

theorem midway_operator {w : Waiting α} {outer : List (Waiting α)} {e : Expr α}
    (hw : AreLevels (w :: outer) ts) (he : Derives .factor us e) (hline : t.kind ≠ .newline)
    (hstep : s.operator? output place w e outer t = some s') :
    Midway output place s'.mode (ts ++ us ++ [t]) ∧ s'.draft = s.draft := by
  unfold State.operator? at hstep
  split at hstep
  · next ht =>
    cases hstep
    obtain ⟨before, vs, rfl, hv, hrest⟩ := hw.innermost
    rw [List.append_assoc before, List.append_assoc before]
    exact ⟨.operand (hrest _ _ (hv.conjoin he ht)), rfl⟩
  · next ht =>
    cases hstep
    obtain ⟨before, vs, rfl, hv, hrest⟩ := hw.innermost
    rw [List.append_assoc before, List.append_assoc before]
    exact ⟨.operand (hrest _ _ (hv.disjoin he ht)), rfl⟩
  · next ht =>
    cases outer with
    | nil => cases hstep
    | cons up outer =>
      cases hstep
      cases hw with
      | inner houter hl hv =>
        rw [List.append_assoc, List.append_assoc, List.cons_append, ← List.append_assoc _ us]
        exact ⟨.operator houter (.parens hl (hv.close he) ht), rfl⟩
  · next ht => exact absurd ht hline
  · cases hstep

/-- A token that ends no line leaves the reader inside the right-hand side. -/
theorem Midway.step (h : Midway output place s.mode ts) (hline : t.kind ≠ .newline)
    (hstep : s.step? t = some s') :
    Midway output place s'.mode (ts ++ [t]) ∧ s'.draft = s.draft := by
  obtain ⟨draft, closed, mode⟩ := s
  cases h with
  | operand hw => exact midway_operand hw hstep
  | operator hw he => exact midway_operator hw he hline hstep

theorem Midway.steps (h : Midway output place s.mode ts) (hline : ∀ t ∈ us, t.kind ≠ .newline)
    (hsteps : s.steps? us = some s') :
    Midway output place s'.mode (ts ++ us) ∧ s'.draft = s.draft := by
  induction us generalizing s ts with
  | nil =>
    cases hsteps
    rw [List.append_nil]
    exact ⟨h, rfl⟩
  | cons t us ih =>
    obtain ⟨s₁, hstep, hrest⟩ := Option.bind_eq_some_iff.1 hsteps
    obtain ⟨h₁, hdraft₁⟩ := h.step (hline t List.mem_cons_self) hstep
    obtain ⟨h₂, hdraft₂⟩ := ih h₁ (fun u hu => hline u (List.mem_cons_of_mem _ hu)) hrest
    rw [List.append_assoc] at h₂
    exact ⟨h₂, hdraft₂.trans hdraft₁⟩

/-- Where the text may end, the tokens taken are an expression, and an update of
it is what the text adds. -/
theorem Midway.finish {d : Description α} (h : Midway output place s.mode ts)
    (hfin : s.finish? = some d) :
    ∃ e, Derives .expr ts e ∧ d.updates = s.draft.updates ++ [⟨output, e, place⟩] := by
  obtain ⟨draft, closed, mode⟩ := s
  cases h with
  | operand hw => cases hfin
  | @operator w outer ts us e hw he =>
    cases outer with
    | cons up outer => cases hfin
    | nil =>
      cases hw with
      | inner houter _ _ => cases houter
      | outermost hu =>
        cases hfin
        exact ⟨w.close e, hu.close he, rfl⟩

/-! ## 3. What is read -/

section ReadAs

variable [Inhabited α] {e : Expr α}

/-- The state in front of the right-hand side. -/
def atRightHandSide : State α :=
  ⟨{ (blank : Description α) with name := "h" }, [], .operand "x" default {} []⟩

theorem steps?_updateOpening :
    (State.initial : State α).steps? updateOpening = some atRightHandSide := rfl

/-- **Right-hand sides are expressions.** The reader takes tokens as a right-hand
side exactly if the grammar derives them, and with that tree. -/
theorem readAs_iff : ReadAs ts e ↔ Derives .expr ts e := by
  have hopening : ∀ t ∈ (updateOpening : List (Token α)), t.kind ≠ .eof := by
    intro t ht
    simp only [updateOpening, List.mem_cons, List.not_mem_nil, or_false] at ht
    rcases ht with rfl | rfl | rfl | rfl | rfl | rfl | rfl <;> exact Token.Kind.noConfusion
  have hsteps (ts : List (Token α)) :
      (State.initial : State α).steps? (updateOpening ++ ts) = atRightHandSide.steps? ts := by
    rw [State.steps?_append, steps?_updateOpening]
    rfl
  have hread (d : Description α) (hts : ∀ t ∈ ts, t.kind ≠ .eof) :
      (ofTokens (updateOpening ++ ts ++ [Token.endOfText default])).1 = .ok d ↔
        ∃ s', atRightHandSide.steps? ts = some s' ∧
          s'.conclude (Token.endOfText default) = .ok d := by
    rw [ofTokens, State.read_ok_iff _ rfl, hsteps]
    intro t ht
    rcases List.mem_append.1 ht with ht | ht
    · exact hopening t ht
    · exact hts t ht
  constructor
  · rintro ⟨hkinds, d, hd, hupdates⟩
    obtain ⟨s', hs', hend⟩ := (hread d fun t ht => (hkinds t ht).2).1 hd
    obtain ⟨hfin, -⟩ := State.conclude_ok_iff.1 hend
    have hstart : Midway "x" default (atRightHandSide : State α).mode [] :=
      .operand (.outermost isLevel_empty)
    obtain ⟨hmid, hdraft⟩ := hstart.steps (fun t ht => (hkinds t ht).1) hs'
    obtain ⟨e', he', hadded⟩ := hmid.finish hfin
    rw [hdraft] at hadded
    rw [hadded] at hupdates
    cases hupdates
    exact he'
  · intro h
    refine ⟨h.kind_ne, ?_⟩
    obtain ⟨w, v, hreads, hclose⟩ :=
      reads_of_derives (atRightHandSide : State α) "x" default h {} [] rfl
    let s' : State α := { atRightHandSide with mode := .operator "x" default w v [] }
    have hend : s'.conclude (Token.endOfText default) =
        .ok (s'.addUpdate "x" default (w.close v)).draft := State.conclude_ok_iff.2 ⟨rfl, rfl⟩
    refine ⟨_, (hread _ fun t ht => (h.kind_ne t ht).2).2 ⟨s', hreads, hend⟩, ?_⟩
    rw [← hclose]
    rfl

end ReadAs

end Clocked.Description
