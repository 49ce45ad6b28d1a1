/-
Clocked.Proofs.Description.Reading — the reader reads the grammar, and nothing else.

`ofTokens_spec` puts soundness and completeness together, with the check of the
stimuli that follows the reading.
-/
import Clocked.Proofs.Description.Completeness
import Clocked.Proofs.Description.Soundness

namespace Clocked.Description

variable {α : Type} [Inhabited α]

/-- The tokens in front of the end of a text lead to a state that may end
exactly if they are grammatical. -/
theorem isText_iff {ts : List (Token α)} {eof : Token α} {d : Description α}
    (heof : eof.kind = .eof) :
    IsText (ts ++ [eof]) d ↔
      ∃ s, State.initial.steps? ts = some s ∧ s.finish? = some d := by
  constructor
  · intro h
    generalize hall : ts ++ [eof] = all at h
    cases h with
    | mk hbody _ =>
      obtain ⟨rfl, -⟩ := List.append_inj' hall rfl
      exact hbody.finish
  · rintro ⟨s, hs, hfin⟩
    -- the empty list of tokens leads to the initial state
    have htaken := (Taken.opening newlines_nil).steps hs
    obtain ⟨name, note, parts, hbody, rfl⟩ := htaken.finish hfin
    exact .mk hbody heof

/-- What is read from tokens, of which the last one alone ends the text. -/
theorem ofTokens_ok_iff {ts : List (Token α)} {eof : Token α} {d : Description α}
    (hts : ∀ t ∈ ts, t.kind ≠ .eof) (heof : eof.kind = .eof) :
    (ofTokens (ts ++ [eof])).1 = .ok d ↔ IsText (ts ++ [eof]) d ∧ StimuliFit d := by
  rw [ofTokens, State.read_ok_iff hts heof, isText_iff heof, ← stimuliFit_iff]
  simp only [State.conclude_ok_iff]
  constructor
  · rintro ⟨s, hs, hfin, hfault⟩
    exact ⟨⟨s, hs, hfin⟩, hfault⟩
  · rintro ⟨⟨s, hs, hfin⟩, hfault⟩
    exact ⟨s, hs, hfin, hfault⟩

/-- **What the reader reads.** Tokens of which the last one alone ends the text
are read as a description exactly if the grammar derives them with it and the
stimuli fit; in every other case there is an error. -/
theorem ofTokens_spec {ts : List (Token α)} {eof : Token α} (hts : ∀ t ∈ ts, t.kind ≠ .eof)
    (heof : eof.kind = .eof) :
    (∀ d, (ofTokens (ts ++ [eof])).1 = .ok d ↔ IsText (ts ++ [eof]) d ∧ StimuliFit d) ∧
    ((¬ ∃ d, IsText (ts ++ [eof]) d ∧ StimuliFit d) →
      ∃ e, (ofTokens (ts ++ [eof])).1 = .error e) := by
  refine ⟨fun d => ofTokens_ok_iff hts heof, fun hnone => ?_⟩
  cases hread : (ofTokens (ts ++ [eof])).1 with
  | error e => exact ⟨e, rfl⟩
  | ok d => exact absurd ⟨d, (ofTokens_ok_iff hts heof).1 hread⟩ hnone

/-- The tokens of `.hardware h .inputs a b .update x = a || !a && b`, a line end, and
`.simulate a = 01`, placed by number. -/
def orGate : List (Token Nat) :=
  [⟨.hardware, ".hardware", 0⟩, ⟨.identifier, "h", 1⟩, ⟨.inputs, ".inputs", 2⟩,
    ⟨.identifier, "a", 3⟩, ⟨.identifier, "b", 4⟩, ⟨.update, ".update", 5⟩,
    ⟨.identifier, "x", 6⟩, ⟨.equals, "=", 7⟩, ⟨.identifier, "a", 8⟩, ⟨.or, "||", 9⟩,
    ⟨.not, "!", 10⟩, ⟨.identifier, "a", 11⟩, ⟨.and, "&&", 12⟩, ⟨.identifier, "b", 13⟩,
    ⟨.newline, "\n", 14⟩, ⟨.simulate, ".simulate", 15⟩, ⟨.identifier, "a", 16⟩,
    ⟨.equals, "=", 17⟩, ⟨.bits, "01", 18⟩]

/-- The description of `orGate`. -/
def orGateRead : Description Nat where
  name := "h"
  inputs := ["a", "b"]
  outputs := []
  latches := []
  updates :=
    [⟨"x", .or 9 (.signal 8 "a") (.and 12 (.not 10 (.signal 11 "a")) (.signal 13 "b")), 6⟩]
  stimuli := [⟨"a", [false, true], 16⟩]
  note := 0

theorem ofTokens_spec_orGate :
    (∀ t ∈ orGate, t.kind ≠ .eof) ∧ (Token.endOfText 19).kind = .eof ∧
      IsText (orGate ++ [Token.endOfText 19]) orGateRead ∧ StimuliFit orGateRead := by
  have horGate : ∀ t ∈ orGate, t.kind ≠ .eof := by decide
  have heof : (Token.endOfText 19).kind = .eof := rfl
  have hread : (ofTokens (orGate ++ [Token.endOfText 19])).1 = .ok orGateRead := by rfl
  exact ⟨horGate, heof, ((ofTokens_spec horGate heof).1 orGateRead).1 hread⟩

end Clocked.Description
