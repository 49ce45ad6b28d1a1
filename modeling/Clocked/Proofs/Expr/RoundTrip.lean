/-
Clocked.Proofs.Expr.RoundTrip — a printed expression is read back.

`text_spec` is the contract of the text of an expression: read as a right-hand
side it gives the expression again, and of all token lists that do, its own is
the one that is left when parentheses are deleted.
-/
import Clocked.Proofs.Description.Places
import Clocked.Proofs.Description.Printing
import Clocked.Proofs.Description.RightHandSide
import Clocked.Proofs.Expr.Parentheses

namespace Clocked.Expr

open Description
open Spells (Stops)

variable {α β : Type}

/-! ## 1. Right-hand sides without places -/

/-- The tokens of an expression are read as it is without notes. -/
theorem readAs_tokens (e : Expr α) : ReadAs e.tokens e.erase := by
  have hder := derives_tokens e.erase .expr
  rw [tokens_erase] at hder
  exact Description.readAs_iff.2 hder

/-- One expression among erased ones was one before. -/
theorem exprs_of_erase {d : Description α} {e : Expr Unit}
    (h : d.erase.updates.map (·.expr) = [e]) :
    ∃ u, d.updates = [u] ∧ u.expr.erase = e := by
  have hmap : d.updates.map (·.expr.erase) = [e] := by
    rw [← h, Description.erase, Description.map, List.map_map]
    rfl
  obtain ⟨u, hu, he⟩ := List.map_eq_singleton_iff.1 hmap
  exact ⟨u, hu, he⟩

/-- Tokens are read as they are without places, but for notes. -/
theorem readAs_of_erase [Inhabited α] {ts : List (Token α)} {e : Expr Unit}
    (h : ReadAs (ts.map Token.erase) e) : ∃ e', ReadAs ts e' ∧ e'.erase = e := by
  obtain ⟨hkinds, d, hd, hexprs⟩ := h
  have hall : updateOpening ++ ts.map Token.erase ++ [Token.endOfText default] =
      (updateOpening ++ ts ++ [Token.endOfText (default : α)]).map Token.erase := by
    simp [updateOpening, Token.erase, Token.map, Token.endOfText]
  rw [hall] at hd
  obtain ⟨d', hd', rfl⟩ := Description.ofTokens_ok_of_erase hd
  obtain ⟨u, hu, he⟩ := exprs_of_erase hexprs
  refine ⟨u.expr, ⟨fun t ht => ?_, d', hd', by rw [hu]; rfl⟩, he⟩
  exact hkinds t.erase (List.mem_map_of_mem ht)

/-! ## 2. Reading the text -/

/-- The text of an expression, as the right-hand side of an update. -/
theorem spells_rightHandSide {e : Expr α} (hnames : e.Named) :
    Spells (".hardware h\n.update\nx = " ++ e.text).toList (updateOpening ++ e.tokens) [] := by
  let u : UpdateLine Unit := ⟨"x", e.erase, ()⟩
  let opening := [namesLine ".hardware" ["h"], namesLine ".update" []]
  have hu : isIdentifier u.output = true ∧ u.expr.Named :=
    ⟨(by decide : isIdentifier "x" = true), fun n hn => hnames n (by simpa [u] using hn)⟩
  have htitle := spells_namesLine .hardware "hardware" (by decide) ["h"] (by decide)
  have hsection := spells_namesLine .update "update" (by decide) [] (by decide)
  have hlines := spells_lines (.cons htitle (.cons hsection .nil)) (u.toUpdate.text.toList ++ [])
  have hall := hlines.append (spells_update hu (Stops.nil _))
  have htext : (".hardware h\n.update\nx = " ++ e.text).toList =
      (String.join (opening.map (· ++ "\n"))).toList ++ u.toUpdate.text.toList := by
    simp [u, opening, UpdateLine.toUpdate, Update.text, namesLine]
  have htokens : updateOpening ++ e.tokens =
      endLines [[⟨.hardware, ".hardware", ()⟩, nameToken "h"], [⟨.update, ".update", ()⟩]] ++
        updateTokens u := by
    simp [u, updateOpening, endLines, updateTokens, nameToken, newlineToken]
  rw [htext, htokens]
  exact hall

/-- The text of an expression is read as the expression. -/
theorem ofText_text {e : Expr α} (hnames : e.Named) : (ofText e.text).map erase = .ok e.erase := by
  obtain ⟨us, place, hlex, hus⟩ := Spells.ofText (spells_rightHandSide hnames)
  obtain ⟨-, d, hd, hexprs⟩ := readAs_tokens e
  have hall : (us ++ [Token.endOfText place]).map Token.erase =
      updateOpening ++ e.tokens ++ [Token.endOfText default] := by
    rw [List.map_append, hus]
    rfl
  rw [← hall] at hd
  obtain ⟨d', hd', rfl⟩ := ofTokens_ok_of_erase hd
  obtain ⟨u, hu, he⟩ := exprs_of_erase hexprs
  have hread : Description.ofText (".hardware h\n.update\nx = " ++ e.text) = .ok d' := by
    rw [Description.ofText, hlex]
    exact hd'
  rw [ofText, hread]
  simp only [bind, Except.bind, hu]
  rw [← he]
  rfl

/-! ## 3. Reading back and parentheses -/

/-- **The text of an expression.** Let all signals of an expression be named by
identifiers. Then its text has tokens that are read as the expression, and from
any other tokens that are, deleting matching parentheses leads to these. -/
theorem text_spec {e : Expr α} (hnames : e.Named) :
    ∃ ts place, Token.ofText e.text = .ok (ts ++ [Token.endOfText place]) ∧
      (∃ e', ReadAs ts e' ∧ e'.erase = e.erase) ∧
      (ofText e.text).map erase = .ok e.erase ∧
      ∀ {β : Type} [Inhabited β] (S : List (Token β)) (e' : Expr β), ReadAs S e' →
        e'.erase = e.erase → ∃ T, Strips S T ∧ List.Forall₂ Token.Alike T ts := by
  have hspells : Spells e.text.toList e.tokens [] := spells_text hnames (Stops.nil _)
  obtain ⟨ts, place, hlex, hts⟩ := Spells.ofText hspells
  refine ⟨ts, place, hlex, readAs_of_erase (hts ▸ readAs_tokens e), ofText_text hnames, ?_⟩
  intro β _ S e' hS he
  obtain ⟨T, hstrips, hT⟩ := (readAs_iff.1 hS).strips 0 (Nat.le_refl 0)
  rw [wrapTokens_of_le (Nat.zero_le _), ← tokens_erase, he, tokens_erase, ← hts,
    List.forall₂_map_right_iff] at hT
  exact ⟨T, hstrips, hT⟩

/-- The expression `!(a && (b || !a) || !!a_1)`. -/
def nested : Expr Unit :=
  .not () (.or () (.and () (.signal () "a") (.or () (.signal () "b") (.not () (.signal () "a"))))
    (.not () (.not () (.signal () "a_1"))))

theorem text_spec_nested : nested.Named ∧
    ∃ ts place, Token.ofText nested.text = .ok (ts ++ [Token.endOfText place]) ∧
      (∃ e', ReadAs ts e' ∧ e'.erase = nested.erase) ∧
      (ofText nested.text).map erase = .ok nested.erase ∧
      ∀ {β : Type} [Inhabited β] (S : List (Token β)) (e' : Expr β), ReadAs S e' →
        e'.erase = nested.erase → ∃ T, Strips S T ∧ List.Forall₂ Token.Alike T ts := by
  have hnames : nested.Named := by decide
  exact ⟨hnames, text_spec hnames⟩

end Clocked.Expr
