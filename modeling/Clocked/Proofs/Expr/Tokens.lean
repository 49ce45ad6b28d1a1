/-
Clocked.Proofs.Expr.Tokens — the tokens of a printed expression.

`tokens` follows `text` piece by piece, so the text spells them (`spells_text`),
and the grammar derives them at every rank with the expression they were printed
from (`derives_tokens`).
-/
import Clocked.Expr.Text
import Clocked.Proofs.Description.Grammar
import Clocked.Proofs.Source.Spelling

namespace Clocked.Expr

open Spells (Stops)

variable {α β : Type} {rest : List Char}

/-! ## 1. Tokens -/

/-- Tokens in parentheses unless their strength is what the place asks for. -/
def wrapTokens (asked strength : Nat) (ts : List (Token Unit)) : List (Token Unit) :=
  if strength < asked then ⟨.lparen, "(", ()⟩ :: (ts ++ [⟨.rparen, ")", ()⟩]) else ts

/-- The tokens of an expression with only the parentheses it needs. -/
def tokens : Expr α → List (Token Unit)
  | .signal _ name => [⟨.identifier, name, ()⟩]
  | .not _ e => ⟨.not, "!", ()⟩ :: wrapTokens 2 e.strength e.tokens
  | .and _ l r =>
    wrapTokens 1 l.strength l.tokens ++ ⟨.and, "&&", ()⟩ :: wrapTokens 2 r.strength r.tokens
  | .or _ l r =>
    wrapTokens 0 l.strength l.tokens ++ ⟨.or, "||", ()⟩ :: wrapTokens 1 r.strength r.tokens

theorem tokens_map (f : α → β) (e : Expr α) : (e.map f).tokens = e.tokens := by
  induction e <;> simp_all [map, tokens, strength_map]

@[simp] theorem tokens_erase (e : Expr α) : e.erase.tokens = e.tokens := tokens_map _ e

/-- All signals that an expression reads have names that can be written down. -/
def Named (e : Expr α) : Prop := ∀ n ∈ e.freeVariables, isIdentifier n = true

instance (e : Expr α) : Decidable e.Named :=
  inferInstanceAs (Decidable (∀ n ∈ e.freeVariables, isIdentifier n = true))

/-! ## 2. The text spells the tokens -/

theorem spells_wrap {text : String} {ts : List (Token Unit)}
    (h : ∀ rest, Stops Lexeme.isNamePart rest → Spells text.toList ts rest)
    (asked strength : Nat) (hstop : Stops Lexeme.isNamePart rest) :
    Spells (wrap asked strength text).toList (wrapTokens asked strength ts) rest := by
  unfold wrap wrapTokens
  split
  · have hopen := Spells.symbol .lparen "(" (by decide)
      (text.toList ++ (")".toList ++ rest))
    have hclose := Spells.symbol .rparen ")" (by decide) rest
    have hbody := h (")".toList ++ rest) (Stops.cons (by decide) rest)
    rw [String.append_assoc, String.toList_append, String.toList_append]
    exact .append (by rwa [List.append_assoc]) (.append hbody hclose)
  · exact h rest hstop

/-- An operator between blanks. -/
theorem spells_operator (kind : Token.Kind) (text : String) (h : (kind, text) ∈ Spells.symbols)
    (rest : List Char) :
    Spells ([' '] ++ (text.toList ++ [' '])) [⟨kind, text, ()⟩] rest :=
  .append (.space _) (.append (.symbol kind text h _) (.space _))

/-- The text of an expression spells its tokens, unless a name follows. -/
theorem spells_text {e : Expr α} (hnames : e.Named) (hstop : Stops Lexeme.isNamePart rest) :
    Spells e.text.toList e.tokens rest := by
  induction e generalizing rest with
  | signal _ name => exact .identifier (hnames name (by simp [freeVariables])) hstop
  | not _ e ih =>
    have hbang := Spells.symbol .not "!" (by decide)
      ((wrap 2 e.strength e.text).toList ++ rest)
    rw [text, String.toList_append]
    exact hbang.append (spells_wrap (fun rest hstop => ih hnames hstop) 2 e.strength hstop)
  | and _ l r ihl ihr =>
    have hl : l.Named := fun n hn => hnames n (List.mem_append_left _ hn)
    have hr : r.Named := fun n hn => hnames n (List.mem_append_right _ hn)
    rw [text, String.append_assoc, String.toList_append, String.toList_append]
    refine .append (spells_wrap (fun rest => ihl hl) _ _ (Stops.cons (by decide) _)) ?_
    exact .append (spells_operator .and "&&" (by decide) _)
      (spells_wrap (fun rest => ihr hr) _ _ hstop)
  | or _ l r ihl ihr =>
    have hl : l.Named := fun n hn => hnames n (List.mem_append_left _ hn)
    have hr : r.Named := fun n hn => hnames n (List.mem_append_right _ hn)
    rw [text, String.append_assoc, String.toList_append, String.toList_append]
    refine .append (spells_wrap (fun rest => ihl hl) _ _ (Stops.cons (by decide) _)) ?_
    exact .append (spells_operator .or "||" (by decide) _)
      (spells_wrap (fun rest => ihr hr) _ _ hstop)

/-! ## 3. The grammar derives the tokens -/

/-- The strength that a place of a rank asks for. -/
def Rank.asked : Rank → Nat
  | .expr => 0
  | .term => 1
  | .factor => 2

/-- A factor may stand anywhere. -/
theorem Derives.of_factor {ts : List (Token α)} {e : Expr α} (h : Derives .factor ts e) :
    ∀ rank, Derives rank ts e
  | .factor => h
  | .term => .factor h
  | .expr => .term (.factor h)

/-- In a place of any rank the tokens are derived, with parentheses where the
place asks for more strength than the expression has. -/
theorem derives_tokens (e : Expr Unit) :
    ∀ rank : Rank, Derives rank (wrapTokens rank.asked e.strength e.tokens) e := by
  induction e with
  | signal _ name =>
    have hname : Derives .factor [⟨.identifier, name, ()⟩] (.signal () name) := .signal rfl
    intro rank
    cases rank <;> exact hname.of_factor _
  | not _ e ih =>
    have hnot : Derives .factor _ (.not () e) := .not (t := ⟨.not, "!", ()⟩) rfl (ih .factor)
    intro rank
    cases rank <;> exact hnot.of_factor _
  | and _ l r ihl ihr =>
    have hand : Derives .term _ (.and () l r) :=
      .and (t := ⟨.and, "&&", ()⟩) (ihl .term) rfl (ihr .factor)
    intro rank
    cases rank with
    | expr => exact .term hand
    | term => exact hand
    | factor => exact .parens (l := ⟨.lparen, "(", ()⟩) rfl (.term hand) rfl
  | or _ l r ihl ihr =>
    have hor : Derives .expr _ (.or () l r) :=
      .or (t := ⟨.or, "||", ()⟩) (ihl .expr) rfl (ihr .term)
    have hparens := Derives.parens (l := ⟨.lparen, "(", ()⟩) (r := ⟨.rparen, ")", ()⟩) rfl hor rfl
    intro rank
    cases rank with
    | expr => exact hor
    | term => exact .factor hparens
    | factor => exact hparens

end Clocked.Expr
