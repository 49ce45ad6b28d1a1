/-
Clocked.Proofs.Expr.Parentheses — a printed expression has the fewest parentheses.

Two matching parentheses are deleted from a token list by `Unwraps`, any number
of pairs by `Strips`. Whatever tokens the grammar derives for an expression, some
deletions lead to the printed ones (`Derives.strips`): place by place the text has
a pair only where the tree needs it, and there every derivation has one too.

The texts of symbols mean nothing to the grammar, so tokens are compared by
`Alike`, which asks for equal texts only where both tokens are well spelled.
-/
import Mathlib.Data.List.Forall2
import Mathlib.Logic.Relation
import Clocked.Proofs.Expr.Tokens

namespace Clocked

variable {α β : Type}

/-! ## 1. Tokens that are alike -/

namespace Token

/-- A symbol is written as the language writes it. -/
def WellSpelled (t : Token α) : Prop :=
  ∀ text, (t.kind, text) ∈ Spells.symbols → t.text = text

/-- The tokens are of one kind, and have one text unless the first is a symbol
that no text is read as. -/
def Alike (t : Token α) (u : Token β) : Prop :=
  t.kind = u.kind ∧ (t.WellSpelled → t.text = u.text)

theorem alike_symbol {t : Token α} {kind : Kind} {text : String} (ht : t.kind = kind)
    (h : (kind, text) ∈ Spells.symbols) : t.Alike (⟨kind, text, ()⟩ : Token Unit) :=
  ⟨ht, fun hspelled => hspelled text (ht ▸ h)⟩

end Token

namespace Expr

open Token (Alike)

/-! ## 2. Matching parentheses -/

/-- Every parenthesis matches another one. -/
inductive Balanced : List (Token α) → Prop
  | nil : Balanced []
  | plain {t : Token α} {ts : List (Token α)} (hl : t.kind ≠ .lparen) (hr : t.kind ≠ .rparen)
      (h : Balanced ts) : Balanced (t :: ts)
  | parens {l r : Token α} {ts us : List (Token α)} (hl : l.kind = .lparen)
      (hr : r.kind = .rparen) (hin : Balanced ts) (hrest : Balanced us) :
      Balanced (l :: (ts ++ r :: us))

theorem Balanced.append {ts us : List (Token α)} (h : Balanced ts) (h' : Balanced us) :
    Balanced (ts ++ us) := by
  induction h with
  | nil => exact h'
  | plain hl hr _ ih => exact .plain hl hr ih
  | parens hl hr hin _ _ ih =>
    rw [List.cons_append, List.append_assoc, List.cons_append]
    exact .parens hl hr hin ih

/-- In an expression the parentheses match. -/
theorem Derives.balanced {rank : Rank} {ts : List (Token α)} {e : Expr α}
    (h : Derives rank ts e) : Balanced ts := by
  induction h with
  | signal ht => exact .plain (by simp [ht]) (by simp [ht]) .nil
  | not ht _ ih => exact .plain (by simp [ht]) (by simp [ht]) ih
  | parens hl _ hr ih => exact .parens hl hr ih .nil
  | factor _ ih | term _ ih => exact ih
  | and _ ht _ ihl ihr | or _ ht _ ihl ihr =>
    exact ihl.append (.plain (by simp [ht]) (by simp [ht]) ihr)

/-! ## 3. Deleting parentheses -/

/-- Two matching parentheses are deleted. -/
inductive Unwraps : List (Token α) → List (Token α) → Prop
  | mk {l r : Token α} {before inside after : List (Token α)} (hl : l.kind = .lparen)
      (hin : Balanced inside) (hr : r.kind = .rparen) :
      Unwraps (before ++ l :: (inside ++ r :: after)) (before ++ (inside ++ after))

/-- Any number of matching parentheses are deleted. -/
def Strips : List (Token α) → List (Token α) → Prop := Relation.ReflTransGen Unwraps

theorem Unwraps.append_left {ts us : List (Token α)} (h : Unwraps ts us)
    (before : List (Token α)) : Unwraps (before ++ ts) (before ++ us) := by
  cases h with
  | mk hl hin hr =>
    rw [← List.append_assoc, ← List.append_assoc before]
    exact .mk hl hin hr

theorem Unwraps.append_right {ts us : List (Token α)} (h : Unwraps ts us)
    (after : List (Token α)) : Unwraps (ts ++ after) (us ++ after) := by
  cases h with
  | @mk l r before inside behind hl hin hr =>
    have hmk : Unwraps (before ++ l :: (inside ++ r :: (behind ++ after)))
        (before ++ (inside ++ (behind ++ after))) := .mk hl hin hr
    simpa using hmk

namespace Strips

variable {ts ts' us us' : List (Token α)}

theorem refl (ts : List (Token α)) : Strips ts ts := Relation.ReflTransGen.refl

theorem append_left (h : Strips ts us) (before : List (Token α)) :
    Strips (before ++ ts) (before ++ us) :=
  Relation.ReflTransGen.lift (before ++ ·) (fun _ _ hpair => hpair.append_left before) _ _ h

theorem append_right (h : Strips ts us) (after : List (Token α)) :
    Strips (ts ++ after) (us ++ after) :=
  Relation.ReflTransGen.lift (· ++ after) (fun _ _ hpair => hpair.append_right after) _ _ h

/-- Deletions on both sides of an operator do not meet. -/
theorem binary (h : Strips ts us) (h' : Strips ts' us') (t : Token α) :
    Strips (ts ++ t :: ts') (us ++ t :: us') :=
  (h.append_right _).trans ((h'.append_left [t]).append_left us)

theorem parens (h : Strips ts us) (l r : Token α) :
    Strips (l :: (ts ++ [r])) (l :: (us ++ [r])) :=
  (h.append_right [r]).append_left [l]

/-- The outermost pair is deleted, then others inside. -/
theorem unwrap {l r : Token α} (h : Strips ts us) (hl : l.kind = .lparen) (hts : Balanced ts)
    (hr : r.kind = .rparen) : Strips (l :: (ts ++ [r])) us := by
  have hpair : Unwraps ([] ++ l :: (ts ++ r :: [])) ([] ++ (ts ++ [])) := .mk hl hts hr
  rw [List.nil_append, List.nil_append, List.append_nil] at hpair
  exact .head hpair h

end Strips

/-! ## 4. No derivation does with fewer -/

theorem wrapTokens_of_lt {asked strength : Nat} (h : strength < asked)
    (ts : List (Token Unit)) :
    wrapTokens asked strength ts = ⟨.lparen, "(", ()⟩ :: (ts ++ [⟨.rparen, ")", ()⟩]) :=
  if_pos h

theorem wrapTokens_of_le {asked strength : Nat} (h : asked ≤ strength)
    (ts : List (Token Unit)) : wrapTokens asked strength ts = ts :=
  if_neg (Nat.not_lt.2 h)

/-- Deleting matching parentheses leads from the tokens of any derivation to the
printed ones, in a place that asks for no more strength than its rank's places. -/
theorem Derives.strips {rank : Rank} {S : List (Token α)} {e : Expr α} (h : Derives rank S e) :
    ∀ asked ≤ rank.asked, ∃ T, Strips S T ∧
      List.Forall₂ Alike T (wrapTokens asked e.strength e.tokens) := by
  induction h with
  | @signal t ht =>
    intro asked hasked
    have hbare : asked ≤ (Expr.signal t.place t.text).strength := Nat.le_succ_of_le hasked
    rw [wrapTokens_of_le hbare]
    exact ⟨[t], .refl _, .cons ⟨ht, fun _ => rfl⟩ .nil⟩
  | @not t ts e ht _ ih =>
    intro asked hasked
    have hbare : asked ≤ (Expr.not t.place e).strength := hasked
    obtain ⟨T, hstrips, hT⟩ := ih 2 (Nat.le_refl 2)
    rw [wrapTokens_of_le hbare]
    exact ⟨t :: T, hstrips.append_left [t], .cons (Token.alike_symbol ht (by decide)) hT⟩
  | @parens l r ts e hl hder hr ih =>
    intro asked _
    obtain ⟨T, hstrips, hT⟩ := ih 0 (Nat.le_refl 0)
    rw [wrapTokens_of_le (Nat.zero_le _)] at hT
    -- the pair is kept exactly where the text has one
    by_cases hkeep : e.strength < asked
    · have hopen : l.Alike (⟨.lparen, "(", ()⟩ : Token Unit) := Token.alike_symbol hl (by decide)
      have hclose : r.Alike (⟨.rparen, ")", ()⟩ : Token Unit) := Token.alike_symbol hr (by decide)
      rw [wrapTokens_of_lt hkeep]
      exact ⟨l :: (T ++ [r]), hstrips.parens l r,
        .cons hopen (List.rel_append hT (.cons hclose .nil))⟩
    · rw [wrapTokens_of_le (Nat.not_lt.1 hkeep)]
      exact ⟨T, hstrips.unwrap hl hder.balanced hr, hT⟩
  | factor _ ih =>
    intro asked hasked
    exact ih asked (Nat.le_succ_of_le hasked)
  | term _ ih =>
    intro asked hasked
    exact ih asked (Nat.le_succ_of_le hasked)
  | @and t ls rs l r _ ht _ ihl ihr =>
    intro asked hasked
    have hbare : asked ≤ (Expr.and t.place l r).strength := hasked
    obtain ⟨L, hL, hL'⟩ := ihl 1 (Nat.le_refl 1)
    obtain ⟨R, hR, hR'⟩ := ihr 2 (Nat.le_refl 2)
    rw [wrapTokens_of_le hbare]
    exact ⟨L ++ t :: R, hL.binary hR t,
      List.rel_append hL' (.cons (Token.alike_symbol ht (by decide)) hR')⟩
  | @or t ls rs l r _ ht _ ihl ihr =>
    intro asked hasked
    have hbare : asked ≤ (Expr.or t.place l r).strength := hasked
    obtain ⟨L, hL, hL'⟩ := ihl 0 (Nat.le_refl 0)
    obtain ⟨R, hR, hR'⟩ := ihr 1 (Nat.le_refl 1)
    rw [wrapTokens_of_le hbare]
    exact ⟨L ++ t :: R, hL.binary hR t,
      List.rel_append hL' (.cons (Token.alike_symbol ht (by decide)) hR')⟩

end Expr

end Clocked
