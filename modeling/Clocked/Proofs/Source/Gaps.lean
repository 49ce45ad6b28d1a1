/-
Clocked.Proofs.Source.Gaps — what separates tokens.

`IsGap s rest`: the text `s`, standing before `rest`, is a row of blanks and
comments. A block comment ends at the first `*/`; a line comment runs up to a
line end or the end of the text, so it can only be the last of the row.

A lexeme without a kind is such a piece of text (`IsGap.of_read`), and such a
text spells no token (`IsGap.spells`).
-/
import Mathlib.Data.List.Infix
import Mathlib.Data.List.TakeWhile
import Clocked.Proofs.Source.Spelling

namespace Clocked

open Lexeme (isBlank readComment splitComment)

/-! ## 1. Blanks and comments in a row -/

/-- Blanks and comments, standing before `rest`. -/
inductive IsGap : List Char → List Char → Prop
  | nil (rest : List Char) : IsGap [] rest
  | blank {c : Char} {s rest : List Char} (hc : isBlank c = true) (h : IsGap s rest) :
    IsGap (c :: s) rest
  /-- A comment up to the first `*/`. -/
  | block {body s rest : List Char} (hbody : ¬ ['*', '/'] <:+: body) (h : IsGap s rest) :
    IsGap ('/' :: '*' :: (body ++ '*' :: '/' :: s)) rest
  /-- A comment up to the end of the line. -/
  | line {body rest : List Char} (hbody : '\n' ∉ body) (hrest : ∀ c ∈ rest.head?, c = '\n') :
    IsGap ('/' :: '/' :: body) rest

variable {s s' rest : List Char}

namespace IsGap

/-- Before a line end, or at the end, a gap may be empty only. -/
theorem eq_nil (h : IsGap s rest) (hs : ∀ c ∈ (s ++ rest).head?, c = '\n') : s = [] := by
  cases h with
  | nil => rfl
  | blank hc _ =>
    cases hs _ rfl
    exact absurd hc (by decide)
  | block _ _ => exact absurd (hs _ rfl) (by decide)
  | line _ _ => exact absurd (hs _ rfl) (by decide)

/-- Gaps in a row are a gap. -/
theorem append (h : IsGap s (s' ++ rest)) (h' : IsGap s' rest) : IsGap (s ++ s') rest := by
  generalize hafter : s' ++ rest = after at h
  induction h with
  | nil => exact h'
  | blank hc _ ih => exact .blank hc (ih hafter)
  | @block body s after hbody _ ih =>
    have := IsGap.block hbody (ih hafter)
    simpa using this
  | line hbody hafter' =>
    -- a line comment leaves room for nothing more
    subst hafter
    have hnil := h'.eq_nil hafter'
    subst hnil
    rw [List.append_nil]
    exact .line hbody hafter'

theorem blanks (hs : ∀ c ∈ s, isBlank c = true) (rest : List Char) : IsGap s rest := by
  induction s with
  | nil => exact .nil rest
  | cons c s ih =>
    obtain ⟨hc, hs⟩ := List.forall_mem_cons.1 hs
    exact .blank hc (ih hs)

/-! ## 2. Comments -/

/-- The comment ends at its first end mark. -/
theorem splitComment_append {body : List Char} (h : ¬ ['*', '/'] <:+: body) (rest : List Char) :
    splitComment (body ++ '*' :: '/' :: rest) = some (body ++ ['*', '/'], rest) := by
  induction body with
  | nil => rfl
  | cons c body ih =>
    have hbody : ¬ ['*', '/'] <:+: body := fun hin => h (hin.trans (List.suffix_cons c body).isInfix)
    have hnot : ∀ r, c = '*' → body ++ '*' :: '/' :: rest = '/' :: r → False := by
      rintro r rfl hr
      cases body with
      | nil => cases hr
      | cons d body =>
        cases (List.cons.inj hr).1
        exact h ⟨[], body, rfl⟩
    rw [List.cons_append, splitComment, ih hbody]
    · rfl
    · exact hnot

/-- What is split off is a text free of end marks, and an end mark. -/
theorem exists_body {text : List Char} (h : splitComment s = some (text, rest)) :
    ∃ body, ¬ ['*', '/'] <:+: body ∧ text = body ++ ['*', '/'] := by
  fun_induction splitComment s generalizing text with
  | case1 => cases h
  | case2 r =>
    cases h
    exact ⟨[], by simp, rfl⟩
  | case3 c s hnot ih =>
    obtain ⟨⟨text', rest'⟩, hsplit, heq⟩ := Option.map_eq_some_iff.1 h
    cases heq
    obtain ⟨body, hbody, rfl⟩ := ih hsplit
    refine ⟨c :: body, fun hin => ?_, rfl⟩
    rcases List.infix_cons_iff.1 hin with ⟨r, hr⟩ | hin
    · obtain ⟨rfl, htail⟩ := List.cons.inj hr
      have hs := Lexeme.splitComment_eq_some hsplit
      rw [← htail, List.append_assoc] at hs
      exact hnot _ rfl hs
    · exact hbody hin

/-! ## 3. Gaps and lexemes -/

theorem of_readComment {text : List Char} (h : readComment s = .ok (⟨none, text⟩, rest)) :
    IsGap text rest := by
  unfold readComment at h
  split at h
  · next r =>
    cases h
    refine .line (fun hmem => ?_) fun c hc => ?_
    · have := List.mem_takeWhile_imp hmem
      simp at this
    · have := List.head?_dropWhile_not (· ≠ '\n') r
      rw [Option.mem_def.1 hc] at this
      simpa using this
  · next r =>
    cases hsplit : splitComment r with
    | none =>
      rw [hsplit] at h
      cases h
    | some p =>
      obtain ⟨t, r'⟩ := p
      rw [hsplit] at h
      cases h
      obtain ⟨body, hbody, rfl⟩ := exists_body hsplit
      exact .block hbody (.nil _)
  · cases h

/-- A lexeme without a kind is a piece of a gap. -/
theorem of_read {c : Char} {text : List Char} (h : Lexeme.read c s = .ok (⟨none, text⟩, rest)) :
    IsGap text rest := by
  unfold Lexeme.read at h
  split at h
  · next hc =>
    cases h
    refine blanks (fun d hd => ?_) _
    rcases List.mem_cons.1 hd with rfl | hd
    · exact hc
    · exact List.mem_takeWhile_imp hd
  · split at h
    · exact of_readComment h
    · split at h
      · next p hp =>
        cases h
        unfold Lexeme.readSymbol? at hp
        split at hp <;> cases hp
      · unfold Lexeme.readWord Lexeme.readSection Lexeme.readBits at h
        simp only at h
        split at h
        · split at h <;> cases h
        · split at h
          · split at h <;> cases h
          · split at h <;> cases h

/-- A lexeme without a kind spells no token. -/
theorem spells_of_read {c : Char} (h : Lexeme.read c (s ++ rest) = .ok (⟨none, c :: s⟩, rest)) :
    Spells (c :: s) [] rest := by
  intro start
  refine ⟨[], rfl, ?_⟩
  rw [List.cons_append, Token.ofTextFrom_cons_ok h]
  cases Token.ofTextFrom (start.after (c :: s)) rest <;> rfl

/-- A gap spells no token. -/
theorem spells (h : IsGap s rest) : Spells s [] rest := by
  induction h with
  | nil rest => exact .nil rest
  | @blank c s rest hc _ ih => exact (Spells.blank hc (s ++ rest)).append ih
  | @block body s rest hbody _ ih =>
    have hread : Lexeme.read '/' (('*' :: (body ++ ['*', '/'])) ++ (s ++ rest)) =
        .ok (⟨none, '/' :: '*' :: (body ++ ['*', '/'])⟩, s ++ rest) := by
      have hsplit := splitComment_append hbody (s ++ rest)
      rw [Lexeme.read, if_neg (by decide), if_pos rfl, List.cons_append, List.append_assoc]
      show readComment ('*' :: (body ++ '*' :: '/' :: (s ++ rest))) = _
      rw [readComment, hsplit]
    have := (spells_of_read hread).append ih
    simpa using this
  | @line body rest hbody hrest =>
    have hstop : Spells.Stops (· ≠ '\n') rest := fun c hc => by simp [hrest c hc]
    have hspan := hstop.span (s := body) fun c hc => by
      have hne : c ≠ '\n' := fun he => hbody (he ▸ hc)
      simpa using hne
    refine spells_of_read ?_
    rw [Lexeme.read, if_neg (by decide), if_pos rfl, List.cons_append, readComment, hspan.1,
      hspan.2]

end IsGap

end Clocked
