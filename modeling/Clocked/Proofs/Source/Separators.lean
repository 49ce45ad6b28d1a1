/-
Clocked.Proofs.Source.Separators — tokens and what may stand between them.

Tokens are written one after the other, with a separator in front of each and one at
the end (`spaced`). `Separates` says which separators keep them apart: each is a gap,
and between two words there is one that is not empty. Symbols need none.

Such a text is read as its tokens (`ofText_separated`), so no choice of separators shows in
what is read, but for places.
-/
import Clocked.Proofs.Description.Places
import Clocked.Proofs.Source.Units

namespace Clocked

open Spells (Stops symbols sectionWords)
open Lexeme (isNamePart isBit)
open Text (letters)
open Description (mapOutcome)

variable {t : Token Unit} {s rest last last' : List Char}
  {items items' : List (List Char × Token Unit)}

/-! ## 1. Tokens that can be written -/

/-- A token with a text that is read as its kind. -/
inductive Token.IsPlain : Token Unit → Prop
  | symbol {kind : Token.Kind} {text : String} (h : (kind, text) ∈ symbols) :
    IsPlain ⟨kind, text, ()⟩
  | sectionWord {kind : Token.Kind} {word : String} (h : (kind, word) ∈ sectionWords) :
    IsPlain ⟨kind, "." ++ word, ()⟩
  | identifier {name : String} (h : isIdentifier name = true) : IsPlain ⟨.identifier, name, ()⟩
  | bits {text : String} (hne : text.toList ≠ []) (h : ∀ c ∈ text.toList, isBit c = true) :
    IsPlain ⟨.bits, text, ()⟩

/-- Whether a token is a word, and not a symbol. -/
def Token.isWord (t : Token Unit) : Bool :=
  t.kind.isSection || t.kind = .identifier || t.kind = .bits

namespace Spells

theorem Stops.mono {p q : Char → Bool} (hpq : ∀ c, p c = true → q c = true)
    (h : Stops q rest) : Stops p rest := by
  intro c hc
  rw [Bool.eq_false_iff]
  intro hp
  simpa [h c hc] using hpq c hp

/-- No word goes on into a symbol. -/
theorem symbol_stops {kind : Token.Kind} {text : String} (h : (kind, text) ∈ symbols)
    (rest : List Char) : Stops isNamePart (text.toList ++ rest) := by
  simp only [symbols, List.mem_cons, Prod.mk.injEq, List.not_mem_nil, or_false] at h
  rcases h with ⟨rfl, rfl⟩ | ⟨rfl, rfl⟩ | ⟨rfl, rfl⟩ | ⟨rfl, rfl⟩ | ⟨rfl, rfl⟩ | ⟨rfl, rfl⟩ |
    ⟨rfl, rfl⟩ | ⟨rfl, rfl⟩ <;> exact Stops.cons (by decide) _

end Spells

theorem Token.isWord_sectionWord {kind : Token.Kind} {text : String}
    (h : (kind, text) ∈ sectionWords) : Token.isWord ⟨kind, "." ++ text, ()⟩ = true := by
  have hall : ∀ p ∈ sectionWords, p.1.isSection = true := by decide
  simp [isWord, hall _ h]

namespace Token.IsPlain

/-- No word goes on into a token that is none. -/
theorem stops (h : t.IsPlain) (hword : t.isWord = false) (rest : List Char) :
    Stops isNamePart (t.text.toList ++ rest) := by
  cases h with
  | symbol h => exact Spells.symbol_stops h rest
  | sectionWord h => rw [isWord_sectionWord h] at hword; cases hword
  | identifier h => cases hword
  | bits hne h => cases hword

/-- A token is read as itself, unless it is a word and more of a word follows. -/
theorem spells (h : t.IsPlain) (hstop : t.isWord = true → Stops isNamePart rest) :
    Spells t.text.toList [t] rest := by
  cases h with
  | symbol h => exact Spells.symbol _ _ h rest
  | sectionWord h =>
    have hstop := hstop (isWord_sectionWord h)
    exact Spells.sectionWord _ _ h (hstop.mono fun _ => Lexeme.isNamePart_of_isAlpha)
  | identifier h => exact Spells.identifier h (hstop rfl)
  | bits hne h => exact Spells.bits hne h ((hstop rfl).mono fun _ => Lexeme.isNamePart_of_isDigit)

end Token.IsPlain

/-! ## 2. Separators -/

/-- Tokens in a row, each behind its separator, and a separator at the end. -/
def spaced : List (List Char × Token Unit) → List Char → List Char
  | [], last => last
  | (separator, t) :: items, last => separator ++ (t.text.toList ++ spaced items last)

/-- The separators are gaps, and there is one between any two words. -/
def Separates (afterWord : Bool) : List (List Char × Token Unit) → List Char → Prop
  | [], last => IsGap last []
  | (separator, t) :: items, last =>
    IsGap separator (t.text.toList ++ spaced items last) ∧
      (afterWord = true → t.isWord = true → separator ≠ []) ∧ Separates t.isWord items last

/-- No word goes on into a gap, nor past it if it is empty and nothing of a word follows. -/
theorem IsGap.stops (h : IsGap s rest) (hrest : s = [] → Stops isNamePart rest) :
    Stops isNamePart (s ++ rest) := by
  cases h with
  | nil => exact hrest rfl
  | @blank c s rest hc h =>
    refine Stops.cons ?_ _
    simp only [Lexeme.isBlank, Bool.or_eq_true, decide_eq_true_eq] at hc
    rcases hc with (rfl | rfl) | rfl <;> decide
  | block hbody h => exact Stops.cons (by decide) _
  | line hbody hrest => exact Stops.cons (by decide) _

/-- What stands behind a word does not go on with it. -/
theorem Separates.stops (hplain : ∀ p ∈ items, p.2.IsPlain) (h : Separates true items last) :
    Stops isNamePart (spaced items last) := by
  cases items with
  | nil =>
    have := IsGap.stops h fun _ => Stops.nil _
    rwa [List.append_nil] at this
  | cons p items =>
    obtain ⟨separator, t⟩ := p
    obtain ⟨hgap, hne, -⟩ := h
    refine hgap.stops fun hnil => ?_
    have hword : t.isWord = false := by
      rw [Bool.eq_false_iff]
      exact fun hword => hne rfl hword hnil
    exact (hplain _ List.mem_cons_self).stops hword _

/-- Separated tokens are read as they are. -/
theorem Separates.spells {afterWord : Bool} (hplain : ∀ p ∈ items, p.2.IsPlain)
    (h : Separates afterWord items last) : Spells (spaced items last) (items.map Prod.snd) [] := by
  induction items generalizing afterWord with
  | nil => exact IsGap.spells h
  | cons p items ih =>
    obtain ⟨separator, t⟩ := p
    obtain ⟨hgap, -, hrest⟩ := h
    have hplain' : ∀ p ∈ items, p.2.IsPlain := fun p hp => hplain p (List.mem_cons_of_mem _ hp)
    have htoken : Spells t.text.toList [t] (spaced items last) := by
      refine (hplain _ List.mem_cons_self).spells fun hword => ?_
      rw [hword] at hrest
      exact hrest.stops hplain'
    have hmore := ih hplain' hrest
    rw [← List.append_nil (t.text.toList ++ spaced items last)] at hgap
    rw [← List.append_nil (spaced items last)] at htoken
    exact hgap.spells.append (htoken.append hmore)

/-! ## 3. Reading what was written -/

/-- The tokens written, and the end of the text behind them. -/
theorem Token.ofTextFrom_spaced (hplain : ∀ p ∈ items, p.2.IsPlain)
    (h : Separates false items last) :
    ∃ ts place, ofTextFrom Location.start (spaced items last) = .ok (ts ++ [endOfText place]) ∧
      ts.map erase = items.map Prod.snd := by
  obtain ⟨ts, hts, hread⟩ := h.spells hplain Location.start
  rw [List.append_nil, ofTextFrom_nil] at hread
  exact ⟨ts, _, hread, hts⟩

/-- What is read of a text with separators depends on the tokens, but for places. -/
theorem Description.ofText_spaced (hplain : ∀ p ∈ items, p.2.IsPlain)
    (h : Separates false items last) :
    mapOutcome (fun _ => ()) (ofText (String.ofList (spaced items last))) =
      (ofTokens (items.map Prod.snd ++ [Token.endOfText ()])).1 := by
  obtain ⟨ts, place, hread, hts⟩ := Token.ofTextFrom_spaced hplain h
  have herase : items.map Prod.snd ++ [Token.endOfText ()] =
      (ts ++ [Token.endOfText place]).map Token.erase := by
    rw [List.map_append, hts]
    rfl
  rw [herase, ofTokens_erase]
  rw [ofText, Token.ofText, String.toList_ofList, hread]
  rfl

namespace Token

/-- Written with any separators that keep them apart, tokens are read as they are, with the
end of the text behind them; so is a source of these letters. What is read of the text as a
description is the same for all such separators, but for places. -/
theorem ofText_separated (hplain : ∀ p ∈ items, p.2.IsPlain) (h : Separates false items last) :
    (∃ ts place, ofText (String.ofList (spaced items last)) = .ok (ts ++ [endOfText place]) ∧
      ts.map erase = items.map Prod.snd) ∧
    (∀ source, letters source = spaced items last →
      ∃ ts place, ofUnits source = .ok (ts ++ [endOfText place]) ∧
        ts.map erase = items.map Prod.snd) ∧
    ∀ items' last', items'.map Prod.snd = items.map Prod.snd → Separates false items' last' →
      mapOutcome (fun _ => ()) (Description.ofText (String.ofList (spaced items' last'))) =
        mapOutcome (fun _ => ()) (Description.ofText (String.ofList (spaced items last))) := by
  have hread := ofTextFrom_spaced hplain h
  refine ⟨?_, ?_, ?_⟩
  · rwa [ofText, String.toList_ofList]
  · intro source hsource
    rwa [ofUnits, hsource]
  · intro items' last' hsame h'
    have hplain' : ∀ p ∈ items', p.2.IsPlain := by
      intro p hp
      have hmem : p.2 ∈ items.map Prod.snd := hsame ▸ List.mem_map_of_mem hp
      obtain ⟨q, hq, hqp⟩ := List.mem_map.1 hmem
      exact hqp ▸ hplain q hq
    rw [Description.ofText_spaced hplain' h', Description.ofText_spaced hplain h, hsame]

/-- A title in two comments and a row of blanks. -/
def commentedTitle : List (List Char × Token Unit) :=
  [([], ⟨.hardware, ".hardware", ()⟩),
    ("/* not\n**a name */".toList, ⟨.identifier, "mux_2", ()⟩),
    (" // to here".toList, ⟨.newline, "\n", ()⟩)]

theorem ofText_separated_commentedTitle :
    ((∀ p ∈ commentedTitle, p.2.IsPlain) ∧ Separates false commentedTitle "\t\r ".toList) ∧
    (∃ ts place, ofText (String.ofList (spaced commentedTitle "\t\r ".toList)) =
        .ok (ts ++ [endOfText place]) ∧
      ts.map erase = commentedTitle.map Prod.snd) := by
  have hplain : ∀ p ∈ commentedTitle, p.2.IsPlain := by
    have hword : (Kind.hardware, "hardware") ∈ sectionWords := by decide
    refine List.forall_mem_cons.2 ⟨.sectionWord hword, List.forall_mem_cons.2 ⟨?_, ?_⟩⟩
    · exact .identifier (by decide)
    · exact List.forall_mem_cons.2 ⟨.symbol (by decide), by simp⟩
  have hsep : Separates false commentedTitle "\t\r ".toList := by
    have hblanks : "\t\r ".toList.all Lexeme.isBlank = true := by decide
    refine ⟨.nil _, by simp, ?_, by decide, ?_, by decide, .blanks (List.all_eq_true.1 hblanks) []⟩
    · show IsGap ('/' :: '*' :: (" not\n**a name ".toList ++ '*' :: '/' :: [])) _
      exact .block (by decide) (.nil _)
    · show IsGap (' ' :: '/' :: '/' :: " to here".toList) _
      refine .blank (by decide) (.line (by decide) ?_)
      rintro c ⟨⟩
      rfl
  exact ⟨⟨hplain, hsep⟩, (ofText_separated hplain hsep).1⟩

end Token
end Clocked
