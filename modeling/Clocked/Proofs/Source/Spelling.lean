/-
Clocked.Proofs.Source.Spelling — texts and the tokens they are read as.

`Spells s ts rest`: the text `s`, standing before `rest`, is read as the tokens
`ts` wherever it begins, and reading goes on at `rest`. Pieces of text in a row
spell their tokens in a row (`Spells.append`), so a printed text is followed
piece by piece. A word has a side condition on what follows: a name must not run
on into a name, a section word not into a letter, a bit string not into a digit.
Symbols and blanks have none.

`Spells.ofText` turns the whole into the token list of a text.
-/
import Clocked.Source.Tokens

namespace Clocked

variable {α β : Type}

/-! ## 1. Tokens and their places -/

namespace Token

/-- Changes the place of a token. -/
def map (f : α → β) (t : Token α) : Token β := ⟨t.kind, t.text, f t.place⟩

/-- A token without its place. -/
def erase (t : Token α) : Token Unit := t.map fun _ => ()

@[simp] theorem kind_map (f : α → β) (t : Token α) : (t.map f).kind = t.kind := rfl

@[simp] theorem text_map (f : α → β) (t : Token α) : (t.map f).text = t.text := rfl

@[simp] theorem place_map (f : α → β) (t : Token α) : (t.map f).place = f t.place := rfl

end Token

/-- Whether a text is one name: a letter or `_`, then letters, digits and `_`. -/
def isIdentifier (name : String) : Bool :=
  match name.toList with
  | [] => false
  | c :: s => Lexeme.isNameStart c && s.all Lexeme.isNamePart

/-! ## 2. Pieces of text -/

/-- The text `s`, standing before `rest`, is read as the tokens `ts`. -/
def Spells (s : List Char) (ts : List (Token Unit)) (rest : List Char) : Prop :=
  ∀ start : Location, ∃ us : List (Token Location), us.map Token.erase = ts ∧
    Token.ofTextFrom start (s ++ rest) =
      (Token.ofTextFrom (start.after s) rest).map (us ++ ·)

namespace Spells

variable {s s' rest : List Char} {ts ts' : List (Token Unit)}

theorem nil (rest : List Char) : Spells [] [] rest := by
  intro start
  refine ⟨[], rfl, ?_⟩
  rw [List.nil_append, Location.after_nil]
  cases Token.ofTextFrom start rest <;> rfl

/-- Pieces in a row spell their tokens in a row. -/
theorem append (h : Spells s ts (s' ++ rest)) (h' : Spells s' ts' rest) :
    Spells (s ++ s') (ts ++ ts') rest := by
  intro start
  obtain ⟨us, rfl, hs⟩ := h start
  obtain ⟨us', rfl, hs'⟩ := h' (start.after s)
  refine ⟨us ++ us', List.map_append, ?_⟩
  rw [List.append_assoc, hs, hs', Location.after_append]
  cases Token.ofTextFrom ((start.after s).after s') rest <;> simp [Except.map]

/-- A lexeme that is read as such spells its token. -/
theorem of_read {c : Char} {kind : Token.Kind}
    (h : Lexeme.read c (s ++ rest) = .ok (⟨some kind, c :: s⟩, rest)) :
    Spells (c :: s) [⟨kind, String.ofList (c :: s), ()⟩] rest := by
  intro start
  exact ⟨[⟨kind, String.ofList (c :: s), start⟩], rfl, Token.ofTextFrom_cons_ok h⟩

/-! ## 3. Blanks -/

theorem ofTextFrom_blank {c : Char} (hc : Lexeme.isBlank c = true) (start : Location)
    (s : List Char) :
    Token.ofTextFrom start (c :: s) =
      Token.ofTextFrom (start.after (c :: s.takeWhile Lexeme.isBlank))
        (s.dropWhile Lexeme.isBlank) := by
  have hread : Lexeme.read c s =
      .ok (⟨none, c :: s.takeWhile Lexeme.isBlank⟩, s.dropWhile Lexeme.isBlank) := by
    rw [Lexeme.read, if_pos hc]
  rw [Token.ofTextFrom_cons_ok hread]
  cases Token.ofTextFrom _ (s.dropWhile Lexeme.isBlank) <;> rfl

/-- Reading may begin behind any blanks. -/
theorem ofTextFrom_dropWhile (start : Location) (s : List Char) :
    Token.ofTextFrom (start.after (s.takeWhile Lexeme.isBlank)) (s.dropWhile Lexeme.isBlank) =
      Token.ofTextFrom start s := by
  cases s with
  | nil => rfl
  | cons c s =>
    by_cases hc : Lexeme.isBlank c = true
    · rw [ofTextFrom_blank hc, List.takeWhile_cons_of_pos hc, List.dropWhile_cons_of_pos hc]
    · rw [List.takeWhile_cons_of_neg hc, List.dropWhile_cons_of_neg hc, Location.after_nil]

/-- A blank spells nothing, whatever follows. -/
theorem blank {c : Char} (hc : Lexeme.isBlank c = true) (rest : List Char) :
    Spells [c] [] rest := by
  intro start
  refine ⟨[], rfl, ?_⟩
  rw [List.singleton_append, ofTextFrom_blank hc, Location.after_cons, ofTextFrom_dropWhile,
    Location.after_cons, Location.after_nil]
  cases Token.ofTextFrom (start.next c) rest <;> rfl

theorem space (rest : List Char) : Spells [' '] [] rest := blank rfl rest

/-! ## 4. Symbols and words -/

/-- The symbols of the language. -/
def symbols : List (Token.Kind × String) :=
  [(.newline, "\n"), (.arrow, "->"), (.and, "&&"), (.or, "||"), (.equals, "="), (.not, "!"),
    (.lparen, "("), (.rparen, ")")]

theorem symbol (kind : Token.Kind) (text : String) (h : (kind, text) ∈ symbols)
    (rest : List Char) : Spells text.toList [⟨kind, text, ()⟩] rest := by
  simp only [symbols, List.mem_cons, Prod.mk.injEq, List.not_mem_nil, or_false] at h
  rcases h with ⟨rfl, rfl⟩ | ⟨rfl, rfl⟩ | ⟨rfl, rfl⟩ | ⟨rfl, rfl⟩ | ⟨rfl, rfl⟩ | ⟨rfl, rfl⟩ |
    ⟨rfl, rfl⟩ | ⟨rfl, rfl⟩ <;> exact of_read rfl

/-- What follows a word does not go on with it. -/
def Stops (p : Char → Bool) (rest : List Char) : Prop := ∀ c ∈ rest.head?, p c = false

theorem Stops.nil (p : Char → Bool) : Stops p [] := by
  intro c hc
  cases hc

theorem Stops.cons {p : Char → Bool} {c : Char} (hc : p c = false) (rest : List Char) :
    Stops p (c :: rest) := by
  intro d hd
  cases hd
  exact hc

/-- The longest run of a class is the one that was printed. -/
theorem Stops.span {p : Char → Bool} (h : Stops p rest) (hs : ∀ c ∈ s, p c = true) :
    (s ++ rest).takeWhile p = s ∧ (s ++ rest).dropWhile p = rest := by
  have hrest : rest.takeWhile p = [] ∧ rest.dropWhile p = rest := by
    cases rest with
    | nil => exact ⟨rfl, rfl⟩
    | cons c rest =>
      have hc : ¬ p c = true := by simp [h c rfl]
      exact ⟨List.takeWhile_cons_of_neg hc, List.dropWhile_cons_of_neg hc⟩
  rw [List.takeWhile_append_of_pos hs, List.dropWhile_append_of_pos hs, hrest.1, hrest.2,
    List.append_nil]
  exact ⟨rfl, rfl⟩

/-- The code points of letters. -/
theorem toNat_of_isAlpha {c : Char} (h : c.isAlpha = true) :
    65 ≤ c.toNat ∧ c.toNat ≤ 90 ∨ 97 ≤ c.toNat ∧ c.toNat ≤ 122 := by
  have h : (decide (c.val ≥ 'A'.val ∧ c.val ≤ 'Z'.val) ||
      (decide (c.val ≥ 'a'.val) && decide (c.val ≤ 'z'.val))) = true := h
  simpa [UInt32.le_iff_toNat_le] using h

/-- The code points of digits. -/
theorem toNat_of_isDigit {c : Char} (h : c.isDigit = true) : 48 ≤ c.toNat ∧ c.toNat ≤ 57 := by
  have h : (decide (c.val ≥ '0'.val) && decide (c.val ≤ '9'.val)) = true := h
  simpa [UInt32.le_iff_toNat_le] using h

theorem not_isDigit_of_isNameStart {c : Char} (h : Lexeme.isNameStart c = true) :
    c.isDigit = false := by
  rw [Bool.eq_false_iff]
  intro hd
  simp only [Lexeme.isNameStart, Bool.or_eq_true, decide_eq_true_eq] at h
  rcases h with h | rfl
  · -- the code points of digits lie below those of all letters
    have := toNat_of_isAlpha h
    have := toNat_of_isDigit hd
    omega
  · exact absurd hd (by decide)

/-- What begins a word begins neither a blank nor a comment nor a symbol. -/
theorem read_word {c : Char} (h : (Lexeme.isNameStart c || c.isDigit || c = '.') = true)
    (s : List Char) : Lexeme.read c s = Lexeme.readWord c s := by
  have hblank : ¬ Lexeme.isBlank c = true := by
    intro hb
    simp only [Lexeme.isBlank, Bool.or_eq_true, decide_eq_true_eq] at hb
    rcases hb with (rfl | rfl) | rfl <;> exact absurd h (by decide)
  have hslash : c ≠ '/' := by
    rintro rfl
    exact absurd h (by decide)
  have hsymbol : Lexeme.readSymbol? c s = none := by
    unfold Lexeme.readSymbol?
    split <;> first | rfl | exact absurd h (by decide)
  rw [Lexeme.read, if_neg hblank, if_neg hslash, hsymbol]

/-- A name, unless more of a name follows. -/
theorem identifier {name : String} (h : isIdentifier name = true)
    (hstop : Stops Lexeme.isNamePart rest) :
    Spells name.toList [⟨.identifier, name, ()⟩] rest := by
  unfold isIdentifier at h
  cases hname : name.toList with
  | nil => simp [hname] at h
  | cons c s =>
    simp only [hname, Bool.and_eq_true, List.all_eq_true] at h
    obtain ⟨hc, hs⟩ := h
    have hpoint : c ≠ '.' := by
      rintro rfl
      exact absurd hc (by decide)
    have hspan := hstop.span hs
    have hread : Lexeme.read c (s ++ rest) = .ok (⟨some .identifier, c :: s⟩, rest) := by
      rw [read_word (by simp [hc]), Lexeme.readWord, if_neg hpoint,
        if_neg (by simp [not_isDigit_of_isNameStart hc]), if_pos hc, hspan.1, hspan.2]
    have hspell := of_read hread
    rwa [← hname, String.ofList_toList, hname] at hspell

/-- A bit string, unless a digit follows. -/
theorem bits {text : String} (hne : text.toList ≠ [])
    (h : ∀ c ∈ text.toList, Lexeme.isBit c = true) (hstop : Stops Char.isDigit rest) :
    Spells text.toList [⟨.bits, text, ()⟩] rest := by
  have hdigit : ∀ c, Lexeme.isBit c = true → c.isDigit = true := by
    intro c hc
    simp only [Lexeme.isBit, Bool.or_eq_true, decide_eq_true_eq] at hc
    rcases hc with rfl | rfl <;> rfl
  cases htext : text.toList with
  | nil => exact absurd htext hne
  | cons c s =>
    rw [htext] at h
    have hc : c.isDigit = true := hdigit c (h c List.mem_cons_self)
    have hpoint : c ≠ '.' := by
      rintro rfl
      exact absurd hc (by decide)
    have hspan := hstop.span (s := c :: s) fun d hd => hdigit d (h d hd)
    have hbits : (c :: s).dropWhile Lexeme.isBit = [] := by
      simpa using ((Stops.nil Lexeme.isBit).span h).2
    rw [List.cons_append] at hspan
    have hread : Lexeme.read c (s ++ rest) = .ok (⟨some .bits, c :: s⟩, rest) := by
      rw [read_word (by simp [hc]), Lexeme.readWord, if_neg hpoint, if_pos hc, Lexeme.readBits,
        hspan.1, hspan.2]
      simp only [hbits]
    have hspell := of_read hread
    rwa [← htext, String.ofList_toList, htext] at hspell

/-- The words that open sections, without their point. -/
def sectionWords : List (Token.Kind × String) :=
  [(.hardware, "hardware"), (.inputs, "inputs"), (.outputs, "outputs"), (.latch, "latch"),
    (.latch, "latches"), (.update, "update"), (.simulate, "simulate")]

/-- A section word, unless a letter follows. -/
theorem sectionWord (kind : Token.Kind) (word : String) (h : (kind, word) ∈ sectionWords)
    (hstop : Stops Char.isAlpha rest) :
    Spells ("." ++ word).toList [⟨kind, "." ++ word, ()⟩] rest := by
  have hword : word.toList.all Char.isAlpha = true ∧ Token.sectionKind? word = some kind := by
    simp only [sectionWords, List.mem_cons, Prod.mk.injEq, List.not_mem_nil, or_false] at h
    rcases h with ⟨rfl, rfl⟩ | ⟨rfl, rfl⟩ | ⟨rfl, rfl⟩ | ⟨rfl, rfl⟩ | ⟨rfl, rfl⟩ | ⟨rfl, rfl⟩ |
      ⟨rfl, rfl⟩ <;> exact ⟨by decide, rfl⟩
  have hspan := hstop.span (List.all_eq_true.1 hword.1)
  have hread : Lexeme.read '.' (word.toList ++ rest) =
      .ok (⟨some kind, '.' :: word.toList⟩, rest) := by
    rw [read_word (by decide), Lexeme.readWord, if_pos rfl, Lexeme.readSection, hspan.1, hspan.2,
      String.ofList_toList]
    simp only [hword.2]
  have htext : ("." ++ word).toList = '.' :: word.toList := String.toList_append
  have hspell := of_read hread
  rwa [← htext, String.ofList_toList] at hspell

/-! ## 5. Whole texts -/

/-- A text that spells tokens is read as these tokens and the end of the text. -/
theorem ofText {text : String} (h : Spells text.toList ts []) :
    ∃ us place, Token.ofText text = .ok (us ++ [Token.endOfText place]) ∧
      us.map Token.erase = ts := by
  obtain ⟨us, hus, hread⟩ := h Location.start
  refine ⟨us, Location.start.after text.toList, ?_, hus⟩
  rwa [List.append_nil, Token.ofTextFrom_nil] at hread

end Spells

end Clocked
