/-
Clocked.Proofs.Source.Units — sources as 16-bit units.

A source is a row of 16-bit units, and any row is one: a half of a pair need not
stand beside its other half. `Token.ofUnits` reads such a source letter by letter,
a half of a pair being a letter of no class. For the units of a text this is what
`Token.ofText` reads (`Token.ofText_eq_ofUnits`); an error then has the same place,
and only a message about half a pair is worded otherwise.
-/
import Clocked.Text.Utf8
import Clocked.Proofs.Source.Lexemes

namespace Clocked

namespace Text

open Utf8 (replacement)

/-! ## 1. Units and letters -/

/-- The units of a character: itself, or the two halves of a pair. -/
def unitsOf (c : Char) : List UInt16 :=
  if units c = 1 then [UInt16.ofNat c.toNat]
  else
    [UInt16.ofNat (0xD800 + (c.toNat - 0x10000) / 0x400),
      UInt16.ofNat (0xDC00 + (c.toNat - 0x10000) % 0x400)]

/-- The units of a text. -/
def utf16 (s : List Char) : List UInt16 := s.flatMap unitsOf

/-- The character of one unit; half a pair is none and gives U+FFFD. -/
def letter (u : UInt16) : Char :=
  if u.toNat.isValidChar then Char.ofNat u.toNat else replacement

/-- The letters of a source. -/
def letters (source : List UInt16) : List Char := source.map letter

/-- The letters of the units of a text: two times U+FFFD for every pair. -/
def flat (s : List Char) : List Char := letters (utf16 s)

variable {c d : Char} {s r : List Char} {u : UInt16}

@[simp] theorem letters_nil : letters [] = [] := rfl

@[simp] theorem letters_append (v w : List UInt16) : letters (v ++ w) = letters v ++ letters w :=
  List.map_append

@[simp] theorem length_letters (w : List UInt16) : (letters w).length = w.length :=
  List.length_map letter

/-- A source is cut where its letters are. -/
theorem letters_eq_append {w : List UInt16} (h : letters w = s ++ r) :
    ∃ u v, w = u ++ v ∧ letters u = s ∧ letters v = r :=
  List.map_eq_append_iff.1 h

theorem units_eq_one_iff : units c = 1 ↔ c.toNat ≤ 0xFFFF := by
  have hval : c.val ≤ 0xFFFF ↔ c.toNat ≤ 0xFFFF := UInt32.le_iff_toNat_le
  unfold units
  split <;> simp_all

/-- A pair stands for no octet. -/
theorem le_of_units (h : units c ≠ 1) : 128 ≤ c.toNat := by
  by_contra hlt
  exact h (units_eq_one_iff.2 (by omega))

theorem units_of_ne_one (h : units c ≠ 1) : units c = 2 := by
  unfold units at h ⊢
  split <;> simp_all

theorem letter_of_valid (h : u.toNat.isValidChar) : (letter u).toNat = u.toNat := by
  rw [letter, if_pos h, Char.ofNat, dif_pos h]
  rfl

theorem letter_of_half (h : ¬ u.toNat.isValidChar) : letter u = replacement := if_neg h

theorem units_letter (u : UInt16) : units (letter u) = 1 := by
  by_cases h : u.toNat.isValidChar
  · rw [units_eq_one_iff, letter_of_valid h]
    have := u.toNat_lt
    omega
  · rw [letter_of_half h]
    decide

/-- A letter other than U+FFFD shows its unit. -/
theorem unitsOf_letter (h : letter u ≠ replacement) : unitsOf (letter u) = [u] := by
  have hvalid : u.toNat.isValidChar := by
    by_contra hhalf
    exact h (letter_of_half hhalf)
  rw [unitsOf, if_pos (units_letter u), letter_of_valid hvalid, UInt16.ofNat_toNat]

theorem toNat_unit (h : units c = 1) : (UInt16.ofNat c.toNat).toNat = c.toNat := by
  have hle := units_eq_one_iff.1 h
  exact UInt16.toNat_ofNat_of_lt' (by simp [UInt16.size]; omega)

/-- The upper half of a pair is a half and no character. -/
theorem toNat_upperHalf (c : Char) :
    (UInt16.ofNat (0xD800 + (c.toNat - 0x10000) / 0x400)).toNat =
        0xD800 + (c.toNat - 0x10000) / 0x400 ∧
      ¬ (0xD800 + (c.toNat - 0x10000) / 0x400).isValidChar := by
  have hlt : c.toNat < 0x110000 := by
    rcases c.valid with h | h
    · exact Nat.lt_trans h (by decide)
    · exact h.2
  refine ⟨UInt16.toNat_ofNat_of_lt' (by simp [UInt16.size]; omega), ?_⟩
  simp only [Nat.isValidChar]
  omega

theorem letters_unitsOf (h : units c = 1) : letters (unitsOf c) = [c] := by
  have hvalid : c.toNat.isValidChar := c.valid
  rw [unitsOf, if_pos h]
  simp only [letters, List.map_cons, List.map_nil, letter, toNat_unit h, if_pos hvalid,
    Char.ofNat_toNat]

theorem letters_unitsOf_pair (h : units c ≠ 1) :
    letters (unitsOf c) = [replacement, replacement] := by
  obtain ⟨hto, hhalf⟩ := toNat_upperHalf c
  have hhigh : ¬ (UInt16.ofNat (0xD800 + (c.toNat - 0x10000) / 0x400)).toNat.isValidChar := by
    rw [hto]
    exact hhalf
  have hlow : ¬ (UInt16.ofNat (0xDC00 + (c.toNat - 0x10000) % 0x400)).toNat.isValidChar := by
    rw [UInt16.toNat_ofNat_of_lt' (by simp [UInt16.size]; omega)]
    simp only [Nat.isValidChar]
    omega
  rw [unitsOf, if_neg h]
  simp only [letters, List.map_cons, List.map_nil, letter_of_half hhigh, letter_of_half hlow]

/-! ## 2. The letters of a text -/

theorem flat_nil : flat [] = [] := rfl

theorem flat_cons (c : Char) (s : List Char) : flat (c :: s) = letters (unitsOf c) ++ flat s := by
  simp [flat, utf16]

theorem flat_cons_of_one (h : units c = 1) (s : List Char) : flat (c :: s) = c :: flat s := by
  rw [flat_cons, letters_unitsOf h, List.singleton_append]

theorem flat_cons_of_ne_one (h : units c ≠ 1) (s : List Char) :
    flat (c :: s) = replacement :: replacement :: flat s := by
  rw [flat_cons, letters_unitsOf_pair h]
  rfl

theorem flat_of_units (h : ∀ c ∈ s, units c = 1) : flat s = s := by
  induction s with
  | nil => rfl
  | cons c s ih =>
    rw [flat_cons_of_one (h c List.mem_cons_self), ih fun d hd => h d (List.mem_cons_of_mem c hd)]

/-- A letter other than U+FFFD stands for itself. -/
theorem flat_eq_cons (h : flat s = d :: r) (hd : d ≠ replacement) :
    ∃ t, s = d :: t ∧ r = flat t := by
  cases s with
  | nil => cases h
  | cons c t =>
    by_cases hc : units c = 1
    · rw [flat_cons_of_one hc] at h
      cases h
      exact ⟨t, rfl, rfl⟩
    · rw [flat_cons_of_ne_one hc] at h
      exact absurd (List.cons.inj h).1.symm hd

/-- A class that treats all pairs as U+FFFD goes as far in the letters as in the text. -/
theorem span_flat {p : Char → Bool} (hp : ∀ c, units c ≠ 1 → p c = p replacement)
    (s : List Char) :
    (flat s).takeWhile p = flat (s.takeWhile p) ∧ (flat s).dropWhile p = flat (s.dropWhile p) := by
  induction s with
  | nil => exact ⟨rfl, rfl⟩
  | cons c s ih =>
    by_cases hc : units c = 1
    · rw [flat_cons_of_one hc]
      by_cases hpc : p c = true
      · simp [hpc, ih, flat_cons_of_one hc]
      · simp [hpc, flat_cons_of_one hc, flat_nil]
    · rw [flat_cons_of_ne_one hc]
      have hpc := hp c hc
      by_cases hpr : p replacement = true
      · simp [hpc, hpr, ih, flat_cons_of_ne_one hc]
      · simp [hpc, hpr, flat_cons_of_ne_one hc, flat_nil]

end Text

open Text (units flat letters utf16)
open Text.Utf8 (replacement)

/-! ## 3. Lexemes of letters -/

namespace Lexeme

variable {c : Char} {s rest : List Char} {l : Lexeme}

/-- What was read, in letters. -/
def flatten (p : Lexeme × List Char) : Lexeme × List Char := (⟨p.1.kind, flat p.1.text⟩, flat p.2)

/-- A class within names holds octets of the first half only. -/
theorem class_of_le {p : Char → Bool} (hp : ∀ c, p c = true → isNamePart c = true)
    (h : 128 ≤ c.toNat) : p c = false := by
  rw [Bool.eq_false_iff]
  intro hc
  have := toNat_lt_of_isNamePart (hp c hc)
  omega

theorem isBlank_of_le (h : 128 ≤ c.toNat) : isBlank c = false := by
  rw [Bool.eq_false_iff]
  intro hblank
  simp only [isBlank, Bool.or_eq_true, decide_eq_true_eq] at hblank
  rcases hblank with (rfl | rfl) | rfl <;> exact absurd h (by decide)

/-- No lexeme begins with a character beyond the first half of the octets. -/
theorem read_of_le (h : 128 ≤ c.toNat) (s : List Char) :
    read c s = .error ⟨.unexpectedCharacter c, []⟩ := by
  have hne {d : Char} (hd : d.toNat < 128) : c ≠ d := by
    rintro rfl
    omega
  have hsymbol : readSymbol? c s = none := by
    unfold readSymbol?
    split <;> first | rfl | exact absurd rfl (hne (by decide))
  rw [read, if_neg (by simp [isBlank_of_le h]), if_neg (hne (by decide)), hsymbol]
  simp only
  rw [readWord, if_neg (hne (by decide)),
    if_neg (by simp [class_of_le (fun _ => isNamePart_of_isDigit) h]),
    if_neg (by simp [class_of_le (fun _ => isNamePart_of_isNameStart) h])]

theorem splitComment_flat (s : List Char) :
    splitComment (flat s) = (splitComment s).map fun p => (flat p.1, flat p.2) := by
  fun_induction splitComment s with
  | case1 => rfl
  | case2 r =>
    rw [Text.flat_cons_of_one (by decide), Text.flat_cons_of_one (by decide)]
    rfl
  | case3 c r hnot ih =>
    by_cases hc : units c = 1
    · have hflat : ∀ t, c = '*' → flat r = '/' :: t → False := by
        intro t hstar hr
        obtain ⟨r', rfl, -⟩ := Text.flat_eq_cons hr (by decide)
        exact hnot r' hstar rfl
      rw [Text.flat_cons_of_one hc, splitComment, ih]
      · cases splitComment r <;> simp [Text.flat_cons_of_one hc]
      · exact hflat
    · rw [Text.flat_cons_of_ne_one hc, splitComment, splitComment, ih]
      · cases splitComment r <;> simp [Text.flat_cons_of_ne_one hc]
      · rintro t he -
        exact absurd he (by decide)
      · rintro t he -
        exact absurd he (by decide)

theorem readComment_flat (s : List Char) :
    readComment (flat s) = (readComment s).map flatten := by
  fun_cases readComment s with
  | case1 r =>
    have hspan := Text.span_flat (p := fun c => decide (c ≠ '\n')) (fun c hc => by
      have : c ≠ '\n' := fun he => hc (he ▸ by decide)
      simp [this]
      decide) r
    rw [Text.flat_cons_of_one (by decide), readComment, hspan.1, hspan.2]
    simp only [Except.map, flatten]
    rw [Text.flat_cons_of_one (by decide), Text.flat_cons_of_one (by decide)]
  | case2 r body rest hsplit =>
    rw [Text.flat_cons_of_one (by decide), readComment, splitComment_flat, hsplit]
    simp only [Option.map_some, Except.map, flatten]
    rw [Text.flat_cons_of_one (by decide), Text.flat_cons_of_one (by decide)]
  | case3 r hsplit =>
    rw [Text.flat_cons_of_one (by decide), readComment, splitComment_flat, hsplit]
    rfl
  | case4 _ hslash hstar =>
    unfold readComment
    split
    · next r heq =>
      obtain ⟨t, ht, -⟩ := Text.flat_eq_cons heq (by decide)
      exact (hslash t ht).elim
    · next r heq =>
      obtain ⟨t, ht, -⟩ := Text.flat_eq_cons heq (by decide)
      exact (hstar t ht).elim
    · rfl

theorem readSymbol?_flat (c : Char) (s : List Char) :
    readSymbol? c (flat s) = (readSymbol? c s).map flatten := by
  fun_cases readSymbol? c s with
  | case9 c s hnewline harrow hand hor hequals hnot hlparen hrparen =>
    unfold readSymbol?
    split
    · exact (hnewline rfl).elim
    · next r heq =>
      obtain ⟨t, ht, -⟩ := Text.flat_eq_cons heq (by decide)
      exact (harrow t rfl ht).elim
    · next r heq =>
      obtain ⟨t, ht, -⟩ := Text.flat_eq_cons heq (by decide)
      exact (hand t rfl ht).elim
    · next r heq =>
      obtain ⟨t, ht, -⟩ := Text.flat_eq_cons heq (by decide)
      exact (hor t rfl ht).elim
    · exact (hequals rfl).elim
    · exact (hnot rfl).elim
    · exact (hlparen rfl).elim
    · exact (hrparen rfl).elim
    · rfl
  | _ => rfl

/-- A class within names goes as far in the letters as in the text. -/
theorem span_word {p : Char → Bool} (hp : ∀ c, p c = true → isNamePart c = true)
    (s : List Char) :
    (flat s).takeWhile p = s.takeWhile p ∧ (flat s).dropWhile p = flat (s.dropWhile p) ∧
      flat (s.takeWhile p) = s.takeWhile p := by
  have hspan := Text.span_flat (p := p) (fun c hc => by
    rw [class_of_le hp (Text.le_of_units hc), class_of_le hp (by decide)]) s
  have htext : flat (s.takeWhile p) = s.takeWhile p := Text.flat_of_units fun c hc => by
    by_contra h
    simpa [class_of_le hp (Text.le_of_units h)] using List.mem_takeWhile_imp hc
  rw [hspan.1, hspan.2, htext]
  exact ⟨rfl, rfl, rfl⟩

theorem readSection_flat (s : List Char) : readSection (flat s) = (readSection s).map flatten := by
  obtain ⟨htake, hdrop, htext⟩ := span_word (fun _ => isNamePart_of_isAlpha) s
  rw [readSection, readSection, htake, hdrop]
  cases Token.sectionKind? (String.ofList (s.takeWhile Char.isAlpha)) with
  | none => rfl
  | some kind =>
    simp only [Except.map, flatten]
    rw [Text.flat_cons_of_one (by decide), htext]

theorem readBits_flat (s : List Char) : readBits (flat s) = (readBits s).map flatten := by
  obtain ⟨htake, hdrop, htext⟩ := span_word (fun _ => isNamePart_of_isDigit) s
  rw [readBits, readBits, htake, hdrop]
  cases (s.takeWhile Char.isDigit).dropWhile isBit with
  | nil =>
    simp only [Except.map, flatten]
    rw [htext]
  | cons d r => rfl

theorem readWord_flat (h : units c = 1) (s : List Char) :
    readWord c (flat s) = (readWord c s).map flatten := by
  unfold readWord
  split
  · exact readSection_flat s
  · split
    · rw [← Text.flat_cons_of_one h, readBits_flat]
    · split
      · obtain ⟨htake, hdrop, htext⟩ := span_word (fun _ => id) s
        simp only [Except.map, flatten]
        rw [htake, hdrop, Text.flat_cons_of_one h, htext]
      · rfl

/-- A lexeme is read from letters as from the text. -/
theorem read_flat (h : units c = 1) (s : List Char) :
    read c (flat s) = (read c s).map flatten := by
  unfold read
  split
  · have hspan := Text.span_flat (p := isBlank) (fun c hc => by
      rw [isBlank_of_le (Text.le_of_units hc), isBlank_of_le (by decide)]) s
    simp only [Except.map, flatten]
    rw [hspan.1, hspan.2, Text.flat_cons_of_one h]
  · split
    · exact readComment_flat s
    · rw [readSymbol?_flat]
      cases readSymbol? c s with
      | none => exact readWord_flat h s
      | some reading => rfl

end Lexeme

/-! ## 4. Tokens of letters -/

theorem Location.after_flat (start : Location) (s : List Char) :
    start.after (flat s) = start.after s := by
  induction s generalizing start with
  | nil => rfl
  | cons c s ih =>
    by_cases hc : units c = 1
    · rw [Text.flat_cons_of_one hc, Location.after_cons, Location.after_cons, ih]
    · have hline : c ≠ '\n' := fun he => hc (he ▸ by decide)
      have hone : units replacement = 1 := by decide
      have hnext : (start.next replacement).next replacement = start.next c := by
        have hr : replacement ≠ '\n' := by decide
        simp [Location.next, hr, hline, hone, Text.units_of_ne_one hc, Nat.add_assoc]
      rw [Text.flat_cons_of_ne_one hc, Location.after_cons, Location.after_cons,
        Location.after_cons, hnext, ih]

namespace Token

/-- The tokens of a source that is a row of units. -/
def ofUnits (source : List UInt16) : Except (SyntaxError Location) (List (Token Location)) :=
  ofTextFrom Location.start (letters source)

theorem ofTextFrom_flat (start : Location) (s : List Char) :
    (ofTextFrom start (flat s)).mapError SyntaxError.place =
      (ofTextFrom start s).mapError SyntaxError.place := by
  induction s using Lexeme.induction generalizing start with
  | nil => rfl
  | fault c s fault hread =>
    by_cases hc : units c = 1
    · have hflat : Lexeme.read c (flat s) = .error fault := by
        rw [Lexeme.read_flat hc, hread]
        rfl
      rw [Text.flat_cons_of_one hc, ofTextFrom_cons_error hflat, ofTextFrom_cons_error hread]
    · rw [Lexeme.read_of_le (Text.le_of_units hc)] at hread
      cases hread
      have hflat := Lexeme.read_of_le (c := replacement) (by decide) (replacement :: flat s)
      rw [Text.flat_cons_of_ne_one hc, ofTextFrom_cons_error hflat,
        ofTextFrom_cons_error (Lexeme.read_of_le (Text.le_of_units hc) s)]
      rfl
  | lexeme c s l rest hread ih =>
    have hc : units c = 1 := by
      by_contra hc
      rw [Lexeme.read_of_le (Text.le_of_units hc)] at hread
      cases hread
    have hflat : Lexeme.read c (flat s) = .ok (⟨l.kind, flat l.text⟩, flat rest) := by
      rw [Lexeme.read_flat hc, hread]
      rfl
    have htokens : Lexeme.tokens ⟨l.kind, flat l.text⟩ start = l.tokens start := by
      unfold Lexeme.tokens
      cases hkind : l.kind with
      | none => rfl
      | some kind =>
        have hascii := (Lexeme.read_token hread hkind).2
        simp only
        rw [Text.flat_of_units fun d hd => Text.units_eq_one_iff.2 (by have := hascii d hd; omega)]
    have hmore := ih (start.after l.text)
    rw [Text.flat_cons_of_one hc, ofTextFrom_cons_ok hflat, ofTextFrom_cons_ok hread, htokens,
      Location.after_flat]
    cases hrest : ofTextFrom (start.after l.text) rest <;>
      cases hflat' : ofTextFrom (start.after l.text) (flat rest) <;>
      simp_all [Except.map, Except.mapError]

/-- The units of a text have the tokens of the text, or an error at the same place. -/
theorem ofText_eq_ofUnits (text : String) :
    (ofText text).mapError SyntaxError.place =
      (ofUnits (utf16 text.toList)).mapError SyntaxError.place :=
  (ofTextFrom_flat Location.start text.toList).symm

end Token
end Clocked
