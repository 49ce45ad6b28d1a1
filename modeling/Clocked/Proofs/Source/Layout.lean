/-
Clocked.Proofs.Source.Layout — where the tokens of a source lie.

`Covers source k ts`: from the offset `k` on, the source is what the tokens say and
nothing else. Every unit belongs to one token or to a gap, every token has its own
text at its own place, and places are counted as `Location.ofOffset` counts them.

`Token.ofUnits_spec` says this of all that is read, and says of an error that its
place is the first that no text read without error can go beyond.
-/
import Mathlib.Data.List.Chain
import Clocked.Proofs.Source.Units

namespace Clocked

open Text (letter letters utf16 unitLength)
open Text.Utf8 (replacement)

/-! ## 1. Places by offset -/

/-- The place of an offset: a line for every line end before it, and a column for
every unit since the last one. The unit 10 is the line end. -/
def Location.ofOffset (source : List UInt16) (offset : Nat) : Location :=
  ⟨1 + (source.take offset).count 10,
    1 + ((source.take offset).reverse.takeWhile (· ≠ 10)).length, offset⟩

/-- Only the unit 10 is a line end. -/
theorem Text.letter_eq_newline_iff {u : UInt16} : letter u = '\n' ↔ u = 10 := by
  constructor
  · intro h
    have hunits := Text.unitsOf_letter (u := u) (by rw [h]; decide)
    rw [h] at hunits
    exact (List.cons.inj hunits).1.symm
  · rintro rfl
    decide

namespace Location

@[simp] theorem offset_ofOffset (source : List UInt16) (offset : Nat) :
    (ofOffset source offset).offset = offset := rfl

theorem ofOffset_length (s : List UInt16) :
    ofOffset s s.length =
      ⟨1 + s.count 10, 1 + (s.reverse.takeWhile (· ≠ 10)).length, s.length⟩ := by
  simp [ofOffset]

/-- Behind a source is the place of its length. -/
theorem start_after (source : List UInt16) :
    start.after (letters source) = ofOffset source source.length := by
  induction source using List.reverseRecOn with
  | nil => rfl
  | append_singleton s u ih =>
    have hletters : letters (s ++ [u]) = letters s ++ [letter u] := by simp [letters]
    rw [hletters, after_append, ih, after_cons, after_nil, ofOffset_length, ofOffset_length]
    by_cases hu : u = 10
    · subst hu
      have hletter : letter 10 = '\n' := Text.letter_eq_newline_iff.2 rfl
      simp [next, hletter, Nat.add_assoc]
    · have hletter : letter u ≠ '\n' := mt Text.letter_eq_newline_iff.1 hu
      simp [next, hletter, hu, Text.units_letter, Nat.add_assoc]

theorem ofOffset_append (s r : List UInt16) :
    ofOffset (s ++ r) s.length = ofOffset s s.length := by
  simp [ofOffset]

end Location

/-! ## 2. Sources that are covered -/

/-- Where a token ends. -/
def Token.stop (t : Token Location) : Nat := t.place.offset + unitLength t.text.toList

/-- Where a token begins and ends. -/
def Token.span (t : Token Location) : Nat × Nat := (t.place.offset, t.stop)

/-- From the end of one stretch to the beginning of another there is a gap. -/
def GapBetween (source : List UInt16) (p q : Nat × Nat) : Prop :=
  IsGap (letters (source.extract p.2 q.1)) (letters (source.drop q.1))

/-- The tokens are what stands in the source from an offset on. -/
structure Covers (source : List UInt16) (k : Nat) (ts : List (Token Location)) : Prop where
  /-- The last token, and no other, marks the end of the source, and only it is empty. -/
  last : ∃ init, ts = init ++ [Token.endOfText (Location.ofOffset source source.length)] ∧
    ∀ t ∈ init, t.kind ≠ .eof ∧ t.text ≠ ""
  /-- A token's text stands in the source at the token's offset. -/
  text : ∀ t ∈ ts, utf16 t.text.toList = source.extract t.place.offset t.stop
  /-- Line and column are those of the offset. -/
  place : ∀ t ∈ ts, t.place = Location.ofOffset source t.place.offset
  /-- No token begins before one in front of it has ended. -/
  order : ts.Pairwise fun t u => t.stop ≤ u.place.offset
  /-- None begins before the offset. -/
  begins : ∀ t ∈ ts, k ≤ t.place.offset
  /-- Between tokens, and between the offset and the first, there are blanks and comments. -/
  gaps : List.IsChain (GapBetween source) ((k, k) :: ts.map Token.span)

/-- Letters other than U+FFFD show the units of a source. -/
theorem Text.utf16_letters {w : List UInt16} (h : ∀ c ∈ letters w, c ≠ replacement) :
    utf16 (letters w) = w := by
  induction w with
  | nil => rfl
  | cons u w ih =>
    have hu := Text.unitsOf_letter (h (letter u) List.mem_cons_self)
    have hw := ih fun c hc => h c (List.mem_cons_of_mem _ hc)
    simp only [utf16, letters] at hw ⊢
    simp [hu, hw]

theorem Text.unitLength_letters (w : List UInt16) : unitLength (letters w) = w.length := by
  rw [Text.unitLength_eq_length fun c hc => ?_, Text.length_letters]
  obtain ⟨u, -, rfl⟩ := List.mem_map.1 hc
  exact Text.units_letter u

/-- A gap at the end is covered by the mark of the end. -/
theorem Covers.of_gap {pre gap : List UInt16} (hgap : IsGap (letters gap) []) :
    Covers (pre ++ gap) pre.length
      [Token.endOfText (Location.ofOffset (pre ++ gap) (pre ++ gap).length)] := by
  refine ⟨⟨[], rfl, by simp⟩, ?_, ?_, by simp, ?_, ?_⟩
  · simp [Token.endOfText, Token.stop, utf16]
  · simp [Token.endOfText]
  · simp [Token.endOfText]
  · simpa [Token.endOfText, Token.span, GapBetween] using hgap

/-- A gap and a token in front of what is covered. -/
theorem Covers.cons {pre gap w rest : List UInt16} {t : Token Location}
    {ts : List (Token Location)} (hgap : IsGap (letters gap) (letters (w ++ rest)))
    (hkind : t.kind ≠ .eof) (htext : t.text.toList = letters w) (hne : w ≠ [])
    (hword : ∀ c ∈ letters w, c ≠ replacement)
    (hplace : t.place = Location.ofOffset (pre ++ gap ++ w ++ rest) (pre ++ gap).length)
    (h : Covers (pre ++ gap ++ w ++ rest) (pre ++ gap ++ w).length ts) :
    Covers (pre ++ gap ++ w ++ rest) pre.length (t :: ts) := by
  have hoffset : t.place.offset = (pre ++ gap).length := by rw [hplace, Location.offset_ofOffset]
  have hstop : t.stop = (pre ++ gap ++ w).length := by
    rw [Token.stop, hoffset, htext, Text.unitLength_letters, ← List.length_append]
  obtain ⟨init, hinit, hproper⟩ := h.last
  refine ⟨⟨t :: init, ?_, ?_⟩, ?_, ?_, ?_, ?_, ?_⟩
  · rw [hinit, List.cons_append]
  · refine List.forall_mem_cons.2 ⟨⟨hkind, fun hnil => hne ?_⟩, hproper⟩
    rw [hnil] at htext
    exact List.map_eq_nil_iff.1 htext.symm
  · refine List.forall_mem_cons.2 ⟨?_, h.text⟩
    rw [hoffset, hstop, htext, Text.utf16_letters hword]
    rw [List.extract_eq_take_drop, List.append_assoc (pre ++ gap), List.drop_left,
      List.length_append, Nat.add_sub_cancel_left, List.take_left]
  · refine List.forall_mem_cons.2 ⟨?_, h.place⟩
    rw [hoffset, hplace]
  · exact List.pairwise_cons.2 ⟨fun u hu => hstop ▸ h.begins u hu, h.order⟩
  · refine List.forall_mem_cons.2 ⟨?_, fun u hu => ?_⟩
    · simp [hoffset]
    · have := h.begins u hu
      simp only [List.length_append] at this
      omega
  · rw [List.map_cons, Token.span, hoffset, hstop]
    refine List.isChain_cons_cons.2 ⟨?_, ?_⟩
    · simpa [GapBetween] using hgap
    · -- where the first stretch begins does not matter
      refine h.gaps.imp_head ?_
      intro q hq
      exact hq

/-- Tokens that lie in a text cover the units of the text. -/
theorem Laid.covers {start : Location} {s : List Char} {ts : List (Token Location)}
    (h : Laid start s ts) (pre post : List UInt16) (hs : letters post = s)
    (hstart : start = Location.start.after (letters pre)) :
    Covers (pre ++ post) pre.length ts := by
  induction h generalizing pre post with
  | @last start gap hgap =>
    subst hs
    rw [hstart, ← Location.after_append, ← Text.letters_append, Location.start_after]
    exact .of_gap hgap
  | @token start gap text rest kind ts hgap htext hascii hkind h ih =>
    obtain ⟨g, post, rfl, rfl, htail⟩ := Text.letters_eq_append hs
    obtain ⟨w, r, rfl, rfl, rfl⟩ := Text.letters_eq_append htail
    have hrest : Covers (pre ++ g ++ w ++ r) (pre ++ g ++ w).length ts := by
      refine ih (pre ++ g ++ w) r rfl ?_
      rw [hstart, Text.letters_append, Text.letters_append, Location.after_append,
        Location.after_append]
    have hplace : start.after (letters g) =
        Location.ofOffset (pre ++ g ++ w ++ r) (pre ++ g).length := by
      rw [hstart, ← Location.after_append, ← Text.letters_append, Location.start_after,
        List.append_assoc (pre ++ g), Location.ofOffset_append]
    have hword : ∀ c ∈ letters w, c ≠ replacement := by
      rintro c hc rfl
      exact absurd (hascii _ hc) (by decide)
    rw [← List.append_assoc, ← List.append_assoc]
    refine hrest.cons ?_ hkind String.toList_ofList ?_ hword hplace
    · rwa [Text.letters_append]
    · rintro rfl
      exact htext rfl

/-! ## 3. What is read of a source -/

namespace Token

/-- The tokens read of a source are what it holds. An error names the first unit that
spoils the source: what stands before it is read, and what ends with it is not. For the
units of a text the same holds of what is read of the text. -/
theorem ofUnits_spec (source : List UInt16) :
    (∀ ts, ofUnits source = .ok ts → Covers source 0 ts) ∧
    (∀ e, ofUnits source = .error e →
      ∃ p < source.length, e.place = Location.ofOffset source p ∧
        (∃ ts, ofUnits (source.take p) = .ok ts) ∧
        ∃ e', ofUnits (source.take (p + 1)) = .error e') ∧
    ∀ text : String, utf16 text.toList = source →
      (ofText text).mapError SyntaxError.place = (ofUnits source).mapError SyntaxError.place := by
  refine ⟨fun ts hts => ?_, fun e he => ?_, ?_⟩
  · exact (Laid.of_ofTextFrom hts).covers [] source rfl rfl
  · obtain ⟨before, d, post, htext, hplace, ⟨ts, hok⟩, e', herror⟩ := ofTextFrom_error he
    obtain ⟨pre, rest, rfl, rfl, hrest⟩ := Text.letters_eq_append htext
    obtain ⟨u, post, rfl, rfl, rfl⟩ := List.map_eq_cons_iff.1 hrest
    refine ⟨pre.length, by simp, ?_, ⟨ts, ?_⟩, e', ?_⟩
    · rw [hplace, Location.start_after, Location.ofOffset_append]
    · rw [List.take_left]
      exact hok
    · have htake : (pre ++ u :: post).take (pre.length + 1) = pre ++ [u] := by
        simp [List.take_append]
      rw [htake, ofUnits, Text.letters_append]
      exact herror
  · rintro text rfl
    exact ofText_eq_ofUnits text

end Token
end Clocked
