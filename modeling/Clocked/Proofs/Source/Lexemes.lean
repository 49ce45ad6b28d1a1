/-
Clocked.Proofs.Source.Lexemes — what one lexeme depends on, and what a run of
them leaves.

A lexeme depends on its own text and on what follows only as far as the first
character that stops it, so a text may be cut anywhere behind it (`read_cut`).
Where no lexeme can be read, what stands before the place at fault can, and the
character there already spoils it (`read_error`).

Lexeme by lexeme (`Lexeme.induction`) this says how the tokens of a text lie in it
(`Laid`), and where a text without tokens goes wrong (`ofTextFrom_error`).
-/
import Clocked.Proofs.Source.Gaps

namespace Clocked

open Spells (Stops)

namespace Lexeme

variable {c : Char} {s p q rest : List Char} {l : Lexeme} {fault : Fault}

/-- A text is empty, or begins with no lexeme, or with one lexeme and a text. -/
@[elab_as_elim]
theorem induction {motive : List Char → Prop} (nil : motive [])
    (fault : ∀ c s fault, read c s = .error fault → motive (c :: s))
    (lexeme : ∀ c s l rest, read c s = .ok (l, rest) → motive rest → motive (c :: s))
    (s : List Char) : motive s := by
  induction hn : s.length using Nat.strong_induction_on generalizing s with
  | _ n ih =>
    cases s with
    | nil => exact nil
    | cons c s =>
      cases hread : read c s with
      | error f => exact fault c s f hread
      | ok reading =>
        obtain ⟨l, rest⟩ := reading
        have hlt := length_lt_of_read hread
        exact lexeme c s l rest hread (ih rest.length (hn ▸ hlt) rest rfl)

/-! ## 1. Texts of tokens -/

/-- What names are made of lies in the first half of the octets. -/
theorem toNat_lt_of_isNamePart (h : isNamePart c = true) : c.toNat < 128 := by
  have h : ((c.isAlpha || c.isDigit) || decide (c = '_')) = true := h
  simp only [Bool.or_eq_true, decide_eq_true_eq] at h
  rcases h with (h | h) | rfl
  · have := Spells.toNat_of_isAlpha h
    omega
  · have := Spells.toNat_of_isDigit h
    omega
  · decide

theorem isNamePart_of_isAlpha (h : c.isAlpha = true) : isNamePart c = true := by
  simp [isNamePart, Char.isAlphanum, h]

theorem isNamePart_of_isDigit (h : c.isDigit = true) : isNamePart c = true := by
  simp [isNamePart, Char.isAlphanum, h]

theorem isNamePart_of_isNameStart (h : isNameStart c = true) : isNamePart c = true := by
  simp only [isNameStart, Bool.or_eq_true, decide_eq_true_eq] at h
  rcases h with h | rfl
  · exact isNamePart_of_isAlpha h
  · decide

/-- No section word marks the end of the text. -/
theorem sectionKind?_ne_eof {name : String} {kind : Token.Kind}
    (h : Token.sectionKind? name = some kind) : kind ≠ .eof := by
  unfold Token.sectionKind? at h
  split at h <;> cases h <;> simp [Token.reservedKind]

theorem readSymbol?_token (h : readSymbol? c s = some (l, rest)) :
    ∃ kind, l.kind = some kind ∧ kind ≠ .eof ∧ ∀ d ∈ l.text, d.toNat < 128 := by
  unfold readSymbol? at h
  split at h <;> cases h <;> exact ⟨_, rfl, by decide, by simp⟩

theorem readWord_token (h : readWord c s = .ok (l, rest)) :
    ∃ kind, l.kind = some kind ∧ kind ≠ .eof ∧ ∀ d ∈ l.text, d.toNat < 128 := by
  unfold readWord at h
  split at h
  · unfold readSection at h
    simp only at h
    split at h
    · next kind hkind =>
      cases h
      refine ⟨kind, rfl, sectionKind?_ne_eof hkind, fun d hd => ?_⟩
      rcases List.mem_cons.1 hd with rfl | hd
      · decide
      · exact toNat_lt_of_isNamePart (isNamePart_of_isAlpha (List.mem_takeWhile_imp hd))
    · cases h
  · split at h
    · unfold readBits at h
      simp only at h
      split at h
      · cases h
        refine ⟨_, rfl, by decide, fun d hd => ?_⟩
        exact toNat_lt_of_isNamePart (isNamePart_of_isDigit (List.mem_takeWhile_imp hd))
      · cases h
    · split at h
      · next hc =>
        cases h
        refine ⟨_, rfl, by decide, fun d hd => ?_⟩
        rcases List.mem_cons.1 hd with rfl | hd
        · exact toNat_lt_of_isNamePart (isNamePart_of_isNameStart hc)
        · exact toNat_lt_of_isNamePart (List.mem_takeWhile_imp hd)
      · cases h

theorem readComment_kind (h : readComment s = .ok (l, rest)) : l.kind = none := by
  unfold readComment at h
  split at h
  · cases h
    rfl
  · split at h <;> cases h
    rfl
  · cases h

/-- A token read from a text does not mark its end, and is made of the characters
of names and symbols. -/
theorem read_token {kind : Token.Kind} (h : read c s = .ok (l, rest)) (hkind : l.kind = some kind) :
    kind ≠ .eof ∧ ∀ d ∈ l.text, d.toNat < 128 := by
  have htoken : (∃ kind, l.kind = some kind ∧ kind ≠ .eof ∧ ∀ d ∈ l.text, d.toNat < 128) →
      kind ≠ .eof ∧ ∀ d ∈ l.text, d.toNat < 128 := by
    rintro ⟨kind', hkind', hne, htext⟩
    rw [hkind] at hkind'
    cases hkind'
    exact ⟨hne, htext⟩
  unfold read at h
  split at h
  · cases h
    cases hkind
  · split at h
    · rw [readComment_kind h] at hkind
      cases hkind
    · split at h
      · next reading hreading =>
        cases h
        exact htoken (readSymbol?_token hreading)
      · exact htoken (readWord_token h)

/-! ## 2. Cutting a text behind a lexeme -/

/-- What was read of a class is read again before any part of what followed. -/
theorem span_cut {f : Char → Bool} (h : s.dropWhile f = p ++ q) :
    (s.takeWhile f ++ p).takeWhile f = s.takeWhile f ∧ (s.takeWhile f ++ p).dropWhile f = p := by
  have hstop : Stops f p := by
    intro d hd
    have := List.head?_dropWhile_not f s
    rwa [h, List.head?_append, Option.mem_def.1 hd, Option.some_or] at this
  exact hstop.span fun d hd => List.mem_takeWhile_imp hd

theorem readComment_cut (h : readComment s = .ok (l, p ++ q)) :
    ∃ t, l.text = '/' :: t ∧ readComment (t ++ p) = .ok (l, p) := by
  unfold readComment at h
  split at h
  · next r =>
    obtain ⟨rfl, hrest⟩ := Prod.mk.inj (Except.ok.inj h)
    obtain ⟨htake, hdrop⟩ := span_cut hrest
    refine ⟨_, rfl, ?_⟩
    rw [List.cons_append, readComment, htake, hdrop]
  · next r =>
    split at h
    · next text t hsplit =>
      obtain ⟨rfl, rfl⟩ := Prod.mk.inj (Except.ok.inj h)
      obtain ⟨body, hbody, rfl⟩ := IsGap.exists_body hsplit
      have hagain := IsGap.splitComment_append hbody p
      refine ⟨_, rfl, ?_⟩
      rw [List.cons_append, List.append_assoc]
      show readComment ('*' :: (body ++ '*' :: '/' :: p)) = _
      rw [readComment, hagain]
    · cases h
  · cases h

theorem readSymbol?_cut (h : readSymbol? c s = some (l, p ++ q)) :
    ∃ t, l.text = c :: t ∧ readSymbol? c (t ++ p) = some (l, p) := by
  unfold readSymbol? at h
  split at h
  case h_9 => cases h
  all_goals
    obtain ⟨rfl, rfl⟩ := Prod.mk.inj (Option.some.inj h)
    exact ⟨_, rfl, rfl⟩

theorem readSection_cut (h : readSection s = .ok (l, p ++ q)) :
    ∃ t, l.text = '.' :: t ∧ readSection (t ++ p) = .ok (l, p) := by
  unfold readSection at h
  simp only at h
  split at h
  · next kind hkind =>
    obtain ⟨rfl, hrest⟩ := Prod.mk.inj (Except.ok.inj h)
    obtain ⟨htake, hdrop⟩ := span_cut hrest
    refine ⟨_, rfl, ?_⟩
    rw [readSection, htake, hdrop]
    simp only [hkind]
  · cases h

theorem readBits_cut (hdigit : c.isDigit = true) (h : readBits (c :: s) = .ok (l, p ++ q)) :
    ∃ t, l.text = c :: t ∧ readBits (c :: (t ++ p)) = .ok (l, p) := by
  unfold readBits at h
  simp only [List.takeWhile_cons_of_pos hdigit, List.dropWhile_cons_of_pos hdigit] at h
  split at h
  · next hbits =>
    obtain ⟨rfl, hrest⟩ := Prod.mk.inj (Except.ok.inj h)
    obtain ⟨htake, hdrop⟩ := span_cut hrest
    refine ⟨_, rfl, ?_⟩
    rw [readBits]
    simp only [List.takeWhile_cons_of_pos hdigit, List.dropWhile_cons_of_pos hdigit, htake,
      hdrop, hbits]
  · cases h

theorem readWord_cut (h : readWord c s = .ok (l, p ++ q)) :
    ∃ t, l.text = c :: t ∧ readWord c (t ++ p) = .ok (l, p) := by
  unfold readWord at h
  split at h
  · next hc =>
    subst hc
    obtain ⟨t, ht, hcut⟩ := readSection_cut h
    refine ⟨t, ht, ?_⟩
    rw [readWord, if_pos rfl, hcut]
  · next hpoint =>
    split at h
    · next hdigit =>
      obtain ⟨t, ht, hcut⟩ := readBits_cut hdigit h
      refine ⟨t, ht, ?_⟩
      rw [readWord, if_neg hpoint, if_pos hdigit, hcut]
    · next hdigit =>
      split at h
      · next hstart =>
        obtain ⟨rfl, hrest⟩ := Prod.mk.inj (Except.ok.inj h)
        obtain ⟨htake, hdrop⟩ := span_cut hrest
        refine ⟨_, rfl, ?_⟩
        rw [readWord, if_neg hpoint, if_neg hdigit, if_pos hstart, htake, hdrop]
      · cases h

/-- What `readWord` can read begins with a character of a word. -/
theorem isWordStart_of_readWord (h : readWord c s = .ok (l, rest)) :
    (isNameStart c || c.isDigit || c = '.') = true := by
  unfold readWord at h
  split at h
  · next hc => simp [hc]
  · split at h
    · next hc => simp [hc]
    · split at h
      · next hc => simp [hc]
      · cases h

/-- A lexeme is read again from a text that is cut somewhere behind it. -/
theorem read_cut (h : read c s = .ok (l, p ++ q)) :
    ∃ t, l.text = c :: t ∧ read c (t ++ p) = .ok (l, p) := by
  unfold read at h
  split at h
  · next hblank =>
    obtain ⟨rfl, hrest⟩ := Prod.mk.inj (Except.ok.inj h)
    obtain ⟨htake, hdrop⟩ := span_cut hrest
    refine ⟨_, rfl, ?_⟩
    rw [read, if_pos hblank, htake, hdrop]
  · next hblank =>
    split at h
    · next hslash =>
      subst hslash
      obtain ⟨t, ht, hcut⟩ := readComment_cut h
      refine ⟨t, ht, ?_⟩
      rw [read, if_neg hblank, if_pos rfl, hcut]
    · next hslash =>
      split at h
      · next reading hreading =>
        obtain ⟨t, ht, hcut⟩ := readSymbol?_cut (hreading.trans (congrArg some (Except.ok.inj h)))
        refine ⟨t, ht, ?_⟩
        rw [read, if_neg hblank, if_neg hslash, hcut]
      · obtain ⟨t, ht, hcut⟩ := readWord_cut h
        refine ⟨t, ht, ?_⟩
        rw [Spells.read_word (isWordStart_of_readWord h), hcut]

/-! ## 3. Faults -/

/-- The place at fault within digits is the first that is no bit. -/
theorem readBits_error (h : readBits s = .error fault) :
    ∃ d post, s = fault.before ++ d :: post ∧ d.isDigit = true ∧ isBit d = false ∧
      ∀ b ∈ fault.before, isBit b = true := by
  unfold readBits at h
  simp only at h
  split at h
  · cases h
  · next d post hbits =>
    cases h
    refine ⟨d, post ++ s.dropWhile Char.isDigit, ?_, ?_, ?_, ?_⟩
    · have hdigits := List.takeWhile_append_dropWhile (p := isBit) (l := s.takeWhile Char.isDigit)
      rw [hbits] at hdigits
      calc s = s.takeWhile Char.isDigit ++ s.dropWhile Char.isDigit :=
            List.takeWhile_append_dropWhile.symm
        _ = _ := by
            conv_lhs => rw [← hdigits]
            simp
    · have hd : d ∈ (s.takeWhile Char.isDigit).dropWhile isBit := by simp [hbits]
      exact List.mem_takeWhile_imp ((List.dropWhile_suffix _).mem hd)
    · have := List.head?_dropWhile_not isBit (s.takeWhile Char.isDigit)
      rwa [hbits] at this
    · exact fun b hb => List.mem_takeWhile_imp hb

/-- The place at fault is where the lexeme begins, and its first character alone
can begin none; or it is a digit behind bits. -/
theorem readWord_error (h : readWord c s = .error fault) :
    (fault.before = [] ∧ ∃ f, readWord c [] = .error f) ∨
      ∃ d post, c :: s = fault.before ++ d :: post ∧ d.isDigit = true ∧ isBit d = false ∧
        ∀ b ∈ fault.before, isBit b = true := by
  unfold readWord at h
  split at h
  · next hc =>
    subst hc
    refine .inl ⟨?_, _, rfl⟩
    unfold readSection at h
    simp only at h
    split at h <;> cases h
    rfl
  · next hpoint =>
    split at h
    · exact .inr (readBits_error h)
    · next hdigit =>
      split at h
      · cases h
      · next hstart =>
        cases h
        refine .inl ⟨rfl, ⟨.unexpectedCharacter c, []⟩, ?_⟩
        rw [readWord, if_neg hpoint, if_neg hdigit, if_neg hstart]

theorem readComment_error (h : readComment s = .error fault) : fault.before = [] := by
  unfold readComment at h
  split at h
  · cases h
  · split at h <;> cases h
    rfl
  · cases h
    rfl

theorem readSymbol?_nil (h : readSymbol? c s = none) : readSymbol? c [] = none := by
  unfold readSymbol? at h ⊢
  split at h <;> cases h
  split <;> simp_all

/-- A character spoils a text: the text is read, and with the character behind it is not. -/
def Spoils (start : Location) (before : List Char) (d : Char) : Prop :=
  (∃ ts, Token.ofTextFrom start before = .ok ts) ∧
    ∃ e, Token.ofTextFrom start (before ++ [d]) = .error e

/-- A digit that is no bit spoils bits. -/
theorem bits_spoiled {b : List Char} {d : Char} (hb : ∀ x ∈ b, isBit x = true)
    (hdigit : d.isDigit = true) (hbit : isBit d = false) (start : Location) :
    Spoils start b d := by
  constructor
  · cases hnil : b with
    | nil => exact ⟨_, Token.ofTextFrom_nil start⟩
    | cons x t =>
      have hspell : Spells b [⟨.bits, String.ofList b, ()⟩] [] := by
        have : Spells (String.ofList b).toList [⟨.bits, String.ofList b, ()⟩] [] :=
          Spells.bits (by simp [hnil]) (by simpa using hb) (Stops.nil _)
        simpa using this
      obtain ⟨us, -, hread⟩ := hspell start
      rw [List.append_nil, Token.ofTextFrom_nil] at hread
      exact ⟨_, hnil ▸ hread⟩
  · have hdigits : ∀ x ∈ b ++ [d], x.isDigit = true := by
      intro x hx
      rcases List.mem_append.1 hx with hx | hx
      · have := hb x hx
        simp only [isBit, Bool.or_eq_true, decide_eq_true_eq] at this
        rcases this with rfl | rfl <;> rfl
      · rwa [List.mem_singleton.1 hx]
    have hbits : (b ++ [d]).dropWhile isBit = [d] := by
      rw [List.dropWhile_append_of_pos hb]
      simp [hbit]
    obtain ⟨x, t, hxt⟩ := List.exists_cons_of_ne_nil (List.concat_ne_nil d b)
    rw [hxt] at hdigits hbits ⊢
    have hx : x.isDigit = true := hdigits x List.mem_cons_self
    have hpoint : x ≠ '.' := by
      rintro rfl
      exact absurd hx (by decide)
    have hspan := (Stops.nil Char.isDigit).span hdigits
    rw [List.append_nil] at hspan
    have hread : read x t = .error ⟨.invalidBit d, (x :: t).takeWhile isBit⟩ := by
      rw [Spells.read_word (by simp [hx]), readWord, if_neg hpoint, if_pos hx, readBits, hspan.1]
      simp only [hbits]
    exact ⟨_, Token.ofTextFrom_cons_error hread⟩

/-- Where no lexeme can be read, the text up to the place at fault can be read, and the
character there spoils it. -/
theorem read_error (h : read c s = .error fault) :
    ∃ d post, c :: s = fault.before ++ d :: post ∧ ∀ start, Spoils start fault.before d := by
  -- a fault at the first character
  have hfirst {f : Fault} (hnil : fault.before = []) (hread : read c [] = .error f) :
      ∃ d post, c :: s = fault.before ++ d :: post ∧ ∀ start, Spoils start fault.before d := by
    rw [hnil]
    exact ⟨c, s, rfl, fun start =>
      ⟨⟨_, Token.ofTextFrom_nil start⟩, _, Token.ofTextFrom_cons_error hread⟩⟩
  unfold read at h
  split at h
  · cases h
  · next hblank =>
    split at h
    · next hslash =>
      subst hslash
      exact hfirst (readComment_error h) rfl
    · next hslash =>
      split at h
      · cases h
      · next hsymbol =>
        rcases readWord_error h with ⟨hnil, f, hf⟩ | ⟨d, post, htext, hdigit, hbit, hbefore⟩
        · refine hfirst (f := f) hnil ?_
          rw [read, if_neg hblank, if_neg hslash, readSymbol?_nil hsymbol]
          exact hf
        · exact ⟨d, post, htext, bits_spoiled hbefore hdigit hbit⟩

end Lexeme

/-! ## 4. Whole texts -/

/-- What holds of the mark of the end and of every token that is read, wherever it
begins, holds of all tokens of a text. -/
theorem Token.ofTextFrom_forall {P : Token Location → Prop} {start : Location} {s : List Char}
    {ts : List (Token Location)} (hend : ∀ place, P (Token.endOfText place))
    (hread : ∀ ⦃c s l rest kind⦄, Lexeme.read c s = .ok (l, rest) → l.kind = some kind →
      ∀ place, P ⟨kind, String.ofList l.text, place⟩)
    (h : ofTextFrom start s = .ok ts) : ∀ t ∈ ts, P t := by
  induction s using Lexeme.induction generalizing start ts with
  | nil =>
    rw [ofTextFrom_nil] at h
    cases h
    exact List.forall_mem_singleton.2 (hend start)
  | fault c s fault hfault =>
    rw [ofTextFrom_cons_error hfault] at h
    cases h
  | lexeme c s l rest hl ih =>
    rw [ofTextFrom_cons_ok hl] at h
    cases hmore : ofTextFrom (start.after l.text) rest with
    | error e =>
      rw [hmore] at h
      cases h
    | ok more =>
      rw [hmore] at h
      cases h
      refine List.forall_mem_append.2 ⟨fun t ht => ?_, ih hmore⟩
      unfold Lexeme.tokens at ht
      split at ht
      · next kind hkind =>
        rw [List.mem_singleton.1 ht]
        exact hread hl hkind start
      · cases ht

/-- The tokens lie in the text that begins at a place: between them, before the first and
after the last there are gaps, and what marks the end stands behind all. -/
inductive Laid : Location → List Char → List (Token Location) → Prop
  | last {start : Location} {gap : List Char} (hgap : IsGap gap []) :
    Laid start gap [Token.endOfText (start.after gap)]
  | token {start : Location} {gap text rest : List Char} {kind : Token.Kind}
    {ts : List (Token Location)} (hgap : IsGap gap (text ++ rest)) (htext : text ≠ [])
    (hascii : ∀ c ∈ text, c.toNat < 128) (hkind : kind ≠ .eof)
    (h : Laid ((start.after gap).after text) rest ts) :
    Laid start (gap ++ (text ++ rest)) (⟨kind, String.ofList text, start.after gap⟩ :: ts)

namespace Laid

variable {start : Location} {s g : List Char} {ts : List (Token Location)}

/-- More of a gap may stand before. -/
theorem gap (hgap : IsGap g s) (h : Laid (start.after g) s ts) : Laid start (g ++ s) ts := by
  cases h with
  | last hlast =>
    rw [← Location.after_append]
    refine .last (.append ?_ hlast)
    simpa using hgap
  | token hnext htext hascii hkind h =>
    rw [← List.append_assoc, ← Location.after_append]
    refine .token (.append hgap hnext) htext hascii hkind ?_
    rwa [Location.after_append]

/-- The tokens of a text lie in it. -/
theorem of_ofTextFrom (h : Token.ofTextFrom start s = .ok ts) : Laid start s ts := by
  induction s using Lexeme.induction generalizing start ts with
  | nil =>
    rw [Token.ofTextFrom_nil] at h
    cases h
    exact .last (.nil [])
  | fault c s fault hread =>
    rw [Token.ofTextFrom_cons_error hread] at h
    cases h
  | lexeme c s l rest hread ih =>
    rw [Token.ofTextFrom_cons_ok hread] at h
    cases hmore : Token.ofTextFrom (start.after l.text) rest with
    | error e =>
      rw [hmore] at h
      cases h
    | ok more =>
      rw [hmore] at h
      cases h
      have hlaid := ih hmore
      obtain ⟨htext, hne⟩ := Lexeme.read_eq_ok hread
      obtain ⟨kind, text⟩ := l
      rw [htext]
      cases kind with
      | none => exact hlaid.gap (IsGap.of_read hread)
      | some kind =>
        obtain ⟨hkind, hascii⟩ := Lexeme.read_token hread rfl
        exact .token (.nil _) hne hascii hkind hlaid

end Laid

/-- Where a text has no tokens, the text up to some place has, the character there
spoils it, and the error names this place. -/
theorem Token.ofTextFrom_error {start : Location} {s : List Char} {e : SyntaxError Location}
    (h : ofTextFrom start s = .error e) :
    ∃ before d post, s = before ++ d :: post ∧ e.place = start.after before ∧
      Lexeme.Spoils start before d := by
  induction s using Lexeme.induction generalizing start with
  | nil =>
    rw [ofTextFrom_nil] at h
    cases h
  | fault c s fault hread =>
    rw [ofTextFrom_cons_error hread] at h
    cases h
    obtain ⟨d, post, htext, hspoils⟩ := Lexeme.read_error hread
    exact ⟨fault.before, d, post, htext, rfl, hspoils start⟩
  | lexeme c s l rest hread ih =>
    rw [ofTextFrom_cons_ok hread] at h
    cases hmore : ofTextFrom (start.after l.text) rest with
    | ok more =>
      rw [hmore] at h
      cases h
    | error e' =>
      rw [hmore] at h
      cases h
      obtain ⟨before, d, post, rfl, hplace, ⟨ts, hok⟩, e', herror⟩ := ih hmore
      -- the lexeme in front is read whatever is cut off behind it
      have hcut {p q : List Char} (hrest : before ++ d :: post = p ++ q) :
          ofTextFrom start (l.text ++ p) =
            (ofTextFrom (start.after l.text) p).map (l.tokens start ++ ·) := by
        obtain ⟨t, htext, hagain⟩ := Lexeme.read_cut (hrest ▸ hread)
        rw [htext, List.cons_append, ofTextFrom_cons_ok hagain, htext]
      refine ⟨l.text ++ before, d, post, ?_, ?_, ⟨l.tokens start ++ ts, ?_⟩, e', ?_⟩
      · rw [(Lexeme.read_eq_ok hread).1, List.append_assoc]
      · rw [hplace, Location.after_append]
      · rw [hcut rfl, hok]
        rfl
      · rw [List.append_assoc, hcut (List.append_cons before d post), herror]
        rfl

end Clocked
