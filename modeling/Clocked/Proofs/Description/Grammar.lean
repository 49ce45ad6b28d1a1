/-
Clocked.Proofs.Description.Grammar — the token lists that describe circuits.

    text    := NL* HARDWARE ID NL* section* EOF
    section := INPUTS NL* (ID NL*)*
             | OUTPUTS NL* (ID NL*)*
             | LATCH NL* (ID ARROW ID NL*)*
             | UPDATE NL* (ID EQUALS expr LE)*
             | SIMULATE NL* (ID EQUALS BITS LE)*
    expr    := term | expr OR term
    term    := factor | term AND factor
    factor  := NOT factor | LPAREN expr RPAREN | ID
    LE      := NL+ | nothing, if EOF comes next

Every rule is a relation between a list of tokens and what the tokens stand
for. Where a rule may end with `LE` its first argument says whether the end of
the text comes next; a rule that is followed by another token is used at
`false`.
-/
import Clocked.Description.Basic

namespace Clocked

variable {α β : Type}

/-! ## 1. Expressions -/

namespace Expr

/-- The three kinds of expressions in the grammar, loosest first. -/
inductive Rank where
  | expr
  | term
  | factor
deriving DecidableEq

/-- The tokens are an expression of the rank, and this is its tree. -/
inductive Derives : Rank → List (Token α) → Expr α → Prop
  | signal {t : Token α} (ht : t.kind = .identifier) :
      Derives .factor [t] (.signal t.place t.text)
  | not {t : Token α} {ts : List (Token α)} {e : Expr α} (ht : t.kind = .not)
      (he : Derives .factor ts e) : Derives .factor (t :: ts) (.not t.place e)
  | parens {l r : Token α} {ts : List (Token α)} {e : Expr α} (hl : l.kind = .lparen)
      (he : Derives .expr ts e) (hr : r.kind = .rparen) : Derives .factor (l :: (ts ++ [r])) e
  | factor {ts : List (Token α)} {e : Expr α} (he : Derives .factor ts e) : Derives .term ts e
  | and {t : Token α} {ls rs : List (Token α)} {l r : Expr α} (hl : Derives .term ls l)
      (ht : t.kind = .and) (hr : Derives .factor rs r) :
      Derives .term (ls ++ t :: rs) (.and t.place l r)
  | term {ts : List (Token α)} {e : Expr α} (he : Derives .term ts e) : Derives .expr ts e
  | or {t : Token α} {ls rs : List (Token α)} {l r : Expr α} (hl : Derives .expr ls l)
      (ht : t.kind = .or) (hr : Derives .term rs r) :
      Derives .expr (ls ++ t :: rs) (.or t.place l r)

end Expr

namespace Description

/-! ## 2. Lines -/

/-- Line ends only. -/
def Newlines (ts : List (Token α)) : Prop := ∀ t ∈ ts, t.kind = .newline

/-- The end of a line: line ends, at least one unless the end of the text comes next. -/
def LineEnd (last : Bool) (ts : List (Token α)) : Prop := Newlines ts ∧ (ts = [] → last = true)

inductive IsName : Bool → List (Token α) → String → Prop
  | mk {last : Bool} {t : Token α} {nl : List (Token α)} (ht : t.kind = .identifier)
      (hnl : Newlines nl) : IsName last (t :: nl) t.text

inductive IsLatch : Bool → List (Token α) → LatchLine α → Prop
  | mk {last : Bool} {i a o : Token α} {nl : List (Token α)} (hi : i.kind = .identifier)
      (ha : a.kind = .arrow) (ho : o.kind = .identifier) (hnl : Newlines nl) :
      IsLatch last (i :: a :: o :: nl) ⟨⟨i.text, o.text⟩, i.place⟩

inductive IsUpdate : Bool → List (Token α) → UpdateLine α → Prop
  | mk {last : Bool} {o q : Token α} {es le : List (Token α)} {e : Expr α}
      (ho : o.kind = .identifier) (hq : q.kind = .equals) (he : Expr.Derives .expr es e)
      (hle : LineEnd last le) : IsUpdate last (o :: q :: (es ++ le)) ⟨o.text, e, o.place⟩

inductive IsStimulus : Bool → List (Token α) → StimulusLine α → Prop
  | mk {last : Bool} {i q b : Token α} {le : List (Token α)} (hi : i.kind = .identifier)
      (hq : q.kind = .equals) (hb : b.kind = .bits) (hle : LineEnd last le) :
      IsStimulus last (i :: q :: b :: le) ⟨i.text, b.text.toList.map (· == '1'), i.place⟩

/-- Any number of items, one after the other; only the last one may stand right
before the end of the text. -/
inductive Many (item : Bool → List (Token α) → β → Prop) : Bool → List (Token α) → List β → Prop
  | none {last : Bool} : Many item last [] []
  | more {last : Bool} {ts us : List (Token α)} {xs : List β} {x : β}
      (hs : Many item false ts xs) (h : item last us x) : Many item last (ts ++ us) (xs ++ [x])

/-! ## 3. Sections -/

/-- What a section lists. -/
inductive Part (α : Type) where
  | inputs (names : List String)
  | outputs (names : List String)
  | latches (lines : List (LatchLine α))
  | updates (lines : List (UpdateLine α))
  | stimuli (lines : List (StimulusLine α))

/-- The kind of token a section begins with. -/
def Part.kind : Part α → Token.Kind
  | .inputs _ => .inputs
  | .outputs _ => .outputs
  | .latches _ => .latch
  | .updates _ => .update
  | .stimuli _ => .simulate

/-- A word, line ends, and any number of items. -/
inductive Headed (kind : Token.Kind) (item : Bool → List (Token α) → β → Prop) :
    Bool → List (Token α) → List β → Prop
  | mk {last : Bool} {w : Token α} {nl ts : List (Token α)} {xs : List β} (hw : w.kind = kind)
      (hnl : Newlines nl) (h : Many item last ts xs) : Headed kind item last (w :: (nl ++ ts)) xs

inductive IsSection : Bool → List (Token α) → Part α → Prop
  | inputs {last : Bool} {ts : List (Token α)} {xs : List String}
      (h : Headed .inputs IsName last ts xs) : IsSection last ts (.inputs xs)
  | outputs {last : Bool} {ts : List (Token α)} {xs : List String}
      (h : Headed .outputs IsName last ts xs) : IsSection last ts (.outputs xs)
  | latches {last : Bool} {ts : List (Token α)} {xs : List (LatchLine α)}
      (h : Headed .latch IsLatch last ts xs) : IsSection last ts (.latches xs)
  | updates {last : Bool} {ts : List (Token α)} {xs : List (UpdateLine α)}
      (h : Headed .update IsUpdate last ts xs) : IsSection last ts (.updates xs)
  | stimuli {last : Bool} {ts : List (Token α)} {xs : List (StimulusLine α)}
      (h : Headed .simulate IsStimulus last ts xs) : IsSection last ts (.stimuli xs)

/-! ## 4. Texts -/

/-- The kinds of sections that may occur once only. -/
def single : List Token.Kind := [.inputs, .outputs, .simulate]

def AtMostOnce (parts : List (Part α)) : Prop :=
  ∀ kind ∈ single, (parts.map Part.kind).count kind ≤ 1

/-- Appends what a section lists to a description. -/
def add (d : Description α) : Part α → Description α
  | .inputs names => { d with inputs := d.inputs ++ names }
  | .outputs names => { d with outputs := d.outputs ++ names }
  | .latches lines => { d with latches := d.latches ++ lines }
  | .updates lines => { d with updates := d.updates ++ lines }
  | .stimuli lines => { d with stimuli := d.stimuli ++ lines }

/-- The description that lists what the sections list, in their order. -/
def assemble (name : String) (note : α) (parts : List (Part α)) : Description α :=
  parts.foldl add ⟨name, [], [], [], [], [], note⟩

/-- What stands before the first section. -/
inductive IsTitle : List (Token α) → String → α → Prop
  | mk {nl nl' : List (Token α)} {w i : Token α} (hnl : Newlines nl) (hw : w.kind = .hardware)
      (hi : i.kind = .identifier) (hnl' : Newlines nl') :
      IsTitle (nl ++ w :: i :: nl') i.text w.place

/-- A text up to the end of some section. -/
inductive IsBody : Bool → List (Token α) → String → α → List (Part α) → Prop
  | mk {last : Bool} {ts us : List (Token α)} {name : String} {note : α} {parts : List (Part α)}
      (ht : IsTitle ts name note) (hs : Many IsSection last us parts) (honce : AtMostOnce parts) :
      IsBody last (ts ++ us) name note parts

/-- A whole text, and the description it gives. -/
inductive IsText : List (Token α) → Description α → Prop
  | mk {ts : List (Token α)} {eof : Token α} {name : String} {note : α} {parts : List (Part α)}
      (h : IsBody true ts name note parts) (heof : eof.kind = .eof) :
      IsText (ts ++ [eof]) (assemble name note parts)

/-- All stimuli are for inputs, and no two for the same one. -/
def StimuliFit (d : Description α) : Prop :=
  (∀ s ∈ d.stimuli, s.signal ∈ d.inputs) ∧ (d.stimuli.map (·.signal)).Nodup

/-! ## 5. Line ends -/

theorem newlines_nil : Newlines ([] : List (Token α)) := by
  intro t ht
  cases ht

theorem Newlines.snoc {ts : List (Token α)} {t : Token α} (h : Newlines ts)
    (ht : t.kind = .newline) : Newlines (ts ++ [t]) := by
  intro u hu
  rcases List.mem_append.1 hu with hu | hu
  · exact h u hu
  · rw [List.mem_singleton.1 hu]
    exact ht

theorem LineEnd.snoc {last last' : Bool} {ts : List (Token α)} {t : Token α}
    (h : LineEnd last ts) (ht : t.kind = .newline) : LineEnd last' (ts ++ [t]) :=
  ⟨h.1.snoc ht, fun hnil => by simp at hnil⟩

/-- A rule that goes on over one more line end, which then need not be the last. -/
def Continues (item : Bool → List (Token α) → β → Prop) : Prop :=
  ∀ ⦃last ts x t⦄, item last ts x → t.kind = .newline → item false (ts ++ [t]) x

theorem continues_isName : Continues (@IsName α) := by
  intro last ts x t h ht
  cases h with
  | mk hi hnl => exact .mk hi (hnl.snoc ht)

theorem continues_isLatch : Continues (@IsLatch α) := by
  intro last ts x t h ht
  cases h with
  | mk hi ha ho hnl => exact .mk hi ha ho (hnl.snoc ht)

theorem continues_isUpdate : Continues (@IsUpdate α) := by
  intro last ts x t h ht
  cases h with
  | mk ho hq he hle =>
    rw [List.cons_append, List.cons_append, List.append_assoc]
    exact .mk ho hq he (hle.snoc ht)

theorem continues_isStimulus : Continues (@IsStimulus α) := by
  intro last ts x t h ht
  cases h with
  | mk hi hq hb hle => exact .mk hi hq hb (hle.snoc ht)

theorem Headed.snoc {kind : Token.Kind} {item : Bool → List (Token α) → β → Prop}
    (hitem : Continues item) : Continues (Headed kind item) := by
  intro last ts xs t h ht
  cases h with
  | mk hw hnl hmany =>
    cases hmany with
    | none =>
      rw [List.append_nil, List.cons_append, ← List.append_nil (_ ++ [t])]
      exact .mk hw (hnl.snoc ht) .none
    | more hs hx =>
      rw [List.cons_append, List.append_assoc, List.append_assoc]
      exact .mk hw hnl (.more hs (hitem hx ht))

theorem continues_isSection : Continues (@IsSection α) := by
  intro last ts p t h ht
  cases h with
  | inputs h => exact .inputs (Headed.snoc continues_isName h ht)
  | outputs h => exact .outputs (Headed.snoc continues_isName h ht)
  | latches h => exact .latches (Headed.snoc continues_isLatch h ht)
  | updates h => exact .updates (Headed.snoc continues_isUpdate h ht)
  | stimuli h => exact .stimuli (Headed.snoc continues_isStimulus h ht)

theorem IsTitle.snoc {ts : List (Token α)} {name : String} {note : α} {t : Token α}
    (h : IsTitle ts name note) (ht : t.kind = .newline) : IsTitle (ts ++ [t]) name note := by
  cases h with
  | mk hnl hw hi hnl' =>
    rw [List.append_assoc]
    exact .mk hnl hw hi (hnl'.snoc ht)

theorem IsBody.snoc {last : Bool} {ts : List (Token α)} {name : String} {note : α}
    {parts : List (Part α)} {t : Token α} (h : IsBody last ts name note parts)
    (ht : t.kind = .newline) : IsBody false (ts ++ [t]) name note parts := by
  cases h with
  | mk htitle hs honce =>
    cases hs with
    | none =>
      rw [List.append_nil, ← List.append_nil (_ ++ [t])]
      exact .mk (htitle.snoc ht) .none honce
    | more hs hp =>
      rw [List.append_assoc, List.append_assoc]
      exact .mk htitle (.more hs (continues_isSection hp ht)) honce

/-! ## 6. The end of the text -/

/-- A rule that does not mind if the end of the text comes next. -/
def Ends (item : Bool → List (Token α) → β → Prop) : Prop :=
  ∀ ⦃ts x⦄, item false ts x → item true ts x

theorem LineEnd.last {ts : List (Token α)} (h : LineEnd false ts) : LineEnd true ts :=
  ⟨h.1, fun _ => rfl⟩

theorem ends_isName : Ends (@IsName α) := by
  intro ts x h
  cases h with
  | mk hi hnl => exact .mk hi hnl

theorem ends_isLatch : Ends (@IsLatch α) := by
  intro ts x h
  cases h with
  | mk hi ha ho hnl => exact .mk hi ha ho hnl

theorem ends_isUpdate : Ends (@IsUpdate α) := by
  intro ts x h
  cases h with
  | mk ho hq he hle => exact .mk ho hq he hle.last

theorem ends_isStimulus : Ends (@IsStimulus α) := by
  intro ts x h
  cases h with
  | mk hi hq hb hle => exact .mk hi hq hb hle.last

theorem Many.ends {item : Bool → List (Token α) → β → Prop} (hitem : Ends item) :
    Ends (Many item) := by
  intro ts xs h
  cases h with
  | none => exact .none
  | more hs hx => exact .more hs (hitem hx)

theorem Headed.ends {kind : Token.Kind} {item : Bool → List (Token α) → β → Prop}
    (hitem : Ends item) : Ends (Headed kind item) := by
  intro ts xs h
  cases h with
  | mk hw hnl hmany => exact .mk hw hnl (Many.ends hitem hmany)

theorem ends_isSection : Ends (@IsSection α) := by
  intro ts p h
  cases h with
  | inputs h => exact .inputs (Headed.ends ends_isName h)
  | outputs h => exact .outputs (Headed.ends ends_isName h)
  | latches h => exact .latches (Headed.ends ends_isLatch h)
  | updates h => exact .updates (Headed.ends ends_isUpdate h)
  | stimuli h => exact .stimuli (Headed.ends ends_isStimulus h)

theorem IsBody.ends {ts : List (Token α)} {name : String} {note : α} {parts : List (Part α)}
    (h : IsBody false ts name note parts) : IsBody true ts name note parts := by
  cases h with
  | mk ht hs honce => exact .mk ht (Many.ends ends_isSection hs) honce

end Description

end Clocked
