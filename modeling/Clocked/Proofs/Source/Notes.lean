/-
Clocked.Proofs.Source.Notes — where the notes of a description point.

A description that is read from a source notes where each of its parts was found.
`Description.Located` says that the part stands there: the source goes on with the
part's own text, and the note counts lines and columns up to this offset. What is
listed in a row is found in this order, and the nodes of an expression in reading
order (`Expr.reading`).

The reason is the same for all of them. The parts of a description, with their notes,
are some of its tokens with their places, in the order of the tokens: for an expression
exactly those that are no parentheses (`Expr.Derives.reading_eq`), for the lists by the
sublists of `Proofs/Description/Parts`. Tokens in turn stand in the source one after the
other (`Covers`), and those of one spelling have it (`Token.ofTextFrom_spelled`).
-/
import Clocked.Proofs.Description.Parts
import Clocked.Proofs.Source.Layout

namespace Clocked

open Text (utf16 unitLength)

variable {α : Type}

/-! ## 1. Expressions in reading order -/

namespace Expr

/-- The text of a node itself, without its operands. -/
def Head.text : Head → String
  | .signal name => name
  | .and => "&&"
  | .or => "||"
  | .not => "!"

/-- The nodes in reading order, each with its note: an operator stands between its
operands, a `!` in front of its operand. -/
def reading : Expr α → List (Head × α)
  | .signal n name => [(.signal name, n)]
  | .and n l r => l.reading ++ (.and, n) :: r.reading
  | .or n l r => l.reading ++ (.or, n) :: r.reading
  | .not n e => (.not, n) :: e.reading

end Expr

/-- The node that a token of an expression makes. -/
def Token.node? (t : Token α) : Option (Expr.Head × α) :=
  match t.kind with
  | .identifier => some (.signal t.text, t.place)
  | .and => some (.and, t.place)
  | .or => some (.or, t.place)
  | .not => some (.not, t.place)
  | _ => none

/-- The nodes of an expression are its tokens, but for parentheses. -/
theorem Expr.Derives.reading_eq {rank : Rank} {ts : List (Token α)} {e : Expr α}
    (h : Derives rank ts e) : e.reading = ts.filterMap Token.node? := by
  induction h with
  | signal ht => simp [reading, Token.node?, ht]
  | not ht _ ih => simp [reading, Token.node?, ht, ih]
  | parens hl _ hr ih => simp [Token.node?, hl, hr, ih]
  | factor _ ih | term _ ih => exact ih
  | and _ ht _ ihl ihr | or _ ht _ ihl ihr => simp [reading, Token.node?, ht, ihl, ihr]

/-- What an update reads stands behind the `=` of the update. -/
theorem Description.IsUpdate.reading_sublist {last : Bool} {ts : List (Token α)}
    {u : UpdateLine α} (h : IsUpdate last ts u) :
    u.expr.reading.Sublist (ts.filterMap Token.node?) := by
  cases h with
  | @mk o q es le e ho hq he hle =>
    have hes : es.Sublist (o :: q :: (es ++ le)) :=
      ((List.sublist_append_left es le).cons q).cons o
    rw [he.reading_eq]
    exact hes.filterMap Token.node?

/-! ## 2. Tokens of one spelling -/

/-- A token that is read is a symbol, a section word, a name or bits. -/
theorem Lexeme.read_cases {c : Char} {s rest : List Char} {l : Lexeme} {kind : Token.Kind}
    (h : read c s = .ok (l, rest)) (hkind : l.kind = some kind) :
    (kind, String.ofList l.text) ∈ Spells.symbols ∨
      (∃ word, Token.sectionKind? word = some kind ∧ String.ofList l.text = "." ++ word) ∨
      kind = .identifier ∨ kind = .bits := by
  unfold read at h
  split at h
  · cases h
    cases hkind
  · split at h
    · rw [readComment_kind h] at hkind
      cases hkind
    · split at h
      · next reading hsymbol =>
        cases h
        unfold readSymbol? at hsymbol
        split at hsymbol <;> cases hsymbol <;> cases hkind <;> exact .inl (by decide)
      · unfold readWord at h
        split at h
        · unfold readSection at h
          simp only at h
          split at h
          · next found hfound =>
            cases h
            cases hkind
            refine .inr (.inl ⟨_, hfound, ?_⟩)
            rw [String.ofList_cons]
            rfl
          · cases h
        · split at h
          · unfold readBits at h
            simp only at h
            split at h <;> cases h
            cases hkind
            exact .inr (.inr (.inr rfl))
          · split at h <;> cases h
            cases hkind
            exact .inr (.inr (.inl rfl))

namespace Token

/-- The token has the text of its kind, where the kind opens a description or makes a node. -/
def Spelled (t : Token α) : Prop :=
  (t.kind = .hardware → t.text = ".hardware") ∧ ∀ n ∈ t.node?, n.1.text = t.text

theorem ofTextFrom_spelled {start : Location} {s : List Char} {ts : List (Token Location)}
    (h : ofTextFrom start s = .ok ts) : ∀ t ∈ ts, t.Spelled := by
  refine ofTextFrom_forall (fun place => ⟨nofun, nofun⟩) ?_ h
  intro c s l rest kind hread hl place
  rcases Lexeme.read_cases hread hl with hsymbol | ⟨word, hword, htext⟩ | rfl | rfl
  · generalize String.ofList l.text = text at hsymbol
    simp only [Spells.symbols, List.mem_cons, Prod.mk.injEq, List.not_mem_nil, or_false] at hsymbol
    rcases hsymbol with ⟨rfl, rfl⟩ | ⟨rfl, rfl⟩ | ⟨rfl, rfl⟩ | ⟨rfl, rfl⟩ | ⟨rfl, rfl⟩ |
      ⟨rfl, rfl⟩ | ⟨rfl, rfl⟩ | ⟨rfl, rfl⟩ <;>
      simp [Spelled, node?, Expr.Head.text]
  · rw [htext]
    unfold sectionKind? at hword
    split at hword <;> cases hword <;> simp [Spelled, node?, reservedKind]
  · simp [Spelled, node?, Expr.Head.text]
  · simp [Spelled, node?]

end Token

/-! ## 3. Tokens in a source -/

/-- The source goes on with the text at the place's offset, and line and column of
the place are those of the offset. -/
def StandsAt (source : List UInt16) (text : String) (place : Location) : Prop :=
  utf16 text.toList <+: source.drop place.offset ∧
    place = Location.ofOffset source place.offset

namespace Covers

variable {source : List UInt16} {k : Nat} {ts : List (Token Location)}

theorem stands (h : Covers source k ts) {t : Token Location} (ht : t ∈ ts) :
    StandsAt source t.text t.place := by
  refine ⟨?_, h.place t ht⟩
  rw [h.text t ht, List.extract_eq_take_drop]
  exact List.take_prefix _ _

/-- A token begins before the next one, since only the mark of the end is empty. -/
theorem increasing (h : Covers source k ts) :
    ts.Pairwise fun t u => t.place.offset < u.place.offset := by
  obtain ⟨init, rfl, hproper⟩ := h.last
  have hlong : ∀ t ∈ init, t.place.offset < t.stop := by
    intro t ht
    have hne : t.text.toList ≠ [] := by simpa using (hproper t ht).2
    obtain ⟨c, s, hcs⟩ := List.exists_cons_of_ne_nil hne
    have := Text.units_pos c
    rw [Token.stop, hcs, Text.unitLength_cons]
    omega
  have horder := List.pairwise_append.1 h.order
  refine List.pairwise_append.2 ⟨?_, List.pairwise_singleton _ _, fun t ht u hu => ?_⟩
  · exact horder.1.imp_of_mem fun ht _ hle => Nat.lt_of_lt_of_le (hlong _ ht) hle
  · exact Nat.lt_of_lt_of_le (hlong t ht) (horder.2.2 t ht u hu)

/-- Texts with places that are some of the tokens' stand in the source, one after the other. -/
theorem located (h : Covers source k ts) {ms : List (String × Location)}
    (hms : ms.Sublist (ts.map fun t => (t.text, t.place))) :
    (∀ m ∈ ms, StandsAt source m.1 m.2) ∧ ms.Pairwise fun m n => m.2.offset < n.2.offset := by
  constructor
  · intro m hm
    obtain ⟨t, ht, rfl⟩ := List.mem_map.1 (hms.subset hm)
    exact h.stands ht
  · have hmarks : (ts.map fun t => (t.text, t.place)).Pairwise
        fun m n => m.2.offset < n.2.offset := List.pairwise_map.2 h.increasing
    exact hmarks.sublist hms

end Covers

/-- The nodes that tokens make have the texts and the places of the tokens. -/
theorem Token.nodes_sublist {ts : List (Token α)} (h : ∀ t ∈ ts, t.Spelled) :
    ((ts.filterMap node?).map fun n => (n.1.text, n.2)).Sublist
      (ts.map fun t => (t.text, t.place)) := by
  induction ts with
  | nil => exact List.nil_sublist _
  | cons t ts ih =>
    obtain ⟨ht, hts⟩ := List.forall_mem_cons.1 h
    cases hnode : t.node? with
    | none =>
      rw [List.filterMap_cons_none hnode, List.map_cons]
      exact (ih hts).cons _
    | some n =>
      have hplace : n.2 = t.place := by
        unfold node? at hnode
        split at hnode <;> cases hnode <;> rfl
      rw [List.filterMap_cons_some hnode, List.map_cons, List.map_cons, ht.2 n hnode, hplace]
      exact (ih hts).cons_cons _

/-! ## 4. Descriptions in a source -/

namespace Description

/-- Reads a description from a source that is a row of units. -/
def ofUnits (source : List UInt16) : Except (SyntaxError Location) (Description Location) := do
  let ts ← Token.ofUnits source
  (ofTokens ts).1

/-- The units of a text have the description of the text, or an error at the same place. -/
theorem ofText_eq_ofUnits (text : String) :
    (ofText text).mapError SyntaxError.place =
      (ofUnits (utf16 text.toList)).mapError SyntaxError.place := by
  have htokens := Token.ofText_eq_ofUnits text
  unfold ofText ofUnits
  cases htext : Token.ofText text with
  | error e =>
    cases hunits : Token.ofUnits (utf16 text.toList) with
    | error e' =>
      rw [htext, hunits] at htokens
      exact congrArg Except.error (Except.error.inj htokens)
    | ok ts =>
      rw [htext, hunits] at htokens
      cases htokens
  | ok ts =>
    cases hunits : Token.ofUnits (utf16 text.toList) with
    | error e' =>
      rw [htext, hunits] at htokens
      cases htokens
    | ok ts' =>
      rw [htext, hunits] at htokens
      cases htokens
      rfl

/-- What is read of a source is a text, and the tokens of the text are what the source holds. -/
theorem exists_isText_of_ofUnits {source : List UInt16} {d : Description Location}
    (h : ofUnits source = .ok d) :
    ∃ ts, Token.ofUnits source = .ok ts ∧ Covers source 0 ts ∧ IsText ts d ∧ StimuliFit d := by
  unfold ofUnits at h
  cases htokens : Token.ofUnits source with
  | error e =>
    rw [htokens] at h
    cases h
  | ok ts =>
    rw [htokens] at h
    have hcovers := (Token.ofUnits_spec source).1 ts htokens
    obtain ⟨init, rfl, hproper⟩ := hcovers.last
    exact ⟨_, rfl, hcovers, (ofTokens_ok_iff (fun t ht => (hproper t ht).1) rfl).1 h⟩

/-- The parts of a description stand in the source where their notes point. -/
structure Located (source : List UInt16) (d : Description Location) : Prop where
  title : StandsAt source ".hardware" d.note
  latches : ∀ l ∈ d.latches, StandsAt source l.input l.note
  updates : ∀ u ∈ d.updates, StandsAt source u.output u.note
  stimuli : ∀ s ∈ d.stimuli, StandsAt source s.signal s.note
  nodes : ∀ u ∈ d.updates, ∀ n ∈ u.expr.reading, StandsAt source n.1.text n.2
  /-- The nodes of an expression are found in reading order. -/
  reading : ∀ u ∈ d.updates, u.expr.reading.Pairwise fun m n => m.2.offset < n.2.offset
  latchOrder : d.latches.Pairwise fun l m => l.note.offset < m.note.offset
  updateOrder : d.updates.Pairwise fun u v => u.note.offset < v.note.offset
  stimulusOrder : d.stimuli.Pairwise fun s t => s.note.offset < t.note.offset

/-- The note of a description is where its first word stands. -/
theorem IsText.exists_title {ts : List (Token α)} {d : Description α} (h : IsText ts d) :
    ∃ w ∈ ts, w.kind = .hardware ∧ w.place = d.note := by
  cases h with
  | mk hbody heof =>
    cases hbody with
    | mk htitle hsections honce =>
      cases htitle with
      | @mk nl nl' w i hnl hw hi hnl' =>
        exact ⟨w, by simp, hw, by rw [assemble_eq]⟩

section Located

variable {source : List UInt16} {k : Nat} {ts : List (Token Location)}
  {d : Description Location}

/-- Items that begin with a name, with the places of these names, are some of the tokens. -/
theorem marks_sublist {β : Type} {xs : List β} (mark : β → String × Location)
    (h : (xs.flatMap fun x => [mark x]).Sublist (ts.filterMap fun t => some (t.text, t.place))) :
    (xs.map mark).Sublist (ts.map fun t => (t.text, t.place)) := by
  have htokens : (ts.filterMap fun t => some (t.text, t.place)) =
      ts.map fun t => (t.text, t.place) := congrFun List.filterMap_eq_map ts
  rwa [← List.map_eq_flatMap, htokens] at h

theorem IsText.located (h : IsText ts d) (hcovers : Covers source k ts)
    (hspelled : ∀ t ∈ ts, t.Spelled) : Located source d := by
  obtain ⟨w, hw, hkind, hplace⟩ := h.exists_title
  have hlatches := hcovers.located <| marks_sublist (fun l => (l.input, l.note)) <|
    h.latches_sublist fun _ _ l hl => by
      cases hl with
      | mk hi ha ho hnl => simp
  have hupdates := hcovers.located <| marks_sublist (fun u => (u.output, u.note)) <|
    h.updates_sublist fun _ _ u hu => by
      cases hu with
      | mk ho hq he hle => simp
  have hstimuli := hcovers.located <| marks_sublist (fun s => (s.signal, s.note)) <|
    h.stimuli_sublist fun _ _ s hs => by
      cases hs with
      | mk hi hq hb hle => simp
  have hnodes := h.updates_sublist (F := fun u => u.expr.reading) fun _ _ u hu => hu.reading_sublist
  have hexpr : ∀ u ∈ d.updates,
      (∀ m ∈ u.expr.reading.map fun n => (n.1.text, n.2), StandsAt source m.1 m.2) ∧
        (u.expr.reading.map fun n => (n.1.text, n.2)).Pairwise
          fun m n => m.2.offset < n.2.offset := by
    intro u hu
    have hu : u.expr.reading.Sublist (d.updates.flatMap fun u => u.expr.reading) :=
      List.sublist_flatten_of_mem (List.mem_map_of_mem hu)
    exact hcovers.located (((hu.trans hnodes).map _).trans (Token.nodes_sublist hspelled))
  constructor
  · rw [← hplace, ← (hspelled w hw).1 hkind]
    exact hcovers.stands hw
  · exact List.forall_mem_map.1 hlatches.1
  · exact List.forall_mem_map.1 hupdates.1
  · exact List.forall_mem_map.1 hstimuli.1
  · exact fun u hu => List.forall_mem_map.1 (hexpr u hu).1
  · exact fun u hu => (List.pairwise_map.1 (hexpr u hu).2 :)
  · exact (List.pairwise_map.1 hlatches.2 :)
  · exact (List.pairwise_map.1 hupdates.2 :)
  · exact (List.pairwise_map.1 hstimuli.2 :)

end Located

/-- **Notes point at what was read.** For every source that is read, also one with half
pairs, the parts of its description stand where their notes say, those of each list and
of each expression one after the other. For the units of a text this is what is read of
the text. -/
theorem ofUnits_located (source : List UInt16) :
    (∀ d, ofUnits source = .ok d → Located source d) ∧
    ∀ text : String, utf16 text.toList = source →
      (ofText text).mapError SyntaxError.place = (ofUnits source).mapError SyntaxError.place := by
  refine ⟨fun d hd => ?_, ?_⟩
  · obtain ⟨ts, htokens, hcovers, htext, -⟩ := exists_isText_of_ofUnits hd
    exact htext.located hcovers (Token.ofTextFrom_spelled htokens)
  · rintro text rfl
    exact ofText_eq_ofUnits text

/-- A text with parentheses, behind a comment with a character of two units. -/
def guardedLatch : String :=
  "/* 😀 */ .hardware g\n.inputs a b\n.latch x -> q\n.update\n  x = !(a || q) && b\n" ++
    ".simulate\na=01\nb=11\n"

/-- What is read of `guardedLatch`; the comment and the blank behind it take nine units. -/
def guardedLatchRead : Description Location where
  name := "g"
  inputs := ["a", "b"]
  outputs := []
  latches := [⟨⟨"x", "q"⟩, ⟨3, 8, 40⟩⟩]
  updates :=
    [⟨"x", .and ⟨5, 17, 71⟩ (.not ⟨5, 7, 61⟩ (.or ⟨5, 11, 65⟩ (.signal ⟨5, 9, 63⟩ "a")
      (.signal ⟨5, 14, 68⟩ "q"))) (.signal ⟨5, 20, 74⟩ "b"), ⟨5, 3, 57⟩⟩]
  stimuli := [⟨"a", [false, true], ⟨7, 1, 86⟩⟩, ⟨"b", [true, true], ⟨8, 1, 91⟩⟩]
  note := ⟨1, 10, 9⟩

theorem ofUnits_located_guardedLatch :
    ofUnits (utf16 guardedLatch.toList) = .ok guardedLatchRead ∧
      Located (utf16 guardedLatch.toList) guardedLatchRead := by
  have hread : ofUnits (utf16 guardedLatch.toList) = .ok guardedLatchRead := by decide +kernel
  exact ⟨hread, (ofUnits_located _).1 _ hread⟩

end Description
end Clocked
