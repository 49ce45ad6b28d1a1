/-
Clocked.Proofs.Source.Names — the names in a source text.

A token that is a name consists of letters, digits and `_` (`Token.ofTextFrom_names`), and
what a description lists as inputs and outputs are texts of such tokens
(`Description.IsText.names`). So the signals that a circuit shows are names on one line each
(`Circuit.newline_notMem_of_ofText`).
-/
import Clocked.Proofs.Circuit.Soundness
import Clocked.Proofs.Description.Reading
import Clocked.Proofs.Source.Lexemes
import Clocked.Session.Source

namespace Clocked

/-! ## 1. Tokens -/

namespace Lexeme

variable {c : Char} {s rest : List Char} {l : Lexeme}

/-- No section word is read as a name. -/
theorem sectionKind?_ne_identifier {name : String} {kind : Token.Kind}
    (h : Token.sectionKind? name = some kind) : kind ≠ .identifier := by
  unfold Token.sectionKind? at h
  split at h <;> cases h <;> simp [Token.reservedKind]

theorem readWord_identifier (h : readWord c s = .ok (l, rest)) (hkind : l.kind = some .identifier) :
    ∀ d ∈ l.text, isNamePart d = true := by
  unfold readWord at h
  split at h
  · unfold readSection at h
    simp only at h
    split at h
    · next kind hsection =>
      cases h
      cases hkind
      exact absurd rfl (sectionKind?_ne_identifier hsection)
    · cases h
  · split at h
    · unfold readBits at h
      simp only at h
      split at h <;> cases h
      cases hkind
    · split at h
      · next hc =>
        cases h
        intro d hd
        rcases List.mem_cons.1 hd with rfl | hd
        · exact isNamePart_of_isNameStart hc
        · exact List.mem_takeWhile_imp hd
      · cases h

/-- A name consists of letters, digits and `_`. -/
theorem read_identifier (h : read c s = .ok (l, rest)) (hkind : l.kind = some .identifier) :
    ∀ d ∈ l.text, isNamePart d = true := by
  unfold read at h
  split at h
  · cases h
    cases hkind
  · split at h
    · rw [readComment_kind h] at hkind
      cases hkind
    · split at h
      · next reading hreading =>
        unfold readSymbol? at hreading
        split at hreading <;> cases hreading <;> cases h <;> cases hkind
      · exact readWord_identifier h hkind

end Lexeme

/-- All names among the tokens have the property. -/
def NamesAre {α : Type} (P : String → Prop) (ts : List (Token α)) : Prop :=
  ∀ t ∈ ts, t.kind = .identifier → P t.text

theorem Token.ofTextFrom_names {start : Location} {s : List Char} {ts : List (Token Location)}
    (h : Token.ofTextFrom start s = .ok ts) :
    NamesAre (fun name => ∀ d ∈ name.toList, Lexeme.isNamePart d = true) ts := by
  refine ofTextFrom_forall (fun place hkind => ?_) (fun c s l rest kind hread hl place hkind => ?_) h
  · cases hkind
  · cases hkind
    rw [String.toList_ofList]
    exact Lexeme.read_identifier hread hl

/-- The mark of the end of the text comes last, and nowhere else. -/
theorem Laid.exists_init {start : Location} {s : List Char} {ts : List (Token Location)}
    (h : Laid start s ts) :
    ∃ init eof, ts = init ++ [eof] ∧ eof.kind = .eof ∧ ∀ t ∈ init, t.kind ≠ .eof := by
  induction h with
  | last hgap => exact ⟨[], _, rfl, rfl, nofun⟩
  | token hgap htext hascii hkind h ih =>
    obtain ⟨init, eof, rfl, heof, hinit⟩ := ih
    exact ⟨_ :: init, eof, rfl, heof, List.forall_mem_cons.2 ⟨hkind, hinit⟩⟩

/-! ## 2. Descriptions -/

namespace Description

variable {α β : Type} {P : String → Prop} {ts : List (Token α)}

/-- What holds of every item with its names holds of all of many items. -/
theorem Many.forall_mem {item : Bool → List (Token α) → β → Prop} {Q : β → Prop} {last : Bool}
    {xs : List β} (h : Many item last ts xs)
    (hitem : ∀ last ts x, item last ts x → NamesAre P ts → Q x) (hts : NamesAre P ts) :
    ∀ x ∈ xs, Q x := by
  induction h with
  | none => nofun
  | more hs hx ih =>
    intro y hy
    rcases List.mem_append.1 hy with hy | hy
    · exact ih (fun t ht => hts t (List.mem_append_left _ ht)) y hy
    · rw [List.mem_singleton.1 hy]
      exact hitem _ _ _ hx fun t ht => hts t (List.mem_append_right _ ht)

theorem IsName.holds {last : Bool} {name : String} (h : IsName last ts name)
    (hts : NamesAre P ts) : P name := by
  cases h with
  | mk ht hnl => exact hts _ List.mem_cons_self ht

theorem Headed.forall_mem {kind : Token.Kind} {last : Bool} {names : List String}
    (h : Headed kind IsName last ts names) (hts : NamesAre P ts) : ∀ n ∈ names, P n := by
  cases h with
  | mk hw hnl hmany =>
    refine hmany.forall_mem (fun _ _ _ hname hnames => hname.holds hnames) fun t ht => hts t ?_
    exact List.mem_cons_of_mem _ (List.mem_append_right _ ht)

/-- The inputs and outputs that a section lists. -/
def Part.signals : Part α → List String
  | .inputs names => names
  | .outputs names => names
  | _ => []

theorem IsSection.forall_mem {last : Bool} {p : Part α} (h : IsSection last ts p)
    (hts : NamesAre P ts) : ∀ n ∈ p.signals, P n := by
  cases h with
  | inputs h => exact h.forall_mem hts
  | outputs h => exact h.forall_mem hts
  | _ => nofun

/-- Sections add nothing but what they list. -/
theorem forall_mem_assemble {name : String} {note : α} {parts : List (Part α)}
    (h : ∀ p ∈ parts, ∀ n ∈ p.signals, P n) :
    (∀ n ∈ (assemble name note parts).inputs, P n) ∧
      ∀ n ∈ (assemble name note parts).outputs, P n := by
  induction parts using List.reverseRecOn with
  | nil => exact ⟨nofun, nofun⟩
  | append_singleton parts p ih =>
    obtain ⟨hinputs, houtputs⟩ := ih fun q hq => h q (List.mem_append_left _ hq)
    have hp := h p (List.mem_append_right _ List.mem_cons_self)
    rw [assemble_snoc]
    cases p with
    | inputs names =>
      exact ⟨fun n hn => (List.mem_append.1 hn).elim (hinputs n) (hp n), houtputs⟩
    | outputs names =>
      exact ⟨hinputs, fun n hn => (List.mem_append.1 hn).elim (houtputs n) (hp n)⟩
    | _ => exact ⟨hinputs, houtputs⟩

/-- What a text lists as inputs and outputs are names in the text. -/
theorem IsText.names {d : Description α} (h : IsText ts d) (hts : NamesAre P ts) :
    (∀ n ∈ d.inputs, P n) ∧ ∀ n ∈ d.outputs, P n := by
  cases h with
  | mk hbody heof =>
    cases hbody with
    | mk htitle hsections honce =>
      refine forall_mem_assemble (hsections.forall_mem (fun _ _ _ hp hnames => hp.forall_mem hnames)
        fun t ht => hts t ?_)
      exact List.mem_append_left _ (List.mem_append_right _ ht)

theorem ofText_names {source : String} {d : Description Location} (h : ofText source = .ok d) :
    (∀ n ∈ d.inputs, ∀ ch ∈ n.toList, Lexeme.isNamePart ch = true) ∧
      ∀ n ∈ d.outputs, ∀ ch ∈ n.toList, Lexeme.isNamePart ch = true := by
  unfold ofText at h
  cases htokens : Token.ofText source with
  | error e =>
    rw [htokens] at h
    cases h
  | ok ts =>
    rw [htokens] at h
    obtain ⟨init, eof, rfl, heof, hinit⟩ := (Laid.of_ofTextFrom htokens).exists_init
    have htext := ((ofTokens_ok_iff hinit heof).1 h).1
    exact htext.names (Token.ofTextFrom_names htokens)

end Description

/-! ## 3. Circuits -/

/-- Inputs and outputs of a circuit are those of its description. -/
theorem Circuit.ofDescription_signals {α : Type} {d : Description α} {c : Circuit}
    (h : Circuit.ofDescription d = .ok c) : c.inputs = d.inputs ∧ c.outputs = d.outputs := by
  unfold Circuit.ofDescription Design.ofDescription at h
  cases hstray : d.stimuli.find? (·.signal ∉ d.inputs) with
  | some s =>
    rw [hstray] at h
    cases h
  | none =>
    rw [hstray] at h
    cases hstimuli : d.inputs.mapM (Design.stimulusFor d) with
    | error e =>
      rw [hstimuli] at h
      cases h
    | ok stimuli =>
      rw [hstimuli] at h
      have hdesign := Circuit.ofDesign_eq_ok_iff.1 h
      exact ⟨congrArg Design.inputs hdesign, congrArg Design.outputs hdesign⟩

/-- A circuit that is read is that of a description. -/
theorem Circuit.exists_description_of_ofText {source : String} {c : Circuit}
    (h : Circuit.ofText source = .ok c) :
    ∃ d, Description.ofText source = .ok d ∧ Circuit.ofDescription d = .ok c := by
  unfold Circuit.ofText at h
  cases hread : Description.ofText source with
  | error e =>
    rw [hread] at h
    cases h
  | ok d =>
    simp only [hread] at h
    cases hbuild : Circuit.ofDescription d with
    | error e =>
      simp only [hbuild] at h
      cases h
    | ok c' =>
      simp only [hbuild] at h
      cases h
      exact ⟨d, rfl, hbuild⟩

/-- The inputs and outputs of a circuit that is read are on one line each. -/
theorem Circuit.newline_notMem_of_ofText {source : String} {c : Circuit}
    (h : Circuit.ofText source = .ok c) : ∀ n ∈ c.inputs ++ c.outputs, '\n' ∉ n.toList := by
  obtain ⟨d, hread, hbuild⟩ := Circuit.exists_description_of_ofText h
  obtain ⟨hinputs, houtputs⟩ := Description.ofText_names hread
  obtain ⟨hin, hout⟩ := Circuit.ofDescription_signals hbuild
  intro n hn hnewline
  have hpart : Lexeme.isNamePart '\n' = true := by
    rcases List.mem_append.1 hn with hn | hn
    · exact hinputs n (hin ▸ hn) _ hnewline
    · exact houtputs n (hout ▸ hn) _ hnewline
  exact absurd hpart (by decide)

end Clocked
