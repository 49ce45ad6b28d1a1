/-
Clocked.Proofs.Description.Printing — descriptions written as source text.

`text` writes a description section by section, one line for each latch, update
and stimulus. `tokens` follows it line by line: the text of a description with
proper names spells its tokens (`spells_text`), and the grammar derives them with
the description (`isText_tokens`).
-/
import Mathlib.Data.List.Forall2
import Mathlib.Data.List.Induction
import Clocked.Element
import Clocked.Proofs.Expr.Tokens
import Clocked.Trace

namespace Clocked.Description

open Spells (Stops)

variable {α β : Type}

/-! ## 1. Texts -/

/-- A stimulus as source text. -/
def StimulusLine.text (s : StimulusLine α) : String :=
  s.signal ++ "=" ++ (Trace.ofList s.signal s.values).bits

/-- The sections of a description, one of each kind. -/
def parts (d : Description α) : List (Part α) :=
  [.inputs d.inputs, .outputs d.outputs, .latches d.latches, .updates d.updates,
    .stimuli d.stimuli]

/-- A word and the names after it, on one line. -/
def namesLine (word : String) (names : List String) : String :=
  word ++ String.join (names.map (" " ++ ·))

/-- The lines of a section. -/
def Part.lines : Part α → List String
  | .inputs names => [namesLine ".inputs" names]
  | .outputs names => [namesLine ".outputs" names]
  | .latches ls => ".latch" :: ls.map (·.text)
  | .updates us => ".update" :: us.map (·.toUpdate.text)
  | .stimuli ss => ".simulate" :: ss.map (·.text)

/-- The lines of a description. -/
def lines (d : Description α) : List String :=
  namesLine ".hardware" [d.name] :: d.parts.flatMap Part.lines

/-- A description as source text; every line has a line end. -/
def text (d : Description α) : String := String.join (d.lines.map (· ++ "\n"))

theorem text_erase (d : Description α) : d.erase.text = d.text := by
  have hupdate : ∀ u : UpdateLine α, (u.map fun _ => ()).toUpdate = u.toUpdate := fun u => by
    simp [UpdateLine.map, UpdateLine.toUpdate, Expr.erase_map]
  simp [text, lines, parts, Part.lines, erase, map, Function.comp_def, hupdate,
    StimulusLine.text, LatchLine.map, StimulusLine.map]

/-- The names of a description can be written down, its stimuli fit its inputs,
and none of them is empty. -/
structure Writable (d : Description α) : Prop where
  name : isIdentifier d.name = true
  inputs : ∀ n ∈ d.inputs, isIdentifier n = true
  outputs : ∀ n ∈ d.outputs, isIdentifier n = true
  latches : ∀ l ∈ d.latches, isIdentifier l.input = true ∧ isIdentifier l.output = true
  updates : ∀ u ∈ d.updates, isIdentifier u.output = true ∧ u.expr.Named
  stimuli : StimuliFit d
  values : ∀ s ∈ d.stimuli, s.values ≠ []

/-! ## 2. Tokens -/

/-- The token of a name. -/
def nameToken (name : String) : Token Unit := ⟨.identifier, name, ()⟩

/-- The token of a line end. -/
def newlineToken : Token Unit := ⟨.newline, "\n", ()⟩

def latchTokens (l : LatchLine α) : List (Token Unit) :=
  [nameToken l.input, ⟨.arrow, "->", ()⟩, nameToken l.output]

def updateTokens (u : UpdateLine α) : List (Token Unit) :=
  nameToken u.output :: ⟨.equals, "=", ()⟩ :: u.expr.tokens

def stimulusTokens (s : StimulusLine α) : List (Token Unit) :=
  [nameToken s.signal, ⟨.equals, "=", ()⟩, ⟨.bits, (Trace.ofList s.signal s.values).bits, ()⟩]

/-- The tokens of a section, line by line, without the line ends. -/
def Part.tokenLines : Part α → List (List (Token Unit))
  | .inputs names => [⟨.inputs, ".inputs", ()⟩ :: names.map nameToken]
  | .outputs names => [⟨.outputs, ".outputs", ()⟩ :: names.map nameToken]
  | .latches ls => [⟨.latch, ".latch", ()⟩] :: ls.map latchTokens
  | .updates us => [⟨.update, ".update", ()⟩] :: us.map updateTokens
  | .stimuli ss => [⟨.simulate, ".simulate", ()⟩] :: ss.map stimulusTokens

/-- Lines of tokens, each with its line end. -/
def endLines (lines : List (List (Token Unit))) : List (Token Unit) :=
  lines.flatMap (· ++ [newlineToken])

/-- The tokens of a description. -/
def tokens (d : Description α) : List (Token Unit) :=
  endLines ([⟨.hardware, ".hardware", ()⟩, nameToken d.name] :: d.parts.flatMap Part.tokenLines)

/-! ## 3. The text spells the tokens -/

/-- The line spells the tokens, in front of its line end. -/
def SpellsLine (line : String) (ts : List (Token Unit)) : Prop :=
  ∀ rest, Spells line.toList ts ('\n' :: rest)

theorem newline_stops (rest : List Char) : Stops Lexeme.isNamePart ('\n' :: rest) :=
  .cons (by decide) rest

theorem spells_newline (rest : List Char) : Spells ['\n'] [newlineToken] rest :=
  .symbol .newline "\n" (by decide) rest

/-- Lines that spell their tokens spell them one after the other. -/
theorem spells_lines {ls : List String} {tss : List (List (Token Unit))}
    (h : List.Forall₂ SpellsLine ls tss) (rest : List Char) :
    Spells (String.join (ls.map (· ++ "\n"))).toList (endLines tss) rest := by
  induction h with
  | nil => exact .nil rest
  | cons hline _ ih =>
    rw [List.map_cons, String.join_cons, String.toList_append, String.toList_append]
    refine .append (.append (hline _) (spells_newline _)) ih

theorem spells_namesLine (kind : Token.Kind) (word : String)
    (hword : (kind, word) ∈ Spells.sectionWords) (names : List String)
    (hnames : ∀ n ∈ names, isIdentifier n = true) :
    SpellsLine (namesLine ("." ++ word) names)
      (⟨kind, "." ++ word, ()⟩ :: names.map nameToken) := by
  intro rest
  -- whatever names follow, neither a word nor a name goes on
  have hnext : ∀ names : List String, ∀ p : Char → Bool, p ' ' = false → p '\n' = false →
      Stops p ((String.join (names.map (" " ++ ·))).toList ++ '\n' :: rest) := by
    intro names p hspace hline
    cases names with
    | nil => exact .cons hline rest
    | cons n names =>
      rw [List.map_cons, String.join_cons, String.toList_append, String.toList_append]
      exact .cons hspace _
  have hspells : ∀ names : List String, (∀ n ∈ names, isIdentifier n = true) →
      Spells (String.join (names.map (" " ++ ·))).toList (names.map nameToken) ('\n' :: rest) := by
    intro names hnames
    induction names with
    | nil => exact .nil _
    | cons n names ih =>
      rw [List.map_cons, String.join_cons, String.toList_append, String.toList_append]
      have hn := Spells.identifier (hnames n List.mem_cons_self)
        (hnext names _ (by decide) (by decide))
      exact .append (.append (.space _) hn) (ih fun n hn => hnames n (List.mem_cons_of_mem _ hn))
  rw [namesLine, String.toList_append]
  have hkeyword := Spells.sectionWord kind word hword (hnext names _ (by decide) (by decide))
  exact hkeyword.append (hspells names hnames)

theorem spells_latch {l : LatchLine α}
    (h : isIdentifier l.input = true ∧ isIdentifier l.output = true) :
    SpellsLine l.text (latchTokens l) := by
  intro rest
  rw [Latch.text, String.append_assoc, String.toList_append, String.toList_append]
  refine .append (.identifier h.1 (.cons (by decide) _)) ?_
  exact .append (Expr.spells_operator .arrow "->" (by decide) _)
    (.identifier h.2 (.cons (by decide) _))

theorem spells_update {u : UpdateLine α} (h : isIdentifier u.output = true ∧ u.expr.Named)
    {rest : List Char} (hstop : Stops Lexeme.isNamePart rest) :
    Spells u.toUpdate.text.toList (updateTokens u) rest := by
  rw [Update.text, String.append_assoc, String.toList_append, String.toList_append]
  refine .append (.identifier h.1 (.cons (by decide) _)) ?_
  refine .append (Expr.spells_operator .equals "=" (by decide) _) ?_
  rw [UpdateLine.toUpdate, Expr.text_erase]
  exact Expr.spells_text h.2 hstop

theorem spells_stimulus {s : StimulusLine α} (h : isIdentifier s.signal = true)
    (hvalues : s.values ≠ []) : SpellsLine s.text (stimulusTokens s) := by
  intro rest
  have hbits : (Trace.ofList s.signal s.values).bits.toList = s.values.map Trace.bit := by
    rw [Trace.bits, String.toList_ofList, Trace.toList_ofList]
  rw [StimulusLine.text, String.append_assoc, String.toList_append, String.toList_append]
  refine .append (.identifier h (.cons (by decide) _)) ?_
  refine .append (.symbol .equals "=" (by decide) _) ?_
  refine .bits ?_ ?_ (.cons (by decide) _)
  · rw [hbits]
    simpa using hvalues
  · rw [hbits]
    intro c hc
    obtain ⟨v, -, rfl⟩ := List.mem_map.1 hc
    cases v <;> rfl

/-- What is written of a description can be read. -/
theorem Writable.spells_parts {d : Description α} (h : d.Writable) :
    List.Forall₂ SpellsLine (d.parts.flatMap Part.lines) (d.parts.flatMap Part.tokenLines) := by
  have hword : ∀ kind word, (kind, word) ∈ Spells.sectionWords →
      SpellsLine ("." ++ word) [⟨kind, "." ++ word, ()⟩] := fun kind word hmem rest =>
    .sectionWord kind word hmem (.cons (by decide) rest)
  have hlines : ∀ {β : Type} {line : β → String} {ts : β → List (Token Unit)} {xs : List β},
      (∀ x ∈ xs, SpellsLine (line x) (ts x)) →
        List.Forall₂ SpellsLine (xs.map line) (xs.map ts) := fun hxs => by
    rw [List.forall₂_map_left_iff, List.forall₂_map_right_iff]
    exact List.forall₂_same.2 hxs
  have hinputs := spells_namesLine .inputs "inputs" (by decide) _ h.inputs
  have houtputs := spells_namesLine .outputs "outputs" (by decide) _ h.outputs
  refine .cons hinputs (.cons houtputs ?_)
  have hlatches := hlines fun l hl => spells_latch (h.latches l hl)
  have hupdates := hlines fun u hu rest => spells_update (h.updates u hu) (newline_stops rest)
  have hstimuli := hlines fun s hs =>
    spells_stimulus (h.inputs _ (h.stimuli.1 s hs)) (h.values s hs)
  have hall := List.rel_append (.cons (hword .latch "latch" (by decide)) hlatches)
    (List.rel_append (.cons (hword .update "update" (by decide)) hupdates)
      (.cons (hword .simulate "simulate" (by decide)) hstimuli))
  simpa [parts, Part.lines, Part.tokenLines] using hall

theorem spells_text {d : Description α} (h : d.Writable) (rest : List Char) :
    Spells d.text.toList d.tokens rest := by
  have hname : ∀ n ∈ [d.name], isIdentifier n = true := fun n hn => by
    rw [List.mem_singleton.1 hn]
    exact h.name
  have htitle := spells_namesLine .hardware "hardware" (by decide) _ hname
  exact spells_lines (.cons htitle h.spells_parts) rest

/-! ## 4. The grammar derives the tokens -/

theorem newlines_newlineToken : Newlines [newlineToken] := by
  intro t ht
  rw [List.mem_singleton.1 ht]
  rfl

theorem lineEnd_newlineToken (last : Bool) : LineEnd last [newlineToken] :=
  ⟨newlines_newlineToken, fun h => by cases h⟩

/-- Items written one after the other are many. -/
theorem many_flatMap {item : Bool → List (Token Unit) → β → Prop} {ts : β → List (Token Unit)}
    (h : ∀ x, item false (ts x) x) (xs : List β) : Many item false (xs.flatMap ts) xs := by
  induction xs using List.reverseRecOn with
  | nil => exact .none
  | append_singleton xs x ih =>
    rw [List.flatMap_append, List.flatMap_singleton]
    exact .more ih (h x)

/-- A section of one line of names. -/
theorem headed_names {kind : Token.Kind} (word : String) (names : List String) :
    Headed kind IsName false
      ((⟨kind, word, ()⟩ :: names.map nameToken) ++ [newlineToken]) names := by
  have hmany : Many IsName true (names.map nameToken) names := by
    have hname : ∀ n, IsName false [nameToken n] n := fun n =>
      .mk (t := nameToken n) rfl newlines_nil
    rw [List.map_eq_flatMap]
    exact Many.ends ends_isName (many_flatMap hname names)
  have hheaded : Headed kind IsName true (⟨kind, word, ()⟩ :: ([] ++ names.map nameToken)) names :=
    .mk rfl newlines_nil hmany
  exact Headed.snoc continues_isName hheaded rfl

/-- A section of a line for each item. -/
theorem headed_lines {kind : Token.Kind} (word : String)
    {item : Bool → List (Token Unit) → β → Prop} {ts : β → List (Token Unit)}
    (h : ∀ x, item false (ts x ++ [newlineToken]) x) (xs : List β) :
    Headed kind item false (endLines ([⟨kind, word, ()⟩] :: xs.map ts)) xs := by
  have hmany := many_flatMap h xs
  rw [endLines, List.flatMap_cons, List.flatMap_map, List.append_assoc]
  show Headed kind item false (⟨kind, word, ()⟩ :: ([newlineToken] ++ _)) xs
  exact .mk rfl newlines_newlineToken hmany

theorem isLatch_latchTokens (l : LatchLine Unit) :
    IsLatch false (latchTokens l ++ [newlineToken]) l :=
  .mk (i := nameToken l.input) rfl rfl (o := nameToken l.output) rfl newlines_newlineToken

theorem isUpdate_updateTokens (u : UpdateLine Unit) :
    IsUpdate false (updateTokens u ++ [newlineToken]) u :=
  .mk (o := nameToken u.output) rfl rfl (Expr.derives_tokens u.expr .expr)
    (lineEnd_newlineToken false)

theorem isStimulus_stimulusTokens (s : StimulusLine Unit) :
    IsStimulus false (stimulusTokens s ++ [newlineToken]) s := by
  have hvalues : (Trace.ofList s.signal s.values).bits.toList.map (· == '1') = s.values := by
    rw [Trace.bits, String.toList_ofList, Trace.toList_ofList, List.map_map]
    exact List.map_id'' (fun v => by cases v <;> rfl) _
  have hline : IsStimulus false (stimulusTokens s ++ [newlineToken])
      ⟨s.signal, (Trace.ofList s.signal s.values).bits.toList.map (· == '1'), ()⟩ :=
    .mk (i := nameToken s.signal) (b := ⟨.bits, _, ()⟩) rfl rfl rfl (lineEnd_newlineToken false)
  rwa [hvalues] at hline

theorem isSection_tokens : ∀ p : Part Unit, IsSection false (endLines p.tokenLines) p
  | .inputs names => .inputs (by simpa [Part.tokenLines, endLines] using headed_names _ names)
  | .outputs names => .outputs (by simpa [Part.tokenLines, endLines] using headed_names _ names)
  | .latches ls => .latches (headed_lines _ isLatch_latchTokens ls)
  | .updates us => .updates (headed_lines _ isUpdate_updateTokens us)
  | .stimuli ss => .stimuli (headed_lines _ isStimulus_stimulusTokens ss)

/-- The tokens of a description are grammatical, and the description is theirs. -/
theorem isText_tokens (d : Description Unit) : IsText (d.tokens ++ [Token.endOfText ()]) d := by
  have htitle : IsTitle ([] ++ [⟨.hardware, ".hardware", ()⟩, nameToken d.name, newlineToken])
      d.name () := .mk (i := nameToken d.name) newlines_nil rfl rfl newlines_newlineToken
  have hsections : Many IsSection false (d.parts.flatMap fun p => endLines p.tokenLines) d.parts :=
    many_flatMap isSection_tokens d.parts
  have honce : AtMostOnce d.parts := by
    simp [AtMostOnce, single, parts, Part.kind]
  have hbody := IsBody.ends (.mk htitle hsections honce)
  have htext := IsText.mk hbody (rfl : (Token.endOfText ()).kind = .eof)
  have htokens : d.tokens = [⟨.hardware, ".hardware", ()⟩, nameToken d.name, newlineToken] ++
      d.parts.flatMap fun p => endLines p.tokenLines := by
    simp [tokens, endLines, List.flatMap_assoc]
  rw [htokens]
  simpa [assemble, parts, add] using htext

end Clocked.Description
