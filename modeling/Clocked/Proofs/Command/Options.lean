/-
Clocked.Proofs.Command.Options — the command lines that ask for a simulation.

A command line is read word by word, but what it says comes in parts: a file name, a switch,
or an option with its operand. The command lines that ask for a simulation are those that can
be divided into parts with a file name among them (`asked_eq_ok_iff_parts`), and which file
they ask for does not depend on the other parts (`asked_of_inputs_eq`). All others have a fault
(`exists_complaint_iff`), or ask for help.
-/
import Clocked.Command.Basic

namespace Clocked.Command

/-! ## 1. Parts of a command line -/

/-- A part of a command line. -/
inductive Part where
  | input (file : String) (plain : looksLikeOption file = false)
  | waveform (file : String)
  | stats
  | verbose (short : Bool)

/-- The words of a part. -/
def Part.words : Part → List String
  | .input file _ => [file]
  | .waveform file => ["--vcd", file]
  | .stats => ["--stats"]
  | .verbose short => [if short then "-v" else "--verbose"]

/-- The file to simulate that a part names. -/
def Part.input? : Part → Option String
  | .input file _ => some file
  | _ => none

/-- The words of parts, one after the other. -/
def words (parts : List Part) : List String := parts.flatMap Part.words

/-- The files to simulate that parts name; the last one counts. -/
def inputs (parts : List Part) : List String := parts.filterMap Part.input?

/-- What is asked for with one more part. -/
def Options.add (o : Options) : Part → Options
  | .input file _ => { o with input := file }
  | .waveform file => { o with waveform := some file }
  | .stats => { o with stats := true }
  | .verbose _ => { o with verbose := true }

/-- The last file name counts, whatever stands between the names. -/
theorem input_foldl_add (parts : List Part) (o : Options) :
    (parts.foldl Options.add o).input = (inputs parts).getLast?.getD o.input := by
  induction parts generalizing o with
  | nil => rfl
  | cons p parts ih =>
    rw [List.foldl_cons, ih]
    cases p with
    | input file plain =>
      show _ = (file :: inputs parts).getLast?.getD o.input
      rw [List.getLast?_cons, Option.getD_some]
      rfl
    | _ => rfl

/-! ## 2. Reading parts -/

/-- What is read from a word on. -/
theorem Options.read_cons (o : Options) (word : String) (rest : List String) :
    o.read (word :: rest) =
      if word = "--vcd" then
        match rest with
        | [] => .error (some .operandMissing)
        | file :: rest => Options.read { o with waveform := some file } rest
      else if word = "--stats" then Options.read { o with stats := true } rest
      else if word = "-v" || word = "--verbose" then Options.read { o with verbose := true } rest
      else if isHelp word then .error none
      else if looksLikeOption word then .error (some (.unknownOption word))
      else Options.read { o with input := word } rest := by
  cases rest <;> rfl

/-- A word that does not look like an option is none. -/
theorem ne_of_plain {file word : String} (plain : looksLikeOption file = false)
    (h : looksLikeOption word = true) : file ≠ word := by
  rintro rfl
  rw [plain] at h
  cases h

/-- A part is read at once, whatever follows. -/
theorem Options.read_part (o : Options) (p : Part) (rest : List String) :
    o.read (p.words ++ rest) = (o.add p).read rest := by
  cases p with
  | input file plain =>
    have hne (word : String) (h : looksLikeOption word = true) : file ≠ word :=
      ne_of_plain plain h
    have hhelp : isHelp file = false := by simp [isHelp, hne "-h" rfl, hne "--help" rfl]
    show o.read (file :: rest) = _
    rw [read_cons]
    simp [hne "--vcd" rfl, hne "--stats" rfl, hne "-v" rfl, hne "--verbose" rfl, hhelp, plain, add]
  | waveform file =>
    show o.read ("--vcd" :: file :: rest) = _
    rw [read_cons, if_pos rfl]
    rfl
  | stats =>
    show o.read ("--stats" :: rest) = _
    rw [read_cons, if_neg (by decide), if_pos rfl]
    rfl
  | verbose short =>
    show o.read ((if short then "-v" else "--verbose") :: rest) = _
    cases short <;> rw [read_cons, if_neg (by decide), if_neg (by decide), if_pos (by decide)] <;>
      rfl

/-- Parts are read one after the other, whatever follows. -/
theorem Options.read_words_append (o : Options) (parts : List Part) (rest : List String) :
    o.read (words parts ++ rest) = (parts.foldl Options.add o).read rest := by
  induction parts generalizing o with
  | nil => rfl
  | cons p parts ih =>
    show o.read ((p.words ++ words parts) ++ rest) = _
    rw [List.append_assoc, read_part, ih, List.foldl_cons]

/-- All parts are read, and then a file name must have been among them. -/
theorem Options.read_words (o : Options) (parts : List Part) :
    o.read (words parts) =
      if (parts.foldl Options.add o).input = "" then .error (some .noInput)
      else .ok (parts.foldl Options.add o) := by
  have hread := o.read_words_append parts []
  rwa [List.append_nil] at hread

/-- The words that are options. -/
def knownOptions : List String := ["--vcd", "--stats", "-v", "--verbose", "-h", "--help"]

/-- Where the reading of parts stops: at the end, or at a word that begins none. -/
inductive Stop : List String → Prop where
  | done : Stop []
  | operandMissing : Stop ["--vcd"]
  | help (word : String) (rest : List String) : isHelp word = true → Stop (word :: rest)
  | unknownOption (word : String) (rest : List String) : looksLikeOption word = true →
      word ∉ knownOptions → Stop (word :: rest)

/-- All words consist of parts up to where reading stops. -/
theorem exists_parts_append (ws : List String) :
    ∃ parts rest, ws = words parts ++ rest ∧ Stop rest := by
  have hmore (p : Part) {ws : List String} (h : ∃ parts rest, ws = words parts ++ rest ∧ Stop rest) :
      ∃ parts rest, p.words ++ ws = words parts ++ rest ∧ Stop rest := by
    obtain ⟨parts, rest, rfl, hstop⟩ := h
    exact ⟨p :: parts, rest, (List.append_assoc ..).symm, hstop⟩
  fun_induction Options.read {} ws with
  | case1 | case2 => exact ⟨[], [], rfl, .done⟩
  | case3 => exact ⟨[], _, rfl, .operandMissing⟩
  | case4 o file rest ih => exact hmore (.waveform file) ih
  | case5 o rest hvcd ih => exact hmore .stats ih
  | case6 o word rest hvcd hstats hverbose ih =>
    have hword : word = "-v" ∨ word = "--verbose" := by simpa using hverbose
    obtain rfl | rfl := hword
    · exact hmore (.verbose true) ih
    · exact hmore (.verbose false) ih
  | case7 o word rest hvcd hstats hverbose hhelp => exact ⟨[], _, rfl, .help word rest hhelp⟩
  | case8 o word rest hvcd hstats hverbose hhelp hform =>
    refine ⟨[], _, rfl, .unknownOption word rest hform ?_⟩
    simp_all [knownOptions, isHelp]
  | case9 o file rest hvcd hstats hverbose hhelp hplain ih =>
    exact hmore (.input file (Bool.eq_false_iff.2 hplain)) ih

/-- The last word cannot be an option without its operand. -/
theorem Options.read_operandMissing (o : Options) :
    o.read ["--vcd"] = .error (some .operandMissing) := by
  rw [read_cons, if_pos rfl]

theorem Options.read_help (o : Options) {word : String} (rest : List String)
    (h : isHelp word = true) : o.read (word :: rest) = .error none := by
  have hword : word = "-h" ∨ word = "--help" := by simpa [isHelp] using h
  obtain rfl | rfl := hword <;> rw [read_cons] <;> rfl

theorem Options.read_unknownOption (o : Options) {word : String} (rest : List String)
    (hform : looksLikeOption word = true) (h : word ∉ knownOptions) :
    o.read (word :: rest) = .error (some (.unknownOption word)) := by
  simp only [knownOptions, List.mem_cons, List.not_mem_nil, or_false, not_or] at h
  rw [read_cons]
  simp [isHelp, h, hform]

/-- What could be read consists of parts. -/
theorem Options.exists_parts {o o' : Options} {ws : List String} (h : o.read ws = .ok o') :
    ∃ parts, ws = words parts := by
  obtain ⟨parts, rest, rfl, hstop⟩ := exists_parts_append ws
  rw [read_words_append] at h
  cases hstop with
  | done => exact ⟨parts, List.append_nil _⟩
  | operandMissing =>
    rw [read_operandMissing] at h
    cases h
  | help word rest hhelp =>
    rw [read_help _ rest hhelp] at h
    cases h
  | unknownOption word rest hform hunknown =>
    rw [read_unknownOption _ rest hform hunknown] at h
    cases h

/-! ## 3. Command lines -/

/-- A command line without words asks for no simulation either. -/
theorem asked_eq_ok_iff {ws : List String} {o : Options} :
    asked ws = .ok o ↔ Options.read {} (ws.drop leadingWords) = .ok o := by
  have hwords (words : List String) : Options.ofWords words = .ok o ↔
      Options.read {} words = .ok o := by
    cases words with
    | nil => exact ⟨nofun, nofun⟩
    | cons word rest => exact Iff.rfl
  rw [← hwords, asked]
  cases Options.ofWords (ws.drop leadingWords) with
  | ok o' => simp
  | error complaint => simp

/-- The command lines that ask for a simulation are those of parts with a file name among them. -/
theorem asked_eq_ok_iff_parts {ws : List String} {o : Options} :
    asked ws = .ok o ↔ ∃ parts, ws.drop leadingWords = words parts ∧
      parts.foldl Options.add {} = o ∧ o.input ≠ "" := by
  rw [asked_eq_ok_iff]
  constructor
  · intro h
    obtain ⟨parts, hparts⟩ := Options.exists_parts h
    rw [hparts, Options.read_words] at h
    split at h
    · cases h
    · next hinput =>
      cases h
      exact ⟨parts, hparts, rfl, hinput⟩
  · rintro ⟨parts, hparts, rfl, hinput⟩
    rw [hparts, Options.read_words, if_neg hinput]

/-- Whatever options are added or taken away, the same file is asked for. -/
theorem asked_of_inputs_eq {ws ws' : List String} {parts parts' : List Part} {o : Options}
    (hasked : asked ws = .ok o) (hws : ws.drop leadingWords = words parts)
    (hws' : ws'.drop leadingWords = words parts') (hinputs : inputs parts' = inputs parts) :
    ∃ o', asked ws' = .ok o' ∧ o'.input = o.input := by
  have ho := asked_eq_ok_iff.1 hasked
  rw [hws, Options.read_words] at ho
  split at ho
  · cases ho
  · next hinput =>
    cases ho
    have hsame : (parts'.foldl Options.add {}).input = (parts.foldl Options.add {}).input := by
      rw [input_foldl_add, input_foldl_add, hinputs]
    refine ⟨_, asked_eq_ok_iff_parts.2 ⟨parts', hws', rfl, ?_⟩, hsame⟩
    rwa [hsame]

/-! ## 4. Faults -/

/-- Command lines with a fault. -/
inductive Faulty : List String → Prop where
  /-- There are parts, but no file name counts. -/
  | inputMissing (parts : List Part) : parts ≠ [] → (inputs parts).getLast?.getD "" = "" →
      Faulty (words parts)
  | operandMissing (parts : List Part) : Faulty (words parts ++ ["--vcd"])
  | unknownOption (parts : List Part) (word : String) (rest : List String) :
      looksLikeOption word = true → word ∉ knownOptions → Faulty (words parts ++ word :: rest)

theorem words_ne_nil {parts : List Part} (h : parts ≠ []) : words parts ≠ [] := by
  obtain ⟨p, parts, rfl⟩ := List.exists_cons_of_ne_nil h
  cases p <;> simp [words, Part.words]

/-- Words are read from the first one on, if there is one. -/
theorem Options.ofWords_of_ne_nil {ws : List String} (h : ws ≠ []) :
    Options.ofWords ws = Options.read {} ws := by
  obtain ⟨word, rest, rfl⟩ := List.exists_cons_of_ne_nil h
  rfl

/-- A fault is complained about, and nothing else is. -/
theorem exists_complaint_iff {ws : List String} :
    (∃ complaint, Options.ofWords ws = .error (some complaint)) ↔ Faulty ws := by
  constructor
  · rintro ⟨complaint, h⟩
    have hne : ws ≠ [] := by
      rintro rfl
      cases h
    rw [Options.ofWords_of_ne_nil hne] at h
    obtain ⟨parts, rest, rfl, hstop⟩ := exists_parts_append ws
    cases hstop with
    | done =>
      rw [List.append_nil, Options.read_words, input_foldl_add] at h
      rw [List.append_nil] at hne ⊢
      split at h
      · next hinput => exact .inputMissing parts (fun hnil => hne (hnil ▸ rfl)) hinput
      · cases h
    | operandMissing => exact .operandMissing parts
    | help word rest hhelp =>
      rw [Options.read_words_append, Options.read_help _ rest hhelp] at h
      cases h
    | unknownOption word rest hform hunknown => exact .unknownOption parts word rest hform hunknown
  · intro h
    cases h with
    | inputMissing parts hne hinput =>
      rw [Options.ofWords_of_ne_nil (words_ne_nil hne), Options.read_words, input_foldl_add,
        if_pos hinput]
      exact ⟨_, rfl⟩
    | operandMissing parts =>
      rw [Options.ofWords_of_ne_nil (by simp), Options.read_words_append,
        Options.read_operandMissing]
      exact ⟨_, rfl⟩
    | unknownOption parts word rest hform hunknown =>
      rw [Options.ofWords_of_ne_nil (by simp), Options.read_words_append,
        Options.read_unknownOption _ rest hform hunknown]
      exact ⟨_, rfl⟩

/-- Without a fault nothing is asked for only if there are no words, or one asks for help. -/
theorem exists_isHelp_of_ofWords {ws : List String} (h : Options.ofWords ws = .error none)
    (hne : ws ≠ []) : ∃ word ∈ ws, isHelp word = true := by
  rw [Options.ofWords_of_ne_nil hne] at h
  obtain ⟨parts, rest, rfl, hstop⟩ := exists_parts_append ws
  rw [Options.read_words_append] at h
  cases hstop with
  | done =>
    rw [Options.read] at h
    split at h <;> cases h
  | operandMissing =>
    rw [Options.read_operandMissing] at h
    cases h
  | help word rest hhelp => exact ⟨word, by simp, hhelp⟩
  | unknownOption word rest hform hunknown =>
    rw [Options.read_unknownOption _ rest hform hunknown] at h
    cases h

end Clocked.Command
