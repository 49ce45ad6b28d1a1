/-
Clocked.Proofs.Report.Dump — a dump reads back to its samples.

The reader of this module knows nothing of the samples: it takes the wires from the lines in
front of the end of the definitions, and reads the lines behind it one by one, a time or a
value that goes through the wires to a name.

Identifiers are made of all printable characters, those that begin lines included, so it is
the places of the lines that tell them apart. A declaration begins with a word of its own and
is never taken for the end of the definitions, whatever the name in it is (`wire?_declaration`,
`declaration_ne_definitionsEnd`), and behind the end the first character decides
(`line?_timeLine`, `line?_valueLine`). That a value finds its name again is
`identifier_injective`, and that its name is declared at all is `lookup_declared`.
-/
import Mathlib.Data.List.Nodup
import Clocked.Proofs.Number.Reading
import Clocked.Proofs.Report.Lines
import Clocked.Proofs.Report.Vcd

namespace Clocked.Vcd

/-! ## 1. The reader -/

/-- What a dump says. -/
structure Dump where
  /-- Names with their identifiers. -/
  wires : List (String × String)
  /-- Times with the names and values that follow them. -/
  blocks : List (Number × List (String × Bool))

/-- The line that ends the definitions. -/
def definitionsEnd : String := "$enddefinitions $end"

/-- The wire that a line declares. The name may have blanks, the identifier has none. -/
def wire? (line : String) : Option (String × String) :=
  (line.toList.dropPrefix? "$var wire 1 ".toList).bind fun cs =>
    ((cs.dropWhile (· ≠ ' ')).tail.dropSuffix? " $end".toList).map fun name =>
      (String.ofList name, String.ofList (cs.takeWhile (· ≠ ' ')))

/-- The name that an identifier is declared for. -/
def nameOf? (wires : List (String × String)) (id : List Char) : Option String :=
  (wires.find? (·.2 = String.ofList id)).map Prod.fst

/-- A line behind the definitions. -/
inductive Line where
  | time (t : Number)
  | value (name : String) (v : Bool)

/-- Reads a line behind the definitions. -/
def line? (wires : List (String × String)) (line : String) : Option Line :=
  match line.toList with
  | '#' :: time => (Number.ofChars? time).map .time
  | '0' :: id => (nameOf? wires id).map (.value · false)
  | '1' :: id => (nameOf? wires id).map (.value · true)
  | _ => none

/-- Reads the lines behind the definitions: the values in front of the first time, and the
blocks. -/
def body? (wires : List (String × String)) :
    List String → Option (List (String × Bool) × List (Number × List (String × Bool)))
  | [] => some ([], [])
  | line :: more =>
    match line? wires line, body? wires more with
    | some (.time t), some (values, blocks) => some ([], (t, values) :: blocks)
    | some (.value name v), some (values, blocks) => some ((name, v) :: values, blocks)
    | _, _ => none

/-- Reads lines; there are no values in front of the first time. -/
def Dump.ofLines? (lines : List String) : Option Dump :=
  let wires := (lines.takeWhile (· ≠ definitionsEnd)).filterMap wire?
  match body? wires (lines.dropWhile (· ≠ definitionsEnd)).tail with
  | some ([], blocks) => some ⟨wires, blocks⟩
  | _ => none

/-- Reads a text. -/
def Dump.ofText? (s : String) : Option Dump :=
  ofLines? ((s.toList.splitOn '\n').map String.ofList)

variable {names : List String} {n : String} {i : Nat}

/-! ## 2. The definitions -/

/-- A declaration reads back, whatever the name is. -/
theorem wire?_declaration (name : String) (i : Nat) :
    wire? (declaration name (identifier i)) = some (name, identifier i) := by
  have hprefix : (declaration name (identifier i)).toList.dropPrefix? "$var wire 1 ".toList =
      some ((identifier i).toList ++ ' ' :: (name.toList ++ " $end".toList)) := by
    simp only [toList_declaration, List.append_assoc]
    exact List.dropPrefix?_append_of_beq _ (beq_self_eq_true _)
  have hsuffix : (name.toList ++ " $end".toList).dropSuffix? " $end".toList = some name.toList :=
    List.dropSuffix?_eq_some_iff.2 ⟨_, rfl, beq_self_eq_true _⟩
  obtain ⟨htake, hdrop⟩ := Report.span_firstWord (notMem_identifier (by decide) i)
    (name.toList ++ " $end".toList)
  rw [wire?, hprefix, Option.bind_some, htake, hdrop, List.tail_cons, hsuffix, Option.map_some,
    String.ofList_toList, String.ofList_toList]

theorem declaration_ne_definitionsEnd (name id : String) :
    declaration name id ≠ definitionsEnd := by
  intro h
  have hchars := congrArg String.toList h
  simp [toList_declaration, definitionsEnd] at hchars

/-- The lines in front of the end of the definitions. -/
def opening (names : List String) : List String :=
  ["$timescale 1ns $end", "$scope module top $end"] ++
    (declared names).map (fun (name, id) => declaration name id) ++ ["$upscope $end"]

theorem heading_eq (names : List String) : heading names = opening names ++ [definitionsEnd] := by
  simp [heading, opening, definitionsEnd]

theorem ne_definitionsEnd_of_mem_opening {line : String} (h : line ∈ opening names) :
    line ≠ definitionsEnd := by
  simp only [opening, List.mem_append, List.mem_map, List.mem_cons, List.not_mem_nil,
    or_false] at h
  rcases h with ((rfl | rfl) | ⟨p, -, rfl⟩) | rfl
  · decide
  · decide
  · exact declaration_ne_definitionsEnd _ _
  · decide

/-- The wires of the definitions are the declared ones, in order. -/
theorem filterMap_wire?_opening (names : List String) :
    (opening names).filterMap wire? = declared names := by
  have hdeclared : ((declared names).map fun (name, id) => declaration name id).filterMap wire? =
      declared names := by
    rw [List.filterMap_map]
    refine (List.filterMap_congr fun (name, id) hp => ?_).trans List.filterMap_some
    obtain ⟨-, i, -, rfl⟩ := mem_declared hp
    simp only [Function.comp_apply, wire?_declaration]
  have htimescale : wire? "$timescale 1ns $end" = none := by decide
  have hscope : wire? "$scope module top $end" = none := by decide
  have hupscope : wire? "$upscope $end" = none := by decide
  rw [opening, List.filterMap_append, List.filterMap_append, hdeclared]
  simp only [List.filterMap_cons, htimescale, hscope, hupscope, List.filterMap_nil,
    List.nil_append, List.append_nil]

theorem map_fst_declared (names : List String) : (declared names).map Prod.fst = names := by
  rw [declared, List.map_map]
  exact List.zipIdx_map_fst 0 names

/-- No identifier is declared twice. -/
theorem nodup_identifiers (names : List String) : ((declared names).map Prod.snd).Nodup := by
  have hids : (declared names).map Prod.snd = (List.range' 0 names.length).map identifier := by
    rw [declared, List.map_map, ← List.zipIdx_map_snd 0 names, List.map_map]
    rfl
  rw [hids]
  exact List.Nodup.map (fun _ _ h => identifier_injective h) List.nodup_range'

/-! ## 3. The blocks -/

/-- An identifier leads back to the name at its place. -/
theorem nameOf?_declared (h : names[i]? = some n) :
    nameOf? (declared names) (identifier i).toList = some n := by
  have hmem : (n, identifier i) ∈ declared names :=
    List.mem_map.2 ⟨(n, i), List.mk_mem_zipIdx_iff_getElem?.2 h, rfl⟩
  rw [nameOf?, String.ofList_toList]
  cases hfind : (declared names).find? (·.2 = identifier i) with
  | none => simpa using List.find?_eq_none.1 hfind _ hmem
  | some p =>
    have hid : p.2 = identifier i := by simpa using List.find?_some hfind
    obtain ⟨⟨m, j⟩, hj, rfl⟩ := List.mem_map.1 (List.mem_of_find?_eq_some hfind)
    cases identifier_injective hid
    cases h.symm.trans (List.mk_mem_zipIdx_iff_getElem?.1 hj)
    rfl

/-- A name has an identifier in force exactly if it is declared. -/
theorem lookup_declared_eq_none : (declared names).reverse.lookup n = none ↔ n ∉ names := by
  have hmem : n ∈ names ↔ ∃ p ∈ declared names, p.1 = n := by
    rw [← List.mem_map, map_fst_declared]
  rw [List.lookup_eq_none_iff, hmem]
  simp only [List.mem_reverse, bne_iff_ne, ne_comm, ne_eq, not_exists, not_and]

theorem line?_timeLine (wires : List (String × String)) (t : Number) :
    line? wires (timeLine t) = some (.time (t.scale unitsPerCycle)) := by
  have hline : (timeLine t).toList = '#' :: (t.scale unitsPerCycle).text.toList := by
    simp [timeLine, String.toList_append]
  simp only [line?, hline, Number.ofChars?_text_scale, Option.map_some]

theorem line?_valueLine (h : names[i]? = some n) (v : Bool) :
    line? (declared names) (valueLine v (identifier i)) = some (.value n v) := by
  cases v <;> simp [valueLine, String.toList_append, line?, nameOf?_declared h]

/-- The lines of values read back to the values of declared names, in their order. -/
theorem body?_values_append (es : List (String × Bool)) {more : List String}
    {values : List (String × Bool)} {blocks : List (Number × List (String × Bool))}
    (hmore : body? (declared names) more = some (values, blocks)) :
    body? (declared names)
        ((es.filterMap fun (name, v) =>
          ((declared names).reverse.lookup name).map (valueLine v)) ++ more) =
      some (es.filter (·.1 ∈ names) ++ values, blocks) := by
  induction es with
  | nil => exact hmore
  | cons e es ih =>
    cases hlookup : (declared names).reverse.lookup e.1 with
    | none =>
      have hnot := lookup_declared_eq_none.1 hlookup
      simpa [hlookup, hnot] using ih
    | some id =>
      obtain ⟨i, hi, rfl⟩ := lookup_declared.1 hlookup
      have hmem : e.1 ∈ names := List.mem_of_getElem? hi.1
      simp only [List.filterMap_cons, hlookup, Option.map_some, List.cons_append,
        body?, line?_valueLine hi.1, ih]
      simp [hmem]

/-- What a dump says of a sample. -/
def Dump.ofSample (names : List String) (s : Sample) : Number × List (String × Bool) :=
  (s.cycle.scale unitsPerCycle, s.values.entries.filter (·.1 ∈ names))

/-- The blocks read back to their samples, in order. -/
theorem body?_blocks (names : List String) (samples : List Sample) :
    body? (declared names)
        (samples.flatMap fun s => timeLine s.cycle :: blockLines names s.values) =
      some ([], samples.map (Dump.ofSample names)) := by
  induction samples with
  | nil => rfl
  | cons s samples ih =>
    have hvalues := body?_values_append s.values.entries ih
    rw [List.flatMap_cons, List.cons_append, body?, line?_timeLine, blockLines, hvalues,
      List.append_nil]
    rfl

/-! ## 4. The dump -/

theorem ofLines?_lines (samples : List Sample) (names : List String) :
    Dump.ofLines? (lines samples names) =
      some ⟨declared names, samples.map (Dump.ofSample names)⟩ := by
  have hopening : ∀ line ∈ opening names, decide (line ≠ definitionsEnd) = true :=
    fun line hline => decide_eq_true (ne_definitionsEnd_of_mem_opening hline)
  rw [lines_eq, heading_eq, List.append_assoc, List.singleton_append, Dump.ofLines?,
    List.takeWhile_append_of_pos hopening, List.dropWhile_append_of_pos hopening]
  simp [filterMap_wire?_opening, body?_blocks]

/-- The lines of a text are the lines it was made of, if there are no line ends in the names. -/
theorem splitOn_text (samples : List Sample) (hnames : ∀ n ∈ names, '\n' ∉ n.toList) :
    (text samples names).toList.splitOn '\n' = (lines samples names).map String.toList :=
  Report.splitOn_lines (by simp [lines]) (newline_notMem_lines hnames)

/-- **A dump reads back**: to wires with identifiers of their own, one for each of the names in
order, and to the samples in order, each with its time and with those of its entries whose names
are declared, and nothing else. Names may be declared more than once, and may look like any other
part of a dump. Times are multiples of the cycles, as far as numbers are exact. -/
theorem ofText?_text (samples : List Sample) (names : List String)
    (hnames : ∀ n ∈ names, '\n' ∉ n.toList) :
    ∃ wires, wires.map Prod.fst = names ∧ (wires.map Prod.snd).Nodup ∧
      Dump.ofText? (text samples names) = some ⟨wires, samples.map fun s =>
        (s.cycle.scale 10, s.values.entries.filter (·.1 ∈ names))⟩ ∧
      ∀ t, 10 * t ≤ 2 ^ 53 → (Number.ofNat t).scale 10 = .ofNat (10 * t) := by
  refine ⟨declared names, map_fst_declared names, nodup_identifiers names, ?_,
    fun _ => Number.scale_ofNat⟩
  have hlines : ((text samples names).toList.splitOn '\n').map String.ofList =
      lines samples names := by
    simp [splitOn_text samples hnames]
  rw [Dump.ofText?, hlines]
  exact ofLines?_lines samples names

/-- Names that look like parts of a dump, one of them twice. -/
def awkwardNames : List String := ["$enddefinitions $end", "#0", "1!", "#0", ""]

/-- Samples that hold another name, too. -/
def awkwardSamples : List Sample :=
  [⟨.ofNat 0, .ofList [("#0", true), ("other", false), ("1!", false)]⟩,
    ⟨.ofNat 3, .ofList [("", false), ("#0", false), ("other", true)]⟩]

/-- The dump of names that look like its parts reads back. -/
theorem ofText?_text_awkward :
    (∀ n ∈ awkwardNames, '\n' ∉ n.toList) ∧
      ∃ wires, wires.map Prod.fst = awkwardNames ∧ (wires.map Prod.snd).Nodup ∧
        Dump.ofText? (text awkwardSamples awkwardNames) = some ⟨wires,
          [(.ofNat 0, [("#0", true), ("1!", false)]),
            (.ofNat 30, [("", false), ("#0", false)])]⟩ := by
  have hnames : ∀ n ∈ awkwardNames, '\n' ∉ n.toList := by decide
  obtain ⟨wires, hfst, hsnd, hread, htimes⟩ := ofText?_text awkwardSamples awkwardNames hnames
  refine ⟨hnames, wires, hfst, hsnd, hread.trans ?_⟩
  have hfirst := htimes 0 (by decide)
  have hsecond := htimes 3 (by decide)
  have hvalues : awkwardSamples.map (fun s => s.values.entries.filter (·.1 ∈ awkwardNames)) =
      [[("#0", true), ("1!", false)], [("", false), ("#0", false)]] := by decide
  simp only [awkwardSamples, List.map_cons, List.map_nil, List.cons.injEq] at hvalues ⊢
  rw [hvalues.1, hvalues.2.1, hfirst, hsecond]

end Clocked.Vcd
