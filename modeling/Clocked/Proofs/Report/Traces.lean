/-
Clocked.Proofs.Report.Traces — printed traces read back.

The reader of this module cuts a text into lines, and every line at its first blank: in front
of it are the bits of a trace, behind it is the signal. Bits hold no blank, so the cut is the
right one whatever the signal is, the empty one and those that begin with bits or blanks
included (`ofText_text`); and a line ends where its signal does, as long as no signal holds a
line end (`newline_notMem_text`).

Bit strings are read as far as they are bits (`readBits_cases`). An error is about 16-bit
units: it shows the first one that is no bit, and says how many stand in front of it.
-/
import Clocked.Proofs.Report.Lines
import Clocked.Proofs.Source.Units
import Clocked.Report.Traces
import Clocked.Table

namespace Clocked

/-! ## 1. Units in messages -/

/-- How a unit is written in a message: as the character it is, half a pair as `<U+D83D>`. -/
def Text.unitText (u : UInt16) : String :=
  if u.toNat.isValidChar then (Char.ofNat u.toNat).toString
  else "<U+" ++ upperHex u.toNat ++ ">"

/-- What is written for a character is its first unit. -/
theorem Text.exists_unitsOf_eq_cons (c : Char) :
    ∃ u more, unitsOf c = u :: more ∧ firstUnit c = unitText u := by
  by_cases h : units c = 1
  · have hvalid : c.toNat.isValidChar := c.valid
    refine ⟨_, [], by rw [unitsOf, if_pos h], ?_⟩
    rw [firstUnit, if_pos h, unitText, toNat_unit h, if_pos hvalid, Char.ofNat_toNat]
  · obtain ⟨hto, hhalf⟩ := toNat_upperHalf c
    refine ⟨_, _, by rw [unitsOf, if_neg h], ?_⟩
    rw [firstUnit, if_neg h, unitText, hto, if_neg hhalf]

namespace Trace

/-! ## 2. Bit strings -/

/-- Whether a unit is a bit, `0` or `1`. -/
def IsBit (u : UInt16) : Prop := u ∈ Text.utf16 ['0', '1']

theorem letter_of_isBit {u : UInt16} (h : IsBit u) : Text.letter u = '0' ∨ Text.letter u = '1' := by
  have hcases : u = 48 ∨ u = 49 := by simpa [IsBit, Text.utf16, Text.unitsOf, Text.units] using h
  rcases hcases with rfl | rfl
  · exact .inl (by decide)
  · exact .inr (by decide)

/-- A character that is no bit begins with a unit that is none. -/
theorem exists_unit_not_isBit {c : Char} (hc : ¬ (c = '0' ∨ c = '1')) :
    ∃ u more, Text.unitsOf c = u :: more ∧ ¬ IsBit u ∧ Text.firstUnit c = Text.unitText u := by
  obtain ⟨u, more, hunits, htext⟩ := Text.exists_unitsOf_eq_cons c
  refine ⟨u, more, hunits, fun hbit => ?_, htext⟩
  by_cases h : Text.units c = 1
  · have hletters := Text.letters_unitsOf h
    rw [hunits] at hletters
    exact hc ((List.cons.inj hletters).1 ▸ letter_of_isBit hbit)
  · have hletters := Text.letters_unitsOf_pair h
    rw [hunits] at hletters
    have hletter := letter_of_isBit hbit
    rw [(List.cons.inj hletters).1] at hletter
    exact absurd hletter (by decide)

theorem exists_unitsOf_bit (v : Bool) : ∃ u, Text.unitsOf (bit v) = [u] ∧ IsBit u := by
  unfold IsBit
  cases v with
  | false => exact ⟨48, by decide, by decide⟩
  | true => exact ⟨49, by decide, by decide⟩

/-- Every bit is one unit. -/
theorem utf16_map_bit (vs : List Bool) :
    (Text.utf16 (vs.map bit)).length = vs.length ∧ ∀ u ∈ Text.utf16 (vs.map bit), IsBit u := by
  induction vs with
  | nil => exact ⟨rfl, nofun⟩
  | cons v vs ih =>
    obtain ⟨u, hunits, hbit⟩ := exists_unitsOf_bit v
    have hcons : Text.utf16 ((v :: vs).map bit) = u :: Text.utf16 (vs.map bit) := by
      rw [List.map_cons, Text.utf16, List.flatMap_cons, hunits, List.singleton_append]
      rfl
    rw [hcons, List.length_cons, List.length_cons, ih.1]
    exact ⟨rfl, List.forall_mem_cons.2 ⟨hbit, ih.2⟩⟩

/-- A row of characters is all bits, or it has a first character that is none. -/
theorem readBits_cases (signal : String) (position : Nat) (cs : List Char) :
    (∃ vs : List Bool, cs = vs.map bit ∧ readBits signal position cs = .ok vs) ∨
      ∃ (vs : List Bool) (c : Char) (rest : List Char), cs = vs.map bit ++ c :: rest ∧
        ¬ (c = '0' ∨ c = '1') ∧
        readBits signal position cs = .error (.invalidBit c (position + vs.length) signal) := by
  induction cs generalizing position with
  | nil => exact .inl ⟨[], rfl, rfl⟩
  | cons c cs ih =>
    by_cases hc : c = '0' ∨ c = '1'
    · have hbit : c = bit (decide (c = '1')) := by
        rcases hc with rfl | rfl <;> rfl
      rw [readBits, if_pos hc]
      rcases ih (position + 1) with ⟨vs, rfl, hread⟩ | ⟨vs, d, rest, rfl, hd, hread⟩
      · refine .inl ⟨decide (c = '1') :: vs, ?_, ?_⟩
        · rw [List.map_cons, ← hbit]
        · rw [hread, Except.map]
      · refine .inr ⟨decide (c = '1') :: vs, d, rest, ?_, hd, ?_⟩
        · rw [List.map_cons, ← hbit, List.cons_append]
        · rw [hread, Except.map, List.length_cons, Nat.add_assoc, Nat.add_comm 1]
    · exact .inr ⟨[], c, cs, rfl, hc, by rw [readBits, if_neg hc, List.length_nil, Nat.add_zero]⟩

/-- A bit string is read as the trace with its bits. -/
theorem ofBits_of_map_bit {signal bits : String} {vs : List Bool} (h : bits.toList = vs.map bit) :
    ofBits signal bits = .ok (ofList signal vs) := by
  rw [ofBits, h, readBits_map_bit, Except.map]

theorem bits_ofList {signal bits : String} {vs : List Bool} (h : bits.toList = vs.map bit) :
    (ofList signal vs).bits = bits := by
  rw [Trace.bits, toList_ofList, ← h, String.ofList_toList]

theorem forall_mem_map_bit (vs : List Bool) : ∀ ch ∈ vs.map bit, ch = '0' ∨ ch = '1' := by
  rw [List.forall_mem_map]
  intro v _
  cases v
  · exact .inl rfl
  · exact .inr rfl

/-- Exactly the strings of bits are read, and then they are the bits of the trace. -/
theorem ofBits_eq_ok_iff {signal bits : String} {t : Trace} :
    ofBits signal bits = .ok t ↔ t.signal = signal ∧ t.bits = bits := by
  constructor
  · intro h
    rcases readBits_cases signal 0 bits.toList with ⟨vs, hbits, -⟩ | ⟨_, _, _, -, -, hread⟩
    · rw [ofBits_of_map_bit hbits] at h
      cases h
      exact ⟨rfl, bits_ofList hbits⟩
    · rw [ofBits, hread] at h
      cases h
  · rintro ⟨rfl, rfl⟩
    exact ofBits_bits t

theorem exists_ofBits_iff {signal bits : String} :
    (∃ t, ofBits signal bits = .ok t) ↔ ∀ ch ∈ bits.toList, ch = '0' ∨ ch = '1' := by
  rcases readBits_cases signal 0 bits.toList with ⟨vs, hbits, -⟩ | ⟨vs, c, rest, hbits, hc, hread⟩
  · exact iff_of_true ⟨_, ofBits_of_map_bit hbits⟩ (hbits ▸ forall_mem_map_bit vs)
  · refine iff_of_false ?_ fun hall => hc (hall c (by simp [hbits]))
    rintro ⟨t, ht⟩
    rw [ofBits, hread] at ht
    cases ht

/-- An error shows the first unit that is no bit, and says at which place it stands. -/
theorem message_of_ofBits_error {signal bits : String} {e : Error}
    (h : ofBits signal bits = .error e) :
    ∃ before u after, Text.utf16 bits.toList = before ++ u :: after ∧ (∀ v ∈ before, IsBit v) ∧
      ¬ IsBit u ∧ e.message = "Invalid bit '" ++ Text.unitText u ++ "' at position " ++
        toString before.length ++ " in trace for " ++ signal := by
  rcases readBits_cases signal 0 bits.toList with ⟨vs, hbits, -⟩ | ⟨vs, c, rest, hbits, hc, hread⟩
  · rw [ofBits_of_map_bit hbits] at h
    cases h
  · rw [ofBits, hread] at h
    cases h
    obtain ⟨u, more, hunits, hbit, htext⟩ := exists_unit_not_isBit hc
    obtain ⟨hlength, hall⟩ := utf16_map_bit vs
    refine ⟨Text.utf16 (vs.map bit), u, more ++ Text.utf16 rest, ?_, hall, hbit, ?_⟩
    · rw [hbits, Text.utf16, List.flatMap_append, List.flatMap_cons, hunits]
      rfl
    · rw [Nat.zero_add, hlength, ← htext]
      rfl

/-! ## 3. Lines -/

/-- Reads a printed trace: bits in front of the first blank, the signal behind it. -/
def ofText (line : String) : Except Error Trace :=
  ofBits (String.ofList (line.toList.dropWhile (· ≠ ' ')).tail)
    (String.ofList (line.toList.takeWhile (· ≠ ' ')))

theorem toList_text (t : Trace) : t.text.toList = t.toList.map bit ++ ' ' :: t.signal.toList := by
  rw [text, bits, String.toList_append, String.toList_append, String.toList_ofList,
    List.append_assoc]
  rfl

theorem notMem_map_bit {ch : Char} (h : ¬ (ch = '0' ∨ ch = '1')) (vs : List Bool) :
    ch ∉ vs.map bit := by
  intro hmem
  exact h (forall_mem_map_bit vs ch hmem)

/-- A printed trace reads back, whatever its signal is. -/
theorem ofText_text (t : Trace) : ofText t.text = .ok t := by
  obtain ⟨htake, hdrop⟩ :=
    Report.span_firstWord (notMem_map_bit (by decide) t.toList) t.signal.toList
  rw [ofText, toList_text, htake, hdrop, List.tail_cons, String.ofList_toList]
  exact ofBits_bits t

theorem newline_notMem_text {t : Trace} (h : '\n' ∉ t.signal.toList) : '\n' ∉ t.text.toList := by
  rw [toList_text, List.mem_append, List.mem_cons, not_or, not_or]
  exact ⟨notMem_map_bit (by decide) t.toList, by decide, h⟩

end Trace

/-! ## 4. Printed traces -/

namespace Report

/-- Reads printed traces, one from every line. -/
def readTraces (text : String) : List (Except Trace.Error Trace) :=
  (text.toList.splitOn '\n').map fun line => Trace.ofText (String.ofList line)

/-- **Printed traces read back**: if there is a trace and no signal holds a line end, every line
reads back to its trace, inputs in order and then outputs in order. Signals may be empty and may
hold blanks or look like bits, and traces may be empty. Of bit strings exactly those over `0` and
`1` are read, as traces with just these bits; for any other one the message shows its first unit
that is no bit, and the place of it. -/
theorem readTraces_traces (inputs : List Trace) (outputs : Table Trace)
    (hne : inputs ++ outputs.entries.map Prod.snd ≠ [])
    (hsignals : ∀ t ∈ inputs ++ outputs.entries.map Prod.snd, '\n' ∉ t.signal.toList) :
    readTraces (traces inputs (outputs.entries.map Prod.snd)) =
        (inputs ++ outputs.entries.map Prod.snd).map .ok ∧
      ∀ signal bits,
        ((∃ t, Trace.ofBits signal bits = .ok t) ↔ ∀ ch ∈ bits.toList, ch = '0' ∨ ch = '1') ∧
        (∀ t, Trace.ofBits signal bits = .ok t → t.signal = signal ∧ t.bits = bits) ∧
        ∀ e, Trace.ofBits signal bits = .error e → ∃ before u after,
          Text.utf16 bits.toList = before ++ u :: after ∧ (∀ v ∈ before, Trace.IsBit v) ∧
          ¬ Trace.IsBit u ∧ e.message = "Invalid bit '" ++ Text.unitText u ++ "' at position " ++
            toString before.length ++ " in trace for " ++ signal := by
  constructor
  · have hlines : ∀ line ∈ (inputs ++ outputs.entries.map Prod.snd).map Trace.text,
        '\n' ∉ line.toList := by
      rw [List.forall_mem_map]
      intro t ht
      exact Trace.newline_notMem_text (hsignals t ht)
    rw [readTraces, traces, splitOn_lines (by simpa using hne) hlines, List.map_map, List.map_map]
    refine List.map_congr_left fun t _ => ?_
    rw [Function.comp_apply, Function.comp_apply, String.ofList_toList, Trace.ofText_text]
  · intro signal bits
    refine ⟨Trace.exists_ofBits_iff, fun t => Trace.ofBits_eq_ok_iff.1, fun e h => ?_⟩
    exact Trace.message_of_ofBits_error h

/-- Input traces with a blank in the signal and without signal and values. -/
def awkwardInputs : List Trace := [.ofList "a b" [true, false], .ofList "" []]

/-- Output traces with signals that look like bits and like a printed trace. -/
def awkwardOutputs : Table Trace :=
  .ofList [("x", .ofList "01" [false]), ("y", .ofList " 1 x" [true, true])]

/-- Printed traces with awkward signals read back, and the upper half of a pair is no bit. -/
theorem readTraces_traces_awkward :
    awkwardInputs ++ awkwardOutputs.entries.map Prod.snd ≠ [] ∧
      (∀ t ∈ awkwardInputs ++ awkwardOutputs.entries.map Prod.snd, '\n' ∉ t.signal.toList) ∧
      traces awkwardInputs (awkwardOutputs.entries.map Prod.snd) = "10 a b\n \n0 01\n11  1 x" ∧
      readTraces "10 a b\n \n0 01\n11  1 x" = [.ok (.ofList "a b" [true, false]),
        .ok (.ofList "" []), .ok (.ofList "01" [false]), .ok (.ofList " 1 x" [true, true])] ∧
      ¬ ∃ t, Trace.ofBits "a" "0😀" = .ok t := by
  have hne : awkwardInputs ++ awkwardOutputs.entries.map Prod.snd ≠ [] := by decide
  have hsignals : ∀ t ∈ awkwardInputs ++ awkwardOutputs.entries.map Prod.snd,
      '\n' ∉ t.signal.toList := by decide
  have htext : traces awkwardInputs (awkwardOutputs.entries.map Prod.snd) =
      "10 a b\n \n0 01\n11  1 x" := by decide
  obtain ⟨hread, hbits⟩ := readTraces_traces awkwardInputs awkwardOutputs hne hsignals
  rw [htext] at hread
  refine ⟨hne, hsignals, htext, hread, fun h => ?_⟩
  exact absurd ((hbits "a" "0😀").1.1 h '😀' (by decide)) (by decide)

end Report

end Clocked
