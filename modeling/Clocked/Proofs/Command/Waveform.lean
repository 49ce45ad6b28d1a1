/-
Clocked.Proofs.Command.Waveform — the waveform tells what the traces say.

One run is told twice: the traces that are printed are those of the run, and the waveform is
made of its samples, name by name. Both are the waves of the signals that are shown
(`Session.resultText_eq`, `waveform_of_runAll`), so they tell the same (`Vcd.Tells`), but for
one thing: an output that is listed twice is declared twice and sampled once, and the wire that
is declared first never gets a value (`Vcd.Tells.all_valued_iff`).
-/
import Clocked.Proofs.Command.Replies
import Clocked.Proofs.Report.Vcd
import Clocked.Proofs.Source.Names

namespace Clocked

/-- The trace of a signal that has the values in `V`. -/
def Trace.wave (V : Nat → String → Bool) (length : Nat) (n : String) : Trace :=
  .ofList n ((List.range length).map (V · n))

theorem Trace.at?_wave (V : Nat → String → Bool) (n : String) {length t : Nat} (h : t < length) :
    (wave V length n).at? t = some (V t n) := by
  rw [at?_eq_getElem?, wave, toList_ofList, List.getElem?_map, List.getElem?_range h]
  rfl

/-! ## 1. Traces and blocks -/

namespace Vcd

variable {names : List String} {traces : List Trace} {blocks : List (List String)}

/-- The blocks of a dump tell what the traces say. -/
structure Tells (names : List String) (traces : List Trace) (blocks : List (List String)) :
    Prop where
  /-- Every name has one trace. -/
  signals : traces.map (·.signal) = names.eraseDups
  /-- A trace has a value for every block. -/
  lengths : ∀ tr ∈ traces, tr.length = blocks.length
  /-- A block begins with its time; times are ten units apart, as far as numbers are exact. -/
  time : ∀ (t : Nat) block, blocks[t]? = some block → block.head? = some (timeLine (.ofNat t)) ∧
    (10 * t ≤ 2 ^ 53 → timeLine (.ofNat t) = "#" ++ toString (10 * t))
  /-- After its time a block has nothing but values of declared wires. -/
  lines : ∀ block ∈ blocks, ∀ line ∈ block.tail, ∃ wire ∈ declared names, ∃ v,
    line = valueLine v wire.2
  /-- The wire that is declared last for a name has the values of its trace. -/
  last : ∀ (t : Nat) block n i tr, blocks[t]? = some block → IsLast names n i → tr ∈ traces →
    tr.signal = n → ∃ v, tr.at? t = some v ∧ valuesOf (identifier i) block = [v]
  /-- Other wires that are declared for it have none. -/
  other : ∀ (t : Nat) block n i, blocks[t]? = some block → names[i]? = some n → ¬ IsLast names n i →
    valuesOf (identifier i) block = []

theorem declared_getElem? (i : Nat) :
    (declared names)[i]? = names[i]?.map fun n => (n, identifier i) := by
  simp [declared, Function.comp_def]

/-- No name is listed twice if every place of a name is its last. -/
theorem nodup_iff_isLast : names.Nodup ↔ ∀ i n, names[i]? = some n → IsLast names n i := by
  rw [List.nodup_iff_getElem?_ne_getElem?]
  constructor
  · intro hnodup i n hi
    refine ⟨hi, fun j hij hj => ?_⟩
    exact hnodup i j hij (List.getElem?_eq_some_iff.1 hj).1 (hi.trans hj.symm)
  · intro hlast i j hij hj heq
    have hn : names[j]? = some names[j] := List.getElem?_eq_getElem hj
    exact (hlast i names[j] (heq.trans hn)).2 j hij hn

/-- All wires get their values exactly if no name is declared twice. -/
theorem Tells.all_valued_iff (h : Tells names traces blocks) (hblocks : blocks ≠ []) :
    (∀ block ∈ blocks, ∀ wire ∈ declared names, ∃ v, valuesOf wire.2 block = [v]) ↔
      names.Nodup := by
  rw [nodup_iff_isLast]
  constructor
  · intro hvalued i n hi
    by_contra hlast
    obtain ⟨block, more, rfl⟩ := List.exists_cons_of_ne_nil hblocks
    have hwire : (n, identifier i) ∈ declared names := by
      refine List.mem_of_getElem? (i := i) ?_
      rw [declared_getElem?, hi]
      rfl
    obtain ⟨v, hv⟩ := hvalued block List.mem_cons_self _ hwire
    have hnone := h.other 0 block n i rfl hi hlast
    cases hnone.symm.trans hv
  · intro hlast block hblock wire hwire
    obtain ⟨t, ht⟩ := List.getElem?_of_mem hblock
    obtain ⟨i, hi⟩ := List.getElem?_of_mem hwire
    rw [declared_getElem?, Option.map_eq_some_iff] at hi
    obtain ⟨n, hn, rfl⟩ := hi
    have hsignal : n ∈ traces.map (·.signal) := by
      rw [h.signals, List.mem_eraseDups]
      exact List.mem_of_getElem? hn
    obtain ⟨tr, htr, hsignal⟩ := List.mem_map.1 hsignal
    obtain ⟨v, -, hv⟩ := h.last t block n i tr ht (hlast i n hn) htr hsignal
    exact ⟨v, hv⟩

/-- The blocks of the samples of some signals with the values in `V`. -/
def blocksOf (V : Nat → String → Bool) (length : Nat) (names : List String) : List (List String) :=
  (List.range length).map fun t =>
    timeLine (.ofNat t) :: blockLines names (Table.ofList (names.map fun n => (n, V t n)))

theorem lines_samplesOf (V : Nat → String → Bool) (length : Nat) (names : List String) :
    Vcd.lines (Session.samplesOf V length names).toList names =
      heading names ++ (blocksOf V length names).flatten := by
  rw [lines_eq, Session.samplesOf, blocksOf, List.flatMap_def, List.map_map]
  rfl

/-- A time is no value. -/
theorem valueOf?_timeLine (id : String) (time : Number) : valueOf? id (timeLine time) = none := by
  have hne (v : Bool) : timeLine time ≠ valueLine v id := by
    intro heq
    have hchars := congrArg String.toList heq
    cases v <;> simp [timeLine, valueLine, String.toList_append] at hchars
  unfold valueOf?
  rw [if_neg (hne true), if_neg (hne false)]

theorem valuesOf_cons_timeLine (id : String) (time : Number) (lines : List String) :
    valuesOf id (timeLine time :: lines) = valuesOf id lines := by
  rw [valuesOf, List.filterMap_cons_none (valueOf?_timeLine id time), valuesOf]

/-- The samples of signals tell what their waves say. -/
theorem tells_blocksOf (V : Nat → String → Bool) (length : Nat) (names : List String) :
    Tells names (names.eraseDups.map (Trace.wave V length)) (blocksOf V length names) := by
  have hblock {t : Nat} {block : List String} (h : (blocksOf V length names)[t]? = some block) :
      t < length ∧ block = timeLine (.ofNat t) ::
        blockLines names (Table.ofList (names.map fun n => (n, V t n))) := by
    rw [blocksOf, List.getElem?_map, Option.map_eq_some_iff] at h
    obtain ⟨t', ht', rfl⟩ := h
    obtain ⟨hlt, rfl⟩ := List.getElem?_eq_some_iff.1 ht'
    rw [List.length_range] at hlt
    rw [List.getElem_range]
    exact ⟨hlt, rfl⟩
  constructor
  · rw [List.map_map]
    exact List.map_id _
  · intro tr htr
    obtain ⟨n, -, rfl⟩ := List.mem_map.1 htr
    simp [Trace.wave, blocksOf]
  · intro t block ht
    obtain ⟨-, rfl⟩ := hblock ht
    exact ⟨List.head?_cons, timeLine_ofNat⟩
  · intro block hmem line hline
    obtain ⟨t, ht⟩ := List.getElem?_of_mem hmem
    obtain ⟨-, rfl⟩ := hblock ht
    obtain ⟨i, v, hi, rfl⟩ := mem_blockLines hline
    refine ⟨(names[i], identifier i), List.mem_of_getElem? (i := i) ?_, v, rfl⟩
    rw [declared_getElem?, List.getElem?_eq_getElem hi]
    rfl
  · intro t block n i tr ht hlast htr hsignal
    obtain ⟨hlt, rfl⟩ := hblock ht
    obtain ⟨n', -, rfl⟩ := List.mem_map.1 htr
    obtain rfl : n' = n := hsignal
    refine ⟨V t n', Trace.at?_wave V n' hlt, ?_⟩
    rw [valuesOf_cons_timeLine]
    exact (valuesOf_sample (V t) hlast.1).1 hlast
  · intro t block n i ht hi hlast
    obtain ⟨-, rfl⟩ := hblock ht
    rw [valuesOf_cons_timeLine]
    exact (valuesOf_sample (V t) hi).2 hlast

end Vcd

/-! ## 2. The signals that are shown -/

namespace Circuit

open Command (shown)

variable {V : Nat → String → Bool} (c : Circuit)

/-- No output is an input. -/
theorem output_notMem_inputs {n : String} (hn : n ∈ c.outputs) : n ∉ c.inputs := by
  intro hin
  have hsplit : c.signals = c.inputs ++ (c.latchOutputs ++ c.updateOutputs) := List.append_assoc ..
  exact List.disjoint_of_nodup_append (hsplit ▸ c.signals_nodup) hin (c.output_driven hn)

theorem shown_mem_signals : ∀ n ∈ shown c, n ∈ c.signals := by
  intro n hn
  rcases List.mem_append.1 hn with hin | hout
  · exact List.mem_append_left _ (List.mem_append_left _ hin)
  · exact c.output_mem_signals hout

/-- Only outputs are shown twice. -/
theorem eraseDups_shown : (shown c).eraseDups = c.inputs ++ c.outputs.eraseDups := by
  have hnew : c.outputs.removeAll c.inputs = c.outputs :=
    List.filter_eq_self.2 fun n hn => by simpa using c.output_notMem_inputs hn
  rw [shown, List.eraseDups_append, hnew, eraseDups_of_nodup c.inputs_nodup]

theorem nodup_shown_iff : (shown c).Nodup ↔ c.outputs.Nodup := by
  rw [shown, List.nodup_append']
  refine ⟨fun h => h.2.1, fun h => ⟨c.inputs_nodup, h, fun n hin hout => ?_⟩⟩
  exact c.output_notMem_inputs hout hin

/-- The stimuli are the waves of the inputs. -/
theorem stimuli_eq (hV : c.Solves V) : c.stimuli = c.inputs.map (Trace.wave V c.length) := by
  have hwave : ∀ tr ∈ c.stimuli, tr = Trace.wave V c.length tr.signal := by
    intro tr htr
    have hlength := c.length_stimulus htr
    refine Trace.ext_toList rfl (List.ext_getElem? fun t => ?_)
    rw [← Trace.at?_eq_getElem?, ← Trace.at?_eq_getElem?]
    by_cases ht : t < c.length
    · rw [stimulus_bit hV ht tr htr, Trace.at?_wave V _ ht]
    · have hnone (tr' : Trace) (h : tr'.length = c.length) : tr'.at? t = none := by
        rw [← Option.not_isSome_iff_eq_none, tr'.at?_isSome_iff, h]
        exact ht
      rw [hnone tr hlength, hnone _ (by simp [Trace.wave])]
  calc c.stimuli = c.stimuli.map id := (List.map_id _).symm
    _ = c.stimuli.map fun tr => Trace.wave V c.length tr.signal := List.map_congr_left hwave
    _ = c.inputs.map (Trace.wave V c.length) := by
      rw [← c.map_signal_stimuli, List.map_map]
      rfl

end Circuit

namespace Session

variable {c : Circuit} {s : Session} {r : Result}

/-- What is printed of a run that goes through are the waves of the shown signals. -/
theorem resultText_eq (h : runAll (ofCircuit c none) = (.ok r, s)) :
    s.resultText r = "\n".intercalate
      (((Command.shown c).eraseDups.map (Trace.wave c.wave c.length)).map Trace.text) := by
  have hord := ordered_of_runAll (regular_ofCircuit c none) h
  have hV := c.solves_wave hord
  obtain ⟨s', hrun, hs⟩ := runAll_shows (s := ofCircuit c none) hV hord
    ((runAll_ok_iff hord).1 ⟨r, s, h⟩) rfl rfl rfl rfl
  cases h.symm.trans hrun
  have houtputs : (s.resultOutputs s.result).map Prod.snd =
      c.outputs.eraseDups.map (Trace.wave c.wave c.length) := by
    rw [hs.resultOutputs_eq, List.map_map]
    rfl
  have hinputs : s.result.inputs = c.inputs.map (Trace.wave c.wave c.length) :=
    hs.stimuli.trans (c.stimuli_eq hV)
  rw [resultText, Report.traces, houtputs, hinputs, c.eraseDups_shown]
  simp only [List.map_append]

end Session

namespace Command

variable {c : Circuit} {o : Options} {s : Session} {r : Result} {file : String}

/-! ## 3. The file -/

/-- The waveform of a run that goes through has the waves of the shown signals. -/
theorem waveform_of_runAll (hfile : o.target? = some file)
    (h : Session.runAll (Session.ofCircuit c none) = (.ok r, s)) :
    ∃ output, simulatedCircuit o c = .ok ⟨output, some (file, "\n".intercalate
      (Vcd.heading (shown c) ++ (Vcd.blocksOf c.wave c.length (shown c)).flatten) ++ "\n")⟩ := by
  have hord := Session.ordered_of_runAll (Session.regular_ofCircuit c none) h
  obtain ⟨k, s', hrecord, -, hsamples⟩ := Session.recordRun_shows (c.solves_wave hord) hord
    ((Session.runAll_ok_iff hord).1 ⟨r, s, h⟩) (shown c)
  have hall : (shown c).filter (· ∈ c.signals) = shown c :=
    List.filter_eq_self.2 fun n hn => decide_eq_true (c.shown_mem_signals n hn)
  have hrun : runCircuit o c (Session.ofCircuit c none) = (.ok (s'.result, k), s') := by
    rw [← hrecord]
    unfold runCircuit
    rw [hfile]
    rfl
  unfold simulatedCircuit
  rw [hrun]
  dsimp only
  rw [hsamples, hall, hfile, Option.getD_some, Vcd.text, Vcd.lines_samplesOf]
  exact ⟨_, rfl⟩

variable {files : Files} {ws : List String} {text : String}

/-- A file whose text simulates is answered with the waves of the shown signals, printed and
written. -/
theorem exists_waveform (hasked : asked ws = .ok o) (hfile : o.target? = some file)
    (hwritable : files.writable file) (h : Prints files o.input text) :
    ∃ octets c reply, files.read o.input = .ok octets ∧ Circuit.ofText (sourceText octets) = .ok c ∧
      run files ws = .replied reply ∧ Answers files o c text reply ∧
      text = "\n".intercalate
        (((shown c).eraseDups.map (Trace.wave c.wave c.length)).map Trace.text) ∧
      reply.written = some (file, "\n".intercalate
        (Vcd.heading (shown c) ++ (Vcd.blocksOf c.wave c.length (shown c)).flatten) ++ "\n") := by
  obtain ⟨octets, c, reply, hread, hbuild, hrun, hanswers⟩ := run_of_prints hasked h
  refine ⟨octets, c, reply, hread, hbuild, hrun, hanswers, ?_⟩
  obtain ⟨octets', hread', hsimulate⟩ := h
  cases hread.symm.trans hread'
  obtain ⟨c', r, s, hbuild', hall, rfl⟩ := simulate_eq_ok_iff.1 hsimulate
  cases hbuild.symm.trans hbuild'
  obtain ⟨output, hcircuit⟩ := waveform_of_runAll hfile hall
  have hsimulated : simulated o (files.read o.input) = simulatedCircuit o c := by
    rw [hread, simulated, hbuild]
  refine ⟨Session.resultText_eq hall, ?_⟩
  unfold run at hrun
  rw [hasked] at hrun
  dsimp only at hrun
  rw [hsimulated, hcircuit] at hrun
  simp only [Option.map_some, Option.getD_some, hwritable] at hrun
  cases hrun
  rfl

/-- **Waveform and printed traces tell the same.** If a file's text simulates and its waveform
can be written, then the waveform has the lines of a heading and of one block for each cycle,
and the blocks tell what the printed traces say. All the wires that are declared get their
values exactly if no output is listed twice. -/
theorem waveform_tells_traces (files : Files) (hasked : asked ws = .ok o)
    (hfile : o.target? = some file) (hwritable : files.writable file)
    (h : Prints files o.input text) :
    ∃ octets c reply traces blocks, files.read o.input = .ok octets ∧
      Circuit.ofText (sourceText octets) = .ok c ∧ run files ws = .replied reply ∧
      (printed reply.output).head? = some text ∧
      text = "\n".intercalate (traces.map Trace.text) ∧
      reply.written =
        some (file, "\n".intercalate (Vcd.heading (shown c) ++ blocks.flatten) ++ "\n") ∧
      (∀ line ∈ Vcd.heading (shown c) ++ blocks.flatten, '\n' ∉ line.toList) ∧
      blocks.length = c.length ∧ Vcd.Tells (shown c) traces blocks ∧
      ((∀ block ∈ blocks, ∀ wire ∈ Vcd.declared (shown c), ∃ v,
        Vcd.valuesOf wire.2 block = [v]) ↔ c.outputs.Nodup) := by
  obtain ⟨octets, c, reply, hread, hbuild, hrun, hanswers, htext, hwritten⟩ :=
    exists_waveform hasked hfile hwritable h
  have htells := Vcd.tells_blocksOf c.wave c.length (shown c)
  have hlength : (Vcd.blocksOf c.wave c.length (shown c)).length = c.length := by
    simp [Vcd.blocksOf]
  have hne : Vcd.blocksOf c.wave c.length (shown c) ≠ [] := by
    rw [← List.length_pos_iff, hlength]
    exact c.length_pos
  refine ⟨octets, c, reply, _, _, hread, hbuild, hrun, ?_, htext, hwritten, ?_, hlength, htells,
    (htells.all_valued_iff hne).trans c.nodup_shown_iff⟩
  · rw [hanswers.printed]
    rfl
  · rw [← Vcd.lines_samplesOf]
    exact Vcd.newline_notMem_lines (Circuit.newline_notMem_of_ofText hbuild)

/-- A circuit that lists its output twice. -/
def twiceText : String :=
  ".hardware twice\n.inputs a\n.outputs o o\n.update\no = !a\n.simulate\na=01\n"

/-- A folder with nothing but that, which can be written. -/
def twiceFiles : Files where
  read path := if path = "twice.hw" then .ok twiceText.toUTF8.data.toList else .error .missing
  writable _ := true

theorem waveform_tells_traces_twice :
    let ws := ["hwsim", "hwsim", "twice.hw", "--vcd", "twice.vcd"]
    let o : Options := { input := "twice.hw", waveform := some "twice.vcd" }
    asked ws = .ok o ∧ o.target? = some "twice.vcd" ∧ twiceFiles.writable "twice.vcd" ∧
    Prints twiceFiles o.input "01 a\n10 o" ∧
    ∃ octets c reply traces blocks, twiceFiles.read o.input = .ok octets ∧
      Circuit.ofText (sourceText octets) = .ok c ∧ run twiceFiles ws = .replied reply ∧
      (printed reply.output).head? = some "01 a\n10 o" ∧
      "01 a\n10 o" = "\n".intercalate (traces.map Trace.text) ∧
      reply.written =
        some ("twice.vcd", "\n".intercalate (Vcd.heading (shown c) ++ blocks.flatten) ++ "\n") ∧
      (∀ line ∈ Vcd.heading (shown c) ++ blocks.flatten, '\n' ∉ line.toList) ∧
      blocks.length = c.length ∧ Vcd.Tells (shown c) traces blocks ∧
      ((∀ block ∈ blocks, ∀ wire ∈ Vcd.declared (shown c), ∃ v,
        Vcd.valuesOf wire.2 block = [v]) ↔ c.outputs.Nodup) := by
  intro ws o
  have hasked : asked ws = .ok o := by decide
  have hprints : Prints twiceFiles o.input "01 a\n10 o" := ⟨_, rfl, by decide +kernel⟩
  exact ⟨hasked, by decide, rfl, hprints,
    waveform_tells_traces twiceFiles hasked (by decide) rfl hprints⟩

/-- The first of two wires for one output is declared, but never gets a value. -/
theorem waveform_twice_unvalued :
    ∃ lines, run twiceFiles ["hwsim", "hwsim", "twice.hw", "--vcd", "twice.vcd"] =
        .replied ⟨0, [out "01 a\n10 o"], some ("twice.vcd", "\n".intercalate lines ++ "\n")⟩ ∧
      Vcd.declaration "o" (Vcd.identifier 1) ∈ lines ∧
      Vcd.valuesOf (Vcd.identifier 1) lines = [] :=
  ⟨["$timescale 1ns $end", "$scope module top $end", "$var wire 1 ! a $end",
    "$var wire 1 \" o $end", "$var wire 1 # o $end", "$upscope $end", "$enddefinitions $end",
    "#0", "0!", "1#", "#10", "1!", "0#"], by decide +kernel, by decide +kernel, by decide +kernel⟩

end Command

end Clocked
