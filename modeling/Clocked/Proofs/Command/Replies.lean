/-
Clocked.Proofs.Command.Replies — what the program answers to a command line.

The program keeps the lines of its log apart from what it prints: the traces, and the counts
if they are asked for (`printed`). Whether a file's text simulates, and to which traces, is
decided by the file alone (`Prints`). The options decide only what is logged, whether the
counts follow the traces, and whether a waveform is written; so `simulated_of_prints` and
`simulated_of_not_prints` tell, for all options, what comes of a file.
-/
import Clocked.Command.Disk
import Clocked.Proofs.Command.Options
import Clocked.Proofs.Session.Source

namespace Clocked.Command

open Attempt (bind_of_ok bind_of_error)

variable {c : Circuit} {o : Options} {s : Session} {r : Result} {output output' : List Log.Entry}

/-! ## 1. Lines of output -/

/-- The lines that go to a stream. A line here is one text written at once, and may hold line
ends: the text of all traces is one line, and so is a message, whatever the file it names. -/
def linesTo (stream : Log.Stream) (output : List Log.Entry) : List String :=
  (output.filter fun e => e.stream = stream).map (·.text)

/-- What the lines of the log begin with. -/
def logTag : String := "[hwsim] "

/-- Whether a line is one of the log. -/
def isLogLine (line : String) : Bool := logTag.toList.isPrefixOf line.toList

/-- What is printed besides the log. -/
def printed (output : List Log.Entry) : List String :=
  (linesTo .stdout output).filter fun line => !isLogLine line

@[simp] theorem linesTo_append (stream : Log.Stream) :
    linesTo stream (output ++ output') = linesTo stream output ++ linesTo stream output' := by
  simp [linesTo]

@[simp] theorem printed_append : printed (output ++ output') = printed output ++ printed output' := by
  simp [printed]

/-- Lines of the log, none unless it is shown. -/
structure IsLog (o : Options) (output : List Log.Entry) : Prop where
  tagged : ∀ e ∈ output, ∃ message, e = out (logTag ++ message)
  quiet : o.verbose = false → output = []

theorem isLogLine_append (message : String) : isLogLine (logTag ++ message) = true := by
  simp [isLogLine, String.toList_append]

theorem IsLog.linesTo_stderr (h : IsLog o output) : linesTo .stderr output = [] := by
  rw [linesTo, List.filter_eq_nil_iff.2, List.map_nil]
  intro e he
  obtain ⟨message, rfl⟩ := h.tagged e he
  simp [out]

theorem IsLog.printed_eq_nil (h : IsLog o output) : printed output = [] := by
  refine List.filter_eq_nil_iff.2 fun line hline => ?_
  obtain ⟨e, he, rfl⟩ := List.mem_map.1 hline
  obtain ⟨message, rfl⟩ := h.tagged e (List.mem_filter.1 he).1
  simp [out, isLogLine_append]

theorem IsLog.linesTo_stdout (h : IsLog o output) (hquiet : o.verbose = false) :
    linesTo .stdout output = [] := by
  rw [h.quiet hquiet]
  rfl

/-- A line that does not begin with a bracket is none of the log. -/
theorem printed_out {line : String} (h : line.toList.head? ≠ some '[') :
    printed [out line] = [line] := by
  have hline : isLogLine line = false := by
    have htag : logTag.toList = '[' :: "hwsim] ".toList := by decide
    rw [isLogLine, htag]
    cases hchars : line.toList with
    | nil => rfl
    | cons x xs =>
      have hx : '[' ≠ x := by
        rintro rfl
        simp [hchars] at h
      rw [List.isPrefixOf_cons_cons, beq_eq_false_iff_ne.2 hx, Bool.false_and]
  have hprinted : printed [out line] = [line].filter fun line => !isLogLine line := rfl
  simp [hprinted, hline]

/-- Lines put together begin as the first one. -/
theorem head?_intercalate {line : String} (h : line.toList ≠ []) (more : List String) :
    ("\n".intercalate (line :: more)).toList.head? = line.toList.head? := by
  rw [String.toList_intercalate, List.map_cons]
  cases more with
  | nil => simp
  | cons next more =>
    rw [List.map_cons, List.intercalate_cons_cons, List.append_assoc]
    exact List.head?_append_of_ne_nil _ h

/-- Traces begin with a bit, or with a space if there is none. -/
theorem head?_traces (ins outs : List Trace) : (Report.traces ins outs).toList.head? ≠ some '[' := by
  unfold Report.traces
  cases ins ++ outs with
  | nil => decide
  | cons t more =>
    have htext : t.text.toList = t.toList.map Trace.bit ++ ' ' :: t.signal.toList := by
      simp [Trace.text, Trace.bits, String.toList_append]
    rw [List.map_cons, head?_intercalate (by simp [htext]), htext]
    cases t.toList with
    | nil => simp
    | cons v vs => cases v <;> simp [Trace.bit]

theorem head?_counts (stats : Stats) (name : String) :
    (stats.text name).toList.head? ≠ some '[' := by
  have hfirst : ("Circuit " ++ name ++ ":").toList = 'C' :: ("ircuit " ++ name ++ ":").toList := by
    simp [String.toList_append]
  unfold Stats.text
  rw [head?_intercalate (by simp [hfirst]), hfirst]
  simp

/-! ## 2. The log -/

theorem output?_debug (o : Options) (message : String) :
    (logger o).output? .debug message = if o.verbose then some (out (logTag ++ message)) else none := by
  unfold logger
  cases o.verbose <;> rfl

theorem output?_info (o : Options) (message : String) :
    (logger o).output? .info message = if o.verbose then some (out (logTag ++ message)) else none := by
  unfold logger
  cases o.verbose <;> rfl

theorem isLog_nil (o : Options) : IsLog o [] := ⟨nofun, fun _ => rfl⟩

theorem isLog_of_output? {level : Log.Level} {message : String}
    (h : (logger o).output? level message =
      if o.verbose then some (out (logTag ++ message)) else none) :
    IsLog o ((logger o).output? level message).toList := by
  rw [h]
  cases hverbose : o.verbose with
  | false => exact isLog_nil o
  | true =>
    refine ⟨fun e he => ⟨message, by simpa using he⟩, fun hquiet => ?_⟩
    cases hverbose.symm.trans hquiet

/-- Messages about progress are shown or not as the options say. -/
theorem isLog_logOutput (o : Options) (h : ∀ m ∈ s.log.toList, m.1 = .debug) :
    IsLog o (logOutput o s) := by
  have hentry : ∀ m ∈ s.log.toList, IsLog o ((logger o).output? m.1 m.2).toList := by
    intro m hm
    rw [h m hm]
    exact isLog_of_output? (output?_debug o m.2)
  constructor
  · intro e he
    obtain ⟨m, hm, hsome⟩ := List.mem_filterMap.1 he
    exact (hentry m hm).tagged e (by simp [hsome])
  · intro hquiet
    refine List.filterMap_eq_nil_iff.2 fun m hm => ?_
    exact Option.toList_eq_nil_iff.1 ((hentry m hm).quiet hquiet)

/-! ## 3. Running a circuit -/

/-- The session in which a circuit is run: its waveform is recorded if it is to be written. -/
def prepared (o : Options) (c : Circuit) : Session :=
  if o.target?.isSome then (Session.startRecording (shown c) (Session.ofCircuit c none)).2
  else Session.ofCircuit c none

theorem runCircuit_eq (o : Options) (c : Circuit) :
    runCircuit o c (Session.ofCircuit c none) = (do
      let r ← Session.runAll
      let recording ← Session.stopRecording
      return (r, recording) : Action (Result × Nat)) (prepared o c) := by
  unfold runCircuit prepared
  cases o.target?.isSome <;> rfl

theorem runCircuit_of_ok (h : Session.runAll (prepared o c) = (.ok r, s)) :
    runCircuit o c (Session.ofCircuit c none) =
      (.ok (r, s.recordingNumber), { s with watched := none }) := by
  rw [runCircuit_eq, bind_of_ok h]
  rfl

theorem runCircuit_of_error {e : Failure} (h : Session.runAll (prepared o c) = (.error e, s)) :
    runCircuit o c (Session.ofCircuit c none) = (.error e, s) := by
  rw [runCircuit_eq, bind_of_error h]

/-- The recording makes no difference to the run. -/
theorem exists_runAll_prepared {outcome : Except Failure Result} (o : Options)
    (h : Session.runAll (Session.ofCircuit c none) = (outcome, s)) :
    ∃ s', Session.runAll (prepared o c) = (outcome, s') ∧ s'.unrecorded = s.unrecorded := by
  unfold prepared
  cases o.target?.isSome with
  | false => exact ⟨s, h, rfl⟩
  | true =>
    obtain ⟨houtcome, hsame⟩ := Session.runAll_startRecording c (shown c)
    rw [h] at houtcome hsame
    exact ⟨(Session.runAll (Session.startRecording (shown c) (Session.ofCircuit c none)).2).2,
      Prod.ext houtcome rfl, hsame⟩

theorem logOutput_eq {s' : Session} (o : Options) (hsame : s'.unrecorded = s.unrecorded) :
    logOutput o s' = logOutput o s :=
  Session.congr_unrecorded (logOutput o) (fun _ => rfl) hsame

/-- The counts that follow the traces, if they are asked for. -/
def counts (o : Options) (c : Circuit) : List Log.Entry :=
  if o.stats then [out (c.stats.text c.name)] else []

theorem simulatedCircuit_of_ok (o : Options)
    (h : Session.runAll (Session.ofCircuit c none) = (.ok r, s)) :
    ∃ content, simulatedCircuit o c =
      .ok ⟨logOutput o s ++ out (s.resultText r) :: counts o c, o.target?.map (·, content)⟩ := by
  obtain ⟨s', hrun, hsame⟩ := exists_runAll_prepared o h
  have htext : ({ s' with watched := none } : Session).resultText r = s.resultText r :=
    Session.congr_unrecorded (fun u => u.resultText r) (fun _ => rfl) hsame
  have hlog : logOutput o { s' with watched := none } = logOutput o s := logOutput_eq o hsame
  unfold simulatedCircuit
  rw [runCircuit_of_ok hrun]
  dsimp only
  rw [htext, hlog]
  exact ⟨_, rfl⟩

theorem simulatedCircuit_of_error {e : SimulationError} (o : Options)
    (h : Session.runAll (Session.ofCircuit c none) = (.error (.simulation e), s)) :
    simulatedCircuit o c = .error (.replied (failure (logOutput o s) e.message)) := by
  obtain ⟨s', hrun, hsame⟩ := exists_runAll_prepared o h
  unfold simulatedCircuit
  rw [runCircuit_of_error hrun]
  dsimp only
  rw [logOutput_eq o hsame]
  rfl

/-! ## 4. What comes of a file -/

variable {files : Files} {input text : String} {ws : List String}

/-- The file has a text that simulates to the traces. -/
def Prints (files : Files) (input text : String) : Prop :=
  ∃ octets, files.read input = .ok octets ∧ (simulate (sourceText octets)).1 = .ok text

/-- A file simulates to its traces, whatever the options; they add the log and the counts. -/
theorem simulated_of_prints (h : Prints files o.input text) :
    ∃ octets c, files.read o.input = .ok octets ∧ Circuit.ofText (sourceText octets) = .ok c ∧
      ∃ lines content, IsLog o lines ∧ simulated o (files.read o.input) =
        .ok ⟨lines ++ out text :: counts o c, o.target?.map (·, content)⟩ := by
  obtain ⟨octets, hread, hsimulate⟩ := h
  obtain ⟨c, r, s, hbuild, hrun, rfl⟩ := simulate_eq_ok_iff.1 hsimulate
  obtain ⟨content, hcircuit⟩ := simulatedCircuit_of_ok o hrun
  have hlevel := Session.runAll_level c
  rw [hrun] at hlevel
  refine ⟨octets, c, hread, hbuild, _, content, isLog_logOutput o hlevel, ?_⟩
  rw [hread, simulated, hbuild]
  exact hcircuit

/-- If it does not there is one message, whatever the options; they only add the log. -/
theorem simulated_of_not_prints (h : ¬ ∃ text, Prints files input text) :
    ∃ message, ∀ o : Options, o.input = input → ∃ lines, IsLog o lines ∧
      simulated o (files.read input) = .error (.replied (failure lines message)) := by
  cases hread : files.read input with
  | error fault =>
    cases fault with
    | missing => exact ⟨_, fun o ho => ⟨[], isLog_nil o, by rw [simulated, ho]⟩⟩
    | unreadable => exact ⟨_, fun o ho => ⟨[], isLog_nil o, by rw [simulated, ho]⟩⟩
  | ok octets =>
    cases hbuild : Circuit.ofText (sourceText octets) with
    | error e =>
      cases e with
      | unreadable e => exact ⟨e.message, fun o _ => ⟨[], isLog_nil o, by rw [simulated, hbuild]⟩⟩
      | failed e =>
        obtain ⟨e, rfl⟩ := Circuit.ofText_failed hbuild
        exact ⟨e.message, fun o _ => ⟨[], isLog_nil o, by rw [simulated, hbuild]; rfl⟩⟩
    | ok c =>
      cases hrun : Session.runAll (Session.ofCircuit c none) with
      | mk outcome s =>
        cases outcome with
        | ok r =>
          exact absurd ⟨_, octets, hread, simulate_eq_ok_iff.2 ⟨c, r, s, hbuild, hrun, rfl⟩⟩ h
        | error e =>
          obtain ⟨e, rfl⟩ := Session.runAll_error hrun
          have hlevel := Session.runAll_level c
          rw [hrun] at hlevel
          refine ⟨e.message, fun o _ => ⟨_, isLog_logOutput o hlevel, ?_⟩⟩
          rw [simulated, hbuild]
          exact simulatedCircuit_of_error o hrun

/-! ## 5. Replies -/

/-- What is printed when a file simulates to its traces. -/
def answer (o : Options) (c : Circuit) (text : String) : List String :=
  text :: if o.stats then [c.stats.text c.name] else []

/-- A reply to a command line whose file simulates: all goes well, or the waveform cannot be
written. -/
structure Answers (files : Files) (o : Options) (c : Circuit) (text : String) (reply : Reply) :
    Prop where
  printed : printed reply.output = answer o c text
  quiet : o.verbose = false → linesTo .stdout reply.output = answer o c text
  ending :
    (reply.exitCode = 0 ∧ (∀ file ∈ o.target?, files.writable file) ∧
      linesTo .stderr reply.output = [] ∧ reply.written.map Prod.fst = o.target?) ∨
    (reply.exitCode = 1 ∧ (¬ ∀ file ∈ o.target?, files.writable file) ∧
      (∃ message, linesTo .stderr reply.output = ["Error: " ++ message]) ∧ reply.written = none)

/-- A reply to a command line whose file does not simulate. -/
structure Fails (o : Options) (message : String) (reply : Reply) : Prop where
  exitCode : reply.exitCode = 1
  stderr : linesTo .stderr reply.output = ["Error: " ++ message]
  printed : printed reply.output = []
  quiet : o.verbose = false → linesTo .stdout reply.output = []
  written : reply.written = none

/-- Printed traces are never taken for a line of the log. -/
theorem head?_of_simulate {source : String} (h : (simulate source).1 = .ok text) :
    text.toList.head? ≠ some '[' := by
  obtain ⟨c, r, s, -, -, rfl⟩ := simulate_eq_ok_iff.1 h
  exact head?_traces _ _

variable {lines : List Log.Entry}

theorem printed_traces (hlines : IsLog o lines) (htext : text.toList.head? ≠ some '[') :
    printed (lines ++ out text :: counts o c) = answer o c text := by
  have hcounts : printed (counts o c) = if o.stats then [c.stats.text c.name] else [] := by
    unfold counts
    cases o.stats with
    | false => rfl
    | true => exact printed_out (head?_counts _ _)
  rw [List.append_cons, printed_append, printed_append, hlines.printed_eq_nil, printed_out htext,
    hcounts]
  rfl

theorem linesTo_stdout_traces (hlines : IsLog o lines) (hquiet : o.verbose = false) :
    linesTo .stdout (lines ++ out text :: counts o c) = answer o c text := by
  rw [hlines.quiet hquiet, answer, counts]
  cases o.stats <;> rfl

theorem linesTo_stderr_traces (hlines : IsLog o lines) :
    linesTo .stderr (lines ++ out text :: counts o c) = [] := by
  have hcounts : linesTo .stderr (out text :: counts o c) = [] := by
    unfold counts
    cases o.stats <;> rfl
  rw [linesTo_append, hlines.linesTo_stderr, hcounts]
  rfl

/-- Writing the waveform changes nothing about the answer, whether it succeeds or not. -/
theorem answers_finished {content : String} (hprinted : printed output = answer o c text)
    (hquiet : o.verbose = false → linesTo .stdout output = answer o c text)
    (hstderr : linesTo .stderr output = []) :
    Answers files o c text (finished o ⟨output, o.target?.map (·, content)⟩
      ((o.target?.map files.writable).getD true)) := by
  unfold finished
  cases htarget : o.target? with
  | none => exact ⟨hprinted, hquiet, .inl ⟨rfl, by simp [htarget], hstderr, htarget.symm⟩⟩
  | some file =>
    cases hwritable : files.writable file with
    | true =>
      have hnote := isLog_of_output? (output?_info o ("Wrote waveform to " ++ file))
      simp only [Option.map_some, Option.getD_some, hwritable, if_true]
      refine ⟨?_, fun hverbose => ?_, .inl ⟨rfl, by simp [htarget, hwritable], ?_, htarget.symm⟩⟩
      · rw [printed_append, hprinted, hnote.printed_eq_nil, List.append_nil]
      · rw [linesTo_append, hquiet hverbose, hnote.linesTo_stdout hverbose, List.append_nil]
      · rw [linesTo_append, hstderr, hnote.linesTo_stderr]
        rfl
    | false =>
      simp only [Option.map_some, Option.getD_some, hwritable, Bool.false_eq_true, if_false]
      refine ⟨?_, fun hverbose => ?_,
        .inr ⟨rfl, by simp [htarget, hwritable], ⟨"Cannot write file: " ++ file, ?_⟩, rfl⟩⟩
      · show printed (output ++ [complain _]) = _
        rw [printed_append, hprinted]
        exact List.append_nil _
      · show linesTo .stdout (output ++ [complain _]) = _
        rw [linesTo_append, hquiet hverbose]
        exact List.append_nil _
      · show linesTo .stderr (output ++ [complain _]) = _
        rw [linesTo_append, hstderr]
        rfl

/-- If its file simulates, a command line is answered with the traces. -/
theorem run_of_prints (hasked : asked ws = .ok o) (h : Prints files o.input text) :
    ∃ octets c reply, files.read o.input = .ok octets ∧ Circuit.ofText (sourceText octets) = .ok c ∧
      run files ws = .replied reply ∧ Answers files o c text reply := by
  have htext : text.toList.head? ≠ some '[' := by
    obtain ⟨octets, -, hsimulate⟩ := h
    exact head?_of_simulate hsimulate
  obtain ⟨octets, c, hread, hbuild, lines, content, hlines, hsimulated⟩ := simulated_of_prints h
  have hrun : run files ws = .replied (finished o
      ⟨lines ++ out text :: counts o c, o.target?.map (·, content)⟩
      ((o.target?.map files.writable).getD true)) := by
    unfold run
    rw [hasked]
    dsimp only
    rw [hsimulated]
    cases o.target? <;> rfl
  exact ⟨octets, c, _, hread, hbuild, hrun, answers_finished (printed_traces hlines htext)
    (linesTo_stdout_traces hlines) (linesTo_stderr_traces hlines)⟩

/-- If it does not, one message is the answer to all command lines about it. -/
theorem run_of_not_prints (h : ¬ ∃ text, Prints files input text) :
    ∃ message, ∀ ws o, asked ws = .ok o → o.input = input →
      ∃ reply, run files ws = .replied reply ∧ Fails o message reply := by
  obtain ⟨message, hmessage⟩ := simulated_of_not_prints h
  refine ⟨message, fun ws o hasked ho => ?_⟩
  obtain ⟨lines, hlines, hsimulated⟩ := hmessage o ho
  have hrun : run files ws = .replied (failure lines message) := by
    unfold run
    rw [hasked]
    dsimp only
    rw [ho, hsimulated]
  refine ⟨_, hrun, rfl, ?_, ?_, fun hverbose => ?_, rfl⟩
  · show linesTo .stderr (lines ++ [complain message]) = _
    rw [linesTo_append, hlines.linesTo_stderr]
    rfl
  · show printed (lines ++ [complain message]) = _
    rw [printed_append, hlines.printed_eq_nil]
    rfl
  · show linesTo .stdout (lines ++ [complain message]) = _
    rw [linesTo_append, hlines.linesTo_stdout hverbose]
    rfl

/-! ## 6. All command lines -/

/-- A file prints the traces of one text only. -/
theorem Prints.unique {text' : String} (h : Prints files input text)
    (h' : Prints files input text') : text = text' := by
  obtain ⟨octets, hread, hsimulate⟩ := h
  obtain ⟨octets', hread', hsimulate'⟩ := h'
  cases hread.symm.trans hread'
  exact Except.ok.inj (hsimulate.symm.trans hsimulate')

/-- Two command lines about one file print the same traces, or report the same error. -/
def Agree (reply reply' : Reply) : Prop :=
  (printed reply'.output).head? = (printed reply.output).head? ∧
  (printed reply.output = [] → linesTo .stderr reply'.output = linesTo .stderr reply.output)

/-- Command lines about one file agree. -/
theorem exists_agree {o' : Options} {ws' : List String} {reply : Reply} (hasked : asked ws = .ok o)
    (hasked' : asked ws' = .ok o') (hinput : o'.input = o.input)
    (hrun : run files ws = .replied reply) :
    ∃ reply', run files ws' = .replied reply' ∧ Agree reply reply' := by
  by_cases hprints : ∃ text, Prints files o.input text
  · obtain ⟨text, htext⟩ := hprints
    obtain ⟨-, c, _, -, -, hrun₁, hanswers⟩ := run_of_prints hasked htext
    obtain ⟨-, c', reply', -, -, hrun', hanswers'⟩ := run_of_prints hasked' (hinput ▸ htext)
    cases hrun.symm.trans hrun₁
    refine ⟨reply', hrun', ?_, fun hnone => ?_⟩
    · rw [hanswers.printed, hanswers'.printed]
      rfl
    · rw [hanswers.printed] at hnone
      cases hnone
  · obtain ⟨message, hmessage⟩ := run_of_not_prints hprints
    obtain ⟨_, hrun₁, hfails⟩ := hmessage ws o hasked rfl
    obtain ⟨reply', hrun', hfails'⟩ := hmessage ws' o' hasked' hinput
    cases hrun.symm.trans hrun₁
    refine ⟨reply', hrun', ?_, fun _ => ?_⟩
    · rw [hfails.printed, hfails'.printed]
    · rw [hfails.stderr, hfails'.stderr]

/-- What can be relied on when a command line asks for a simulation. -/
structure Dependable (files : Files) (ws : List String) (o : Options) (reply : Reply) : Prop where
  exitCode : reply.exitCode = 0 ∨ reply.exitCode = 1
  /-- All goes well exactly if the file's text simulates and the waveform, if one is asked for,
  can be written. -/
  success : reply.exitCode = 0 ↔
    (∃ text, Prints files o.input text) ∧ ∀ file ∈ o.target?, files.writable file
  /-- Traces are printed exactly if the text simulates, and they are those that it simulates to. -/
  traces : ∀ text, (printed reply.output).head? = some text ↔ Prints files o.input text
  /-- If all goes well there is no error, the waveform is written, and besides the log the
  standard output has the traces, and then the counts if they are asked for. -/
  output : reply.exitCode = 0 → linesTo .stderr reply.output = [] ∧
    reply.written.map Prod.fst = o.target? ∧
    ∃ octets c text, files.read o.input = .ok octets ∧
      Circuit.ofText (sourceText octets) = .ok c ∧ (simulate (sourceText octets)).1 = .ok text ∧
      printed reply.output = text :: (if o.stats then [c.stats.text c.name] else []) ∧
      (o.verbose = false → linesTo .stdout reply.output = printed reply.output)
  /-- If the text does not simulate there is one line of error, written at once, and nothing else. -/
  failure : (¬ ∃ text, Prints files o.input text) →
    (∃ message, linesTo .stderr reply.output = ["Error: " ++ message]) ∧
    printed reply.output = [] ∧ (o.verbose = false → linesTo .stdout reply.output = []) ∧
    reply.written = none
  /-- No file but the waveform's is ever written. -/
  written : ∀ written ∈ reply.written, written.1 ∈ o.target?
  /-- Options added or taken away change neither the traces nor the error. -/
  options : ∃ parts, ws.drop leadingWords = words parts ∧
    ∀ ws' parts', ws'.drop leadingWords = words parts' → inputs parts' = inputs parts →
      ∃ reply', run files ws' = .replied reply' ∧ Agree reply reply'

/-- Adding options to a command line or taking them away leaves a reply that agrees. -/
theorem exists_parts_agree {reply : Reply} (hasked : asked ws = .ok o)
    (hrun : run files ws = .replied reply) :
    ∃ parts, ws.drop leadingWords = words parts ∧
      ∀ ws' parts', ws'.drop leadingWords = words parts' → inputs parts' = inputs parts →
        ∃ reply', run files ws' = .replied reply' ∧ Agree reply reply' := by
  obtain ⟨parts, hws, -, -⟩ := asked_eq_ok_iff_parts.1 hasked
  refine ⟨parts, hws, fun ws' parts' hws' hinputs => ?_⟩
  obtain ⟨o', hasked', hinput⟩ := asked_of_inputs_eq hasked hws hws' hinputs
  exact exists_agree hasked hasked' hinput hrun

theorem dependable_of_prints (hasked : asked ws = .ok o) (h : Prints files o.input text) :
    ∃ reply, run files ws = .replied reply ∧ Dependable files ws o reply := by
  obtain ⟨octets, c, reply, hread, hbuild, hrun, hanswers⟩ := run_of_prints hasked h
  have hsimulate : (simulate (sourceText octets)).1 = .ok text := by
    obtain ⟨octets', hread', hsimulate⟩ := h
    cases hread.symm.trans hread'
    exact hsimulate
  have htraces (text' : String) :
      (printed reply.output).head? = some text' ↔ Prints files o.input text' := by
    rw [hanswers.printed]
    refine ⟨fun hhead => ?_, fun h' => congrArg some (h.unique h')⟩
    cases hhead
    exact h
  have hquiet (hverbose : o.verbose = false) :
      linesTo .stdout reply.output = printed reply.output :=
    (hanswers.quiet hverbose).trans hanswers.printed.symm
  have hoptions := exists_parts_agree hasked hrun
  refine ⟨reply, hrun, ?_⟩
  obtain ⟨hzero, hwritable, hstderr, hwritten⟩ | ⟨hone, hunwritable, -, hnone⟩ := hanswers.ending
  · refine ⟨.inl hzero, ⟨fun _ => ⟨⟨text, h⟩, hwritable⟩, fun _ => hzero⟩, htraces, fun _ => ?_,
      fun hnever => absurd ⟨text, h⟩ hnever, fun written hmem => ?_, hoptions⟩
    · exact ⟨hstderr, hwritten, octets, c, text, hread, hbuild, hsimulate, hanswers.printed, hquiet⟩
    · rw [← hwritten]
      exact Option.mem_map_of_mem Prod.fst hmem
  · have hne : reply.exitCode ≠ 0 := by
      rw [hone]
      exact Nat.one_ne_zero
    refine ⟨.inr hone, ⟨fun hzero => absurd hzero hne, fun hall => absurd hall.2 hunwritable⟩,
      htraces, fun hzero => absurd hzero hne, fun hnever => absurd ⟨text, h⟩ hnever, ?_, hoptions⟩
    rw [hnone]
    nofun

theorem dependable_of_not_prints (hasked : asked ws = .ok o)
    (h : ¬ ∃ text, Prints files o.input text) :
    ∃ reply, run files ws = .replied reply ∧ Dependable files ws o reply := by
  obtain ⟨message, hmessage⟩ := run_of_not_prints h
  obtain ⟨reply, hrun, hfails⟩ := hmessage ws o hasked rfl
  have hne : reply.exitCode ≠ 0 := by
    rw [hfails.exitCode]
    exact Nat.one_ne_zero
  refine ⟨reply, hrun, .inr hfails.exitCode,
    ⟨fun hzero => absurd hzero hne, fun hall => absurd hall.1 h⟩,
    fun text => ⟨fun hhead => ?_, fun htext => absurd ⟨text, htext⟩ h⟩,
    fun hzero => absurd hzero hne,
    fun _ => ⟨⟨message, hfails.stderr⟩, hfails.printed, hfails.quiet, hfails.written⟩, ?_,
    exists_parts_agree hasked hrun⟩
  · rw [hfails.printed] at hhead
    cases hhead
  · rw [hfails.written]
    nofun

/-- **Every command line that asks for a simulation gets a reply.** Whatever the files are, no
failure is left uncaught, and the reply can be relied on. -/
theorem run_dependable (files : Files) {ws : List String} {o : Options} (h : asked ws = .ok o) :
    ∃ reply, run files ws = .replied reply ∧ Dependable files ws o reply := by
  by_cases hprints : ∃ text, Prints files o.input text
  · obtain ⟨text, htext⟩ := hprints
    exact dependable_of_prints h htext
  · exact dependable_of_not_prints h hprints

/-- A disk with one file, which describes an inverter. -/
def inverterDisk : Disk :=
  .ofParts [] [(["inv.hw"], (".hardware inv\n.inputs a\n.outputs o\n.update\no = !a\n" ++
    ".simulate\na=01\n").toUTF8.toList)]

theorem run_dependable_inverter :
    let ws := ["hwsim", "hwsim", "inv.hw", "--vcd", "inv.vcd", "--stats"]
    let o : Options := { input := "inv.hw", waveform := some "inv.vcd", stats := true }
    asked ws = .ok o ∧
    ∃ reply, run inverterDisk.toFiles ws = .replied reply ∧
      Dependable inverterDisk.toFiles ws o reply := by
  intro ws o
  have hasked : asked ws = .ok o := by decide
  exact ⟨hasked, run_dependable inverterDisk.toFiles hasked⟩

end Clocked.Command
