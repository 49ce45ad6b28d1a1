/-
Clocked.Command.Basic — the command line program.

The program reads a description, simulates it, prints its traces and, if asked,
its counts, and writes a waveform. Between the stages stand what a file system
answers: the content of the input file (`simulated`), and whether the waveform
could be written (`finished`). `run` puts the stages together over any file
system; the first two words of a command line name how the program was started.

The program reports what is wrong with a description, a circuit or a run. Any
other failure of a simulation it leaves alone, and breaks off there.
-/
import Clocked.Circuit.Stats
import Clocked.Command.Options
import Clocked.Report.Vcd
import Clocked.Session.Source
import Clocked.Text.Utf8

namespace Clocked.Command

/-! ## 1. Files and replies -/

/-- Why a file has no content for the program. -/
inductive ReadFault where
  /-- There is no such file. -/
  | missing
  /-- Anything else. -/
  | unreadable
deriving DecidableEq, Repr, Inhabited

/-- What a file system answers. -/
structure Files where
  /-- The content of a file. -/
  read : String → Except ReadFault (List UInt8)
  /-- Whether a file can be written. -/
  writable : String → Bool

/-- What the program does in the end. -/
structure Reply where
  exitCode : Nat
  /-- What it wrote to its streams, in order. -/
  output : List Log.Entry
  /-- The file it wrote, with its content. -/
  written : Option (String × String) := none
deriving DecidableEq, Repr, Inhabited

/-- How the program ends. -/
inductive Ending where
  /-- It carries out the command line as far as it can. -/
  | replied (reply : Reply)
  /-- It breaks off at a failure that it does not report, after some output. -/
  | uncaught (output : List Log.Entry) (failure : Failure)
deriving DecidableEq, Inhabited

/-- A line for the standard output. -/
def out (text : String) : Log.Entry := ⟨.stdout, text⟩

/-- A line that reports an error. -/
def complain (message : String) : Log.Entry := ⟨.stderr, "Error: " ++ message⟩

/-! ## 2. Usage -/

/-- How the program is used. -/
def usage : String :=
  "\n".intercalate [
    "Circuit simulator",
    "",
    "Usage: hwsim <circuit.hw> [--vcd <file>] [--stats] [--verbose]",
    "",
    "Options:",
    "  --vcd <file>   Write a VCD waveform of all inputs and outputs",
    "  --stats        Print circuit statistics after the traces",
    "  -v, --verbose  Log every simulated cycle",
    "  -h, --help     Show this help message"]

/-- The reply to a command line that cannot be carried out. It is no failure if
any word asks for help. -/
def usageReply (words : List String) (complaint : Option Complaint) : Reply where
  exitCode := if words.any isHelp then 0 else 1
  output := (complaint.map fun c => complain c.message).toList ++ [out usage]

/-- Number of words in front of the options. -/
def leadingWords : Nat := 2

/-- What a command line asks for, or the reply if that is nothing. -/
def asked (words : List String) : Except Reply Options :=
  match Options.ofWords (words.drop leadingWords) with
  | .ok o => .ok o
  | .error complaint => .error (usageReply words complaint)

/-! ## 3. Simulation -/

/-- The logger that the options ask for. -/
def logger (o : Options) : Logger := { threshold := if o.verbose then .debug else .warn }

/-- What is written for the messages of a session. -/
def logOutput (o : Options) (s : Session) : List Log.Entry :=
  s.log.toList.filterMap fun (level, message) => (logger o).output? level message

/-- A reply that only reports an error after some output. -/
def failure (output : List Log.Entry) (message : String) : Reply :=
  ⟨1, output ++ [complain message], none⟩

/-- The ending of a simulation that fails, after some output. Only what is wrong with the
circuit or its run is reported. -/
def stopped (output : List Log.Entry) : Failure → Ending
  | .simulation e => .replied (failure output e.message)
  | .hook e => .replied (failure output e.message)
  | e => .uncaught output e

/-- A simulation that went well. -/
structure Simulated where
  /-- What is printed about it. -/
  output : List Log.Entry
  /-- The waveform, with the file to write it to. -/
  waveform : Option (String × String)
deriving DecidableEq, Repr

/-- The signals that a waveform shows. -/
def shown (c : Circuit) : List String := c.inputs ++ c.outputs

/-- Runs a circuit, with its waveform recorded if it is to be written. -/
def runCircuit (o : Options) (c : Circuit) : Action (Result × Nat) := do
  if o.target?.isSome then Session.startRecording (shown c)
  let r ← Session.runAll
  let recording ← Session.stopRecording
  return (r, recording)

/-- Simulates a circuit. -/
def simulatedCircuit (o : Options) (c : Circuit) : Except Ending Simulated :=
  match runCircuit o c (Session.ofCircuit c none) with
  | (.error e, s) => .error (stopped (logOutput o s) e)
  | (.ok (r, recording), s) =>
    let samples := ((s.recordingAt? recording).getD #[]).toList
    let counts := if o.stats then [out (c.stats.text c.name)] else []
    .ok
      { output := logOutput o s ++ out (s.resultText r) :: counts
        waveform := o.target?.map fun file => (file, Vcd.text samples (shown c) ++ "\n") }

/-- The text of a file's content. -/
def sourceText (octets : List UInt8) : String := String.ofList (Text.Utf8.decode octets)

/-- Simulates the content of the input file. -/
def simulated (o : Options) (content : Except ReadFault (List UInt8)) :
    Except Ending Simulated :=
  match content with
  | .error .missing => .error (.replied (failure [] ("File not found: " ++ o.input)))
  | .error .unreadable => .error (.replied (failure [] ("Cannot read file: " ++ o.input)))
  | .ok octets =>
    match Circuit.ofText (sourceText octets) with
    | .error (.unreadable e) => .error (.replied (failure [] e.message))
    | .error (.failed e) => .error (stopped [] e)
    | .ok c => simulatedCircuit o c

/-- The reply after a simulation, given whether its waveform could be written. -/
def finished (o : Options) (s : Simulated) (writable : Bool) : Reply :=
  match s.waveform with
  | none => ⟨0, s.output, none⟩
  | some (file, content) =>
    if writable then
      let note := (logger o).output? .info ("Wrote waveform to " ++ file)
      ⟨0, s.output ++ note.toList, some (file, content)⟩
    else failure s.output ("Cannot write file: " ++ file)

/-! ## 4. The program -/

/-- Carries out a command line. -/
def run (files : Files) (words : List String) : Ending :=
  match asked words with
  | .error reply => .replied reply
  | .ok o =>
    match simulated o (files.read o.input) with
    | .error ending => ending
    | .ok s => .replied (finished o s ((s.waveform.map fun w => files.writable w.1).getD true))

end Clocked.Command
