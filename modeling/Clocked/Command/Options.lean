/-
Clocked.Command.Options — the words of a command line.

Words are read from left to right. Each is an option, the operand of the option
before it, or a file name; of several file names the last counts.
-/
namespace Clocked.Command

/-- What a command line asks for. -/
structure Options where
  /-- The file to simulate. -/
  input : String := ""
  /-- The file that a waveform is written to. -/
  waveform : Option String := none
  /-- Whether the circuit's counts are printed. -/
  stats : Bool := false
  /-- Whether every cycle is logged. -/
  verbose : Bool := false
deriving DecidableEq, Repr, Inhabited

/-- What is wrong with a command line. -/
inductive Complaint where
  | operandMissing
  | unknownOption (word : String)
  | noInput
deriving DecidableEq, Repr, Inhabited

/-- The wording of a complaint. -/
def Complaint.message : Complaint → String
  | .operandMissing => "--vcd requires an output filename"
  | .unknownOption word => "Unknown option '" ++ word ++ "'"
  | .noInput => "No input file specified"

/-- Whether a word asks for help. -/
def isHelp (word : String) : Bool := word = "-h" || word = "--help"

/-- Whether a word has the form of an option. -/
def looksLikeOption (word : String) : Bool := word.toList.head? = some '-'

/-- Reads words on top of what was read before. An error is a complaint, or
none where just help is asked for. -/
def Options.read (o : Options) : List String → Except (Option Complaint) Options
  | [] => if o.input = "" then .error (some .noInput) else .ok o
  | word :: rest =>
    if word = "--vcd" then
      match rest with
      | [] => .error (some .operandMissing)
      | file :: rest => Options.read { o with waveform := some file } rest
    else if word = "--stats" then Options.read { o with stats := true } rest
    else if word = "-v" || word = "--verbose" then Options.read { o with verbose := true } rest
    else if isHelp word then .error none
    else if looksLikeOption word then .error (some (.unknownOption word))
    else Options.read { o with input := word } rest

/-- Reads all words of a command line; no words at all ask for help. -/
def Options.ofWords : List String → Except (Option Complaint) Options
  | [] => .error none
  | words => Options.read {} words

/-- The file a waveform is to be written to; an empty name is none. -/
def Options.target? (o : Options) : Option String := o.waveform.filter (· ≠ "")

end Clocked.Command
