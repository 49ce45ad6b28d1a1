/-
Clocked.Main — the program on a real file system.

Reads the input file, lets `Command` decide, writes the waveform, prints.
-/
import Clocked.Command.Basic

namespace Clocked.Command

/-- The content of a file. -/
def readInput (path : String) : IO (Except ReadFault (List UInt8)) := do
  try
    return .ok (← IO.FS.readBinFile path).toList
  catch e =>
    match e with
    | .noFileOrDirectory _ _ _ => return .error .missing
    | _ => return .error .unreadable

/-- Writes a file; whether that was possible. -/
def writeOutput (path content : String) : IO Bool := do
  try
    IO.FS.writeFile path content
    return true
  catch _ =>
    return false

/-- Prints lines of output. -/
def printLines (lines : List Log.Entry) : IO Unit := do
  for e in lines do
    match e.stream with
    | .stdout => IO.println e.text
    | .stderr => IO.eprintln e.text

/-- Prints an ending; a failure that is not reported is thrown on. -/
def present : Ending → IO UInt32
  | .replied reply => do
    printLines reply.output
    return UInt32.ofNat reply.exitCode
  | .uncaught output failure => do
    printLines output
    throw (IO.userError failure.message)

/-- Carries out a command line on the file system. -/
def perform (words : List String) : IO Ending := do
  match asked words with
  | .error reply => return .replied reply
  | .ok o =>
    match simulated o (← readInput o.input) with
    | .error ending => return ending
    | .ok s =>
      match s.waveform with
      | none => return .replied (finished o s true)
      | some (file, content) => return .replied (finished o s (← writeOutput file content))

end Clocked.Command

/-- Runs the program; the two words in front of the options are its name. -/
def main (args : List String) : IO UInt32 := do
  Clocked.Command.present (← Clocked.Command.perform (["hwsim", "hwsim"] ++ args))
