/-
Clocked.Log — messages by level, and where they go.

A logger has a threshold and a tag. It drops messages below its threshold and
writes the others, with the tag, to one of two streams.
-/
namespace Clocked

namespace Log

/-- How important a message is. -/
inductive Level where
  | debug
  | info
  | warn
  | error
  /-- Above every message: a threshold only. -/
  | silent
deriving DecidableEq, Repr, Inhabited

/-- Position of a level in the order of importance. -/
def Level.rank : Level → Nat
  | .debug => 0
  | .info => 1
  | .warn => 2
  | .error => 3
  | .silent => 4

/-- The name of a level. -/
def Level.name : Level → String
  | .debug => "debug"
  | .info => "info"
  | .warn => "warn"
  | .error => "error"
  | .silent => "silent"

/-- The level with a given name. -/
def Level.ofName? (name : String) : Option Level :=
  [Level.debug, .info, .warn, .error, .silent].find? (·.name = name)

/-- Where a line of output goes. -/
inductive Stream where
  | stdout
  | stderr
deriving DecidableEq, Repr, Inhabited

/-- The name of a stream. -/
def Stream.name : Stream → String
  | .stdout => "stdout"
  | .stderr => "stderr"

/-- Text written to a stream at once. -/
structure Entry where
  stream : Stream
  text : String
deriving DecidableEq, Repr, Inhabited

end Log

/-- Writes the messages that are important enough. -/
structure Logger where
  threshold : Log.Level := .info
  tag : String := "hwsim"
deriving DecidableEq, Repr

namespace Logger

/-- A logger that writes nothing. -/
def silent : Logger := { threshold := .silent }

/-- Whether a logger writes messages of a level. -/
def enabled (l : Logger) (level : Log.Level) : Bool := l.threshold.rank ≤ level.rank

/-- What a message is written as, apart from the tag. -/
def body (level : Log.Level) (message : String) : String :=
  match level with
  | .warn => "Warning: " ++ message
  | .error => "Error: " ++ message
  | .debug | .info | .silent => message

/-- Where messages of a level go. -/
def stream : Log.Level → Log.Stream
  | .warn | .error => .stderr
  | .debug | .info | .silent => .stdout

/-- The output for a message, if it is written. -/
def output? (l : Logger) (level : Log.Level) (message : String) : Option Log.Entry :=
  if l.enabled level && level ≠ .silent then
    some ⟨stream level, "[" ++ l.tag ++ "] " ++ body level message⟩
  else none

end Logger

end Clocked
