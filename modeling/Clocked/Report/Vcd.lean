/-
Clocked.Report.Vcd — recorded samples as a value change dump.

The dump declares a one-bit wire for every name, with an identifier over the 94
printable characters from `!` to `~`, and then gives a block for every sample:
its time and one line for every value whose name is declared. A name that is
declared more than once goes by its last identifier.
-/
import Clocked.Number.Text
import Clocked.Waveform

namespace Clocked.Vcd

/-! ## 1. Identifiers -/

/-- Number of characters that identifiers are made of. -/
def radix : Nat := 94

/-- The identifier character with a number below the radix. -/
def digit (n : Nat) : Char := Char.ofNat (33 + n)

/-- The characters of the identifier with a number: first all of one character,
then all of two, and so on. -/
def identifierChars (n : Nat) : List Char :=
  if n < radix then [digit n]
  else identifierChars (n / radix - 1) ++ [digit (n % radix)]
termination_by n
decreasing_by
  have : n / radix ≤ n := Nat.div_le_self n radix
  unfold radix at *
  omega

/-- The identifier with a number. -/
def identifier (n : Nat) : String := String.ofList (identifierChars n)

/-- The names with their identifiers, in order. -/
def declared (names : List String) : List (String × String) :=
  names.zipIdx.map fun (name, i) => (name, identifier i)

/-! ## 2. Lines -/

/-- The line that declares a wire. -/
def declaration (name id : String) : String := "$var wire 1 " ++ id ++ " " ++ name ++ " $end"

/-- Time units per cycle. -/
def unitsPerCycle : Nat := 10

/-- The line that opens the block of a sample. -/
def timeLine (cycle : Number) : String := "#" ++ (cycle.scale unitsPerCycle).text

/-- The line that gives a wire a value. -/
def valueLine (v : Bool) (id : String) : String := (if v then "1" else "0") ++ id

/-- The block of a sample; `ids` has the identifier in force for a name first. -/
def block (ids : List (String × String)) (s : Sample) : List String :=
  timeLine s.cycle :: s.values.entries.filterMap fun (name, v) =>
    (ids.lookup name).map (valueLine v)

/-- The lines of a dump. -/
def lines (samples : List Sample) (names : List String) : List String :=
  let wires := declared names
  let ids := wires.reverse
  ["$timescale 1ns $end", "$scope module top $end"] ++
    wires.map (fun (name, id) => declaration name id) ++
    ["$upscope $end", "$enddefinitions $end"] ++
    samples.flatMap (block ids)

/-- The text of a dump. -/
def text (samples : List Sample) (names : List String) : String :=
  "\n".intercalate (lines samples names)

end Clocked.Vcd
