/-
Clocked.Text.Utf8 — reading octets as UTF-8 text.

A decoder that never fails. It stands between characters or inside one; inside
one it knows how many octets are still owed, which range the next may come
from, and the bits gathered so far. An octet that cannot continue the character
ends it: the broken part, however long, becomes one U+FFFD, and the octet is
read again from between characters. A byte order mark is a character like any
other and is kept.
-/
namespace Clocked.Text.Utf8

/-- A character begun and not ended. -/
structure Open where
  /-- Octets still owed after the next one. -/
  owed : Nat
  /-- Least value of the next octet. -/
  low : Nat
  /-- Greatest value of the next octet. -/
  high : Nat
  /-- Bits gathered so far. -/
  bits : Nat
deriving DecidableEq, Repr

/-- What stands for a part that is no UTF-8. -/
def replacement : Char := '\uFFFD'

/-- An octet read between characters: a character by itself, the start of a
longer one, or no UTF-8. -/
def first (b : Nat) : List Char × Option Open :=
  if b ≤ 0x7F then ([Char.ofNat b], none)
  else if 0xC2 ≤ b ∧ b ≤ 0xDF then ([], some ⟨0, 0x80, 0xBF, b - 0xC0⟩)
  else if b = 0xE0 then ([], some ⟨1, 0xA0, 0xBF, 0⟩)
  else if b = 0xED then ([], some ⟨1, 0x80, 0x9F, 0xD⟩)
  else if 0xE1 ≤ b ∧ b ≤ 0xEF then ([], some ⟨1, 0x80, 0xBF, b - 0xE0⟩)
  else if b = 0xF0 then ([], some ⟨2, 0x90, 0xBF, 0⟩)
  else if 0xF1 ≤ b ∧ b ≤ 0xF3 then ([], some ⟨2, 0x80, 0xBF, b - 0xF0⟩)
  else if b = 0xF4 then ([], some ⟨2, 0x80, 0x8F, 4⟩)
  else ([replacement], none)

/-- An octet read inside a character. -/
def inside (o : Open) (b : Nat) : List Char × Option Open :=
  if o.low ≤ b ∧ b ≤ o.high then
    let bits := o.bits * 64 + (b - 0x80)
    match o.owed with
    | 0 => ([Char.ofNat bits], none)
    | n + 1 => ([], some ⟨n, 0x80, 0xBF, bits⟩)
  else
    let (out, next) := first b
    (replacement :: out, next)

/-- Decodes from a given place. -/
def decodeFrom : Option Open → List UInt8 → List Char
  | none, [] => []
  | some _, [] => [replacement]
  | none, b :: r => let (out, next) := first b.toNat; out ++ decodeFrom next r
  | some o, b :: r => let (out, next) := inside o b.toNat; out ++ decodeFrom next r

/-- The text of a sequence of octets. -/
def decode (octets : List UInt8) : List Char :=
  decodeFrom none octets

end Clocked.Text.Utf8
