/-
Clocked.Text.Units — lengths of text in 16-bit units.

Columns, offsets and positions are counted in the 16-bit units of a text:
a character above U+FFFF takes two, every other character one.

* `units`, `unitLength` — the measure;
* `firstUnit` — how the first unit of a character is written in a message.
-/
namespace Clocked.Text

/-! ## 1. The measure -/

/-- Number of 16-bit units of a character. -/
def units (c : Char) : Nat :=
  if c.val ≤ 0xFFFF then 1 else 2

/-- Length of a text in 16-bit units. -/
def unitLength : List Char → Nat
  | [] => 0
  | c :: s => units c + unitLength s

@[simp] theorem unitLength_cons (c : Char) (s : List Char) :
    unitLength (c :: s) = units c + unitLength s := rfl

/-- No character is free: every one takes at least a unit. -/
theorem units_pos (c : Char) : 0 < units c := by
  unfold units; split <;> decide

/-- A text of single-unit characters is as long in units as in characters. -/
theorem unitLength_eq_length {s : List Char} (h : ∀ c ∈ s, units c = 1) :
    unitLength s = s.length := by
  induction s with
  | nil => rfl
  | cons c s ih =>
    rw [unitLength_cons, h c List.mem_cons_self,
      ih fun d hd => h d (List.mem_cons_of_mem c hd), List.length_cons, Nat.add_comm]

/-! ## 2. The first unit of a character -/

/-- Number written with upper-case hexadecimal digits. -/
def upperHex (n : Nat) : String :=
  String.ofList ((Nat.toDigits 16 n).map Char.toUpper)

/-- The first unit of a character as text: the character itself when it is one
unit long, else the upper half of its pair, written as `<U+D83D>`. -/
def firstUnit (c : Char) : String :=
  if units c = 1 then c.toString
  else "<U+" ++ upperHex (0xD800 + (c.toNat - 0x10000) / 0x400) ++ ">"

end Clocked.Text
