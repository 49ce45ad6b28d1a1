/-
Clocked.Trace — the value of one signal in every cycle.

A trace has a fixed length; only its values change. A caller may ask for any
number as a time, so `get` and `set` check it; `at?` and `put` are the same for
times that are natural numbers. As text a trace is its bits, earliest cycle
first, and its signal.
-/
import Clocked.Number.Text
import Clocked.Text.Units

namespace Clocked

/-- The values of a signal, cycle by cycle. -/
structure Trace where
  signal : String
  values : Array Bool
deriving DecidableEq, Repr, Inhabited

namespace Trace

/-! ## 1. Errors -/

/-- What can go wrong with a trace. -/
inductive Error where
  /-- A bit string holds something that is no bit. -/
  | invalidBit (found : Char) (position : Nat) (signal : String)
  /-- A number that is no cycle of the trace. -/
  | timeOutOfRange (time : Number) (signal : String) (length : Nat)
  /-- A number that is no length. -/
  | invalidLength
deriving DecidableEq, Inhabited

/-- The wording of an error. -/
def Error.message : Error → String
  | .invalidBit c position signal =>
    "Invalid bit '" ++ Text.firstUnit c ++ "' at position " ++ toString position ++
      " in trace for " ++ signal
  | .timeOutOfRange time signal length =>
    "Time " ++ time.text ++ " out of range for trace " ++ signal ++ " of length " ++
      toString length
  | .invalidLength => "Invalid array length"

/-! ## 2. Making traces -/

/-- A trace from its values. -/
def ofList (signal : String) (values : List Bool) : Trace := ⟨signal, values.toArray⟩

/-- A trace of zeros. -/
def zeros (signal : String) (length : Nat) : Trace := ⟨signal, Array.replicate length false⟩

/-- Lengths stay below this bound. -/
def lengthBound : Nat := 0x100000000

/-- A trace of zeros of the length that a number says. -/
def zerosOf (signal : String) (length : Number) : Except Error Trace :=
  match length.toNat? with
  | some n => if n < lengthBound then .ok (zeros signal n) else .error .invalidLength
  | none => .error .invalidLength

/-- The values of a bit string whose first character has a position. -/
def readBits (signal : String) : Nat → List Char → Except Error (List Bool)
  | _, [] => .ok []
  | position, c :: s =>
    if c = '0' ∨ c = '1' then
      (readBits signal (position + 1) s).map ((c = '1') :: ·)
    else .error (.invalidBit c position signal)

/-- Reads a bit string, earliest cycle first. -/
def ofBits (signal : String) (bits : String) : Except Error Trace :=
  (readBits signal 0 bits.toList).map (ofList signal)

/-! ## 3. Values -/

/-- Number of cycles. -/
def length (t : Trace) : Nat := t.values.size

/-- The value in a cycle, if the trace has that cycle. -/
def at? (t : Trace) (time : Nat) : Option Bool := t.values[time]?

/-- Changes the value in a cycle; without effect beyond the end. -/
def put (t : Trace) (time : Nat) (v : Bool) : Trace :=
  { t with values := t.values.setIfInBounds time v }

/-- The value at a time that may be any number. -/
def get (t : Trace) (time : Number) : Except Error Bool :=
  match time.toNat?.bind t.at? with
  | some v => .ok v
  | none => .error (.timeOutOfRange time t.signal t.length)

/-- Changes the value at a time that may be any number. -/
def set (t : Trace) (time : Number) (v : Bool) : Except Error Trace :=
  match time.toNat? with
  | some n =>
    if n < t.length then .ok (t.put n v)
    else .error (.timeOutOfRange time t.signal t.length)
  | none => .error (.timeOutOfRange time t.signal t.length)

/-- All values, earliest cycle first. -/
def toList (t : Trace) : List Bool := t.values.toList

/-! ## 4. Text -/

/-- A value as a bit. -/
def bit (v : Bool) : Char := if v then '1' else '0'

/-- The bits, earliest cycle first. -/
def bits (t : Trace) : String := String.ofList (t.toList.map bit)

/-- Bits, a space, the signal. -/
def text (t : Trace) : String := t.bits ++ " " ++ t.signal

/-! ## 5. Lemmas -/

@[simp] theorem length_ofList (signal : String) (vs : List Bool) :
    (ofList signal vs).length = vs.length := by
  simp [ofList, length]

@[simp] theorem toList_ofList (signal : String) (vs : List Bool) :
    (ofList signal vs).toList = vs := by
  simp [ofList, toList]

@[simp] theorem length_zeros (signal : String) (n : Nat) : (zeros signal n).length = n := by
  simp [zeros, length]

@[simp] theorem length_put (t : Trace) (time : Nat) (v : Bool) :
    (t.put time v).length = t.length := by
  simp [put, length]

@[simp] theorem signal_put (t : Trace) (time : Nat) (v : Bool) :
    (t.put time v).signal = t.signal := rfl

theorem length_toList (t : Trace) : t.toList.length = t.length := by
  simp [toList, length]

theorem at?_eq_getElem? (t : Trace) (time : Nat) : t.at? time = t.toList[time]? := by
  simp [at?, toList]

theorem at?_zeros {signal : String} {n time : Nat} (h : time < n) :
    (zeros signal n).at? time = some false := by
  simp [zeros, at?, h]

theorem at?_put (t : Trace) (time : Nat) (v : Bool) (n : Nat) :
    (t.put time v).at? n =
      if n = time ∧ time < t.length then some v else t.at? n := by
  simp only [put, at?, Array.getElem?_setIfInBounds, length]
  by_cases h : time = n
  · subst h
    by_cases hl : time < t.values.size <;> simp [hl]
  · simp [h, Ne.symm h]

/-- A time in range has a value. -/
theorem at?_isSome_iff (t : Trace) (time : Nat) : (t.at? time).isSome ↔ time < t.length := by
  simp [at?, length]

/-- Asking by number is asking by cycle. -/
theorem get_ofNat (t : Trace) {n : Nat} {v : Bool} (h : t.at? n = some v) :
    t.get (.ofNat n) = .ok v := by
  simp [get, h]

theorem set_ofNat (t : Trace) {n : Nat} (h : n < t.length) (v : Bool) :
    t.set (.ofNat n) v = .ok (t.put n v) := by
  simp [set, h]

/-- Two traces are equal when signal and values are. -/
theorem ext_toList {s t : Trace} (hs : s.signal = t.signal) (hv : s.toList = t.toList) :
    s = t := by
  cases s; cases t
  simp only [toList] at hv
  rw [Array.toList_inj] at hv
  simp_all

/-- Bits that are printed are read back. -/
theorem readBits_map_bit (signal : String) (position : Nat) (vs : List Bool) :
    readBits signal position (vs.map bit) = .ok vs := by
  induction vs generalizing position with
  | nil => rfl
  | cons v vs ih => cases v <;> simp [readBits, bit, ih, Except.map]

theorem ofBits_bits (t : Trace) : ofBits t.signal t.bits = .ok t := by
  simp only [ofBits, bits, String.toList_ofList, readBits_map_bit, Except.map]
  exact congrArg _ (ext_toList rfl (toList_ofList _ _))

end Trace

end Clocked
