/-
Clocked.Number.Basic — the numbers a caller may name a time by.

A caller of the simulator may ask for any number as a time; only whole ones in
range are times. A `Number` is an exact rational, one of the two infinities, or
no number at all. `ofRat` and `scale` give binary64 results, so that what is
stored and printed is a binary64 number.
-/
import Clocked.Number.Binary64

namespace Clocked

/-- A number as callers write it. -/
inductive Number where
  /-- An exact value. -/
  | finite (value : Rat)
  /-- Beyond all finite values. -/
  | infinite (negative : Bool)
  /-- The result of an operation without a value. -/
  | undefined
deriving DecidableEq

namespace Number

instance : Inhabited Number := ⟨.finite 0⟩

/-- The whole number `n`. -/
def ofNat (n : Nat) : Number := .finite n

/-- The binary64 number nearest to a rational. -/
def ofRat (q : Rat) : Number :=
  if q = 0 then .finite 0
  else
    let size := Binary64.nearest (if q < 0 then -q else q)
    if Binary64.overflow ≤ size then .infinite (q < 0)
    else .finite (if q < 0 then -size else size)

/-- The number written with the digits of `mantissa` and a power of ten. -/
def ofDecimal (mantissa : Int) (exponent : Int) : Number :=
  ofRat (mantissa * (10 : Rat) ^ exponent)

/-- `k` times a number. -/
def scale (k : Nat) : Number → Number
  | .finite q => ofRat (k * q)
  | .infinite negative => if k = 0 then .undefined else .infinite negative
  | .undefined => .undefined

/-- The natural number that a number is, if it is one. -/
def toNat? : Number → Option Nat
  | .finite q => if q.den = 1 ∧ 0 ≤ q.num then some q.num.toNat else none
  | .infinite _ => none
  | .undefined => none

@[simp] theorem toNat?_ofNat (n : Nat) : (ofNat n).toNat? = some n := by
  simp [ofNat, toNat?]

end Number

end Clocked
