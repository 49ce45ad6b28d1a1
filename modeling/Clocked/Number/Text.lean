/-
Clocked.Number.Text — how a number is written.

A number is written with the fewest significant digits that read back as the
same binary64 number, the nearest of those, and a tie going to the even last
digit. The digits stand in positional notation below 10^21 and down to 10^-6,
else in exponent notation.

* `grid?` — the best decimal of a given grid that reads back, if one does;
* `shortest` — the first grid, from coarse to fine, that has one;
* `layout` — where the point, the zeros and the exponent go.
-/
import Clocked.Number.Basic

namespace Clocked.Number

/-! ## 1. The fewest digits -/

/-- The whole number `k` with `10^(k-1) ≤ x < 10^k`, for positive `x`. -/
def decimalPlaces (x : Rat) : Int :=
  let k : Int := ((Nat.toDigits 10 x.num.natAbs).length : Int) - (Nat.toDigits 10 x.den).length
  if (10 : Rat) ^ k ≤ x then k + 1 else k

/-- Whether `n` units read back as `x`. -/
def readsBack (x unit : Rat) (n : Int) : Bool :=
  Binary64.nearest (n * unit) = x

/-- The multiple of `10^e` that reads back as `x`: of two neighbours that do,
the nearer; of two equally near, the even one. -/
def grid? (x : Rat) (e : Int) : Option Nat :=
  let unit := (10 : Rat) ^ e
  let below := (x / unit).floor
  let above := below + 1
  let chosen :=
    match decide (0 < below) && readsBack x unit below, readsBack x unit above with
    | true, true =>
      let half := (x / unit - below) * 2
      if half < 1 then some below
      else if 1 < half then some above
      else if below % 2 = 0 then some below else some above
    | true, false => some below
    | false, true => some above
    | false, false => none
  chosen.map Int.toNat

/-- Tries grids from `10^e` downwards. -/
def shortestFrom (x : Rat) : Nat → Int → Nat × Int
  | 0, e => ((x / (10 : Rat) ^ e).floor.toNat, e)
  | fuel + 1, e =>
    match grid? x e with
    | some n => (n, e)
    | none => shortestFrom x fuel (e - 1)

/-- The digits `n` and the exponent `e` of the shortest `n · 10^e` that reads
back as `x`. A binary64 number is a multiple of `2^-1074`, so the grid
`10^-1074` holds it. -/
def shortest (x : Rat) : Nat × Int :=
  let k := decimalPlaces x
  shortestFrom x (k + 1074).toNat (k - 1)

/-! ## 2. Layout -/

/-- Greatest count of digits before the point in positional notation. -/
def positionalDigits : Int := 21

/-- Greatest count of zeros between the point and the first digit. -/
def leadingZeros : Int := 5

/-- Writes `0.ds · 10^point`, for digits that end in no zero. -/
def layout (ds : List Char) (point : Int) : List Char :=
  if ds.length ≤ point ∧ point ≤ positionalDigits then
    ds ++ List.replicate (point - ds.length).toNat '0'
  else if 0 < point ∧ point ≤ positionalDigits then
    ds.take point.toNat ++ '.' :: ds.drop point.toNat
  else if -leadingZeros ≤ point ∧ point ≤ 0 then
    '0' :: '.' :: (List.replicate (-point).toNat '0' ++ ds)
  else
    let exponent := point - 1
    let mantissa :=
      match ds with
      | [] => []
      | [d] => [d]
      | d :: more => d :: '.' :: more
    let sign := if exponent < 0 then '-' else '+'
    mantissa ++ 'e' :: sign :: Nat.toDigits 10 exponent.natAbs

/-- Digits without the zeros at their end. -/
def stripZeros (ds : List Char) : List Char :=
  (ds.reverse.dropWhile (· = '0')).reverse

/-- A positive number as text. -/
def positiveText (x : Rat) : List Char :=
  let (n, e) := shortest x
  let ds := Nat.toDigits 10 n
  layout (stripZeros ds) (ds.length + e)

/-- A number as text. -/
def text : Number → String
  | .finite q =>
    if q = 0 then "0"
    else if q < 0 then String.ofList ('-' :: positiveText (-q))
    else String.ofList (positiveText q)
  | .infinite false => "Infinity"
  | .infinite true => "-Infinity"
  | .undefined => "NaN"

end Clocked.Number
