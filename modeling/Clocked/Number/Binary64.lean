/-
Clocked.Number.Binary64 — rounding to the binary64 numbers.

A binary64 number is `m · 2^e` with `|m| < 2^53` and `-1074 ≤ e ≤ 971`. Numbers
are kept as exact rationals here; `nearest` moves a positive rational to the
binary64 grid around it, a half going to the even neighbour.
-/
namespace Clocked.Binary64

/-! ## 1. Rounding to a whole number -/

/-- Nearest whole number, a half going to the even neighbour. -/
def roundHalfEven (y : Rat) : Int :=
  let f := y.floor
  let part := y - f
  if part < 1 / 2 then f
  else if 1 / 2 < part then f + 1
  else if f % 2 = 0 then f else f + 1

/-- A whole number is its own nearest. -/
theorem roundHalfEven_intCast (n : Int) : roundHalfEven n = n := by
  have h : ((n : Rat) - (n : Rat)) < 1 / 2 := by rw [Rat.sub_self]; decide +kernel
  simp only [roundHalfEven, Rat.floor_intCast]
  rw [if_pos h]

/-! ## 2. Rounding to binary64 -/

/-- The whole number `e` with `2^e ≤ x < 2^(e+1)`, for positive `x`. -/
def log2 (x : Rat) : Int :=
  let e : Int := (x.num.natAbs.log2 : Int) - x.den.log2
  if (2 : Rat) ^ e ≤ x then e else e - 1

/-- Distance of neighbouring binary64 numbers near a positive `x`. -/
def gap (x : Rat) : Rat :=
  (2 : Rat) ^ (max (log2 x - 52) (-1074))

/-- The binary64 number nearest to a positive rational, were there no largest. -/
def nearest (x : Rat) : Rat :=
  roundHalfEven (x / gap x) * gap x

/-- From here on a positive number is infinite. -/
def overflow : Rat := (2 : Rat) ^ (1024 : Int)

/-- A multiple of the gap around it is its own nearest. -/
theorem nearest_eq_self {x : Rat} {m : Int} (hg : gap x ≠ 0) (h : x = m * gap x) :
    nearest x = x := by
  have hm : x / gap x = m := by
    rw [Rat.div_def]
    conv => lhs; rw [h]
    rw [Rat.mul_assoc, ← h, Rat.mul_inv_cancel _ hg, Rat.mul_one]
  rw [nearest, hm, roundHalfEven_intCast, ← h]

end Clocked.Binary64
