/-
Clocked.Proofs.Number.Rounding — rounding to binary64 leaves binary64 numbers alone.

The gap around a positive number is the distance of binary64 numbers between two powers of two
(`log2_spec`), and rounding leads no further than the upper one of them (`nearest_le`). So what
was rounded is a multiple of the gap around itself, and rounding it again changes nothing
(`nearest_nearest`).
-/
import Mathlib.Data.Rat.Floor
import Mathlib.Tactic.Linarith
import Mathlib.Tactic.Ring
import Clocked.Number.Binary64

namespace Clocked.Binary64

variable {x y : Rat}

theorem two_zpow_pos (e : Int) : (0 : Rat) < 2 ^ e := zpow_pos (by norm_num) e

theorem two_zpow_add (d e : Int) : (2 : Rat) ^ (d + e) = 2 ^ d * 2 ^ e :=
  zpow_add₀ (by norm_num) d e

/-! ## 1. Powers of two -/

/-- A positive number lies between two powers of two. -/
theorem log2_spec (hx : 0 < x) : (2 : Rat) ^ log2 x ≤ x ∧ x < 2 ^ (log2 x + 1) := by
  have hden : (0 : Rat) < x.den := by exact_mod_cast x.den_pos
  have hmul : x * x.den = (x.num.natAbs : Rat) := by
    have hnum : (x.num.natAbs : Int) = x.num := Int.natAbs_of_nonneg (Rat.num_nonneg.2 hx.le)
    rw [Rat.mul_den_eq_num, ← Int.cast_natCast x.num.natAbs, hnum]
  have hne : x.num.natAbs ≠ 0 := Int.natAbs_ne_zero.2 (Rat.num_pos.2 hx).ne'
  have hnumLow : (2 : Rat) ^ (x.num.natAbs.log2 : Int) ≤ x.num.natAbs := by
    exact_mod_cast Nat.log2_self_le hne
  have hnumHigh : (x.num.natAbs : Rat) < 2 ^ ((x.num.natAbs.log2 : Int) + 1) := by
    exact_mod_cast Nat.lt_log2_self
  have hdenLow : (2 : Rat) ^ (x.den.log2 : Int) ≤ x.den := by
    exact_mod_cast Nat.log2_self_le x.den_pos.ne'
  have hdenHigh : (x.den : Rat) < 2 ^ ((x.den.log2 : Int) + 1) := by
    exact_mod_cast Nat.lt_log2_self
  generalize hn : (x.num.natAbs.log2 : Int) = a at hnumLow hnumHigh
  generalize hd : (x.den.log2 : Int) = b at hdenLow hdenHigh
  have hhigh : x < 2 ^ (a - b + 1) := by
    refine lt_of_mul_lt_mul_right ?_ hden.le
    calc x * x.den < 2 ^ (a + 1) := hmul ▸ hnumHigh
      _ = 2 ^ (a - b + 1) * 2 ^ b := by rw [← two_zpow_add]; congr 1; ring
      _ ≤ 2 ^ (a - b + 1) * x.den := mul_le_mul_of_nonneg_left hdenLow (two_zpow_pos _).le
  have hlow : (2 : Rat) ^ (a - b - 1) ≤ x := by
    refine le_of_mul_le_mul_right ?_ hden
    calc (2 : Rat) ^ (a - b - 1) * x.den ≤ 2 ^ (a - b - 1) * 2 ^ (b + 1) :=
          mul_le_mul_of_nonneg_left hdenHigh.le (two_zpow_pos _).le
      _ = 2 ^ a := by rw [← two_zpow_add]; congr 1; ring
      _ ≤ x * x.den := hmul ▸ hnumLow
  unfold log2
  simp only [hn, hd]
  split
  · next hle => exact ⟨hle, hhigh⟩
  · next hlt =>
    rw [sub_add_cancel]
    exact ⟨hlow, not_le.1 hlt⟩

theorem gap_pos (x : Rat) : 0 < gap x := two_zpow_pos _

/-! ## 2. Rounding to a whole number -/

/-- Rounding does not lead past a whole number. -/
theorem roundHalfEven_le {n : Int} (h : y ≤ n) : roundHalfEven y ≤ n := by
  rcases h.lt_or_eq with hlt | rfl
  · have hfloor : y.floor < n := Rat.floor_lt_iff.2 hlt
    simp only [roundHalfEven]
    split_ifs <;> omega
  · rw [roundHalfEven_intCast]

/-- Less than a half is rounded down. -/
theorem roundHalfEven_eq_zero (hy : 0 ≤ y) (h : y < 1 / 2) : roundHalfEven y = 0 := by
  have hfloor : y.floor = 0 := by
    have hlow : 0 ≤ y.floor := Rat.le_floor_iff.2 (by exact_mod_cast hy)
    have hhigh : y.floor < 1 := Rat.floor_lt_iff.2 (by push_cast; linarith)
    omega
  simp only [roundHalfEven, hfloor, Int.cast_zero, sub_zero, if_pos h]

theorem roundHalfEven_nonneg (hy : 0 ≤ y) : 0 ≤ roundHalfEven y := by
  have hfloor : 0 ≤ y.floor := Rat.le_floor_iff.2 (by exact_mod_cast hy)
  simp only [roundHalfEven]
  split_ifs <;> omega

/-! ## 3. Rounding to binary64 -/

theorem nearest_nonneg (hx : 0 ≤ x) : 0 ≤ nearest x := by
  have hquotient := roundHalfEven_nonneg (div_nonneg hx (gap_pos x).le)
  exact mul_nonneg (by exact_mod_cast hquotient) (gap_pos x).le

/-- Rounding does not lead past the next power of two. -/
theorem nearest_le (hx : 0 < x) (hpos : 0 < nearest x) : nearest x ≤ 2 ^ (log2 x + 1) := by
  have hgap := gap_pos x
  have hexponent : gap x = 2 ^ max (log2 x - 52) (-1074) := rfl
  generalize max (log2 x - 52) (-1074) = e at hexponent
  have hquotient : x / gap x < 2 ^ (log2 x + 1 - e) := by
    rw [div_lt_iff₀ hgap, hexponent, ← two_zpow_add, sub_add_cancel]
    exact (log2_spec hx).2
  rcases le_or_gt 0 (log2 x + 1 - e) with hle | hlt
  · obtain ⟨k, hk⟩ := Int.eq_ofNat_of_zero_le hle
    have hround : roundHalfEven (x / gap x) ≤ (2 ^ k : Nat) := by
      refine roundHalfEven_le (hquotient.le.trans ?_)
      rw [hk, zpow_natCast]
      push_cast
      exact le_rfl
    have hcast : ((roundHalfEven (x / gap x) : Int) : Rat) ≤ 2 ^ (log2 x + 1 - e) := by
      rw [hk, zpow_natCast]
      exact_mod_cast hround
    calc nearest x = roundHalfEven (x / gap x) * gap x := rfl
      _ ≤ 2 ^ (log2 x + 1 - e) * gap x := mul_le_mul_of_nonneg_right hcast hgap.le
      _ = 2 ^ (log2 x + 1) := by rw [hexponent, ← two_zpow_add, sub_add_cancel]
  · -- so far below the gap that it is rounded to zero
    have hhalf : x / gap x < 1 / 2 := by
      refine hquotient.trans_le ?_
      calc (2 : Rat) ^ (log2 x + 1 - e) ≤ 2 ^ (-1 : Int) :=
            zpow_le_zpow_right₀ (by norm_num) (by omega)
        _ = 1 / 2 := by norm_num
    rw [nearest, roundHalfEven_eq_zero (div_nonneg hx.le hgap.le) hhalf, Int.cast_zero,
      zero_mul] at hpos
    exact absurd hpos (lt_irrefl 0)

/-- Multiples of a power of two are multiples of a smaller one. -/
theorem exists_eq_mul_two_zpow (m : Int) {d e : Int} (h : d ≤ e) :
    ∃ k : Int, (m : Rat) * 2 ^ e = k * 2 ^ d := by
  obtain ⟨j, hj⟩ := Int.eq_ofNat_of_zero_le (sub_nonneg.2 h)
  refine ⟨m * 2 ^ j, ?_⟩
  have he : e = j + d := by omega
  rw [he, two_zpow_add, zpow_natCast]
  push_cast
  ring

/-- A whole number of gaps is a binary64 number, if it is not past the next power of two. -/
theorem nearest_eq_self_of_le {m : Int} (hy : y = m * gap x) (hpos : 0 < y)
    (hle : y ≤ 2 ^ (log2 x + 1)) : nearest y = y := by
  have hlow := (log2_spec hpos).1
  have hmultiple : ∃ k : Int, y = k * gap y := by
    rcases le_or_gt (max (log2 y - 52) (-1074)) (max (log2 x - 52) (-1074)) with hfine | hcoarse
    · obtain ⟨k, hk⟩ := exists_eq_mul_two_zpow m hfine
      exact ⟨k, hy.trans hk⟩
    · -- the gap grows only at the power of two itself
      have hlog : log2 x + 1 ≤ log2 y := by omega
      have hexponent : max (log2 y - 52) (-1074) = log2 y - 52 := by omega
      have hpower : y = 2 ^ log2 y :=
        le_antisymm (hle.trans (zpow_le_zpow_right₀ (by norm_num) hlog)) hlow
      obtain ⟨k, hk⟩ := exists_eq_mul_two_zpow 1 (hexponent.trans_le (by omega : _ ≤ log2 y))
      rw [Int.cast_one, one_mul] at hk
      exact ⟨k, hpower.trans hk⟩
  obtain ⟨k, hk⟩ := hmultiple
  exact nearest_eq_self (gap_pos y).ne' hk

/-- What was rounded is its own nearest. -/
theorem nearest_nearest (hx : 0 < x) (hpos : 0 < nearest x) : nearest (nearest x) = nearest x :=
  nearest_eq_self_of_le rfl hpos (nearest_le hx hpos)

/-- Binary64 numbers are whole multiples of the least one. -/
theorem exists_eq_mul_of_nearest (h : nearest x = x) : ∃ k : Int, x = k * 2 ^ (-1074 : Int) := by
  obtain ⟨k, hk⟩ := exists_eq_mul_two_zpow (roundHalfEven (x / gap x))
    (le_max_right (log2 x - 52) (-1074))
  exact ⟨k, h.symm.trans hk⟩

end Clocked.Binary64
