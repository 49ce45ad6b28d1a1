/-
Clocked.Proofs.Number.Text — how whole numbers are written.

Whole numbers up to 2^53 are binary64 numbers (`nearest_natCast`), and of the decimals on a
grid of powers of ten only the number itself reads back as it (`grid?_natCast`). So the
fewest digits that read back are its digits less their final zeros, and the number is
written with all its digits (`text_ofNat`).
-/
import Mathlib.Data.List.TakeWhile
import Mathlib.Data.Rat.Floor
import Mathlib.Tactic.Linarith
import Mathlib.Tactic.Ring
import Clocked.Number.Text

namespace Clocked

/-! ## 1. Whole numbers in binary64 -/

namespace Binary64

theorem log2_natCast {n : Nat} (h : 0 < n) : log2 (n : Rat) = n.log2 := by
  have hexponent : ((n : Rat).num.natAbs.log2 : Int) - (n : Rat).den.log2 = n.log2 := by
    have hone : Nat.log2 1 = 0 := by decide
    simp [hone]
  have hle : (2 : Rat) ^ (n.log2 : Int) ≤ n := by
    exact_mod_cast Nat.log2_self_le h.ne'
  simp only [log2, hexponent, if_pos hle]

/-- A multiple of a power of two is its own nearest if 53 binary digits are enough for it. -/
theorem nearest_of_dvd {n : Nat} (hpos : 0 < n) (hdvd : 2 ^ (n.log2 - 52) ∣ n) :
    nearest (n : Rat) = n := by
  have hexponent : max ((n.log2 : Int) - 52) (-1074) = (n.log2 : Int) - 52 := by omega
  have hgap : gap (n : Rat) = (2 : Rat) ^ ((n.log2 : Int) - 52) := by
    rw [gap, log2_natCast hpos, hexponent]
  have htwo : (2 : Rat) ≠ 0 := by decide
  have hne : gap (n : Rat) ≠ 0 := hgap ▸ zpow_ne_zero _ htwo
  rcases Nat.le_total n.log2 52 with hsmall | hlarge
  · have hnegative : (n.log2 : Int) - 52 = -((52 - n.log2 : Nat) : Int) := by omega
    refine nearest_eq_self (m := (n * 2 ^ (52 - n.log2) : Nat)) hne ?_
    rw [hgap, hnegative, zpow_neg, zpow_natCast]
    push_cast
    rw [mul_inv_cancel_right₀ (pow_ne_zero _ htwo)]
  · obtain ⟨m, hm⟩ := hdvd
    have hnatural : (n.log2 : Int) - 52 = ((n.log2 - 52 : Nat) : Int) := by omega
    refine nearest_eq_self (m := (m : Nat)) hne ?_
    rw [hgap, hnatural, zpow_natCast]
    calc (n : Rat) = ((2 ^ (n.log2 - 52) * m : Nat) : Rat) := by rw [← hm]
      _ = ((m : Int) : Rat) * 2 ^ (n.log2 - 52) := by
        push_cast
        ring

/-- Whole numbers below 2^53 are their own nearest, and so are even ones below 2^54. -/
theorem nearest_natCast {n : Nat} (hpos : 0 < n) (h : n < 2 ^ 53 ∨ n < 2 ^ 54 ∧ 2 ∣ n) :
    nearest (n : Rat) = n := by
  refine nearest_of_dvd hpos ?_
  rcases h with hlt | ⟨hlt, heven⟩
  · have hlog : n.log2 < 53 := (Nat.log2_lt hpos.ne').2 hlt
    have hzero : n.log2 - 52 = 0 := by omega
    rw [hzero]
    exact one_dvd n
  · have hlog : n.log2 < 54 := (Nat.log2_lt hpos.ne').2 hlt
    have hone : n.log2 - 52 ≤ 1 := by omega
    exact (pow_dvd_pow 2 hone).trans (by simpa using heven)

theorem nearest_of_le {n : Nat} (hpos : 0 < n) (h : n ≤ 2 ^ 53) : nearest (n : Rat) = n := by
  rcases h.lt_or_eq with hlt | rfl
  · exact nearest_natCast hpos (.inl hlt)
  · exact nearest_natCast hpos (.inr ⟨by decide, by decide⟩)

end Binary64

/-! ## 2. The fewest digits -/

namespace Number

/-- The first digit of a whole number counts. -/
theorem pow_length_toDigits_le {n : Nat} (hpos : 0 < n) :
    10 ^ ((Nat.toDigits 10 n).length - 1) ≤ n := by
  have hlength : 0 < (Nat.toDigits 10 n).length := Nat.length_toDigits_pos
  rcases Nat.eq_zero_or_pos ((Nat.toDigits 10 n).length - 1) with hzero | hlong
  · rw [hzero]
    exact hpos
  · by_contra hlt
    have hshort := (Nat.length_toDigits_le_iff (b := 10) (by decide) hlong).2 (not_le.1 hlt)
    omega

/-- A whole number has as many places as it has digits. -/
theorem decimalPlaces_natCast {n : Nat} (hpos : 0 < n) :
    decimalPlaces (n : Rat) = (Nat.toDigits 10 n).length := by
  have hlength : 0 < (Nat.toDigits 10 n).length := Nat.length_toDigits_pos
  have hplaces : ((Nat.toDigits 10 (n : Rat).num.natAbs).length : Int) -
      (Nat.toDigits 10 (n : Rat).den).length = ((Nat.toDigits 10 n).length - 1 : Nat) := by
    have hone : (Nat.toDigits 10 1).length = 1 := by decide
    simp only [Rat.num_natCast, Rat.den_natCast, Int.natAbs_natCast, hone]
    omega
  have hcast : (10 : Rat) ^ (((Nat.toDigits 10 n).length - 1 : Nat) : Int) ≤ n := by
    exact_mod_cast pow_length_toDigits_le hpos
  simp only [decimalPlaces, hplaces, if_pos hcast]
  omega

/-- Some units read back as a whole number if they are as much, and only then. -/
theorem readsBack_natCast {n m e : Nat} (hn : Binary64.nearest ((m * 10 ^ e : Nat) : Rat) =
    ((m * 10 ^ e : Nat) : Rat)) :
    readsBack (n : Rat) ((10 ^ e : Nat) : Rat) (m : Int) = decide (m * 10 ^ e = n) := by
  have hproduct : ((m : Int) : Rat) * ((10 ^ e : Nat) : Rat) = ((m * 10 ^ e : Nat) : Rat) := by
    push_cast
    rfl
  rw [readsBack, hproduct, hn]
  exact decide_eq_decide.2 Nat.cast_inj

/-- Off the grid, the next number above on a grid of powers of ten does not read back. -/
theorem readsBack_above {n e : Nat} (hle : 10 ^ e ≤ n) (hn : n ≤ 2 ^ 53) (hdvd : ¬ 10 ^ e ∣ n) :
    readsBack (n : Rat) ((10 ^ e : Nat) : Rat) ((n / 10 ^ e : Nat) + 1 : Int) = false := by
  have hupper : n < (n / 10 ^ e + 1) * 10 ^ e := by
    rw [mul_comm]
    exact Nat.lt_mul_div_succ n (Nat.pow_pos (by decide))
  have hlt : (n / 10 ^ e + 1) * 10 ^ e < 2 ^ 54 := by
    have hlower : n / 10 ^ e * 10 ^ e ≤ n := Nat.div_mul_le_self n (10 ^ e)
    have hne : n / 10 ^ e * 10 ^ e ≠ n := fun heq => hdvd ⟨n / 10 ^ e, by rw [mul_comm, heq]⟩
    rw [Nat.succ_mul]
    omega
  -- everything is on the finest grid, and all coarser ones have even numbers only
  have hcoarse : e ≠ 0 := by
    rintro rfl
    exact hdvd (one_dvd n)
  have heven : 2 ∣ (n / 10 ^ e + 1) * 10 ^ e :=
    ((by decide : 2 ∣ 10).trans (dvd_pow_self 10 hcoarse)).mul_left _
  have hexact := Binary64.nearest_natCast (Nat.zero_lt_of_lt hupper) (.inr ⟨hlt, heven⟩)
  exact (readsBack_natCast hexact).trans (decide_eq_false hupper.ne')

/-- On a grid of powers of ten only the number itself reads back as it. -/
theorem grid?_natCast {n e : Nat} (hle : 10 ^ e ≤ n) (hn : n ≤ 2 ^ 53) :
    grid? (n : Rat) e = if 10 ^ e ∣ n then some (n / 10 ^ e) else none := by
  have hunit : (10 : Rat) ^ (e : Int) = ((10 ^ e : Nat) : Rat) := by norm_cast
  have hten : 0 < 10 ^ e := Nat.pow_pos (by decide)
  have hfloor : ((n : Rat) / ((10 ^ e : Nat) : Rat)).floor = ((n / 10 ^ e : Nat) : Int) := by
    exact Rat.floor_intCast_div_natCast n (10 ^ e)
  have hpos : 0 < n / 10 ^ e := Nat.div_pos hle hten
  have hlower : n / 10 ^ e * 10 ^ e ≤ n := Nat.div_mul_le_self n (10 ^ e)
  have hbelow : readsBack (n : Rat) ((10 ^ e : Nat) : Rat) ((n / 10 ^ e : Nat) : Int) =
      decide (n / 10 ^ e * 10 ^ e = n) :=
    readsBack_natCast (Binary64.nearest_of_le (Nat.mul_pos hpos hten) (hlower.trans hn))
  unfold grid?
  simp only [hunit, hfloor, hbelow, Int.natCast_pos, hpos, decide_true, Bool.true_and]
  by_cases hdvd : 10 ^ e ∣ n
  · have hpart : (n : Rat) / ((10 ^ e : Nat) : Rat) - (((n / 10 ^ e : Nat) : Int) : Rat) = 0 := by
      have hexact : (n : Rat) = ((n / 10 ^ e : Nat) : Rat) * ((10 ^ e : Nat) : Rat) := by
        exact_mod_cast (Nat.div_mul_cancel hdvd).symm
      rw [Int.cast_natCast, sub_eq_zero, div_eq_iff (by exact_mod_cast hten.ne')]
      exact hexact
    have hhalf : (0 : Rat) * 2 < 1 := by norm_num
    simp only [Nat.div_mul_cancel hdvd, decide_true, hpart, hhalf, if_true, if_pos hdvd]
    cases readsBack (n : Rat) ((10 ^ e : Nat) : Rat) ((n / 10 ^ e : Nat) + 1 : Int) <;> rfl
  · have hne : n / 10 ^ e * 10 ^ e ≠ n := fun heq => hdvd ⟨n / 10 ^ e, by rw [mul_comm, heq]⟩
    simp only [hne, readsBack_above hle hn hdvd, decide_false, if_neg hdvd]
    rfl

/-- The digits of a whole number end in the zeros of the coarsest grid that holds it. -/
theorem shortestFrom_natCast {n : Nat} (hn : n ≤ 2 ^ 53) :
    ∀ (e fuel : Nat), 10 ^ e ≤ n → e < fuel →
      ∃ j ≤ e, 10 ^ j ∣ n ∧ shortestFrom (n : Rat) fuel e = (n / 10 ^ j, (j : Int))
  | e, 0, _, hfuel => absurd hfuel (Nat.not_lt_zero e)
  | e, fuel + 1, hle, hfuel => by
    rw [shortestFrom, grid?_natCast hle hn]
    by_cases hdvd : 10 ^ e ∣ n
    · exact ⟨e, le_rfl, hdvd, by rw [if_pos hdvd]⟩
    · rw [if_neg hdvd]
      obtain ⟨d, rfl⟩ : ∃ d, e = d + 1 := by
        refine Nat.exists_eq_succ_of_ne_zero ?_
        rintro rfl
        exact hdvd (one_dvd n)
      have hfiner : 10 ^ d ≤ n := (Nat.pow_le_pow_right (by decide) (Nat.le_succ d)).trans hle
      obtain ⟨j, hj, hjn, hshortest⟩ := shortestFrom_natCast hn d fuel hfiner (by omega)
      have hstep : ((d + 1 : Nat) : Int) - 1 = d := by omega
      exact ⟨j, hj.trans (Nat.le_succ d), hjn, by rw [hstep]; exact hshortest⟩

/-! ## 3. All digits -/

/-- Multiplying by a power of ten puts zeros behind the digits. -/
theorem toDigits_mul_pow {m : Nat} (hpos : 0 < m) (j : Nat) :
    Nat.toDigits 10 (m * 10 ^ j) = Nat.toDigits 10 m ++ List.replicate j '0' := by
  induction j with
  | zero => simp
  | succ j ih =>
    have hzero : Nat.toDigits 10 0 = ['0'] := by decide
    have hmore : m * 10 ^ (j + 1) = 10 * (m * 10 ^ j) + 0 := by ring
    rw [hmore, ← Nat.toDigits_append_toDigits (by decide) (Nat.mul_pos hpos (Nat.pow_pos (by decide)))
      (by decide), ih, hzero, List.append_assoc, ← List.replicate_succ']

/-- The zeros that were taken off the end are put back. -/
theorem stripZeros_append (ds : List Char) :
    stripZeros ds ++ List.replicate (ds.length - (stripZeros ds).length) '0' = ds := by
  let zeros := ds.reverse.takeWhile (· = '0')
  have hsplit : ds = stripZeros ds ++ zeros.reverse := by
    rw [stripZeros, ← List.reverse_append, List.takeWhile_append_dropWhile, List.reverse_reverse]
  have hlength : ds.length - (stripZeros ds).length = zeros.length := by
    have hlengths := congrArg List.length hsplit
    rw [List.length_append, List.length_reverse] at hlengths
    omega
  have hzeros : zeros = List.replicate zeros.length '0' := by
    refine List.eq_replicate_iff.2 ⟨rfl, fun d hd => ?_⟩
    simpa using List.mem_takeWhile_imp hd
  rw [hlength, ← List.reverse_replicate, ← hzeros]
  exact hsplit.symm

/-- The digits of a whole number that are found are those before its final zeros. -/
theorem shortest_natCast {n : Nat} (hpos : 0 < n) (hn : n ≤ 2 ^ 53) :
    ∃ m j : Nat, 0 < m ∧ n = m * 10 ^ j ∧ shortest (n : Rat) = (m, (j : Int)) := by
  have hlength : 0 < (Nat.toDigits 10 n).length := Nat.length_toDigits_pos
  obtain ⟨j, -, hdvd, hshortest⟩ := shortestFrom_natCast hn ((Nat.toDigits 10 n).length - 1)
    ((Nat.toDigits 10 n).length + 1074) (pow_length_toDigits_le hpos) (by omega)
  refine ⟨n / 10 ^ j, j, Nat.div_pos (Nat.le_of_dvd hpos hdvd) (Nat.pow_pos (by decide)),
    (Nat.div_mul_cancel hdvd).symm, ?_⟩
  have hfuel : (((Nat.toDigits 10 n).length : Int) + 1074).toNat =
      (Nat.toDigits 10 n).length + 1074 := by omega
  have hfirst : ((Nat.toDigits 10 n).length : Int) - 1 = ((Nat.toDigits 10 n).length - 1 : Nat) := by
    omega
  simp only [shortest, decimalPlaces_natCast hpos, hfuel, hfirst]
  exact hshortest

/-- A whole number up to 2^53 is written with its digits. -/
theorem text_ofNat {n : Nat} (hn : n ≤ 2 ^ 53) : (ofNat n).text = toString n := by
  rw [Nat.toString_eq_ofList_toDigits]
  rcases Nat.eq_zero_or_pos n with rfl | hpos
  · decide
  have hne : (n : Rat) ≠ 0 := by exact_mod_cast hpos.ne'
  have hnonneg : ¬ (n : Rat) < 0 := not_lt.2 (by exact_mod_cast Nat.zero_le n)
  simp only [ofNat, text, if_neg hne, if_neg hnonneg]
  obtain ⟨m, j, hm, rfl, hshortest⟩ := shortest_natCast hpos hn
  have hdigits := toDigits_mul_pow hm j
  have hplaces : (Nat.toDigits 10 m).length + j ≤ 21 := by
    have hshort := (Nat.length_toDigits_le_iff (b := 10) (k := 16) (by decide) (by decide)).2
      (hn.trans_lt (by decide))
    rw [hdigits, List.length_append, List.length_replicate] at hshort
    omega
  have hstrip : (stripZeros (Nat.toDigits 10 m)).length ≤ (Nat.toDigits 10 m).length := by
    have hlengths := congrArg List.length (stripZeros_append (Nat.toDigits 10 m))
    rw [List.length_append] at hlengths
    omega
  have hpositional : ((stripZeros (Nat.toDigits 10 m)).length : Int) ≤
      (Nat.toDigits 10 m).length + j ∧ ((Nat.toDigits 10 m).length : Int) + j ≤ positionalDigits := by
    unfold positionalDigits
    omega
  have hzeros : (((Nat.toDigits 10 m).length : Int) + j -
      (stripZeros (Nat.toDigits 10 m)).length).toNat =
      (Nat.toDigits 10 m).length - (stripZeros (Nat.toDigits 10 m)).length + j := by omega
  simp only [positiveText, hshortest, layout, if_pos hpositional, hzeros]
  rw [hdigits, List.replicate_add, ← List.append_assoc, stripZeros_append]

/-- Multiples of whole numbers are exact up to 2^53. -/
theorem scale_ofNat {k n : Nat} (h : k * n ≤ 2 ^ 53) : (ofNat n).scale k = ofNat (k * n) := by
  have hproduct : (k : Rat) * (n : Rat) = ((k * n : Nat) : Rat) := by push_cast; rfl
  show ofRat ((k : Rat) * (n : Rat)) = .finite ((k * n : Nat) : Rat)
  rw [hproduct]
  generalize k * n = m at h
  rcases Nat.eq_zero_or_pos m with rfl | hpos
  · simp [ofRat]
  have hne : (m : Rat) ≠ 0 := by exact_mod_cast hpos.ne'
  have hnonneg : ¬ (m : Rat) < 0 := not_lt.2 (by exact_mod_cast Nat.zero_le m)
  have hfinite : ¬ Binary64.overflow ≤ (m : Rat) := by
    have hcast : (m : Rat) ≤ 2 ^ 53 := by exact_mod_cast h
    have hlarge : (2 : Rat) ^ 53 < 2 ^ 1024 := pow_lt_pow_right₀ (by norm_num) (by norm_num)
    exact not_le.2 (hcast.trans_lt hlarge)
  simp only [ofRat, if_neg hne, if_neg hnonneg, Binary64.nearest_of_le hpos h, if_neg hfinite]

/-! ## 4. Characters -/

theorem isDigit_of_mem_stripZeros {n : Nat} :
    ∀ ch ∈ stripZeros (Nat.toDigits 10 n), ch.isDigit = true := by
  intro ch hch
  have hmem : ch ∈ Nat.toDigits 10 n :=
    List.mem_reverse.1 ((List.dropWhile_sublist _).subset (List.mem_reverse.1 hch))
  exact Nat.isDigit_of_mem_toDigits (by decide) (by decide) hmem

/-- Digits are laid out among zeros, a point, and an exponent with its sign. -/
theorem mem_layout {ds : List Char} {point : Int} {ch : Char} (h : ch ∈ layout ds point) :
    ch ∈ ds ∨ ch ∈ ['0', '.', 'e', '+', '-'] ∨ ch.isDigit = true := by
  unfold layout at h
  split at h
  · rcases List.mem_append.1 h with h | h
    · exact .inl h
    · simp [List.eq_of_mem_replicate h]
  · split at h
    · rcases List.mem_append.1 h with h | h
      · exact .inl (List.mem_of_mem_take h)
      · rcases List.mem_cons.1 h with rfl | h
        · simp
        · exact .inl (List.mem_of_mem_drop h)
    · split at h
      · simp only [List.mem_cons, List.mem_append] at h
        rcases h with rfl | rfl | h | h
        · simp
        · simp
        · simp [List.eq_of_mem_replicate h]
        · exact .inl h
      · simp only [List.mem_append, List.mem_cons] at h
        rcases h with h | rfl | rfl | h
        · split at h
          · cases h
          · exact .inl h
          · simp only [List.mem_cons] at h
            rcases h with rfl | rfl | h <;> simp_all
        · simp
        · split <;> simp
        · exact .inr (.inr (Nat.isDigit_of_mem_toDigits (by decide) (by decide) h))

/-- Numbers are written on one line. -/
theorem newline_notMem_text (x : Number) : '\n' ∉ x.text.toList := by
  have hpositive (q : Rat) : '\n' ∉ positiveText q := by
    intro h
    rcases mem_layout h with h | h | h
    · exact absurd (isDigit_of_mem_stripZeros _ h) (by decide)
    · exact absurd h (by decide)
    · exact absurd h (by decide)
  cases x with
  | finite q =>
    rw [text]
    split
    · decide
    · split <;> simp [hpositive]
  | infinite negative => cases negative <;> decide
  | undefined => decide

end Number

end Clocked
