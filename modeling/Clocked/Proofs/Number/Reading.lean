/-
Clocked.Proofs.Number.Reading — a number that is written reads back.

A number is read by rounding the exact value of its decimal. What is written for a binary64
number are digits whose value rounds to it (`shortest_spec`): a grid is taken only if it has
such digits, and the finest one has the number itself. The layout keeps the value of the
digits (`decimal?_layout`), so every binary64 number reads back (`ofChars?_text_scale`).
-/
import Clocked.Proofs.Number.Rounding
import Clocked.Proofs.Number.Text

namespace Clocked.Number

/-! ## 1. Reading decimals -/

/-- The digits at the start, and what follows them. -/
def splitDigits (cs : List Char) : List Char × List Char :=
  (cs.takeWhile Char.isDigit, cs.dropWhile Char.isDigit)

/-- The digits behind a point, and what follows them. -/
def splitFraction : List Char → List Char × List Char
  | '.' :: cs => splitDigits cs
  | cs => ([], cs)

/-- The whole number with given digits. -/
def natural? (ds : List Char) : Option Nat :=
  if !ds.isEmpty && ds.all Char.isDigit then some (Nat.ofDigitChars 10 ds 0) else none

/-- The exponent at the end of a decimal; none counts as 0. -/
def exponent? : List Char → Option Int
  | [] => some 0
  | 'e' :: '+' :: ds => (natural? ds).map fun n : Nat => (n : Int)
  | 'e' :: '-' :: ds => (natural? ds).map fun n : Nat => -(n : Int)
  | _ => none

/-- The exact value of a decimal: digits, then perhaps a point with more digits, then perhaps an
exponent. -/
def decimal? (cs : List Char) : Option Rat :=
  let (whole, behind) := splitDigits cs
  let (fraction, ending) := splitFraction behind
  if whole = [] then none
  else (exponent? ending).map fun e : Int =>
    (Nat.ofDigitChars 10 (whole ++ fraction) 0 : Rat) * 10 ^ (e - fraction.length)

/-- The number that digits stand for, with its sign. -/
def unsigned? (negative : Bool) (cs : List Char) : Option Number :=
  if cs = "Infinity".toList then some (.infinite negative)
  else (decimal? cs).map fun q => ofRat (if negative then -q else q)

/-- The number that characters stand for. -/
def ofChars? : List Char → Option Number
  | '-' :: cs => unsigned? true cs
  | cs => if cs = "NaN".toList then some .undefined else unsigned? false cs

/-! ## 2. Parts of a decimal -/

section Parts

variable {ds whole fraction ending : List Char} {e : Int}

theorem splitDigits_append (hds : ∀ d ∈ ds, d.isDigit = true)
    (hending : ∀ ch ∈ ending.head?, ch.isDigit = false) : splitDigits (ds ++ ending) = (ds, ending) := by
  have hstop : ending.takeWhile Char.isDigit = [] ∧ ending.dropWhile Char.isDigit = ending := by
    cases ending with
    | nil => exact ⟨rfl, rfl⟩
    | cons ch more =>
      have hch := hending ch rfl
      simp [hch]
  rw [splitDigits, List.takeWhile_append_of_pos hds, List.dropWhile_append_of_pos hds, hstop.1,
    hstop.2, List.append_nil]

/-- Nothing but a letter begins an exponent. -/
theorem head?_of_exponent? (h : exponent? ending = some e) : ∀ ch ∈ ending.head?, ch = 'e' := by
  intro ch hch
  unfold exponent? at h
  split at h
  · cases hch
  · simpa using hch.symm
  · simpa using hch.symm
  · cases h

theorem isDigit_head?_of_exponent? (h : exponent? ending = some e) :
    ∀ ch ∈ ending.head?, ch.isDigit = false := by
  intro ch hch
  rw [head?_of_exponent? h ch hch]
  rfl

/-- A decimal without a point. -/
theorem decimal?_whole (hne : whole ≠ []) (hwhole : ∀ d ∈ whole, d.isDigit = true)
    (he : exponent? ending = some e) :
    decimal? (whole ++ ending) = some ((Nat.ofDigitChars 10 whole 0 : Rat) * 10 ^ e) := by
  have hfraction : splitFraction ending = ([], ending) := by
    cases ending with
    | nil => rfl
    | cons ch more =>
      rw [head?_of_exponent? he ch rfl]
      rfl
  simp only [decimal?, splitDigits_append hwhole (isDigit_head?_of_exponent? he), hfraction, if_neg hne,
    he, Option.map_some, List.append_nil, List.length_nil, Nat.cast_zero, sub_zero]

/-- A decimal with a point. -/
theorem decimal?_point (hne : whole ≠ []) (hwhole : ∀ d ∈ whole, d.isDigit = true)
    (hfraction : ∀ d ∈ fraction, d.isDigit = true) (he : exponent? ending = some e) :
    decimal? (whole ++ '.' :: (fraction ++ ending)) =
      some ((Nat.ofDigitChars 10 (whole ++ fraction) 0 : Rat) * 10 ^ (e - fraction.length)) := by
  have hpoint : ∀ ch ∈ ('.' :: (fraction ++ ending)).head?, ch.isDigit = false := by
    intro ch hch
    cases hch
    rfl
  have hsplit : splitFraction ('.' :: (fraction ++ ending)) = (fraction, ending) :=
    splitDigits_append hfraction (isDigit_head?_of_exponent? he)
  simp only [decimal?, splitDigits_append hwhole hpoint, hsplit, if_neg hne, he, Option.map_some]

theorem natural?_toDigits (n : Nat) : natural? (Nat.toDigits 10 n) = some n := by
  have hdigits : (Nat.toDigits 10 n).all Char.isDigit = true :=
    List.all_eq_true.2 fun d hd => Nat.isDigit_of_mem_toDigits (by decide) (by decide) hd
  have hne : (Nat.toDigits 10 n).isEmpty = false := List.isEmpty_eq_false_iff.2 Nat.toDigits_ne_nil
  rw [natural?, hne, hdigits, Bool.not_false, Bool.and_self, if_pos rfl,
    Nat.ofDigitChars_ten_toDigits]

theorem exponent?_toDigits (e : Int) :
    exponent? ('e' :: (if e < 0 then '-' else '+') :: Nat.toDigits 10 e.natAbs) = some e := by
  split
  · next hneg =>
    rw [exponent?, natural?_toDigits, Option.map_some]
    congr 1
    omega
  · next hneg =>
    rw [exponent?, natural?_toDigits, Option.map_some]
    congr 1
    omega

/-- Zeros behind digits count as powers of ten. -/
theorem ofDigitChars_append_zeros (ds : List Char) (k : Nat) :
    Nat.ofDigitChars 10 (ds ++ List.replicate k '0') 0 = 10 ^ k * Nat.ofDigitChars 10 ds 0 := by
  rw [Nat.ofDigitChars_append, Nat.ofDigitChars_replicate_zero]

/-- Zeros in front of digits count nothing. -/
theorem ofDigitChars_zeros_append (k : Nat) (ds : List Char) :
    Nat.ofDigitChars 10 (List.replicate k '0' ++ ds) 0 = Nat.ofDigitChars 10 ds 0 := by
  rw [Nat.ofDigitChars_append, Nat.ofDigitChars_replicate_zero, mul_zero]

theorem isDigit_of_mem_zeros (k : Nat) : ∀ d ∈ List.replicate k '0', d.isDigit = true := by
  intro d hd
  rw [List.eq_of_mem_replicate hd]
  rfl

theorem decimal?_append_zeros (hne : ds ≠ []) (hds : ∀ d ∈ ds, d.isDigit = true) (k : Nat) :
    decimal? (ds ++ List.replicate k '0') = some ((Nat.ofDigitChars 10 ds 0 : Rat) * 10 ^ (k : Int)) := by
  have hdigits : ∀ d ∈ ds ++ List.replicate k '0', d.isDigit = true := fun d hd =>
    (List.mem_append.1 hd).elim (hds d) (isDigit_of_mem_zeros k d)
  have hend : exponent? [] = some 0 := rfl
  rw [← List.append_nil (ds ++ _), decimal?_whole (by simp [hne]) hdigits hend,
    ofDigitChars_append_zeros, zpow_zero, zpow_natCast, mul_one]
  push_cast
  rw [mul_comm]

theorem decimal?_point_inside (hds : ∀ d ∈ ds, d.isDigit = true) {k : Nat} (hpos : 0 < k)
    (hk : k < ds.length) : decimal? (ds.take k ++ '.' :: ds.drop k) =
      some ((Nat.ofDigitChars 10 ds 0 : Rat) * 10 ^ ((k : Int) - ds.length)) := by
  have htake : ds.take k ≠ [] := List.ne_nil_of_length_pos (by rw [List.length_take]; omega)
  have hend : exponent? [] = some 0 := rfl
  have hexponent : 0 - ((ds.length - k : Nat) : Int) = k - ds.length := by omega
  rw [← List.append_nil (ds.drop k), decimal?_point htake (fun d hd => hds d (List.mem_of_mem_take hd))
    (fun d hd => hds d (List.mem_of_mem_drop hd)) hend, List.take_append_drop, List.length_drop,
    hexponent]

theorem decimal?_zeros_append (hds : ∀ d ∈ ds, d.isDigit = true) (k : Nat) :
    decimal? ('0' :: '.' :: (List.replicate k '0' ++ ds)) =
      some ((Nat.ofDigitChars 10 ds 0 : Rat) * 10 ^ (-(k : Int) - ds.length)) := by
  have hdigits : ∀ d ∈ List.replicate k '0' ++ ds, d.isDigit = true := fun d hd =>
    (List.mem_append.1 hd).elim (isDigit_of_mem_zeros k d) (hds d)
  have hend : exponent? [] = some 0 := rfl
  have hvalue : Nat.ofDigitChars 10 (['0'] ++ (List.replicate k '0' ++ ds)) 0 =
      Nat.ofDigitChars 10 ds 0 := by
    rw [← List.append_assoc]
    exact ofDigitChars_zeros_append (k + 1) ds
  have hexponent : 0 - ((k + ds.length : Nat) : Int) = -k - ds.length := by omega
  have hread := decimal?_point (List.cons_ne_nil '0' []) (isDigit_of_mem_zeros 1) hdigits hend
  rwa [List.append_nil, hvalue, List.length_append, List.length_replicate, hexponent] at hread

theorem decimal?_scientific {d : Char} (hd : d.isDigit = true) (hds : ∀ d ∈ ds, d.isDigit = true)
    (he : exponent? ending = some e) :
    decimal? ((match (d :: ds : List Char) with
      | [] => []
      | [d] => [d]
      | d :: more => d :: '.' :: more) ++ ending) =
      some ((Nat.ofDigitChars 10 (d :: ds) 0 : Rat) * 10 ^ (e - ds.length)) := by
  have hone : ∀ ch ∈ [d], ch.isDigit = true := List.forall_mem_singleton.2 hd
  cases ds with
  | nil =>
    rw [List.length_nil, Nat.cast_zero, sub_zero]
    exact decimal?_whole (List.cons_ne_nil d []) hone he
  | cons d' more => exact decimal?_point (List.cons_ne_nil d []) hone hds he

/-- However digits are laid out, their value is the same. -/
theorem decimal?_layout (hne : ds ≠ []) (hds : ∀ d ∈ ds, d.isDigit = true) (point : Int) :
    decimal? (layout ds point) =
      some ((Nat.ofDigitChars 10 ds 0 : Rat) * 10 ^ (point - ds.length)) := by
  unfold layout
  split_ifs with hwhole hinside hbefore
  · have hzeros : ((point - ds.length).toNat : Int) = point - ds.length := by omega
    rw [decimal?_append_zeros hne hds, hzeros]
  · have hplace : (point.toNat : Int) = point := by omega
    rw [decimal?_point_inside hds (by omega) (by omega), hplace]
  · have hzeros : -((-point).toNat : Int) = point := by omega
    rw [decimal?_zeros_append hds, hzeros]
  · obtain ⟨d, more, rfl⟩ := List.exists_cons_of_ne_nil hne
    obtain ⟨hd, hmore⟩ := List.forall_mem_cons.1 hds
    have hexponent : point - 1 - more.length = point - (d :: more).length := by
      rw [List.length_cons]
      omega
    refine (decimal?_scientific hd hmore (exponent?_toDigits (point - 1))).trans ?_
    rw [hexponent]

end Parts

/-! ## 3. The digits that are written -/

variable {x : Rat} {e : Int} {n : Nat}

/-- Digits on a grid are taken only if they read back. -/
theorem grid?_eq_some (hx : 0 < x) (h : grid? x e = some n) :
    0 < n ∧ Binary64.nearest (n * 10 ^ e) = x := by
  have hunit : (0 : Rat) < 10 ^ e := zpow_pos (by norm_num) e
  have hfloor : 0 ≤ (x / 10 ^ e).floor := Rat.le_floor_iff.2 (by exact_mod_cast (div_pos hx hunit).le)
  have hreads {c : Int} (hc : 0 < c) (hback : readsBack x (10 ^ e) c = true) :
      0 < c.toNat ∧ Binary64.nearest (c.toNat * 10 ^ e) = x := by
    have hcast : ((c.toNat : Nat) : Rat) = c := by exact_mod_cast Int.toNat_of_nonneg hc.le
    rw [hcast]
    exact ⟨by omega, of_decide_eq_true hback⟩
  unfold grid? at h
  obtain ⟨c, hchosen, rfl⟩ := Option.map_eq_some_iff.1 h
  have hbelow (hboth : (decide (0 < (x / 10 ^ e).floor) && readsBack x (10 ^ e) (x / 10 ^ e).floor) =
      true) := hreads (of_decide_eq_true (Bool.and_eq_true_iff.1 hboth).1) (Bool.and_eq_true_iff.1 hboth).2
  have habove := hreads (c := (x / 10 ^ e).floor + 1) (by omega)
  dsimp only at hchosen
  split at hchosen
  · next hb ha =>
    split_ifs at hchosen <;> cases hchosen
    · exact hbelow hb
    · exact habove ha
    · exact hbelow hb
    · exact habove ha
  · next hb ha =>
    cases hchosen
    exact hbelow hb
  · next hb ha =>
    cases hchosen
    exact habove ha
  · cases hchosen

/-- A multiple of a small power of two is a multiple of as small a power of ten. -/
theorem exists_div_eq (places : Nat) {k : Int} (hx : x = k * 2 ^ (-places : Int))
    (he : e ≤ -places) : ∃ m : Int, x / 10 ^ e = m := by
  obtain ⟨j, hj⟩ := Int.eq_ofNat_of_zero_le (by omega : 0 ≤ -places - e)
  have hexponent : e = -((places + j : Nat) : Int) := by omega
  have hten : (10 : Rat) ^ places = 2 ^ places * 5 ^ places := by
    rw [← mul_pow]
    norm_num
  have htwo : (2 : Rat) ^ places ≠ 0 := pow_ne_zero _ (by norm_num)
  refine ⟨k * (5 ^ places * 10 ^ j), ?_⟩
  rw [hx, hexponent, zpow_neg, zpow_neg, zpow_natCast, zpow_natCast, div_inv_eq_mul, pow_add, hten]
  push_cast
  calc (k : Rat) * (2 ^ places)⁻¹ * (2 ^ places * 5 ^ places * 10 ^ j)
      = ((2 ^ places)⁻¹ * 2 ^ places) * (k * (5 ^ places * 10 ^ j)) := by ring
    _ = k * (5 ^ places * 10 ^ j) := by rw [inv_mul_cancel₀ htwo, one_mul]

/-- The digits that are found read back: those of the finest grid are exact. -/
theorem shortestFrom_spec (hx : 0 < x) (hnearest : Binary64.nearest x = x) :
    ∀ (fuel : Nat) (e : Int), e - fuel ≤ -1074 → 0 < (shortestFrom x fuel e).1 ∧
      Binary64.nearest ((shortestFrom x fuel e).1 * 10 ^ (shortestFrom x fuel e).2) = x := by
  intro fuel
  induction fuel with
  | zero =>
    intro e he
    obtain ⟨k, hk⟩ := Binary64.exists_eq_mul_of_nearest hnearest
    obtain ⟨m, hm⟩ := exists_div_eq (e := e) 1074 hk (by omega)
    have hunit : (0 : Rat) < 10 ^ e := zpow_pos (by norm_num) e
    have hpos : 0 < m := by
      have hquotient := div_pos hx hunit
      rw [hm] at hquotient
      exact_mod_cast hquotient
    have hcast : ((m.toNat : Nat) : Rat) = m := by exact_mod_cast Int.toNat_of_nonneg hpos.le
    rw [shortestFrom, hm, Rat.floor_intCast, hcast, ← hm, div_mul_cancel₀ x hunit.ne']
    exact ⟨by omega, hnearest⟩
  | succ fuel ih =>
    intro e he
    rw [shortestFrom]
    cases hgrid : grid? x e with
    | some n => exact grid?_eq_some hx hgrid
    | none => exact ih (e - 1) (by omega)

theorem shortest_spec (hx : 0 < x) (hnearest : Binary64.nearest x = x) :
    0 < (shortest x).1 ∧ Binary64.nearest ((shortest x).1 * 10 ^ (shortest x).2) = x :=
  shortestFrom_spec hx hnearest _ _ (by omega)

/-- The text of a positive number has the value of its digits. -/
theorem decimal?_positiveText (hpos : 0 < (shortest x).1) :
    decimal? (positiveText x) = some (((shortest x).1 : Rat) * 10 ^ (shortest x).2) := by
  generalize hn : (shortest x).1 = n at hpos
  generalize he : (shortest x).2 = e
  have hshortest : shortest x = (n, e) := Prod.ext hn he
  have hsplit := stripZeros_append (Nat.toDigits 10 n)
  generalize hk : (Nat.toDigits 10 n).length - (stripZeros (Nat.toDigits 10 n)).length = k at hsplit
  have hvalue : 10 ^ k * Nat.ofDigitChars 10 (stripZeros (Nat.toDigits 10 n)) 0 = n := by
    rw [← ofDigitChars_append_zeros, hsplit, Nat.ofDigitChars_ten_toDigits]
  have hlength := congrArg List.length hsplit
  rw [List.length_append, List.length_replicate] at hlength
  have hne : stripZeros (Nat.toDigits 10 n) ≠ [] := by
    intro hnil
    rw [hnil, Nat.ofDigitChars_nil, mul_zero] at hvalue
    omega
  simp only [positiveText, hshortest]
  have hexponent : ((Nat.toDigits 10 n).length : Int) + e -
      (stripZeros (Nat.toDigits 10 n)).length = k + e := by omega
  rw [decimal?_layout hne isDigit_of_mem_stripZeros, hexponent, zpow_add₀ (by norm_num), zpow_natCast]
  generalize Nat.ofDigitChars 10 (stripZeros (Nat.toDigits 10 n)) 0 = m at hvalue
  rw [← hvalue]
  push_cast
  congr 1
  ring

/-! ## 4. Numbers -/

/-- What rounds to a binary64 number is read as it, with either sign. -/
theorem ofRat_signed {v : Rat} (hv : 0 < v) (hnearest : Binary64.nearest v = x)
    (hfinite : x < Binary64.overflow) (negative : Bool) :
    ofRat (if negative then -v else v) = .finite (if negative then -x else x) := by
  have hnot : ¬ Binary64.overflow ≤ x := not_le.2 hfinite
  cases negative with
  | true => simp [ofRat, hv, hv.ne', hnearest, hnot]
  | false => simp [ofRat, hv.not_gt, hv.ne', hnearest, hnot]

theorem toList_text_signed (hx : 0 < x) (negative : Bool) :
    (finite (if negative then -x else x)).text.toList =
      if negative then '-' :: positiveText x else positiveText x := by
  cases negative with
  | true => simp [text, hx, hx.ne']
  | false => simp [text, hx.not_gt, hx.ne']

/-- A decimal is taken for nothing else. -/
theorem ofChars?_of_decimal? {cs : List Char} {q : Rat} (h : decimal? cs = some q) (negative : Bool) :
    ofChars? (if negative then '-' :: cs else cs) =
      some (ofRat (if negative then -q else q)) := by
  have hunsigned (negative : Bool) : unsigned? negative cs =
      some (ofRat (if negative then -q else q)) := by
    have hinfinity : cs ≠ "Infinity".toList := by
      rintro rfl
      cases h
    rw [unsigned?, if_neg hinfinity, h, Option.map_some]
  cases negative with
  | true => exact hunsigned true
  | false =>
    have hnan : cs ≠ "NaN".toList := by
      rintro rfl
      cases h
    rw [if_neg Bool.false_ne_true, ofChars?, if_neg hnan, hunsigned]
    rintro more rfl
    cases h

/-- A binary64 number reads back with its sign. -/
theorem ofChars?_text_signed (hx : 0 < x) (hnearest : Binary64.nearest x = x)
    (hfinite : x < Binary64.overflow) (negative : Bool) :
    ofChars? (finite (if negative then -x else x)).text.toList =
      some (.finite (if negative then -x else x)) := by
  obtain ⟨hpos, hback⟩ := shortest_spec hx hnearest
  have hvalue : (0 : Rat) < (shortest x).1 * 10 ^ (shortest x).2 :=
    mul_pos (by exact_mod_cast hpos) (zpow_pos (by norm_num) _)
  rw [toList_text_signed hx, ofChars?_of_decimal? (decimal?_positiveText hpos),
    ofRat_signed hvalue hback hfinite]

theorem ofChars?_text_zero : ofChars? (finite 0).text.toList = some (.finite 0) := by
  have hdigits : ∀ d ∈ ['0'], d.isDigit = true := List.forall_mem_singleton.2 rfl
  have hdecimal : decimal? ['0'] = some 0 := by
    have hend : exponent? [] = some 0 := rfl
    have hread := decimal?_whole (List.cons_ne_nil '0' []) hdigits hend
    rw [List.append_nil] at hread
    exact hread.trans (congrArg some (zero_mul _))
  exact ofChars?_of_decimal? hdecimal false

theorem ofChars?_text_infinite (negative : Bool) :
    ofChars? (infinite negative).text.toList = some (.infinite negative) := by
  cases negative <;> rfl

theorem ofChars?_text_undefined : ofChars? undefined.text.toList = some .undefined := by
  have htext : undefined.text.toList = "NaN".toList := rfl
  rw [htext, ofChars?, if_pos rfl]
  rintro more ⟨⟩

theorem ofChars?_text_ofRat (q : Rat) : ofChars? (ofRat q).text.toList = some (ofRat q) := by
  by_cases hq : q = 0
  · rw [ofRat, if_pos hq]
    exact ofChars?_text_zero
  have hsize : 0 < if q < 0 then -q else q := by
    split
    · next hneg => exact neg_pos.2 hneg
    · next hneg => exact lt_of_le_of_ne (not_lt.1 hneg) (Ne.symm hq)
  simp only [ofRat, if_neg hq]
  generalize (if q < 0 then -q else q) = size at hsize
  split
  · exact ofChars?_text_infinite _
  · next hfinite =>
    rcases (Binary64.nearest_nonneg hsize.le).eq_or_lt with hzero | hpos
    · simp only [← hzero, neg_zero, ite_self]
      exact ofChars?_text_zero
    · have hread := ofChars?_text_signed hpos (Binary64.nearest_nearest hsize hpos)
        (not_le.1 hfinite) (decide (q < 0))
      simpa only [decide_eq_true_eq] using hread

/-- **Multiples of numbers read back**, whatever the numbers are. -/
theorem ofChars?_text_scale (k : Nat) (x : Number) :
    ofChars? (x.scale k).text.toList = some (x.scale k) := by
  cases x with
  | finite q => exact ofChars?_text_ofRat (k * q)
  | infinite negative =>
    rw [scale]
    split
    · exact ofChars?_text_undefined
    · exact ofChars?_text_infinite negative
  | undefined => exact ofChars?_text_undefined

end Clocked.Number
