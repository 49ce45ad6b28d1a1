/-
Clocked.Proofs.Report.Identifiers — identifiers number the printable words.

Every row of printable characters but the empty one is the identifier of a number, and of one
only (`identifier_bijOn`). A row with a last character is reached from the number of the row in
front of it (`identifierChars_snoc`): one more than that number says how many full rounds
through the characters come first, which is where the numbering differs from one with a zero
digit. Since dividing keeps the order of numbers, shorter rows come first
(`length_identifierChars_mono`).
-/
import Mathlib.Data.List.Induction
import Mathlib.Data.Set.Function
import Clocked.Proofs.Report.Vcd

namespace Clocked.Vcd

/-! ## 1. The characters of identifiers -/

/-- Whether identifiers may be made of a character. -/
def IsDigit (ch : Char) : Prop := '!' ≤ ch ∧ ch ≤ '~'

theorem isDigit_iff {ch : Char} : IsDigit ch ↔ 33 ≤ ch.toNat ∧ ch.toNat < 127 := by
  have hmin : '!' ≤ ch ↔ 33 ≤ ch.toNat := UInt32.le_iff_toNat_le
  have hmax : ch ≤ '~' ↔ ch.toNat ≤ 126 := UInt32.le_iff_toNat_le
  rw [IsDigit, hmin, hmax]
  omega

/-- Every such character is the digit of a number below the radix. -/
theorem exists_digit_eq {ch : Char} (h : IsDigit ch) : ∃ k, k < radix ∧ digit k = ch := by
  obtain ⟨hmin, hmax⟩ := isDigit_iff.1 h
  refine ⟨ch.toNat - 33, by unfold radix; omega, ?_⟩
  rw [digit, Nat.add_sub_cancel' hmin, Char.ofNat_toNat]

/-! ## 2. Rows of characters -/

/-- Appending a character to a row. Behind each row stands a full round of longer ones, and a
round of single characters comes first of all, so it is the successor that is multiplied. -/
theorem identifierChars_snoc (n : Nat) {k : Nat} (hk : k < radix) :
    identifierChars ((n + 1) * radix + k) = identifierChars n ++ [digit k] := by
  have hpos : 0 < radix := by decide
  have hle : radix ≤ (n + 1) * radix + k :=
    (Nat.le_mul_of_pos_left radix n.succ_pos).trans (Nat.le_add_right _ k)
  have hquotient : ((n + 1) * radix + k) / radix = n + 1 := by
    rw [Nat.add_comm, Nat.add_mul_div_right _ _ hpos, Nat.div_eq_of_lt hk, Nat.zero_add]
  have hremainder : ((n + 1) * radix + k) % radix = k := by
    rw [Nat.add_comm, Nat.add_mul_mod_self_right, Nat.mod_eq_of_lt hk]
  rw [identifierChars_of_le hle, hquotient, hremainder, Nat.add_sub_cancel]

/-- Every row of identifier characters belongs to a number. -/
theorem exists_identifierChars_eq {cs : List Char} (hne : cs ≠ []) (hcs : ∀ ch ∈ cs, IsDigit ch) :
    ∃ n, identifierChars n = cs := by
  induction cs using List.reverseRecOn with
  | nil => exact absurd rfl hne
  | append_singleton cs ch ih =>
    obtain ⟨k, hk, rfl⟩ := exists_digit_eq (hcs ch (by simp))
    by_cases hmore : cs = []
    · subst hmore
      exact ⟨k, identifierChars_of_lt hk⟩
    · obtain ⟨n, rfl⟩ := ih hmore fun ch hch => hcs ch (List.mem_append_left _ hch)
      exact ⟨(n + 1) * radix + k, identifierChars_snoc n hk⟩

/-- The rows do not get shorter. -/
theorem length_identifierChars_mono {m n : Nat} (h : m ≤ n) :
    (identifierChars m).length ≤ (identifierChars n).length := by
  induction m using Nat.strongRecOn generalizing n with
  | ind m ih =>
    rcases Nat.lt_or_ge m radix with hm | hm
    · rw [identifierChars_of_lt hm]
      exact List.length_pos_of_ne_nil (identifierChars_ne_nil n)
    · have hquotient : m / radix - 1 ≤ n / radix - 1 :=
        Nat.sub_le_sub_right (Nat.div_le_div_right h) 1
      have hmore := ih (m / radix - 1) (by unfold radix at hm ⊢; omega) hquotient
      rw [identifierChars_of_le hm, identifierChars_of_le (hm.trans h), List.length_append,
        List.length_append]
      exact Nat.add_le_add_right hmore _

/-! ## 3. Identifiers -/

/-- **Identifiers number the printable words**: different numbers have different identifiers,
every word of characters from `!` to `~` but the empty one is one, and none is longer than that of a
greater number. -/
theorem identifier_bijOn :
    Set.BijOn identifier Set.univ {s | s ≠ "" ∧ ∀ ch ∈ s.toList, '!' ≤ ch ∧ ch ≤ '~'} ∧
      Monotone fun n => (identifier n).length := by
  refine ⟨⟨?maps, ?injective, ?onto⟩, ?monotone⟩
  case maps =>
    intro n _
    constructor
    · intro hempty
      exact identifierChars_ne_nil n (String.ofList_injective hempty)
    · intro ch hch
      rw [identifier, String.toList_ofList] at hch
      exact isDigit_iff.2 (toNat_of_mem_identifierChars hch)
  case injective =>
    intro m _ n _ h
    exact identifier_injective h
  case onto =>
    rintro s ⟨hne, hs⟩
    have hchars : s.toList ≠ [] := by
      intro hnil
      exact hne (String.toList_injective hnil)
    obtain ⟨n, hn⟩ := exists_identifierChars_eq hchars hs
    exact ⟨n, trivial, by rw [identifier, hn, String.ofList_toList]⟩
  case monotone =>
    intro m n h
    simpa [identifier] using length_identifierChars_mono h

/-- The last identifiers of one and of two characters, with the ones that follow them. -/
example : [93, 94, 94 + 94 * 94 - 1, 94 + 94 * 94].map identifier = ["~", "!!", "~~", "!!!"] := by
  cbv

end Clocked.Vcd
