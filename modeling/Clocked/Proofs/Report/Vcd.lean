/-
Clocked.Proofs.Report.Vcd — what the blocks of a dump say.

No two wires have the same identifier (`identifier_injective`), and a name that is declared
more than once goes by its last one (`lookup_declared`). So the block of a sample gives a
value to every identifier that is the last one of its name, the value of that name, and
none to the others (`valuesOf_sample`).
-/
import Mathlib.Data.List.Induction
import Clocked.Proofs.Number.Text
import Clocked.Report.Vcd

namespace Clocked.Vcd

/-! ## 1. Identifiers -/

theorem identifierChars_of_lt {n : Nat} (h : n < radix) : identifierChars n = [digit n] := by
  rw [identifierChars, if_pos h]

theorem identifierChars_of_le {n : Nat} (h : radix ≤ n) :
    identifierChars n = identifierChars (n / radix - 1) ++ [digit (n % radix)] := by
  rw [identifierChars, if_neg (Nat.not_lt.2 h)]

theorem identifierChars_ne_nil (n : Nat) : identifierChars n ≠ [] := by
  rcases Nat.lt_or_ge n radix with hlt | hle
  · simp [identifierChars_of_lt hlt]
  · simp [identifierChars_of_le hle]

theorem toNat_digit {n : Nat} (h : n < radix) : (digit n).toNat = 33 + n := by
  have hvalid : (33 + n).isValidChar := .inl (by unfold radix at h; omega)
  rw [digit, Char.ofNat, dif_pos hvalid]
  rfl

theorem digit_inj {m n : Nat} (hm : m < radix) (hn : n < radix) (h : digit m = digit n) : m = n := by
  have hnat := congrArg Char.toNat h
  rw [toNat_digit hm, toNat_digit hn] at hnat
  exact Nat.add_left_cancel hnat

/-- Identifiers are printable and have no blanks. -/
theorem toNat_of_mem_identifierChars {n : Nat} {ch : Char} (h : ch ∈ identifierChars n) :
    33 ≤ ch.toNat ∧ ch.toNat < 127 := by
  have hdigit {k : Nat} (hk : k < radix) : 33 ≤ (digit k).toNat ∧ (digit k).toNat < 127 := by
    rw [toNat_digit hk]
    unfold radix at hk
    omega
  induction n using Nat.strongRecOn with
  | ind n ih =>
    rcases Nat.lt_or_ge n radix with hlt | hle
    · rw [identifierChars_of_lt hlt, List.mem_singleton] at h
      exact h ▸ hdigit hlt
    · rw [identifierChars_of_le hle, List.mem_append, List.mem_singleton] at h
      rcases h with h | rfl
      · exact ih _ (by unfold radix at hle ⊢; omega) h
      · exact hdigit (Nat.mod_lt _ (by decide))

theorem identifierChars_injective {m n : Nat} (h : identifierChars m = identifierChars n) :
    m = n := by
  induction m using Nat.strongRecOn generalizing n with
  | ind m ih =>
    rcases Nat.lt_or_ge m radix with hm | hm <;> rcases Nat.lt_or_ge n radix with hn | hn
    · rw [identifierChars_of_lt hm, identifierChars_of_lt hn] at h
      exact digit_inj hm hn (List.singleton_inj.1 h)
    · rw [identifierChars_of_lt hm, identifierChars_of_le hn] at h
      have hlength := congrArg List.length h
      have := List.length_pos_of_ne_nil (identifierChars_ne_nil (n / radix - 1))
      simp only [List.length_append, List.length_singleton] at hlength
      omega
    · rw [identifierChars_of_le hm, identifierChars_of_lt hn] at h
      have hlength := congrArg List.length h
      have := List.length_pos_of_ne_nil (identifierChars_ne_nil (m / radix - 1))
      simp only [List.length_append, List.length_singleton] at hlength
      omega
    · rw [identifierChars_of_le hm, identifierChars_of_le hn] at h
      obtain ⟨hmore, hlast⟩ := List.append_inj' h rfl
      have hquotient := ih (m / radix - 1) (by unfold radix at hm ⊢; omega) hmore
      have hremainder := digit_inj (Nat.mod_lt m (by decide)) (Nat.mod_lt n (by decide))
        (List.singleton_inj.1 hlast)
      unfold radix at hm hn hquotient hremainder
      omega

/-- Different wires have different identifiers. -/
theorem identifier_injective {m n : Nat} (h : identifier m = identifier n) : m = n :=
  identifierChars_injective (String.ofList_injective h)

/-! ## 2. Declarations -/

variable {names : List String} {n id : String} {i : Nat}

/-- The last place of a name. -/
def IsLast (names : List String) (n : String) (i : Nat) : Prop :=
  names[i]? = some n ∧ ∀ j, i < j → names[j]? ≠ some n

theorem declared_append (names : List String) (name : String) :
    declared (names ++ [name]) = declared names ++ [(name, identifier names.length)] := by
  simp [declared, List.zipIdx_append]

theorem isLast_append_self : IsLast (names ++ [n]) n i ↔ i = names.length := by
  constructor
  · rintro ⟨hi, hlast⟩
    have hlt := (List.getElem?_eq_some_iff.1 hi).1
    rw [List.length_append, List.length_singleton] at hlt
    by_contra hne
    exact hlast names.length (by omega) (by simp)
  · rintro rfl
    refine ⟨by simp, fun j hj => ?_⟩
    have hend : (names ++ [n]).length ≤ j := by
      rw [List.length_append]
      exact hj
    rw [List.getElem?_eq_none hend]
    nofun

theorem isLast_append_of_ne {name : String} (h : n ≠ name) :
    IsLast (names ++ [name]) n i ↔ IsLast names n i := by
  have hplace (j : Nat) : (names ++ [name])[j]? = some n ↔ names[j]? = some n := by
    rw [List.getElem?_append]
    split
    · rfl
    · next hj =>
      rw [List.getElem?_eq_none (Nat.not_lt.1 hj), List.getElem?_singleton]
      split <;> simp [Ne.symm h]
  unfold IsLast
  simp only [ne_eq, hplace]

/-- A name goes by the last identifier that is declared for it. -/
theorem lookup_declared :
    (declared names).reverse.lookup n = some id ↔ ∃ i, IsLast names n i ∧ id = identifier i := by
  induction names using List.reverseRecOn with
  | nil => simp [declared, IsLast]
  | append_singleton names name ih =>
    rw [declared_append, List.reverse_append, List.reverse_singleton, List.singleton_append,
      Table.lookup_cons_eq_ite]
    by_cases hname : n = name
    · subst hname
      simp only [if_true, isLast_append_self, exists_eq_left, Option.some.injEq]
      exact eq_comm
    · simp only [if_neg hname, ih, isLast_append_of_ne hname]

/-! ## 3. Blocks -/

/-- The value that a line gives to an identifier. -/
def valueOf? (id line : String) : Option Bool :=
  if line = valueLine true id then some true
  else if line = valueLine false id then some false
  else none

/-- The values that lines give to an identifier, in order. -/
def valuesOf (id : String) (lines : List String) : List Bool := lines.filterMap (valueOf? id)

theorem valueLine_inj {v v' : Bool} {id' : String} (h : valueLine v id = valueLine v' id') :
    v = v' ∧ id = id' := by
  have hchars := congrArg String.toList h
  cases v <;> cases v' <;> simp [valueLine, String.toList_append] at hchars ⊢
  · exact String.toList_injective hchars
  · exact String.toList_injective hchars

/-- A line gives its value to its identifier, and to no other. -/
theorem valueOf?_valueLine (v : Bool) (id' : String) :
    valueOf? id (valueLine v id') = if id' = id then some v else none := by
  unfold valueOf?
  by_cases h : id' = id
  · subst h
    cases v with
    | true => simp
    | false =>
      have hne : valueLine false id' ≠ valueLine true id' := fun heq => nomatch (valueLine_inj heq).1
      simp [hne]
  · have hne (v' : Bool) : valueLine v id' ≠ valueLine v' id := fun heq => h (valueLine_inj heq).2
    simp [h, hne]

/-- The lines of a block behind its time. -/
def blockLines (names : List String) (values : Table Bool) : List String :=
  values.entries.filterMap fun (name, v) => ((declared names).reverse.lookup name).map (valueLine v)

/-- The values that the block of a sample gives to an identifier. -/
theorem valuesOf_blockLines (names : List String) (values : Table Bool) (i : Nat) :
    valuesOf (identifier i) (blockLines names values) = values.entries.filterMap fun (name, v) =>
      if (declared names).reverse.lookup name = some (identifier i) then some v else none := by
  rw [valuesOf, blockLines, List.filterMap_filterMap]
  refine List.filterMap_congr fun (name, v) _ => ?_
  show (((declared names).reverse.lookup name).map (valueLine v)).bind (valueOf? (identifier i)) =
    if (declared names).reverse.lookup name = some (identifier i) then some v else none
  cases (declared names).reverse.lookup name with
  | none => simp
  | some id' => simp [valueOf?_valueLine]

theorem filterMap_of_mem {l : List String} (f : String → Bool) (hnodup : l.Nodup) (hmem : n ∈ l) :
    l.filterMap (fun m => if m = n then some (f m) else none) = [f n] := by
  induction l with
  | nil => cases hmem
  | cons m l ih =>
    obtain ⟨hm, hl⟩ := List.nodup_cons.1 hnodup
    by_cases hmn : m = n
    · subst hmn
      have hrest : l.filterMap (fun k => if k = m then some (f k) else none) = [] := by
        refine List.filterMap_eq_nil_iff.2 fun k hk => if_neg ?_
        rintro rfl
        exact hm hk
      simp [hrest]
    · simp [hmn, ih hl (List.mem_of_ne_of_mem (Ne.symm hmn) hmem)]

/-- If all names are sampled, the last identifier of a name gets the value of the name, and its
other identifiers get none. -/
theorem valuesOf_sample (f : String → Bool) (hi : names[i]? = some n) :
    (IsLast names n i → valuesOf (identifier i)
      (blockLines names (Table.ofList (names.map fun n => (n, f n)))) = [f n]) ∧
    (¬ IsLast names n i → valuesOf (identifier i)
      (blockLines names (Table.ofList (names.map fun n => (n, f n)))) = []) := by
  have hlookup (m : String) : (declared names).reverse.lookup m = some (identifier i) ↔
      m = n ∧ IsLast names n i := by
    rw [lookup_declared]
    constructor
    · rintro ⟨j, hj, heq⟩
      cases identifier_injective heq
      cases hi.symm.trans hj.1
      exact ⟨rfl, hj⟩
    · rintro ⟨rfl, hlast⟩
      exact ⟨i, hlast, rfl⟩
  rw [valuesOf_blockLines, Table.entries_ofList_map, List.filterMap_map]
  refine ⟨fun hlast => ?_, fun hnot => ?_⟩
  · simp only [Function.comp_apply, hlookup, hlast, and_true]
    exact filterMap_of_mem f (Table.nodup_eraseDups names)
      (List.mem_eraseDups.2 (List.mem_of_getElem? hi))
  · refine List.filterMap_eq_nil_iff.2 fun m _ => ?_
    simp [hlookup, hnot]

/-! ## 4. Lines -/

/-- The lines in front of the blocks. -/
def heading (names : List String) : List String :=
  ["$timescale 1ns $end", "$scope module top $end"] ++
    (declared names).map (fun (name, id) => declaration name id) ++
    ["$upscope $end", "$enddefinitions $end"]

theorem lines_eq (samples : List Sample) (names : List String) :
    lines samples names = heading names ++
      samples.flatMap fun s => timeLine s.cycle :: blockLines names s.values := rfl

theorem mem_declared {p : String × String} (h : p ∈ declared names) :
    p.1 ∈ names ∧ ∃ i, i < names.length ∧ p.2 = identifier i := by
  obtain ⟨⟨name, i⟩, hmem, rfl⟩ := List.mem_map.1 h
  obtain ⟨-, hi, hname⟩ := List.mem_zipIdx hmem
  rw [Nat.zero_add] at hi
  refine ⟨?_, i, hi, rfl⟩
  show name ∈ names
  rw [hname]
  exact List.getElem_mem _

/-- Behind the time there is nothing but values of declared identifiers. -/
theorem mem_blockLines {values : Table Bool} {line : String}
    (h : line ∈ blockLines names values) :
    ∃ i v, i < names.length ∧ line = valueLine v (identifier i) := by
  obtain ⟨⟨name, v⟩, -, hline⟩ := List.mem_filterMap.1 h
  obtain ⟨id, hid, rfl⟩ := Option.map_eq_some_iff.1 hline
  obtain ⟨i, hi, rfl⟩ := lookup_declared.1 hid
  exact ⟨i, v, (List.getElem?_eq_some_iff.1 hi.1).1, rfl⟩

/-- Blanks and line ends are in no identifier. -/
theorem notMem_identifier {ch : Char} (h : ch.toNat < 33) (n : Nat) :
    ch ∉ (identifier n).toList := by
  rw [identifier, String.toList_ofList]
  intro hmem
  exact absurd (toNat_of_mem_identifierChars hmem).1 (Nat.not_le_of_lt h)

theorem toList_declaration (name id : String) :
    (declaration name id).toList =
      "$var wire 1 ".toList ++ id.toList ++ " ".toList ++ name.toList ++ " $end".toList := by
  delta declaration
  simp only [String.toList_append]

theorem newline_notMem_declaration {name : String} (hname : '\n' ∉ name.toList) (i : Nat) :
    '\n' ∉ (declaration name (identifier i)).toList := by
  simp only [toList_declaration, List.mem_append, not_or]
  exact ⟨⟨⟨⟨by decide, notMem_identifier (by decide) i⟩, by decide⟩, hname⟩, by decide⟩

/-- If the names are on one line each, so are all lines of the dump. -/
theorem newline_notMem_lines {samples : List Sample} (hnames : ∀ n ∈ names, '\n' ∉ n.toList) :
    ∀ line ∈ lines samples names, '\n' ∉ line.toList := by
  intro line hline
  rw [lines_eq] at hline
  simp only [heading, List.mem_append, List.mem_flatMap, List.mem_cons, List.mem_map] at hline
  rcases hline with ((hline | ⟨⟨name, id⟩, hp, rfl⟩) | hline) | ⟨s, -, rfl | hline⟩
  · rcases hline with rfl | rfl | hnone
    · decide
    · decide
    · cases hnone
  · obtain ⟨hname, i, -, rfl⟩ := mem_declared hp
    exact newline_notMem_declaration (hnames name hname) i
  · rcases hline with rfl | rfl | hnone
    · decide
    · decide
    · cases hnone
  · simp [timeLine, String.toList_append, Number.newline_notMem_text]
  · obtain ⟨i, v, -, rfl⟩ := mem_blockLines hline
    have hid : '\n' ∉ (identifier i).toList := notMem_identifier (by decide) i
    cases v <;> simp [valueLine, String.toList_append, hid]

/-- Blocks are ten units apart. -/
theorem timeLine_ofNat {t : Nat} (h : 10 * t ≤ 2 ^ 53) :
    timeLine (.ofNat t) = "#" ++ toString (10 * t) := by
  rw [timeLine, unitsPerCycle, Number.scale_ofNat h, Number.text_ofNat h]

end Clocked.Vcd
