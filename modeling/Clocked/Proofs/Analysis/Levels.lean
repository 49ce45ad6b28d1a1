/-
Clocked.Proofs.Analysis.Levels — the levels of updates solve their equation.

Passes over the updates only ever add levels (`Extends`), and the level they add
is one more than the greatest level that the update reads, then and for good
(`Consistent`). When no pass adds anything any more, every update whose signals
have levels has one itself (`Saturated`); as every pass but the last gives a
level to an update that had none, there are as many passes as needed.

`assignment_output` puts this together: if every update has an output of its
own, the level of an update is exactly what the levels of its signals make it.
-/
import Mathlib.Data.List.Nodup
import Clocked.Analysis.Levels

namespace Clocked

/-! ## 1. Tables that grow -/

namespace Table

variable {β : Type} {t t' t'' : Table β}

/-- A table that holds all that another holds. -/
def Extends (t' t : Table β) : Prop := ∀ n v, t.get? n = some v → t'.get? n = some v

theorem Extends.refl (t : Table β) : t.Extends t := fun _ _ h => h

theorem Extends.trans (h' : t''.Extends t') (h : t'.Extends t) : t''.Extends t :=
  fun n v hv => h' n v (h n v hv)

theorem Extends.contains (h : t'.Extends t) {n : String} (hn : t.contains n = true) :
    t'.contains n = true := by
  obtain ⟨v, hv⟩ := Option.isSome_iff_exists.1 hn
  exact Option.isSome_iff_exists.2 ⟨v, h n v hv⟩

theorem extends_set {k : String} (h : t.contains k = false) (v : β) : (t.set k v).Extends t := by
  intro n w hw
  have hne : n ≠ k := by
    rintro rfl
    rw [contains, hw] at h
    cases h
  rw [get?_set_of_ne t hne, hw]

theorem size_set_of_new {k : String} (h : t.contains k = false) (v : β) :
    (t.set k v).size = t.size + 1 := by
  have hk : k ∉ t.keys := by
    rw [← contains_iff, h]
    exact Bool.false_ne_true
  have hkeys := congrArg List.length (keys_set t k v)
  rw [if_neg hk, List.length_append] at hkeys
  simpa [keys, size] using hkeys

end Table

namespace Levels

variable {us : List Update} {signals : List String} {t t' : Table Nat} {u : Update}

/-! ## 2. The level of one update -/

theorem mapM_get?_isSome_iff {names : List String} :
    (names.mapM t.get?).isSome ↔ ∀ n ∈ names, (t.get? n).isSome := by
  induction names with
  | nil => simp
  | cons n names ih =>
    rw [List.mapM_cons, List.forall_mem_cons, ← ih]
    cases t.get? n <;> cases names.mapM t.get? <;> simp

/-- An update has a level once all signals it reads have one. -/
theorem levelOf?_isSome_iff :
    (levelOf? t u).isSome ↔ ∀ n ∈ u.dependencies, (t.get? n).isSome := by
  rw [levelOf?, Option.isSome_map, mapM_get?_isSome_iff]

theorem mem_of_mapM_get? {names : List String} {levels : List Nat}
    (h : names.mapM t.get? = some levels) {n : String} (hn : n ∈ names) {k : Nat}
    (hk : t.get? n = some k) : k ∈ levels := by
  induction names generalizing levels with
  | nil => cases hn
  | cons m names ih =>
    rw [List.mapM_cons] at h
    obtain ⟨j, hj, hrest⟩ := Option.bind_eq_some_iff.1 h
    obtain ⟨more, hmore, hlevels⟩ := Option.bind_eq_some_iff.1 hrest
    cases hlevels
    rcases List.mem_cons.1 hn with rfl | hn
    · cases hj.symm.trans hk
      exact List.mem_cons_self
    · exact List.mem_cons_of_mem _ (ih hmore hn)

theorem le_foldl_max {levels : List Nat} {start k : Nat} (h : k ≤ start ∨ k ∈ levels) :
    k ≤ levels.foldl max start := by
  induction levels generalizing start with
  | nil => exact h.resolve_right (by simp)
  | cons j levels ih =>
    refine ih ?_
    rcases h with h | h
    · exact .inl (Nat.le_trans h (Nat.le_max_left start j))
    · rcases List.mem_cons.1 h with rfl | h
      · exact .inl (Nat.le_max_right start k)
      · exact .inr h

/-- An update lies deeper than the signals it reads. -/
theorem lt_of_levelOf? {k j : Nat} {n : String} (h : levelOf? t u = some k)
    (hn : n ∈ u.dependencies) (hj : t.get? n = some j) : j < k := by
  obtain ⟨levels, hlevels, rfl⟩ := Option.map_eq_some_iff.1 h
  exact Nat.lt_succ_of_le (le_foldl_max (.inr (mem_of_mapM_get? hlevels hn hj)))

theorem pos_of_levelOf? {k : Nat} (h : levelOf? t u = some k) : 0 < k := by
  obtain ⟨levels, -, rfl⟩ := Option.map_eq_some_iff.1 h
  exact Nat.succ_pos _

theorem mapM_get?_extends (hext : t'.Extends t) {names : List String} {levels : List Nat}
    (h : names.mapM t.get? = some levels) : names.mapM t'.get? = some levels := by
  induction names generalizing levels with
  | nil => exact h
  | cons n names ih =>
    rw [List.mapM_cons] at h ⊢
    obtain ⟨j, hj, hrest⟩ := Option.bind_eq_some_iff.1 h
    obtain ⟨more, hmore, hlevels⟩ := Option.bind_eq_some_iff.1 hrest
    cases hlevels
    rw [hext n j hj, ih hmore]
    rfl

/-- The levels that are there decide the level of an update for good. -/
theorem levelOf?_extends (hext : t'.Extends t) {k : Nat} (h : levelOf? t u = some k) :
    levelOf? t' u = some k := by
  obtain ⟨levels, hlevels, rfl⟩ := Option.map_eq_some_iff.1 h
  rw [levelOf?, mapM_get?_extends hext hlevels]
  rfl

/-! ## 3. One update, one pass -/

theorem assign_extends (t : Table Nat) (u : Update) : (assign t u).Extends t := by
  unfold assign
  split
  · exact .refl t
  · next hnew =>
    split
    · exact Table.extends_set (by simpa using hnew) _
    · exact .refl t

theorem pass_extends (us : List Update) (t : Table Nat) : (pass us t).Extends t := by
  induction us generalizing t with
  | nil => exact .refl t
  | cons u us ih => exact (ih (assign t u)).trans (assign_extends t u)

/-- No update can be given a level any more. -/
def Saturated (us : List Update) (t : Table Nat) : Prop :=
  ∀ u ∈ us, t.contains u.output = true ∨ levelOf? t u = none

/-- An update is passed over, or it gets the level that it lacked. -/
theorem assign_cases (t : Table Nat) (u : Update) :
    assign t u = t ∧ (t.contains u.output = true ∨ levelOf? t u = none) ∨
      t.contains u.output = false ∧ (assign t u).contains u.output = true ∧
        (assign t u).size = t.size + 1 := by
  unfold assign
  by_cases hknown : t.contains u.output = true
  · exact .inl ⟨if_pos hknown, .inl hknown⟩
  · have hnew : t.contains u.output = false := by simpa using hknown
    rw [if_neg hknown]
    cases hlevel : levelOf? t u with
    | none => exact .inl ⟨rfl, .inr rfl⟩
    | some k => exact .inr ⟨hnew, by simp [Table.contains], Table.size_set_of_new hnew k⟩

/-- A pass over saturated updates does nothing; any other gives an update a
level that it lacked. -/
theorem pass_cases (us : List Update) (t : Table Nat) :
    pass us t = t ∧ Saturated us t ∨
      t.size < (pass us t).size ∧
        ∃ u ∈ us, t.contains u.output = false ∧ (pass us t).contains u.output = true := by
  induction us generalizing t with
  | nil => exact .inl ⟨rfl, nofun⟩
  | cons u us ih =>
    rw [pass, List.foldl_cons, ← pass]
    rcases assign_cases t u with ⟨hsame, hu⟩ | ⟨hnew, hknown, hsize⟩
    · rw [hsame]
      rcases ih t with ⟨hpass, hsat⟩ | ⟨hlt, v, hv, hvnew, hvknown⟩
      · exact .inl ⟨hpass, List.forall_mem_cons.2 ⟨hu, hsat⟩⟩
      · exact .inr ⟨hlt, v, List.mem_cons_of_mem u hv, hvnew, hvknown⟩
    · refine .inr ⟨?_, u, List.mem_cons_self, hnew, (pass_extends us _).contains hknown⟩
      rcases ih (assign t u) with ⟨hpass, -⟩ | ⟨hlt, -⟩
      · rw [hpass, hsize]
        exact Nat.lt_succ_self _
      · omega

/-! ## 4. All passes -/

/-- The updates without level. -/
def waiting (us : List Update) (t : Table Nat) : List Update :=
  us.filter fun u => !t.contains u.output

/-- With a level more there are fewer updates without one. -/
theorem length_waiting_lt (hext : t'.Extends t) (hu : u ∈ us) (hnew : t.contains u.output = false)
    (hknown : t'.contains u.output = true) : (waiting us t').length < (waiting us t).length := by
  have hsub : waiting us t' = (waiting us t).filter fun v => !t'.contains v.output := by
    rw [waiting, waiting, List.filter_filter]
    refine List.filter_congr fun v _ => ?_
    cases hv : t.contains v.output with
    | false => simp
    | true => simp [hext.contains hv]
  rw [hsub]
  refine List.length_filter_lt_length_iff_exists.2 ⟨u, ?_, by simp [hknown]⟩
  exact List.mem_filter.2 ⟨hu, by simp [hnew]⟩

/-- With as many passes as updates without level the end is reached. -/
theorem saturate_spec (fuel : Nat) (t : Table Nat) (h : (waiting us t).length ≤ fuel) :
    Saturated us (saturate us fuel t) := by
  induction fuel generalizing t with
  | zero =>
    intro u hu
    have hnone : waiting us t = [] := List.eq_nil_of_length_eq_zero (Nat.le_zero.1 h)
    have hknown := List.filter_eq_nil_iff.1 hnone u hu
    rw [Bool.not_eq_true', Bool.not_eq_false] at hknown
    exact .inl hknown
  | succ fuel ih =>
    rw [saturate]
    rcases pass_cases us t with ⟨hpass, hsat⟩ | ⟨hlt, u, hu, hnew, hknown⟩
    · rw [if_pos (by rw [hpass])]
      exact hsat
    · rw [if_neg (by omega)]
      have := length_waiting_lt (pass_extends us t) hu hnew hknown
      exact ih (pass us t) (by omega)

/-- Level 0 is for the given signals, and an update's level is what the levels
of its signals make it. -/
structure Consistent (us : List Update) (signals : List String) (t : Table Nat) : Prop where
  ground : ∀ n ∈ signals, t.get? n = some 0
  level : ∀ n k, t.get? n = some k →
    n ∈ signals ∧ k = 0 ∨ ∃ u ∈ us, u.output = n ∧ levelOf? t u = some k

theorem get?_ground (signals : List String) (n : String) :
    (ground signals).get? n = if n ∈ signals then some 0 else none :=
  Table.get?_ofList_map (fun _ => 0) signals n

theorem consistent_ground (us : List Update) (signals : List String) :
    Consistent us signals (ground signals) where
  ground := fun n hn => by rw [get?_ground, if_pos hn]
  level := by
    intro n k hk
    rw [get?_ground] at hk
    split at hk
    · next hn =>
      cases hk
      exact .inl ⟨hn, rfl⟩
    · cases hk

theorem Consistent.assign (h : Consistent us signals t) (hu : u ∈ us) :
    Consistent us signals (assign t u) := by
  have hext := assign_extends t u
  refine ⟨fun n hn => hext n 0 (h.ground n hn), fun n k hk => ?_⟩
  -- levels from before stay what they are, and the new one is read off the update
  have hold : t.get? n = some k →
      n ∈ signals ∧ k = 0 ∨ ∃ v ∈ us, v.output = n ∧ levelOf? (Levels.assign t u) v = some k := by
    intro hk
    refine (h.level n k hk).imp id ?_
    rintro ⟨v, hv, hout, hlevel⟩
    exact ⟨v, hv, hout, levelOf?_extends hext hlevel⟩
  by_cases hknown : t.contains u.output = true
  · rw [Levels.assign, if_pos hknown] at hk
    exact hold hk
  · cases hlevel : levelOf? t u with
    | none =>
      rw [Levels.assign, if_neg hknown, hlevel] at hk
      exact hold hk
    | some j =>
      have hget : (Levels.assign t u).get? n = if n = u.output then some j else t.get? n := by
        rw [Levels.assign, if_neg hknown, hlevel]
        exact Table.get?_set t u.output j n
      rw [hget] at hk
      split at hk
      · next hn =>
        cases hk
        exact .inr ⟨u, hu, hn.symm, levelOf?_extends hext hlevel⟩
      · exact hold hk

theorem Consistent.pass (h : Consistent us signals t) : Consistent us signals (pass us t) := by
  have hfold : ∀ vs : List Update, (∀ v ∈ vs, v ∈ us) → ∀ t, Consistent us signals t →
      Consistent us signals (Levels.pass vs t) := by
    intro vs
    induction vs with
    | nil => exact fun _ t ht => ht
    | cons v vs ih =>
      intro hvs t ht
      obtain ⟨hv, hvs⟩ := List.forall_mem_cons.1 hvs
      exact ih hvs _ (ht.assign hv)
  exact hfold us (fun _ hv => hv) t h

theorem Consistent.saturate (h : Consistent us signals t) (fuel : Nat) :
    Consistent us signals (saturate us fuel t) := by
  induction fuel generalizing t with
  | zero => exact h
  | succ fuel ih =>
    rw [Levels.saturate]
    split
    · exact h
    · exact ih h.pass

/-! ## 5. The levels assigned -/

theorem assignment_consistent (us : List Update) (signals : List String) :
    Consistent us signals (assignment us signals) :=
  (consistent_ground us signals).saturate us.length

theorem assignment_saturated (us : List Update) (signals : List String) :
    Saturated us (assignment us signals) :=
  saturate_spec us.length (ground signals) (List.length_filter_le _ us)

/-- What is neither given nor the output of an update has no level. -/
theorem assignment_eq_none {n : String} (hn : n ∉ signals) (hout : n ∉ us.map (·.output)) :
    (assignment us signals).get? n = none := by
  cases hk : (assignment us signals).get? n with
  | none => rfl
  | some k =>
    rcases (assignment_consistent us signals).level n k hk with ⟨hmem, -⟩ | ⟨u, hu, rfl, -⟩
    · exact absurd hmem hn
    · exact absurd (List.mem_map_of_mem hu) hout

/-- The level of an update is what the levels of its signals make it, if no other
update has its output and it is not given. -/
theorem assignment_output (hnd : (us.map (·.output)).Nodup) (hu : u ∈ us)
    (hfresh : u.output ∉ signals) :
    (assignment us signals).get? u.output = levelOf? (assignment us signals) u := by
  cases hk : (assignment us signals).get? u.output with
  | some k =>
    rcases (assignment_consistent us signals).level _ k hk with ⟨hmem, -⟩ | ⟨v, hv, hout, hlevel⟩
    · exact absurd hmem hfresh
    · cases List.inj_on_of_nodup_map hnd hv hu hout
      exact hlevel.symm
  | none =>
    rcases assignment_saturated us signals u hu with hknown | hlevel
    · rw [Table.contains, hk] at hknown
      cases hknown
    · exact hlevel.symm

/-- The updates whose level is as asked, in list order. -/
def updatesAt (us : List Update) (t : Table Nat) (level : Option Nat) : List Update :=
  us.filter fun u => t.get? u.output = level

theorem mem_updatesAt {level : Option Nat} :
    u ∈ updatesAt us t level ↔ u ∈ us ∧ t.get? u.output = level := by
  simp [updatesAt]

/-- The greatest level of an update. -/
def deepest (us : List Update) (t : Table Nat) : Nat :=
  (us.filterMap fun u => t.get? u.output).foldl max 0

theorem le_deepest {k : Nat} (hu : u ∈ us) (hk : t.get? u.output = some k) : k ≤ deepest us t :=
  le_foldl_max (.inr (List.mem_filterMap.2 ⟨u, hu, hk⟩))

/-- The updates level by level, from level 1 on. -/
def schedule (us : List Update) (t : Table Nat) : List Update :=
  (List.range (deepest us t)).flatMap fun i => updatesAt us t (some (i + 1))

theorem mem_schedule :
    u ∈ schedule us t ↔ u ∈ us ∧ ∃ i, t.get? u.output = some (i + 1) := by
  simp only [schedule, List.mem_flatMap, List.mem_range, mem_updatesAt]
  constructor
  · rintro ⟨i, -, hu, hi⟩
    exact ⟨hu, i, hi⟩
  · rintro ⟨hu, i, hi⟩
    exact ⟨i, le_deepest hu hi, hu, hi⟩

theorem nodup_schedule (h : us.Nodup) : (schedule us t).Nodup := by
  rw [schedule, List.nodup_flatMap]
  refine ⟨fun i _ => h.filter _, List.nodup_range.imp fun {i j} hij u hi hj => hij ?_⟩
  have heq := (mem_updatesAt.1 hi).2.symm.trans (mem_updatesAt.1 hj).2
  simpa using heq

/-- The schedule lists shallower updates first. -/
theorem pairwise_schedule (us : List Update) (t : Table Nat) :
    (schedule us t).Pairwise fun u v =>
      ∀ i j, t.get? u.output = some i → t.get? v.output = some j → i ≤ j := by
  rw [schedule, List.pairwise_flatMap]
  constructor
  · intro k _
    refine List.pairwise_of_forall_mem_list fun u hu v hv i j hi hj => ?_
    have hi' := hi.symm.trans (mem_updatesAt.1 hu).2
    have hj' := hj.symm.trans (mem_updatesAt.1 hv).2
    cases hi'
    cases hj'
    exact Nat.le_refl _
  · refine List.pairwise_lt_range.imp fun {k l} hkl u hu v hv i j hi hj => ?_
    have hi' := hi.symm.trans (mem_updatesAt.1 hu).2
    have hj' := hj.symm.trans (mem_updatesAt.1 hv).2
    cases hi'
    cases hj'
    omega

/-- Behind level 0 the levels list the outputs of the schedule. -/
theorem flatten_tail_levels (us : List Update) (signals : List String) :
    (ofUpdates us signals).levels.tail.flatten =
      (schedule us (assignment us signals)).map (·.output) := by
  rw [schedule, List.map_flatMap]
  rfl

end Levels

end Clocked
