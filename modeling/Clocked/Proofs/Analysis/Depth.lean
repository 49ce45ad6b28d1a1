/-
Clocked.Proofs.Analysis.Depth — the levels of updates are the least there are.

`Depth` is the least relation between signals and levels in which the given signals
lie at level 0 and an update lies one deeper than the deepest signal it reads. If
every update has an output of its own, passing over the updates assigns exactly
these levels (`get?_assignment_iff`), so they do not depend on the order of the
updates. An update is left without one exactly if a combinational loop, or a signal
that nothing produces, lies on the way to it (`get?_assignment_eq_none_iff`).

`IsLeast` says what this makes of the lists that are returned, and `isLeast_ofUpdates`
that they are so.
-/
import Mathlib.Data.Fintype.Order
import Clocked.Proofs.Analysis.Levels
import Clocked.Proofs.Analysis.Loops

namespace Clocked

/-- An expression reads some signal. -/
theorem Expr.freeVariables_ne_nil {α : Type} (e : Expr α) : e.freeVariables ≠ [] := by
  induction e with
  | signal _ name => exact List.cons_ne_nil name []
  | and _ l r ihl _ => exact List.append_ne_nil_of_left_ne_nil ihl r.freeVariables
  | or _ l r ihl _ => exact List.append_ne_nil_of_left_ne_nil ihl r.freeVariables
  | not _ e ih => exact ih

namespace Levels

variable {us us' : List Update} {signals : List String} {t : Table Nat} {u : Update}

/-! ## 1. Depth -/

/-- One more than the greatest of the values that `f` gives to some names. -/
def IsAbove (f : String → Nat) (names : List String) (k : Nat) : Prop :=
  (∀ n ∈ names, f n < k) ∧ ∃ n ∈ names, f n + 1 = k

/-- How deep signals lie: the given ones at level 0, and an update, once all signals
that it reads lie somewhere, one deeper than the deepest of them. -/
inductive Depth (us : List Update) (signals : List String) : String → Nat → Prop
  | ground {n : String} (hn : n ∈ signals) : Depth us signals n 0
  | update {u : Update} {f : String → Nat} {k : Nat} (hu : u ∈ us)
      (hreads : ∀ n ∈ u.dependencies, Depth us signals n (f n))
      (habove : IsAbove f u.dependencies k) : Depth us signals u.output k

/-- Only which updates there are counts. -/
theorem Depth.mono (hus : ∀ u ∈ us, u ∈ us') {n : String} {k : Nat} (h : Depth us signals n k) :
    Depth us' signals n k := by
  induction h with
  | ground hn => exact .ground hn
  | update hu _ habove ih => exact .update (hus _ hu) ih habove

theorem IsAbove.unique {f : String → Nat} {names : List String} {j k : Nat}
    (hj : IsAbove f names j) (hk : IsAbove f names k) : j = k := by
  obtain ⟨hjlt, m, hm, rfl⟩ := hj
  obtain ⟨hklt, n, hn, rfl⟩ := hk
  have := hjlt n hn
  have := hklt m hm
  omega

theorem foldl_max_mem (ks : List Nat) (start : Nat) :
    ks.foldl max start = start ∨ ks.foldl max start ∈ ks := by
  induction ks generalizing start with
  | nil => exact .inl rfl
  | cons k ks ih =>
    rw [List.foldl_cons]
    rcases ih (max start k) with h | h
    · rw [h]
      rcases Nat.le_total start k with hle | hle
      · exact .inr (by simp [Nat.max_eq_right hle])
      · exact .inl (Nat.max_eq_left hle)
    · exact .inr (List.mem_cons_of_mem k h)

/-- The greatest value of some names is the value of one of them. -/
theorem isAbove_foldl_max (f : String → Nat) {names : List String} (hne : names ≠ []) :
    IsAbove f names ((names.map f).foldl max 0 + 1) := by
  refine ⟨fun n hn => Nat.lt_succ_of_le (le_foldl_max (.inr (List.mem_map_of_mem hn))), ?_⟩
  rcases foldl_max_mem (names.map f) 0 with hzero | hmem
  · obtain ⟨n, hn⟩ := List.exists_mem_of_ne_nil names hne
    have hle : f n ≤ (names.map f).foldl max 0 :=
      le_foldl_max (.inr (List.mem_map_of_mem hn))
    exact ⟨n, hn, by omega⟩
  · obtain ⟨n, hn, hfn⟩ := List.mem_map.1 hmem
    exact ⟨n, hn, by rw [hfn]⟩

/-! ## 2. Levels are depths -/

theorem mapM_get?_eq_some {f : String → Nat} {names : List String}
    (h : ∀ n ∈ names, t.get? n = some (f n)) : names.mapM t.get? = some (names.map f) := by
  induction names with
  | nil => rfl
  | cons n names ih =>
    rw [List.mapM_cons, h n List.mem_cons_self, ih fun m hm => h m (List.mem_cons_of_mem n hm)]
    rfl

/-- The level of an update is one more than the greatest level that it reads. -/
theorem levelOf?_eq_some_iff {k : Nat} :
    levelOf? t u = some k ↔
      ∃ f : String → Nat, (∀ n ∈ u.dependencies, t.get? n = some (f n)) ∧
        IsAbove f u.dependencies k := by
  have hlevel {f : String → Nat} (hf : ∀ n ∈ u.dependencies, t.get? n = some (f n)) :
      levelOf? t u = some ((u.dependencies.map f).foldl max 0 + 1) := by
    rw [levelOf?, mapM_get?_eq_some hf]
    rfl
  have hne : u.dependencies ≠ [] := u.expr.freeVariables_ne_nil
  constructor
  · intro h
    have hsome := levelOf?_isSome_iff.1 (Option.isSome_of_eq_some h)
    have hf : ∀ n ∈ u.dependencies, t.get? n = some ((t.get? n).getD 0) := by
      intro n hn
      obtain ⟨j, hj⟩ := Option.isSome_iff_exists.1 (hsome n hn)
      rw [hj]
      rfl
    rw [hlevel hf] at h
    cases h
    exact ⟨_, hf, isAbove_foldl_max _ hne⟩
  · rintro ⟨f, hf, hk⟩
    rw [hlevel hf, (isAbove_foldl_max f hne).unique hk]

/-- What is assigned is a depth: by induction on the level. -/
theorem Consistent.depth (h : Consistent us signals t) {n : String} {k : Nat}
    (hk : t.get? n = some k) : Depth us signals n k := by
  induction k using Nat.strong_induction_on generalizing n with
  | _ k ih =>
    rcases h.level n k hk with ⟨hn, rfl⟩ | ⟨u, hu, rfl, hlevel⟩
    · exact .ground hn
    · obtain ⟨f, hf, habove⟩ := levelOf?_eq_some_iff.1 hlevel
      exact .update hu (fun m hm => ih (f m) (habove.1 m hm) (hf m hm)) habove

/-- The levels assigned are the depths. -/
theorem get?_assignment_iff (hnd : (us.map (·.output)).Nodup)
    (hfresh : ∀ u ∈ us, u.output ∉ signals) {n : String} {k : Nat} :
    (assignment us signals).get? n = some k ↔ Depth us signals n k := by
  refine ⟨(assignment_consistent us signals).depth, fun h => ?_⟩
  induction h with
  | ground hn => exact (assignment_consistent us signals).ground _ hn
  | @update u f k hu _ habove ih =>
    rw [assignment_output hnd hu (hfresh u hu)]
    exact levelOf?_eq_some_iff.2 ⟨f, ih, habove⟩

/-! ## 3. Updates without a level -/

/-- The update reads what is neither given nor the output of an update. -/
def ReadsStray (us : List Update) (signals : List String) (u : Update) : Prop :=
  ∃ n ∈ u.dependencies, n ∉ signals ∧ n ∉ us.map (·.output)

/-- Where an update has a level, what feeds it lies less deep. -/
theorem exists_get?_lt_of_transGen (hnd : (us.map (·.output)).Nodup)
    (hfresh : ∀ u ∈ us, u.output ∉ signals) {m n : String}
    (h : Relation.TransGen (Update.Feeds us) m n) {k : Nat}
    (hk : (assignment us signals).get? n = some k) :
    ∃ j, (assignment us signals).get? m = some j ∧ j < k := by
  have hedge : ∀ {d o : String} {k : Nat}, Update.Feeds us d o →
      (assignment us signals).get? o = some k →
      ∃ j, (assignment us signals).get? d = some j ∧ j < k := by
    rintro d o k ⟨-, u, hu, rfl, hd⟩ hk
    rw [assignment_output hnd hu (hfresh u hu)] at hk
    obtain ⟨f, hf, habove⟩ := levelOf?_eq_some_iff.1 hk
    exact ⟨f d, hf d hd, habove.1 d hd⟩
  induction h generalizing k with
  | single hmn => exact hedge hmn hk
  | tail _ hmn ih =>
    obtain ⟨j, hj, hjk⟩ := hedge hmn hk
    obtain ⟨i, hi, hij⟩ := ih hj
    exact ⟨i, hi, Nat.lt_trans hij hjk⟩

/-- An update has a level if nothing on the way to it depends on itself or reads anything
stray: by induction on what it depends on. -/
theorem isSome_get?_of_acyclic (hnd : (us.map (·.output)).Nodup)
    (hfresh : ∀ u ∈ us, u.output ∉ signals) {o : String}
    (hloop : ∀ m, Relation.ReflTransGen (Update.Feeds us) m o →
      ¬ Relation.TransGen (Update.Feeds us) m m)
    (hstray : ∀ u ∈ us, Relation.ReflTransGen (Update.Feeds us) u.output o →
      ¬ ReadsStray us signals u)
    (ho : o ∈ us.map (·.output)) : ((assignment us signals).get? o).isSome := by
  let Upstream := {m // m ∈ us.map (·.output) ∧ Relation.ReflTransGen (Update.Feeds us) m o}
  have hfinite : Finite Upstream :=
    ((List.finite_toSet (us.map (·.output))).subset fun m hm => hm.1).to_subtype
  let before (m n : Upstream) : Prop := Relation.TransGen (Update.Feeds us) m.1 n.1
  have htrans : IsTrans Upstream before := ⟨fun _ _ _ h h' => h.trans h'⟩
  have hirrefl : Std.Irrefl before := ⟨fun m => hloop m.1 m.2.2⟩
  have hwf : WellFounded before := Finite.wellFounded_of_trans_of_irrefl before
  have hall : ∀ m : Upstream, ((assignment us signals).get? m.1).isSome := by
    intro m
    induction m using hwf.induction with
    | _ m ih =>
      obtain ⟨m, hm, hmo⟩ := m
      obtain ⟨u, hu, rfl⟩ := List.mem_map.1 hm
      show ((assignment us signals).get? u.output).isSome
      rw [assignment_output hnd hu (hfresh u hu), levelOf?_isSome_iff]
      intro n hn
      by_cases hground : n ∈ signals
      · rw [(assignment_consistent us signals).ground n hground]
        rfl
      · have hout : n ∈ us.map (·.output) := by
          by_contra hout
          exact hstray u hu hmo ⟨n, hn, hground, hout⟩
        have hfeeds : Update.Feeds us n u.output := ⟨hout, u, hu, rfl, hn⟩
        exact ih ⟨n, hout, hmo.head hfeeds⟩ (.single hfeeds)
  exact hall ⟨o, ho, .refl⟩

/-- An update has no level exactly if, on the way to it, some output depends on itself or
something stray is read. -/
theorem get?_assignment_eq_none_iff (hnd : (us.map (·.output)).Nodup)
    (hfresh : ∀ u ∈ us, u.output ∉ signals) {o : String} (ho : o ∈ us.map (·.output)) :
    (assignment us signals).get? o = none ↔
      (∃ m, Relation.ReflTransGen (Update.Feeds us) m o ∧
        Relation.TransGen (Update.Feeds us) m m) ∨
      ∃ u ∈ us, Relation.ReflTransGen (Update.Feeds us) u.output o ∧
        ReadsStray us signals u := by
  constructor
  · intro hnone
    by_contra hneither
    push Not at hneither
    have hsome := isSome_get?_of_acyclic hnd hfresh (fun m hm => hneither.1 m hm)
      (fun u hu huo => hneither.2 u hu huo) ho
    rw [hnone] at hsome
    cases hsome
  · intro h
    -- a level would give one to everything on the way
    by_contra hne
    obtain ⟨k, hk⟩ := Option.ne_none_iff_exists'.1 hne
    have hup : ∀ {m : String}, Relation.ReflTransGen (Update.Feeds us) m o →
        ∃ j, (assignment us signals).get? m = some j := by
      intro m hm
      rcases Relation.reflTransGen_iff_eq_or_transGen.1 hm with rfl | hpath
      · exact ⟨k, hk⟩
      · obtain ⟨j, hj, -⟩ := exists_get?_lt_of_transGen hnd hfresh hpath hk
        exact ⟨j, hj⟩
    rcases h with ⟨m, hm, hself⟩ | ⟨u, hu, huo, n, hn, hground, hout⟩
    · obtain ⟨j, hj⟩ := hup hm
      obtain ⟨i, hi, hij⟩ := exists_get?_lt_of_transGen hnd hfresh hself hj
      cases hi.symm.trans hj
      exact Nat.lt_irrefl _ hij
    · obtain ⟨j, hj⟩ := hup huo
      rw [assignment_output hnd hu (hfresh u hu)] at hj
      have hsome := levelOf?_isSome_iff.1 (Option.isSome_of_eq_some hj) n hn
      rw [assignment_eq_none hground hout] at hsome
      cases hsome

/-! ## 4. The lists of levels -/

/-- A signal stands in the list of a level. -/
def At (l : Levels) (n : String) (k : Nat) : Prop := ∃ names ∈ l.levels[k]?, n ∈ names

/-- The outputs that lie on a combinational loop or behind one. -/
def BehindLoop (us : List Update) (o : String) : Prop :=
  ∃ loop : Set String, IsCombinationalLoop us loop ∧
    ∃ m ∈ loop, Relation.ReflTransGen (Update.Feeds us) m o

/-- The outputs of updates that read something stray, and those behind them. -/
def BehindStray (us : List Update) (signals : List String) (o : String) : Prop :=
  ∃ u ∈ us, ReadsStray us signals u ∧ Relation.ReflTransGen (Update.Feeds us) u.output o

/-- What the lists of the least levels are like. -/
structure IsLeast (us : List Update) (signals : List String) (l : Levels) : Prop where
  /-- Level 0 lists the given signals, each once. -/
  ground : l.levels[0]? = some signals.eraseDups
  /-- There is a list for every level up to the greatest, and none is empty. -/
  count : l.levels.length = l.maxLevel + 1
  inhabited : ∀ k, 1 ≤ k → k ≤ l.maxLevel → ∃ n, l.At n k
  /-- Signals stand at their depth, and nowhere else. -/
  least : ∀ n k, l.At n k ↔ Depth us signals n k
  unique : ∀ n j k, l.At n j → l.At n k → j = k
  /-- An update stands one deeper than the deepest signal that it reads, once all these
  signals stand somewhere. -/
  level : ∀ u ∈ us, ∀ k, l.At u.output k ↔
    ∃ f : String → Nat, (∀ n ∈ u.dependencies, l.At n (f n)) ∧ IsAbove f u.dependencies k
  /-- An update stands nowhere if a loop or something stray lies on the way to it. -/
  without : ∀ u ∈ us, (∀ k, ¬ l.At u.output k) ↔
    BehindLoop us u.output ∨ BehindStray us signals u.output
  /-- Behind level 0, and among those without a level, every output stands once. -/
  once : (l.levels.tail.flatten ++ l.unresolved).Perm (us.map (·.output))
  unresolved : ∀ u ∈ us, u.output ∈ l.unresolved ↔ ∀ k, ¬ l.At u.output k
  /-- All these lists are in the order of the updates. -/
  sorted : ∀ names ∈ l.unresolved :: l.levels.tail, names.Sublist (us.map (·.output))

/-- The lists behind level 0. -/
theorem getElem?_levels_succ (us : List Update) (signals : List String) (k : Nat) :
    (ofUpdates us signals).levels[k + 1]? =
      if k < deepest us (assignment us signals) then
        some ((updatesAt us (assignment us signals) (some (k + 1))).map (·.output))
      else none := by
  show ((List.range (deepest us (assignment us signals))).map fun i =>
    outputsAt us (assignment us signals) (some (i + 1)))[k]? = _
  rw [List.getElem?_map]
  by_cases hk : k < deepest us (assignment us signals)
  · rw [if_pos hk, List.getElem?_range hk]
    rfl
  · rw [if_neg hk, List.getElem?_eq_none (by simpa using hk)]
    rfl

/-- Signals stand at the levels assigned to them. -/
theorem at_iff {n : String} {k : Nat} :
    (ofUpdates us signals).At n k ↔ (assignment us signals).get? n = some k := by
  have hconsistent := assignment_consistent us signals
  unfold At
  cases k with
  | zero =>
    have hground : (ofUpdates us signals).levels[0]? = some (ground signals).keys := rfl
    simp only [hground, Option.mem_some_iff, exists_eq_left']
    rw [← Table.get?_isSome_iff, get?_ground]
    constructor
    · intro h
      split at h
      · next hn => exact hconsistent.ground n hn
      · cases h
    · intro h
      rcases hconsistent.level n 0 h with ⟨hn, -⟩ | ⟨u, -, -, hlevel⟩
      · rw [if_pos hn]
        rfl
      · exact absurd (pos_of_levelOf? hlevel) (Nat.lt_irrefl 0)
  | succ k =>
    rw [getElem?_levels_succ]
    constructor
    · rintro ⟨names, hnames, hn⟩
      split at hnames
      · cases hnames
        obtain ⟨u, hu, rfl⟩ := List.mem_map.1 hn
        exact (mem_updatesAt.1 hu).2
      · cases hnames
    · intro h
      rcases hconsistent.level n (k + 1) h with ⟨-, hzero⟩ | ⟨u, hu, rfl, -⟩
      · cases hzero
      · refine ⟨_, if_pos (le_deepest hu h), ?_⟩
        exact List.mem_map_of_mem (mem_updatesAt.2 ⟨hu, h⟩)

/-- What lies deeper than level 1 reads an update one level above it. -/
theorem exists_level_pred {n : String} {k : Nat}
    (hk : (assignment us signals).get? n = some (k + 2)) :
    ∃ v ∈ us, (assignment us signals).get? v.output = some (k + 1) := by
  have hconsistent := assignment_consistent us signals
  rcases hconsistent.level _ _ hk with ⟨-, hzero⟩ | ⟨v, -, -, hlevel⟩
  · cases hzero
  obtain ⟨f, hf, -, n, hn, hfn⟩ := levelOf?_eq_some_iff.1 hlevel
  have hget : (assignment us signals).get? n = some (k + 1) := by
    rw [hf n hn, Nat.succ_injective hfn]
  rcases hconsistent.level _ _ hget with ⟨-, hzero⟩ | ⟨w, hw, rfl, -⟩
  · cases hzero
  · exact ⟨w, hw, hget⟩

/-- No level up to the greatest is empty. -/
theorem exists_level {k : Nat} (hk : k < deepest us (assignment us signals)) :
    ∃ u ∈ us, (assignment us signals).get? u.output = some (k + 1) := by
  obtain ⟨d, hd⟩ := Nat.exists_eq_add_of_lt hk
  induction d generalizing k with
  | zero =>
    rcases foldl_max_mem (us.filterMap fun u => (assignment us signals).get? u.output) 0
      with hzero | hmem
    · have hnone : deepest us (assignment us signals) = 0 := hzero
      omega
    · obtain ⟨u, hu, hlevel⟩ := List.mem_filterMap.1 hmem
      have hdeepest : deepest us (assignment us signals) = k + 1 := hd
      exact ⟨u, hu, hlevel.trans (congrArg some hdeepest)⟩
  | succ d ih =>
    obtain ⟨u, -, hlevel⟩ := ih (k := k + 1) (by omega) (by omega)
    exact exists_level_pred hlevel

/-- Every update has its level or none. -/
theorem schedule_append_perm (hnd : us.Nodup) (hpos : ∀ u ∈ us, t.get? u.output ≠ some 0) :
    (schedule us t ++ updatesAt us t none).Perm us := by
  have hdisjoint : ∀ u ∈ schedule us t, ∀ v ∈ updatesAt us t none, u ≠ v := by
    rintro u hu v hv rfl
    obtain ⟨-, i, hi⟩ := mem_schedule.1 hu
    rw [(mem_updatesAt.1 hv).2] at hi
    cases hi
  have hnone : (updatesAt us t none).Nodup := hnd.filter _
  have hall : (schedule us t ++ updatesAt us t none).Nodup :=
    List.nodup_append.2 ⟨nodup_schedule hnd, hnone, hdisjoint⟩
  refine (List.perm_ext_iff_of_nodup hall hnd).2 fun u => ?_
  rw [List.mem_append, mem_schedule, mem_updatesAt]
  constructor
  · rintro (⟨hu, -⟩ | ⟨hu, -⟩) <;> exact hu
  · intro hu
    cases hlevel : t.get? u.output with
    | none => exact .inr ⟨hu, rfl⟩
    | some k =>
      cases k with
      | zero => exact absurd hlevel (hpos u hu)
      | succ i => exact .inl ⟨hu, i, rfl⟩

theorem mem_unresolved_iff (hu : u ∈ us) :
    u.output ∈ (ofUpdates us signals).unresolved ↔ (assignment us signals).get? u.output = none := by
  show u.output ∈ (updatesAt us (assignment us signals) none).map (·.output) ↔ _
  rw [List.mem_map]
  constructor
  · rintro ⟨v, hv, hout⟩
    rw [← hout]
    exact (mem_updatesAt.1 hv).2
  · exact fun h => ⟨u, mem_updatesAt.2 ⟨hu, h⟩, rfl⟩

/-- An output depends on itself exactly if it is on a combinational loop. -/
theorem behindLoop_iff {o : String} :
    BehindLoop us o ↔ ∃ m, Relation.ReflTransGen (Update.Feeds us) m o ∧
      Relation.TransGen (Update.Feeds us) m m := by
  constructor
  · rintro ⟨loop, hloop, m, hm, hmo⟩
    obtain ⟨found, hfound, rfl⟩ := exists_mem_loops hloop
    have hout : m ∈ us.map (·.output) := (loop_sublist hfound).subset hm
    exact ⟨m, hmo, (exists_loop_iff hout).1 ⟨found, hfound, hm⟩⟩
  · rintro ⟨m, hmo, hself⟩
    obtain ⟨n, ⟨hm, -⟩, -⟩ := Relation.TransGen.head'_iff.1 hself
    obtain ⟨found, hfound, hmem⟩ := (exists_loop_iff hm).2 hself
    exact ⟨{n | n ∈ found}, isCombinationalLoop_of_mem hfound, m, hmem, hmo⟩

/-- The levels of updates, each with an output of its own, are the least. -/
theorem isLeast_ofUpdates (hnd : (us.map (·.output)).Nodup)
    (hfresh : ∀ u ∈ us, u.output ∉ signals) : IsLeast us signals (ofUpdates us signals) where
  ground := by
    show some (ground signals).keys = _
    rw [Levels.ground, Table.keys_ofList, List.map_map]
    exact congrArg (fun names => some (List.eraseDups names)) (List.map_id signals)
  count := by simp [ofUpdates]
  inhabited := by
    intro k hpos hk
    obtain ⟨i, rfl⟩ := Nat.exists_eq_succ_of_ne_zero (Nat.one_le_iff_ne_zero.1 hpos)
    have hbelow : i < deepest us (assignment us signals) := hk
    obtain ⟨u, -, hlevel⟩ := exists_level hbelow
    exact ⟨u.output, at_iff.2 hlevel⟩
  least := fun n k => at_iff.trans (get?_assignment_iff hnd hfresh)
  unique := by
    intro n j k hj hk
    rw [at_iff] at hj hk
    exact Option.some.inj (hj.symm.trans hk)
  level := by
    intro u hu k
    simp only [at_iff]
    rw [assignment_output hnd hu (hfresh u hu), levelOf?_eq_some_iff]
  without := by
    intro u hu
    simp only [at_iff, ← Option.eq_none_iff_forall_ne_some]
    rw [get?_assignment_eq_none_iff hnd hfresh (List.mem_map_of_mem hu), behindLoop_iff]
    simp only [BehindStray, and_comm]
  once := by
    have hpos : ∀ u ∈ us, (assignment us signals).get? u.output ≠ some 0 := by
      intro u hu hzero
      rw [assignment_output hnd hu (hfresh u hu)] at hzero
      exact absurd (pos_of_levelOf? hzero) (Nat.lt_irrefl 0)
    rw [flatten_tail_levels]
    show ((schedule us (assignment us signals)).map (·.output) ++
      (updatesAt us (assignment us signals) none).map (·.output)).Perm _
    rw [← List.map_append]
    exact (schedule_append_perm hnd.of_map hpos).map _
  unresolved := by
    intro u hu
    rw [mem_unresolved_iff hu, Option.eq_none_iff_forall_ne_some]
    simp only [at_iff, ne_eq]
  sorted := by
    intro names hnames
    have hsorted (level : Option Nat) :
        (outputsAt us (assignment us signals) level).Sublist (us.map (·.output)) :=
      List.filter_sublist.map _
    rcases List.mem_cons.1 hnames with rfl | hnames
    · exact hsorted none
    · obtain ⟨i, -, rfl⟩ := List.mem_map.1 hnames
      exact hsorted _

/-! ## 5. Updates in another order -/

/-- Levels with the same signals, in lists of another order. -/
structure SameUpToOrder (l l' : Levels) : Prop where
  maxLevel : l.maxLevel = l'.maxLevel
  levels : List.Forall₂ List.Perm l.levels l'.levels
  unresolved : l.unresolved.Perm l'.unresolved

/-- The order of the updates does not matter. -/
theorem ofUpdates_perm (hnd : (us.map (·.output)).Nodup)
    (hfresh : ∀ u ∈ us, u.output ∉ signals) (h : us.Perm us') :
    SameUpToOrder (ofUpdates us signals) (ofUpdates us' signals) := by
  have hnd' : (us'.map (·.output)).Nodup := (h.map _).nodup_iff.1 hnd
  have hfresh' : ∀ u ∈ us', u.output ∉ signals := fun u hu => hfresh u (h.mem_iff.2 hu)
  have hget (n : String) :
      (assignment us signals).get? n = (assignment us' signals).get? n := by
    refine Option.ext fun k => ?_
    rw [get?_assignment_iff hnd hfresh, get?_assignment_iff hnd' hfresh']
    exact ⟨.mono fun u hu => h.mem_iff.1 hu, .mono fun u hu => h.mem_iff.2 hu⟩
  have hat (level : Option Nat) : (outputsAt us (assignment us signals) level).Perm
      (outputsAt us' (assignment us' signals) level) := by
    unfold outputsAt
    simp only [hget]
    exact (h.filter _).map _
  have hdeepest : deepest us (assignment us signals) = deepest us' (assignment us' signals) := by
    unfold deepest
    simp only [hget]
    exact (h.filterMap _).foldl_eq 0
  refine ⟨hdeepest, .cons (.refl _) ?_, hat none⟩
  show List.Forall₂ List.Perm ((List.range (deepest us (assignment us signals))).map _)
    ((List.range (deepest us' (assignment us' signals))).map _)
  rw [hdeepest, List.forall₂_map_left_iff, List.forall₂_map_right_iff, List.forall₂_same]
  exact fun i _ => hat (some (i + 1))

end Levels

end Clocked
