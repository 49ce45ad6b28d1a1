/-
Clocked.Proofs.Circuit.Levels — levels, order and loops of a circuit's updates.

An update of a circuit has a level exactly when all signals that it reads have
one (`level?_output`), and then it lies deeper than they do. So

* updates in order all have levels, and the updates of a circuit that all have
  levels are in order when they are listed level by level
  (`isSome_level?_of_orderedFrom`, `schedule_orderedFrom`);
* an update has no level exactly when a combinational loop, or a signal that
  nothing produces, lies on the way to it (`unresolved_ne_nil_iff`).
-/
import Clocked.Proofs.Analysis.Depth
import Clocked.Proofs.Circuit.Behaviour

namespace Clocked

open Levels (levelOf? assignment)

/-! ## 1. Levels of a circuit's signals -/

namespace Circuit

variable (c : Circuit)

/-- The level of a signal, if it has one. -/
def level? (n : String) : Option Nat := (assignment c.updates c.ready).get? n

variable {c} {u : Update}

theorem level?_ready {n : String} (hn : n ∈ c.inputs ++ c.latchOutputs) : c.level? n = some 0 :=
  (Levels.assignment_consistent c.updates c.ready).ground n (by simpa [Design.ready] using hn)

/-- A signal that nothing produces has no level. -/
theorem level?_stray {n : String} (hn : n ∉ c.signals) : c.level? n = none := by
  rw [Design.signals, List.mem_append, not_or] at hn
  refine Levels.assignment_eq_none ?_ hn.2
  simpa [Design.ready] using hn.1

theorem updateOutputs_nodup (c : Circuit) : (c.updates.map (·.output)).Nodup :=
  (List.nodup_append.1 c.signals_nodup).2.1

theorem output_not_mem_ready (hu : u ∈ c.updates) : u.output ∉ c.inputs ++ c.latchOutputs :=
  fun hready => List.disjoint_of_nodup_append c.signals_nodup hready (List.mem_map_of_mem hu)

/-- The level of an update is what the levels of its signals make it. -/
theorem level?_output (hu : u ∈ c.updates) :
    c.level? u.output = levelOf? (assignment c.updates c.ready) u := by
  refine Levels.assignment_output c.updateOutputs_nodup hu ?_
  simpa [Design.ready] using output_not_mem_ready hu

theorem isSome_level?_output_iff (hu : u ∈ c.updates) :
    (c.level? u.output).isSome ↔ ∀ n ∈ u.dependencies, (c.level? n).isSome := by
  rw [level?_output hu]
  exact Levels.levelOf?_isSome_iff

/-- An update with a level lies deeper than the signals it reads. -/
theorem exists_level?_lt (hu : u ∈ c.updates) {k : Nat} (hk : c.level? u.output = some k)
    {n : String} (hn : n ∈ u.dependencies) : ∃ j, c.level? n = some j ∧ j < k := by
  obtain ⟨j, hj⟩ := Option.isSome_iff_exists.1
    ((isSome_level?_output_iff hu).1 (Option.isSome_of_eq_some hk) n hn)
  rw [level?_output hu] at hk
  exact ⟨j, hj, Levels.lt_of_levelOf? hk hn hj⟩

theorem exists_level?_eq_succ (hu : u ∈ c.updates) (h : (c.level? u.output).isSome) :
    ∃ i, c.level? u.output = some (i + 1) := by
  obtain ⟨k, hk⟩ := Option.isSome_iff_exists.1 h
  obtain ⟨i, rfl⟩ := Nat.exists_eq_succ_of_ne_zero
    (Levels.pos_of_levelOf? ((level?_output hu).symm.trans hk)).ne'
  exact ⟨i, hk⟩

/-! ## 2. Levels and order -/

/-- Updates in order all have levels. -/
theorem isSome_level?_of_orderedFrom {ready : List String} {us : List Update}
    (hord : Update.OrderedFrom ready us) (hready : ∀ n ∈ ready, (c.level? n).isSome)
    (hus : ∀ u ∈ us, u ∈ c.updates) : ∀ u ∈ us, (c.level? u.output).isSome := by
  induction us generalizing ready with
  | nil => simp
  | cons v us ih =>
    obtain ⟨hv, hus⟩ := List.forall_mem_cons.1 hus
    have hlevel : (c.level? v.output).isSome :=
      (isSome_level?_output_iff hv).2 fun n hn => hready n (hord.1 n hn)
    exact List.forall_mem_cons.2
      ⟨hlevel, ih hord.2 (List.forall_mem_cons.2 ⟨hlevel, hready⟩) hus⟩

theorem unresolved_eq_nil_iff :
    c.levels.unresolved = [] ↔ ∀ u ∈ c.updates, (c.level? u.output).isSome := by
  rw [levels, Levels.ofUpdates, Levels.outputsAt, List.map_eq_nil_iff, List.filter_eq_nil_iff]
  refine forall₂_congr fun u _ => ?_
  rw [decide_eq_true_eq, ← ne_eq, Option.ne_none_iff_isSome]
  rfl

/-- The updates of a circuit level by level, from level 1 on. -/
def schedule (c : Circuit) : List Update := Levels.schedule c.updates (assignment c.updates c.ready)

theorem outputs_schedule (c : Circuit) :
    c.schedule.map (·.output) = c.levels.levels.tail.flatten :=
  (Levels.flatten_tail_levels c.updates c.ready).symm

/-- Updates that all have levels are listed once each. -/
theorem schedule_perm (h : ∀ u ∈ c.updates, (c.level? u.output).isSome) :
    c.schedule.Perm c.updates := by
  have hnd : c.updates.Nodup := c.updateOutputs_nodup.of_map
  have hnd' : c.schedule.Nodup := Levels.nodup_schedule hnd
  refine (List.perm_ext_iff_of_nodup hnd' hnd).2 fun u => ?_
  rw [schedule, Levels.mem_schedule]
  exact ⟨And.left, fun hu => ⟨hu, exists_level?_eq_succ hu (h u hu)⟩⟩

/-- Updates that all have levels are in order when listed level by level. -/
theorem schedule_orderedFrom (h : ∀ u ∈ c.updates, (c.level? u.output).isSome) :
    Update.OrderedFrom (c.inputs ++ c.latchOutputs) c.schedule := by
  rw [Update.orderedFrom_iff]
  intro before u after hsplit n hn
  have hmem : ∀ v, v ∈ c.updates ↔ v ∈ before ++ u :: after := by
    intro v
    rw [← hsplit]
    exact (schedule_perm h).mem_iff.symm
  have hu : u ∈ c.updates := (hmem u).2 (List.mem_append_right _ List.mem_cons_self)
  obtain ⟨k, hk⟩ := Option.isSome_iff_exists.1 (h u hu)
  obtain ⟨j, hj, hjk⟩ := exists_level?_lt hu hk hn
  by_cases hready : n ∈ c.inputs ++ c.latchOutputs
  · exact List.mem_append_left _ hready
  have hout : n ∈ c.updateOutputs := by
    by_contra hstray
    have hnone : c.level? n = none := by
      refine level?_stray fun hsig => ?_
      rcases List.mem_append.1 hsig with hsig | hsig
      · exact hready hsig
      · exact hstray hsig
    rw [hj] at hnone
    cases hnone
  obtain ⟨v, hv, rfl⟩ := List.mem_map.1 hout
  -- what `u` reads lies less deep than `u`, so it does not stand at `u` or behind it
  have hpair := Levels.pairwise_schedule c.updates (assignment c.updates c.ready)
  rw [← schedule, hsplit, List.pairwise_append, List.pairwise_cons] at hpair
  refine List.mem_append_right _ (List.mem_map_of_mem ?_)
  rcases List.mem_append.1 ((hmem v).1 hv) with hv | hv
  · exact hv
  · rcases List.mem_cons.1 hv with rfl | hv
    · cases hj.symm.trans hk
      exact absurd hjk (Nat.lt_irrefl _)
    · exact absurd (hpair.2.1.1 v hv k j hk hj) (Nat.not_le.2 hjk)

/-! ## 3. Levels and loops -/

/-- An update reads a signal that nothing produces. -/
def ReadsStray (c : Circuit) : Prop :=
  ∃ u ∈ c.updates, ∃ n ∈ u.dependencies, n ∉ c.inputs ∧ n ∉ c.latchOutputs ∧ n ∉ c.updateOutputs

theorem not_mem_signals_iff {n : String} :
    n ∉ c.signals ↔ n ∉ c.inputs ∧ n ∉ c.latchOutputs ∧ n ∉ c.updateOutputs := by
  simp only [Design.signals, List.mem_append, not_or, and_assoc]

/-- There are updates without levels exactly when there is a loop or something
stray is read. -/
theorem unresolved_ne_nil_iff :
    c.levels.unresolved ≠ [] ↔ loops c.updates ≠ [] ∨ c.ReadsStray := by
  have hfresh : ∀ u ∈ c.updates, u.output ∉ c.ready := fun u hu => by
    simpa [Design.ready] using output_not_mem_ready hu
  have hnone {u : Update} (hu : u ∈ c.updates) :=
    Levels.get?_assignment_eq_none_iff c.updateOutputs_nodup hfresh (List.mem_map_of_mem hu)
  have hstray {u : Update} :
      Levels.ReadsStray c.updates c.ready u ↔
        ∃ n ∈ u.dependencies, n ∉ c.inputs ∧ n ∉ c.latchOutputs ∧ n ∉ c.updateOutputs := by
    refine exists_congr fun n => and_congr_right fun _ => ?_
    rw [← not_mem_signals_iff, Design.signals, Design.updateOutputs, List.mem_append, not_or]
    simp [Design.ready]
  rw [ne_eq, unresolved_eq_nil_iff]
  push Not
  constructor
  · rintro ⟨u, hu, hlevel⟩
    rcases (hnone hu).1 (Option.not_isSome_iff_eq_none.1 hlevel) with
      ⟨m, -, hself⟩ | ⟨v, hv, -, hreads⟩
    · exact .inl (loops_ne_nil_iff.2 ⟨m, hself⟩)
    · exact .inr ⟨v, hv, hstray.1 hreads⟩
  · rintro (hloops | ⟨u, hu, hreads⟩)
    · obtain ⟨m, hself⟩ := loops_ne_nil_iff.1 hloops
      obtain ⟨n, ⟨hout, -⟩, -⟩ := Relation.TransGen.head'_iff.1 hself
      obtain ⟨u, hu, rfl⟩ := List.mem_map.1 hout
      exact ⟨u, hu, Option.not_isSome_iff_eq_none.2
        ((hnone hu).2 (.inl ⟨u.output, .refl, hself⟩))⟩
    · exact ⟨u, hu, Option.not_isSome_iff_eq_none.2
        ((hnone hu).2 (.inr ⟨u, hu, .refl, hstray.2 hreads⟩))⟩

/-! ## 4. The updates in another order -/

/-- The circuit with its updates listed in another order. -/
def reorder (c : Circuit) (us : List Update) (h : us.Perm c.updates) : Circuit where
  toDesign := { c.toDesign with updates := us }
  sound := by
    have houtputs : (us.map (·.output)).Perm c.updateOutputs := h.map _
    obtain ⟨hproduced, hstimuli, hdriven⟩ := c.checks
    refine Design.fault?_eq_none_iff.2 ⟨?_, hstimuli, ?_⟩
    · rw [Design.producedFault?_eq_none_iff]
      exact (List.Perm.append_left _ houtputs).nodup_iff.2 c.signals_nodup
    · rw [Design.outputFault?_eq_none_iff] at hdriven ⊢
      exact fun n hn => (hdriven n hn).imp_right houtputs.mem_iff.2

/-- Every update of a circuit has a level exactly when the updates can be listed
in order; listed level by level they are. -/
theorem unresolved_eq_nil_iff_exists_ordered :
    c.levels.unresolved = [] ↔ ∃ us, ∃ h : us.Perm c.updates, (c.reorder us h).Ordered := by
  rw [unresolved_eq_nil_iff]
  constructor
  · intro h
    exact ⟨c.schedule, schedule_perm h, Design.ordered_iff.2 (schedule_orderedFrom h)⟩
  · rintro ⟨us, hperm, hord⟩ u hu
    refine isSome_level?_of_orderedFrom (Design.ordered_iff.1 hord) (fun n hn => ?_)
      (fun v hv => hperm.mem_iff.1 hv) u (hperm.mem_iff.2 hu)
    rw [level?_ready (c := c) hn]
    rfl

end Circuit

end Clocked
