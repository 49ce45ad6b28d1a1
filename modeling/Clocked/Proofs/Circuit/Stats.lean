/-
Clocked.Proofs.Circuit.Stats — the levels of updates, and how many stand at each.

`levels_least` puts together what is known of levels: they are the least, they do not
depend on the order of the updates, and the counts of a circuit add up.
-/
import Mathlib.Algebra.GroupWithZero.Nat
import Clocked.Circuit.Stats
import Clocked.Proofs.Circuit.Levels

namespace Clocked

/-- The levels of a circuit's updates are the least. -/
theorem Circuit.isLeast_levels (c : Circuit) : Levels.IsLeast c.updates c.ready c.levels := by
  refine Levels.isLeast_ofUpdates c.updateOutputs_nodup fun u hu => ?_
  simpa [Design.ready] using output_not_mem_ready hu

/-! ## 1. Counts -/

namespace Levels

variable {us : List Update} {signals : List String} {l : Levels}

/-- A count for every level. -/
theorem IsLeast.length_tail (h : IsLeast us signals l) : l.levels.tail.length = l.maxLevel := by
  rw [List.length_tail, h.count, Nat.add_sub_cancel]

/-- Some update stands at every level. -/
theorem IsLeast.pos_of_mem_tail (h : IsLeast us signals l) {names : List String}
    (hnames : names ∈ l.levels.tail) : 0 < names.length := by
  obtain ⟨i, hi, hget⟩ := List.mem_iff_getElem.1 hnames
  have hlevel : l.levels[i + 1]? = some names := by
    rw [← List.getElem?_tail, List.getElem?_eq_getElem hi, hget]
  obtain ⟨n, found, hfound, hn⟩ :=
    h.inhabited (i + 1) (Nat.succ_le_succ (Nat.zero_le i)) (by rw [← h.length_tail]; exact hi)
  cases hlevel.symm.trans hfound
  exact List.length_pos_of_mem hn

/-- Every update is counted at its level, unless it has none. -/
theorem IsLeast.sum_counts (h : IsLeast us signals l) :
    (l.levels.tail.map (·.length)).sum + l.unresolved.length = us.length := by
  have hlength := h.once.length_eq
  rwa [List.length_append, List.length_flatten, List.length_map] at hlength

/-! ## 2. Levels -/

/-- **Levels are the least.** Let updates have outputs of their own, none of them given. Then
passing over them yields the least levels there are: level 0 lists the given signals; an update
stands one level below the deepest signal that it reads, and nowhere exactly if a combinational
loop or a signal that nothing produces lies on the way to it; every output stands once, in list
order, and no level is empty. Any other order of the updates yields the same. Of a circuit, the
counts by level are as many as there are levels, none is zero, and together they count the
updates that have a level. -/
theorem levels_least (hnd : (us.map (·.output)).Nodup) (hfresh : ∀ u ∈ us, u.output ∉ signals) :
    IsLeast us signals (ofUpdates us signals) ∧
    (∀ us', us.Perm us' → SameUpToOrder (ofUpdates us signals) (ofUpdates us' signals)) ∧
    ∀ c : Circuit,
      c.stats.updatesPerLevel.length = c.stats.maxLevel ∧
      (∀ count ∈ c.stats.updatesPerLevel, 0 < count) ∧
      c.stats.updatesPerLevel.sum + c.levels.unresolved.length = c.stats.updates := by
  refine ⟨isLeast_ofUpdates hnd hfresh, fun us' => ofUpdates_perm hnd hfresh, fun c => ?_⟩
  have hleast := c.isLeast_levels
  refine ⟨?_, ?_, ?_⟩
  · exact (List.length_map _).trans hleast.length_tail
  · intro count hcount
    obtain ⟨names, hnames, rfl⟩ := List.mem_map.1 hcount
    exact hleast.pos_of_mem_tail hnames
  · exact hleast.sum_counts

/-- Two updates with levels, one that reads itself, one behind it, and one that reads a signal
that nothing produces. -/
def tangled : List Update := [
  ⟨"twice", .and () (.signal () "once") (.signal () "a")⟩,
  ⟨"once", .or () (.signal () "a") (.signal () "b")⟩,
  ⟨"held", .or () (.signal () "held") (.signal () "a")⟩,
  ⟨"free", .not () (.signal () "held")⟩,
  ⟨"stray", .not () (.signal () "nothing")⟩]

theorem levels_least_tangled :
    (tangled.map (·.output)).Nodup ∧ (∀ u ∈ tangled, u.output ∉ ["b", "a", "b"]) ∧
    IsLeast tangled ["b", "a", "b"] (ofUpdates tangled ["b", "a", "b"]) ∧
    (∀ us', tangled.Perm us' →
      SameUpToOrder (ofUpdates tangled ["b", "a", "b"]) (ofUpdates us' ["b", "a", "b"])) ∧
    ∀ c : Circuit,
      c.stats.updatesPerLevel.length = c.stats.maxLevel ∧
      (∀ count ∈ c.stats.updatesPerLevel, 0 < count) ∧
      c.stats.updatesPerLevel.sum + c.levels.unresolved.length = c.stats.updates := by
  have hnd : (tangled.map (·.output)).Nodup := by decide
  have hfresh : ∀ u ∈ tangled, u.output ∉ ["b", "a", "b"] := by decide
  exact ⟨hnd, hfresh, levels_least hnd hfresh⟩

end Levels

end Clocked
