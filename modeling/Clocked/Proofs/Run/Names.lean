/-
Clocked.Proofs.Run.Names — the names in a store, in the order they were written.

A store keeps the order in which its names were first written. `addNames` is what
a list of writes does to them: names that are new are appended, each once. Writes
in a row add their names together (`addNames_append`).
-/
import Mathlib.Data.List.Nodup
import Clocked.Store

namespace Clocked

variable {names as : List String}

/-- Some names, and after them those of a list that are new, each once. -/
def addNames (names new : List String) : List String :=
  names ++ (new.filter (· ∉ names)).eraseDups

@[simp] theorem addNames_nil (names : List String) : addNames names [] = names := by
  simp [addNames]

@[simp] theorem mem_addNames {n : String} : n ∈ addNames names as ↔ n ∈ names ∨ n ∈ as := by
  by_cases hn : n ∈ names <;> simp [addNames, hn]

/-- Names added one list after the other are added in a row. -/
theorem addNames_append (names as bs : List String) :
    addNames (addNames names as) bs = addNames names (as ++ bs) := by
  have hnew : bs.filter (· ∉ addNames names as) =
      (bs.filter (· ∉ names)).removeAll (as.filter (· ∉ names)) := by
    rw [List.removeAll, List.filter_filter]
    refine List.filter_congr fun n _ => ?_
    by_cases hn : n ∈ names <;> simp [hn]
  rw [addNames, hnew, addNames, addNames, List.filter_append, List.eraseDups_append,
    List.append_assoc]

/-- Names that are there are not added. -/
theorem addNames_of_forall_mem (h : ∀ n ∈ as, n ∈ names) : addNames names as = names := by
  have hnone : as.filter (· ∉ names) = [] := by simpa [List.filter_eq_nil_iff] using h
  rw [addNames, hnone, List.eraseDups_nil, List.append_nil]

theorem eraseDups_of_nodup (h : as.Nodup) : as.eraseDups = as := by
  induction as with
  | nil => rfl
  | cons n as ih =>
    obtain ⟨hn, has⟩ := List.nodup_cons.1 h
    have hkeep : as.filter (fun m => !m == n) = as := by
      refine List.filter_eq_self.2 fun m hm => ?_
      have hne : m ≠ n := fun heq => hn (heq ▸ hm)
      simpa using hne
    rw [List.eraseDups_cons, hkeep, ih has]

/-- The first names are added as they come. -/
theorem addNames_nil_left (h : as.Nodup) : addNames [] as = as := by
  have hall : as.filter (· ∉ ([] : List String)) = as := List.filter_eq_self.2 (by simp)
  rw [addNames, hall, eraseDups_of_nodup h, List.nil_append]

namespace Store

theorem names_write_eq (s : Store) (n : String) (v : Bool) :
    (s.write n v).names = addNames s.names [n] := by
  rw [names_write]
  by_cases hn : n ∈ s.names <;> simp [addNames, hn, List.eraseDups_cons]

/-- Names that hold a value are the names of the store. -/
theorem lookup_isSome_of_mem {s : Store} {n : String} (h : n ∈ s.names) :
    ∃ v, s.lookup n = some v :=
  Option.isSome_iff_exists.1 ((s.lookup_isSome_iff n).2 h)

/-- Writing some signals one after the other. -/
def writeAll (s : Store) (writes : List (String × Bool)) : Store :=
  writes.foldl (fun s w => s.write w.1 w.2) s

theorem names_writeAll (s : Store) (writes : List (String × Bool)) :
    (s.writeAll writes).names = addNames s.names (writes.map Prod.fst) := by
  induction writes generalizing s with
  | nil => simp [writeAll]
  | cons w writes ih =>
    rw [writeAll, List.foldl_cons, ← writeAll, ih, names_write_eq, addNames_append]
    rfl

@[simp] theorem cycle_writeAll (s : Store) (writes : List (String × Bool)) :
    (s.writeAll writes).cycle = s.cycle := by
  induction writes generalizing s with
  | nil => rfl
  | cons w writes ih =>
    rw [writeAll, List.foldl_cons, ← writeAll, ih, cycle_write]

end Store

end Clocked
