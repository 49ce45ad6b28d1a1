/-
Clocked.Proofs.Analysis.Loops — the loops found are the combinational loops.

The dependency graph of a list of updates has their outputs as nodes, and an edge
from `d` to `o` when some update with output `o` reads `d` (`Update.Feeds`). A
combinational loop is a class of nodes that reach each other, if it has two
members or its only member reads itself (`IsCombinationalLoop`).

`loops_spec` says that `loops` lists these sets, each once, none sharing a member
with another, and each in the order of the last update with each output. A loop comes
before those that it depends on (`loops_dependents_first`).
-/
import Mathlib.Data.Set.Subsingleton
import Mathlib.Data.List.Pairwise
import Clocked.Analysis.Loops
import Clocked.Proofs.Analysis.Components

namespace Clocked

/-! ## 1. The dependency graph -/

namespace Update

/-- Signal `d` is the output of an update, and an update with output `o` reads it. -/
def Feeds (us : List Update) (d o : String) : Prop :=
  d ∈ us.map (·.output) ∧ Reads us o d

/-- Two signals depend on each other. -/
def Linked (us : List Update) (m n : String) : Prop :=
  Relation.ReflTransGen (Feeds us) m n ∧ Relation.ReflTransGen (Feeds us) n m

theorem mem_readers {us : List Update} {d o : String} : o ∈ readers us d ↔ Reads us o d := by
  simp only [readers, List.mem_eraseDups, List.mem_map, List.mem_filter, decide_eq_true_eq, Reads]
  constructor
  · rintro ⟨u, ⟨hu, hd⟩, rfl⟩
    exact ⟨u, hu, rfl, hd⟩
  · rintro ⟨u, hu, rfl, hd⟩
    exact ⟨u, ⟨hu, hd⟩, rfl⟩

theorem mem_outputs_of_mem_readers {us : List Update} {d o : String} (h : o ∈ readers us d) :
    o ∈ us.map (·.output) := by
  obtain ⟨u, hu, rfl, -⟩ := mem_readers.1 h
  exact List.mem_map_of_mem hu

/-- From an output on, readers lead to outputs only. -/
theorem reaches_iff {us : List Update} {m n : String} (hm : m ∈ us.map (·.output)) :
    Components.Reaches (readers us) m n ↔ Relation.ReflTransGen (Feeds us) m n := by
  constructor
  · intro h
    have hboth : Relation.ReflTransGen (Feeds us) m n ∧ n ∈ us.map (·.output) := by
      induction h with
      | refl => exact ⟨Relation.ReflTransGen.refl, hm⟩
      | tail _ hedge ih =>
        exact ⟨ih.1.tail ⟨ih.2, mem_readers.1 hedge⟩, mem_outputs_of_mem_readers hedge⟩
    exact hboth.1
  · intro h
    exact Relation.ReflTransGen.mono (fun _ _ hedge => mem_readers.2 hedge.2) m n h

theorem mem_outputs_of_feeds {us : List Update} {m n : String} (hm : m ∈ us.map (·.output))
    (h : Relation.ReflTransGen (Feeds us) m n) : n ∈ us.map (·.output) := by
  induction h with
  | refl => exact hm
  | tail _ hedge _ => exact mem_outputs_of_mem_readers (mem_readers.2 hedge.2)

theorem linked_iff {us : List Update} {m n : String} (hm : m ∈ us.map (·.output)) :
    Components.Linked (readers us) m n ↔ Linked us m n := by
  constructor
  · rintro ⟨hmn, hnm⟩
    have hmn' := (reaches_iff hm).1 hmn
    exact ⟨hmn', (reaches_iff (mem_outputs_of_feeds hm hmn')).1 hnm⟩
  · rintro ⟨hmn, hnm⟩
    exact ⟨(reaches_iff hm).2 hmn, (reaches_iff (mem_outputs_of_feeds hm hmn)).2 hnm⟩

end Update

/-- A class of outputs that depend on each other, with two members or with one
that depends on itself directly. -/
def IsCombinationalLoop (us : List Update) (loop : Set String) : Prop :=
  (∃ m ∈ us.map (·.output), ∀ n, n ∈ loop ↔ Update.Linked us m n) ∧
    (loop.Nontrivial ∨ ∃ n, loop = {n} ∧ Update.Reads us n n)

/-! ## 2. Order of signals -/

/-- The place of a name's last occurrence in a list. -/
def LastAt (n : String) (place : Nat) (names : List String) : Prop :=
  names[place]? = some n ∧ ∀ later, place < later → names[later]? ≠ some n

theorem LastAt.cons {n : String} {place : Nat} {names : List String} (h : LastAt n place names)
    (m : String) : LastAt n (place + 1) (m :: names) := by
  refine ⟨by simpa using h.1, fun later hlater => ?_⟩
  cases later with
  | zero => omega
  | succ later => simpa using h.2 later (by omega)

theorem lastAt_zero {n : String} {names : List String} (h : n ∉ names) :
    LastAt n 0 (n :: names) := by
  refine ⟨rfl, fun later hlater he => ?_⟩
  cases later with
  | zero => omega
  | succ later => exact h (List.mem_of_getElem? (by simpa using he))

theorem exists_lastAt {n : String} {names : List String} (h : n ∈ names) :
    ∃ place, LastAt n place names := by
  induction names with
  | nil => cases h
  | cons m names ih =>
    by_cases hn : n ∈ names
    · obtain ⟨place, hplace⟩ := ih hn
      exact ⟨place + 1, hplace.cons m⟩
    · rcases List.mem_cons.1 h with rfl | h
      · exact ⟨0, lastAt_zero hn⟩
      · exact absurd h hn

/-- `m` stands for the last time before `n` does. -/
def EndsBefore (names : List String) (m n : String) : Prop :=
  ∃ i j, LastAt m i names ∧ LastAt n j names ∧ i < j

theorem EndsBefore.cons {names : List String} {m n : String} (h : EndsBefore names m n)
    (k : String) : EndsBefore (k :: names) m n := by
  obtain ⟨i, j, hi, hj, hlt⟩ := h
  exact ⟨i + 1, j + 1, hi.cons k, hj.cons k, by omega⟩

theorem pairwise_lastPlaces (names : List String) :
    (lastPlaces names).Pairwise (EndsBefore names) := by
  induction names with
  | nil => exact List.Pairwise.nil
  | cons m names ih =>
    have htail : (lastPlaces names).Pairwise (EndsBefore (m :: names)) :=
      ih.imp fun h => h.cons m
    by_cases hm : m ∈ names
    · rw [lastPlaces, if_pos hm]
      exact htail
    · rw [lastPlaces, if_neg hm]
      refine List.pairwise_cons.2 ⟨fun n hn => ?_, htail⟩
      obtain ⟨j, hj⟩ := exists_lastAt (mem_lastPlaces.1 hn)
      exact ⟨0, j + 1, lastAt_zero hm, hj.cons m, by omega⟩

theorem lastPlaces_sublist (names : List String) : (lastPlaces names).Sublist names := by
  induction names with
  | nil => exact List.Sublist.slnil
  | cons n names ih =>
    rw [lastPlaces]
    split
    · exact ih.cons n
    · exact ih.cons_cons n

/-! ## 3. From components to loops -/

section Loops

variable {us : List Update}

/-- The components of the dependency graph. -/
abbrev classes (us : List Update) : List (List String) :=
  Components.components (Update.readers us) (us.map (·.output))

theorem readers_mem_outputs :
    ∀ d ∈ us.map (·.output), ∀ o ∈ Update.readers us d, o ∈ us.map (·.output) :=
  fun _ _ _ ho => Update.mem_outputs_of_mem_readers ho

theorem mem_outputs_of_mem_classes {c : List String} (hc : c ∈ classes us) {n : String}
    (hn : n ∈ c) : n ∈ us.map (·.output) :=
  (Components.mem_flatten_components readers_mem_outputs).1 (List.mem_flatten_of_mem hc hn)

theorem mem_class_iff {c : List String} (hc : c ∈ classes us) {m : String} (hm : m ∈ c)
    {n : String} : n ∈ c ↔ Update.Linked us m n := by
  rw [(Components.isComponent_of_mem readers_mem_outputs hc).2 m hm n]
  exact Update.linked_iff (mem_outputs_of_mem_classes hc hm)

theorem classes_disjoint : (classes us).Pairwise List.Disjoint :=
  (List.nodup_flatten.1 (Components.nodup_flatten_components readers_mem_outputs)).2

theorem nodup_of_mem_classes {c : List String} (hc : c ∈ classes us) : c.Nodup :=
  (List.nodup_flatten.1 (Components.nodup_flatten_components readers_mem_outputs)).1 c hc

/-- A class counts as a loop when it is one. -/
theorem isLoop_iff {c : List String} (hc : c ∈ classes us) :
    isLoop us c = true ↔ IsCombinationalLoop us {n | n ∈ c} := by
  have hne := (Components.isComponent_of_mem readers_mem_outputs hc).1
  have hclass : ∃ m ∈ us.map (·.output), ∀ n, n ∈ {n | n ∈ c} ↔ Update.Linked us m n := by
    obtain ⟨m, hm⟩ := List.exists_mem_of_ne_nil c hne
    exact ⟨m, mem_outputs_of_mem_classes hc hm, fun n => mem_class_iff hc hm⟩
  rw [IsCombinationalLoop, and_iff_right hclass]
  simp only [isLoop, Bool.or_eq_true, decide_eq_true_eq, List.any_eq_true]
  match c, hne, nodup_of_mem_classes hc with
  | [n], _, _ =>
    have hsing : {m | m ∈ [n]} = ({n} : Set String) := by
      ext m
      simp
    rw [hsing]
    simp
  | m :: n :: rest, _, hnd =>
    have hmn : m ≠ n := by
      rintro rfl
      simp at hnd
    have hnontriv : {k | k ∈ m :: n :: rest}.Nontrivial := ⟨m, by simp, n, by simp, hmn⟩
    have hlen : 1 < (m :: n :: rest).length := by simp
    exact iff_of_true (.inl hlen) (.inl hnontriv)

theorem mem_loops_iff {loop : List String} :
    loop ∈ loops us ↔ ∃ c ∈ classes us, isLoop us c = true ∧
      (lastPlaces (us.map (·.output))).filter (· ∈ c) = loop := by
  simp only [loops, List.mem_map, List.mem_filter, and_assoc]

/-- Sorting a class keeps its members. -/
theorem mem_sorted_iff {c : List String} (hc : c ∈ classes us) {n : String} :
    n ∈ (lastPlaces (us.map (·.output))).filter (· ∈ c) ↔ n ∈ c := by
  rw [List.mem_filter, mem_lastPlaces, decide_eq_true_eq]
  exact and_iff_right_of_imp (mem_outputs_of_mem_classes hc)

theorem isCombinationalLoop_of_mem {loop : List String} (h : loop ∈ loops us) :
    IsCombinationalLoop us {n | n ∈ loop} := by
  obtain ⟨c, hc, hloop, rfl⟩ := mem_loops_iff.1 h
  have hset : {n | n ∈ (lastPlaces (us.map (·.output))).filter (· ∈ c)} = {n | n ∈ c} :=
    Set.ext fun n => mem_sorted_iff hc
  rw [hset]
  exact (isLoop_iff hc).1 hloop

theorem exists_mem_loops {loop : Set String} (h : IsCombinationalLoop us loop) :
    ∃ found ∈ loops us, {n | n ∈ found} = loop := by
  obtain ⟨⟨m, hm, hclass⟩, -⟩ := id h
  rw [← Components.mem_flatten_components readers_mem_outputs] at hm
  obtain ⟨c, hc, hmc⟩ := List.mem_flatten.1 hm
  have hset : {n | n ∈ c} = loop := by
    ext n
    rw [hclass]
    exact mem_class_iff hc hmc
  refine ⟨_, mem_loops_iff.2 ⟨c, hc, (isLoop_iff hc).2 (hset ▸ h), rfl⟩, ?_⟩
  rw [← hset]
  exact Set.ext fun n => mem_sorted_iff hc

theorem loops_disjoint (us : List Update) : (loops us).Pairwise List.Disjoint := by
  rw [loops, List.pairwise_map]
  refine (classes_disjoint.filter _).imp_of_mem fun hc hd hdisj => ?_
  intro n hn hn'
  exact hdisj (of_decide_eq_true (List.mem_filter.1 hn).2)
    (of_decide_eq_true (List.mem_filter.1 hn').2)

theorem loop_sorted {loop : List String} (h : loop ∈ loops us) :
    loop.Pairwise (EndsBefore (us.map (·.output))) := by
  obtain ⟨c, -, -, rfl⟩ := mem_loops_iff.1 h
  exact (pairwise_lastPlaces _).filter _

/-- No set is found twice. -/
theorem loops_unique {i j : Fin (loops us).length} {loop : Set String}
    (hi : {n | n ∈ (loops us)[i]} = loop) (hj : {n | n ∈ (loops us)[j]} = loop) : i = j := by
  obtain ⟨⟨m, -, hclass⟩, -⟩ := isCombinationalLoop_of_mem (List.getElem_mem i.2)
  have hmi : m ∈ (loops us)[i] :=
    (hclass m).2 ⟨Relation.ReflTransGen.refl, Relation.ReflTransGen.refl⟩
  have hmj : m ∈ (loops us)[j] := by
    have : m ∈ {n | n ∈ (loops us)[j]} := by
      rw [hj, ← hi]
      exact hmi
    exact this
  have hdisj := List.pairwise_iff_getElem.1 (loops_disjoint us)
  rcases Nat.lt_trichotomy i.1 j.1 with hlt | heq | hgt
  · exact absurd hmj (hdisj i j i.2 j.2 hlt hmi)
  · exact Fin.ext heq
  · exact absurd hmi (hdisj j i j.2 i.2 hgt hmj)

/-- **The loops found are the combinational loops.** A set of outputs is a loop
exactly when it is listed, which it is once; loops share no member, and each is
sorted by the last update with each output. -/
theorem loops_spec (us : List Update) :
    (∀ loop : Set String, IsCombinationalLoop us loop →
      ∃! i : Fin (loops us).length, {n | n ∈ (loops us)[i]} = loop) ∧
    (∀ loop ∈ loops us, IsCombinationalLoop us {n | n ∈ loop}) ∧
    (loops us).Pairwise List.Disjoint ∧
    ∀ loop ∈ loops us, loop.Pairwise (EndsBefore (us.map (·.output))) := by
  refine ⟨fun loop h => ?_, fun loop h => isCombinationalLoop_of_mem h, loops_disjoint us,
    fun loop h => loop_sorted h⟩
  obtain ⟨found, hfound, hset⟩ := exists_mem_loops h
  obtain ⟨i, hi, rfl⟩ := List.mem_iff_getElem.1 hfound
  exact ⟨⟨i, hi⟩, hset, fun j hj => loops_unique hj hset⟩

/-! ## 4. Signals on a loop -/

/-- The members of a loop are what depends on any one of them and the reverse. -/
theorem mem_loop_iff {loop : List String} (h : loop ∈ loops us) {m : String} (hm : m ∈ loop)
    (n : String) : n ∈ loop ↔ Update.Linked us m n := by
  obtain ⟨c, hc, -, rfl⟩ := mem_loops_iff.1 h
  rw [mem_sorted_iff hc] at hm ⊢
  exact mem_class_iff hc hm

/-- An output is on a loop exactly when it depends on itself, through one read
or more. -/
theorem exists_loop_iff {m : String} (hm : m ∈ us.map (·.output)) :
    (∃ loop ∈ loops us, m ∈ loop) ↔ Relation.TransGen (Update.Feeds us) m m := by
  constructor
  · rintro ⟨loop, hloop, hmem⟩
    obtain ⟨-, hnontriv | ⟨n, hsing, hreads⟩⟩ := isCombinationalLoop_of_mem hloop
    · obtain ⟨n, hn, hne⟩ := hnontriv.exists_ne m
      obtain ⟨hmn, hnm⟩ := (mem_loop_iff hloop hmem n).1 hn
      rcases Relation.reflTransGen_iff_eq_or_transGen.1 hmn with heq | hpath
      · exact absurd heq hne
      · exact hpath.trans_left hnm
    · have hmn : m = n := by
        have : m ∈ ({n} : Set String) := hsing ▸ hmem
        exact this
      subst hmn
      exact Relation.TransGen.single ⟨hm, hreads⟩
  · intro hpath
    have hself : Update.Linked us m m := ⟨Relation.ReflTransGen.refl, Relation.ReflTransGen.refl⟩
    have hloop : IsCombinationalLoop us {n | Update.Linked us m n} := by
      refine ⟨⟨m, hm, fun n => Iff.rfl⟩, ?_⟩
      obtain ⟨n, hfeeds, hback⟩ := Relation.TransGen.head'_iff.1 hpath
      by_cases hne : n = m
      · subst hne
        rcases Set.eq_singleton_or_nontrivial (s := {k | Update.Linked us n k}) hself with h | h
        · exact .inr ⟨n, h, hfeeds.2⟩
        · exact .inl h
      · exact .inl ⟨n, ⟨Relation.ReflTransGen.single hfeeds, hback⟩, m, hself, hne⟩
    obtain ⟨loop, hmem, hset⟩ := exists_mem_loops hloop
    refine ⟨loop, hmem, ?_⟩
    have : m ∈ {n | n ∈ loop} := hset ▸ hself
    exact this

/-- There is a loop exactly when some signal depends on itself. -/
theorem loops_ne_nil_iff : loops us ≠ [] ↔ ∃ m, Relation.TransGen (Update.Feeds us) m m := by
  constructor
  · intro hne
    obtain ⟨loop, hloop⟩ := List.exists_mem_of_ne_nil _ hne
    obtain ⟨⟨m, hm, hclass⟩, -⟩ := isCombinationalLoop_of_mem hloop
    have hmem : m ∈ loop := (hclass m).2 ⟨Relation.ReflTransGen.refl, Relation.ReflTransGen.refl⟩
    exact ⟨m, (exists_loop_iff hm).1 ⟨loop, hloop, hmem⟩⟩
  · rintro ⟨m, hself⟩
    obtain ⟨n, ⟨hm, -⟩, -⟩ := Relation.TransGen.head'_iff.1 hself
    obtain ⟨loop, hloop, -⟩ := (exists_loop_iff hm).2 hself
    exact List.ne_nil_of_mem hloop

/-- A loop lists outputs in the order of the updates. -/
theorem loop_sublist {loop : List String} (h : loop ∈ loops us) :
    loop.Sublist (us.map (·.output)) := by
  obtain ⟨c, -, -, rfl⟩ := mem_loops_iff.1 h
  exact List.filter_sublist.trans (lastPlaces_sublist _)

/-! ## 5. The order of loops -/

/-- No member of a loop is read by what a later loop depends on. -/
theorem loops_ordered (us : List Update) :
    (loops us).Pairwise fun first second =>
      ∀ m ∈ first, ∀ n ∈ second, ¬ Relation.ReflTransGen (Update.Feeds us) m n := by
  rw [loops, List.pairwise_map]
  have hclasses := Components.components_ordered (@readers_mem_outputs us)
  refine (hclasses.filter _).imp_of_mem fun hc hd hnever m hm n hn hpath => ?_
  have hc := (List.mem_filter.1 hc).1
  have hd := (List.mem_filter.1 hd).1
  rw [mem_sorted_iff hc] at hm
  rw [mem_sorted_iff hd] at hn
  exact hnever m hm n hn ((Update.reaches_iff (mem_outputs_of_mem_classes hc hm)).2 hpath)

/-- **Loops come in reverse order of dependency.** If a member of one loop depends on a member of
another, through one read or more, its loop comes before that other. -/
theorem loops_dependents_first (us : List Update) {i j : Fin (loops us).length} (hne : i ≠ j)
    (h : ∃ m ∈ (loops us)[i], ∃ n ∈ (loops us)[j], Relation.TransGen (Update.Feeds us) m n) :
    j < i := by
  obtain ⟨m, hm, n, hn, hpath⟩ := h
  by_contra hle
  have hlt : i.1 < j.1 := lt_of_le_of_ne (Fin.not_lt.1 hle) fun heq => hne (Fin.ext heq)
  have hordered := List.pairwise_iff_getElem.1 (loops_ordered us) i j i.2 j.2 hlt
  exact hordered m hm n hn hpath.to_reflTransGen

/-- Two loops, of which the second one depends on the first through an update between them. -/
def linkedLoops : List Update :=
  [⟨"a", .signal () "b"⟩, ⟨"b", .and () (.signal () "a") (.signal () "in")⟩,
    ⟨"between", .not () (.signal () "a")⟩,
    ⟨"p", .or () (.signal () "q") (.signal () "between")⟩, ⟨"q", .signal () "p"⟩]

theorem loops_dependents_first_linkedLoops :
    ∃ i j : Fin (loops linkedLoops).length, i ≠ j ∧
      (∃ m ∈ (loops linkedLoops)[i], ∃ n ∈ (loops linkedLoops)[j],
        Relation.TransGen (Update.Feeds linkedLoops) m n) ∧
      (loops linkedLoops)[i] = ["a", "b"] ∧ (loops linkedLoops)[j] = ["p", "q"] ∧ j < i := by
  have hloops : loops linkedLoops = [["p", "q"], ["a", "b"]] := by decide +kernel
  have hlength : (loops linkedLoops).length = 2 := by rw [hloops]; rfl
  have hfirst : (loops linkedLoops)[(⟨1, by omega⟩ : Fin (loops linkedLoops).length)] = ["a", "b"] := by
    simp [hloops]
  have hsecond : (loops linkedLoops)[(⟨0, by omega⟩ : Fin (loops linkedLoops).length)] = ["p", "q"] := by
    simp [hloops]
  have hpath : Relation.TransGen (Update.Feeds linkedLoops) "a" "p" := by
    refine .tail (b := "between") (.single ⟨by decide, by decide⟩) ⟨by decide, by decide⟩
  have hne : (⟨1, by omega⟩ : Fin (loops linkedLoops).length) ≠ ⟨0, by omega⟩ := by simp
  have hdepends : ∃ m ∈ (loops linkedLoops)[(⟨1, by omega⟩ : Fin (loops linkedLoops).length)],
      ∃ n ∈ (loops linkedLoops)[(⟨0, by omega⟩ : Fin (loops linkedLoops).length)],
        Relation.TransGen (Update.Feeds linkedLoops) m n :=
    ⟨"a", by simp [hfirst], "p", by simp [hsecond], hpath⟩
  exact ⟨_, _, hne, hdepends, hfirst, hsecond, loops_dependents_first linkedLoops hne hdepends⟩

end Loops

end Clocked
