/-
Clocked.Proofs.Run.Cycle — what one cycle does to a run.

A cycle is made of parts that write signals and record some of them. `Produces`
says what such a part has done, for the values `σ` of the cycle: the signals it
wrote have their values, those it recorded have them in their output traces,
and nothing else is changed. Parts in a row produce what they produce together
(`Produces.trans`, `forM_produces`), so a cycle is described part by part.

* `firstCycle_ok`, `laterCycle_ok` — a cycle of an ordered circuit goes well and
  produces every signal;
* `firstCycle_error` — the first update that reads too early stops cycle 0;
* `laterCycle_error` — the first latch with an unbound input stops a later one.
-/
import Clocked.Proofs.Circuit.Behaviour
import Clocked.Proofs.Expr.Evaluation
import Clocked.Proofs.Run.Names

namespace Clocked

namespace Run

open Attempt (bind_of_ok bind_of_error get_apply modify_apply check_ok checkTrace_ok)

variable {time : Nat} {σ : String → Bool}

/-! ## 1. Parts of a cycle -/

/-- All output traces have the cycle `time`. -/
def Covers (time : Nat) (r : Run) : Prop :=
  ∀ n t, r.outputs.get? n = some t → time < t.length

/-- From `r` to `r'` the signals `written` got their values in `σ`, in this order,
and the values of `recorded` were put in their output traces. -/
structure Produces (time : Nat) (written recorded : List String) (σ : String → Bool)
    (r r' : Run) : Prop where
  lookup : ∀ n, r'.store.lookup n = if n ∈ written then some (σ n) else r.store.lookup n
  names : r'.store.names = addNames r.store.names written
  cycle : r'.store.cycle = r.store.cycle
  keys : r'.outputs.keys = r.outputs.keys
  output : ∀ n, r'.outputs.get? n =
    if n ∈ recorded then (r.outputs.get? n).map (·.put time (σ n)) else r.outputs.get? n

theorem Produces.refl (r : Run) : Produces time [] [] σ r r where
  lookup := by simp
  names := by simp
  cycle := rfl
  keys := rfl
  output := by simp

theorem put_put (t : Trace) (time : Nat) (v : Bool) : (t.put time v).put time v = t.put time v := by
  simp [Trace.put, Array.setIfInBounds_setIfInBounds]

/-- What is produced in a row is produced together. -/
theorem Produces.trans {w₁ w₂ p₁ p₂ : List String} {r₀ r₁ r₂ : Run}
    (h₁ : Produces time w₁ p₁ σ r₀ r₁) (h₂ : Produces time w₂ p₂ σ r₁ r₂) :
    Produces time (w₁ ++ w₂) (p₁ ++ p₂) σ r₀ r₂ where
  lookup := by
    intro n
    rw [h₂.lookup, h₁.lookup]
    by_cases hw₁ : n ∈ w₁ <;> by_cases hw₂ : n ∈ w₂ <;> simp [hw₁, hw₂]
  names := by rw [h₂.names, h₁.names, addNames_append]
  cycle := h₂.cycle.trans h₁.cycle
  keys := h₂.keys.trans h₁.keys
  output := by
    intro n
    rw [h₂.output, h₁.output]
    by_cases hp₁ : n ∈ p₁ <;> by_cases hp₂ : n ∈ p₂ <;>
      simp [hp₁, hp₂, Option.map_map, Function.comp_def, put_put]

/-- Recording keeps the lengths of the output traces. -/
theorem Produces.covers {w p : List String} {r r' : Run} {k : Nat}
    (h : Produces time w p σ r r') (hc : Covers k r) : Covers k r' := by
  intro n t ht
  rw [h.output] at ht
  split at ht
  · obtain ⟨t₀, ht₀, rfl⟩ := Option.map_eq_some_iff.1 ht
    rw [Trace.length_put]
    exact hc n t₀ ht₀
  · exact hc n t ht

/-- An attempt that goes well on every element of a list, and produces its
part, goes well on the list, and produces all parts. -/
theorem forM_produces {α : Type} {f : α → Cycle Unit} {w p : α → List String} {xs : List α}
    (h : ∀ x ∈ xs, ∀ r, Covers time r →
      ∃ r', f x r = (.ok (), r') ∧ Produces time (w x) (p x) σ r r') :
    ∀ r, Covers time r →
      ∃ r', xs.forM f r = (.ok (), r') ∧ Produces time (xs.flatMap w) (xs.flatMap p) σ r r' := by
  induction xs with
  | nil =>
    intro r _
    exact ⟨r, rfl, Produces.refl r⟩
  | cons x xs ih =>
    intro r hr
    obtain ⟨r₁, hx, hp₁⟩ := h x List.mem_cons_self r hr
    obtain ⟨r₂, hxs, hp₂⟩ :=
      ih (fun y hy => h y (List.mem_cons_of_mem _ hy)) r₁ (hp₁.covers hr)
    refine ⟨r₂, ?_, ?_⟩
    · show (f x >>= fun _ => xs.forM f) r = _
      rw [bind_of_ok hx, hxs]
    · rw [List.flatMap_cons, List.flatMap_cons]
      exact hp₁.trans hp₂

/-! ## 2. Small steps -/

theorem write_produces (time : Nat) (σ : String → Bool) (name : String) (r : Run) :
    ∃ r', write name (σ name) r = (.ok (), r') ∧ Produces time [name] [] σ r r' := by
  refine ⟨_, rfl, ?_, r.store.names_write_eq name (σ name), rfl, rfl, by simp⟩
  intro n
  rw [Store.lookup_write]
  by_cases h : n = name <;> simp [h]

theorem record_produces (σ : String → Bool) (name : String) {r : Run} (hr : Covers time r) :
    ∃ r', record name time (σ name) r = (.ok (), r') ∧ Produces time [] [name] σ r r' := by
  unfold record
  rw [bind_of_ok (get_apply r)]
  cases ht : r.outputs.get? name with
  | none =>
    refine ⟨r, rfl, by simp, by simp, rfl, rfl, ?_⟩
    intro n
    by_cases h : n = name <;> simp [h, ht]
  | some t =>
    have hset := t.set_ofNat (hr name t ht) (σ name)
    simp only [hset]
    rw [bind_of_ok (checkTrace_ok _ _)]
    refine ⟨_, rfl, by simp, by simp, rfl, ?_, ?_⟩
    · have hk : name ∈ r.outputs.keys := by
        rw [← Table.get?_isSome_iff, ht]
        rfl
      rw [Table.keys_set, if_pos hk]
    · intro n
      rw [Table.get?_set]
      by_cases h : n = name <;> simp [h, ht]

/-- Writing a signal and recording it, as latches and updates do. -/
theorem write_record_produces (σ : String → Bool) (name : String) {r : Run}
    (hr : Covers time r) :
    ∃ r', (do
        modify fun r => { r with store := r.store.write name (σ name) }
        record name time (σ name) : Cycle Unit) r = (.ok (), r') ∧
      Produces time [name] [name] σ r r' := by
  obtain ⟨r₁, hw, hp₁⟩ := write_produces time σ name r
  obtain ⟨r₂, hrec, hp₂⟩ := record_produces σ name (hp₁.covers hr)
  refine ⟨r₂, ?_, hp₁.trans hp₂⟩
  show (write name (σ name) >>= fun _ => record name time (σ name)) r = _
  rw [bind_of_ok hw, hrec]

/-! ## 3. Inputs and latches -/

theorem loadInputs_produces {stimuli : List Trace}
    (h : ∀ t ∈ stimuli, t.at? time = some (σ t.signal)) {r : Run} (hr : Covers time r) :
    ∃ r', loadInputs time stimuli r = (.ok (), r') ∧
      Produces time (stimuli.map (·.signal)) [] σ r r' := by
  have hstep : ∀ t ∈ stimuli, ∀ r, Covers time r → ∃ r',
      (do
        let v ← Attempt.checkTrace (t.get (.ofNat time))
        write t.signal v : Cycle Unit) r = (.ok (), r') ∧
      Produces time [t.signal] [] σ r r' := by
    intro t ht r _
    obtain ⟨r', hw, hp⟩ := write_produces time σ t.signal r
    refine ⟨r', ?_, hp⟩
    rw [t.get_ofNat (h t ht), bind_of_ok (checkTrace_ok _ _), hw]
  obtain ⟨r', hrun, hp⟩ := forM_produces hstep r hr
  refine ⟨r', hrun, ?_⟩
  have hnone : stimuli.flatMap (fun _ => ([] : List String)) = [] := by simp
  rw [hnone, ← List.map_eq_flatMap] at hp
  exact hp

theorem resetLatches_produces {latches : List Latch} (h : ∀ l ∈ latches, σ l.output = false)
    {r : Run} (hr : Covers time r) :
    ∃ r', resetLatches time latches r = (.ok (), r') ∧
      Produces time (latches.map (·.output)) (latches.map (·.output)) σ r r' := by
  have hstep : ∀ l ∈ latches, ∀ r, Covers time r → ∃ r',
      (do
        modify fun r => { r with store := l.reset r.store }
        record l.output time false : Cycle Unit) r = (.ok (), r') ∧
      Produces time [l.output] [l.output] σ r r' := by
    intro l hl r hr
    have := write_record_produces σ l.output hr
    rwa [h l hl] at this
  obtain ⟨r', hrun, hp⟩ := forM_produces hstep r hr
  refine ⟨r', hrun, ?_⟩
  rw [List.map_eq_flatMap]
  exact hp

theorem commitLatches_produces (latches : List Latch) {r : Run} (hr : Covers time r) :
    ∃ r', commitLatches time (latches.map fun l => (l, σ l.output)) r = (.ok (), r') ∧
      Produces time (latches.map (·.output)) (latches.map (·.output)) σ r r' := by
  have hstep : ∀ x ∈ latches.map fun l => (l, σ l.output), ∀ r, Covers time r → ∃ r',
      (do
        modify fun r => { r with store := x.1.commit x.2 r.store }
        record x.1.output time x.2 : Cycle Unit) r = (.ok (), r') ∧
      Produces time [x.1.output] [x.1.output] σ r r' := by
    intro x hx r hr
    obtain ⟨l, -, rfl⟩ := List.mem_map.1 hx
    exact write_record_produces σ l.output hr
  obtain ⟨r', hrun, hp⟩ := forM_produces hstep r hr
  refine ⟨r', hrun, ?_⟩
  rw [List.map_eq_flatMap]
  simpa [List.flatMap_map] using hp

/-- Latches whose inputs are bound are all sampled. -/
theorem sample_ok {latches : List Latch} {s : Store}
    (h : ∀ l ∈ latches, s.lookup l.input = some (σ l.output)) :
    (latches.mapM fun l => (l.sample s).map (l, ·)) =
      .ok (latches.map fun l => (l, σ l.output)) := by
  induction latches with
  | nil => rfl
  | cons l ls ih =>
    have hl : l.sample s = .ok (σ l.output) :=
      Store.read_eq_ok_iff.2 (h l List.mem_cons_self)
    rw [List.mapM_cons, hl, ih fun l hl => h l (List.mem_cons_of_mem _ hl)]
    rfl

/-- The first latch with an unbound input is the one reported. -/
theorem sample_error {before : List Latch} (after : List Latch) {l : Latch} {s : Store}
    (hb : ∀ l ∈ before, (s.lookup l.input).isSome) (hl : s.lookup l.input = none) :
    ((before ++ l :: after).mapM fun l => (l.sample s).map (l, ·)) =
      .error (.unbound l.input) := by
  induction before with
  | nil =>
    have hread : l.sample s = .error (.unbound l.input) := Store.read_eq_error_iff.2 ⟨hl, rfl⟩
    rw [List.nil_append, List.mapM_cons, hread]
    rfl
  | cons b bs ih =>
    obtain ⟨v, hv⟩ := Option.isSome_iff_exists.1 (hb b List.mem_cons_self)
    have hread : b.sample s = .ok v := Store.read_eq_ok_iff.2 hv
    rw [List.cons_append, List.mapM_cons, hread, ih fun l hl => hb l (List.mem_cons_of_mem _ hl)]
    rfl

/-! ## 4. Updates -/

/-- What is missing depends only on which signals are ready. -/
theorem missing_congr {u : Update} {ready ready' : List String}
    (h : ∀ n, n ∈ ready ↔ n ∈ ready') : u.missing ready = u.missing ready' := by
  simp only [Update.missing, h]

theorem missing_eq_nil_iff {u : Update} {ready : List String} :
    u.missing ready = [] ↔ ∀ n ∈ u.dependencies, n ∈ ready := by
  simp [Update.missing, List.filter_eq_nil_iff]

/-- Updates in order are evaluated one by one, whatever comes after them. -/
theorem performUpdates_append (c : Circuit) {us : List Update} (rest : List Update)
    {ready : List String} (hord : Update.OrderedFrom ready us)
    (hσ : ∀ u ∈ us, σ u.output = u.expr.value σ)
    {r : Run} (hr : Covers time r) (hready : ∀ n ∈ ready, r.store.lookup n = some (σ n)) :
    ∃ r', performUpdates c time ready (us ++ rest) r =
        performUpdates c time ((us.map (·.output)).reverse ++ ready) rest r' ∧
      Produces time (us.map (·.output)) (us.map (·.output)) σ r r' := by
  induction us generalizing r ready with
  | nil => exact ⟨r, rfl, Produces.refl r⟩
  | cons u us ih =>
    obtain ⟨hu, hus⟩ := hord
    have heval : u.expr.eval r.store = .ok (σ u.output) := by
      rw [hσ u List.mem_cons_self]
      exact Expr.eval_of_bound fun n hn => hready n (hu n hn)
    obtain ⟨r₁, hw, hp₁⟩ := write_record_produces σ u.output hr
    have hready₁ : ∀ n ∈ u.output :: ready, r₁.store.lookup n = some (σ n) := by
      intro n hn
      rw [hp₁.lookup]
      split
      · rfl
      · next hne => exact hready n ((List.mem_cons.1 hn).resolve_left (by simpa using hne))
    obtain ⟨r₂, hrest, hp₂⟩ :=
      ih hus (fun v hv => hσ v (List.mem_cons_of_mem _ hv)) (hp₁.covers hr) hready₁
    refine ⟨r₂, ?_, hp₁.trans hp₂⟩
    rw [List.map_cons, List.reverse_cons, List.append_assoc, List.singleton_append, ← hrest]
    rw [List.cons_append, performUpdates, if_pos (missing_eq_nil_iff.2 hu),
      bind_of_ok (get_apply r), Update.evaluate, heval]
    show ((modify fun r' => { r' with store := r.store.write u.output (σ u.output) }) >>=
      fun _ => record u.output time (σ u.output) >>= fun _ => _) r = _
    rw [bind_of_ok (modify_apply _ r)]
    rw [bind_of_ok (modify_apply _ r)] at hw
    rw [bind_of_ok hw]

/-- An update that reads too early stops the cycle. -/
theorem performUpdates_error {c : Circuit} {u : Update} {after : List Update}
    {ready : List String} (hmiss : u.missing ready ≠ []) (r : Run) :
    performUpdates c time ready (u :: after) r =
      (.error (.simulation (c.outOfOrder u (u.missing ready) time)), r) := by
  rw [performUpdates, if_neg hmiss]
  rfl

/-! ## 5. Whole cycles -/

variable {c : Circuit} {stimuli : List Trace}

theorem mem_ready {n : String} : n ∈ c.ready ↔ n ∈ c.inputs ++ c.latchOutputs := by
  simp [Design.ready]

/-- Cycle 0 up to its updates. -/
theorem firstCycle_load (hnames : stimuli.map (·.signal) = c.inputs)
    (hinput : ∀ s ∈ stimuli, s.at? 0 = some (σ s.signal))
    (hreset : ∀ l ∈ c.latches, σ l.output = false) {r : Run} (hr : Covers 0 r) :
    ∃ r', firstCycle c stimuli r = performUpdates c 0 c.ready c.updates r' ∧
      Produces 0 (c.inputs ++ c.latchOutputs) c.latchOutputs σ r r' := by
  obtain ⟨r₁, hload, hp₁⟩ := loadInputs_produces hinput hr
  obtain ⟨r₂, hlatch, hp₂⟩ := resetLatches_produces hreset (hp₁.covers hr)
  rw [hnames] at hp₁
  refine ⟨r₂, ?_, hp₁.trans hp₂⟩
  rw [firstCycle, bind_of_ok hload, bind_of_ok hlatch]

/-- A later cycle up to its updates. -/
theorem laterCycle_load (hnames : stimuli.map (·.signal) = c.inputs)
    (hinput : ∀ s ∈ stimuli, s.at? time = some (σ s.signal)) {r : Run}
    (hlatch : ∀ l ∈ c.latches, r.store.lookup l.input = some (σ l.output))
    (hr : Covers time r) :
    ∃ r', laterCycle c stimuli time r = performUpdates c time c.ready c.updates r' ∧
      Produces time (c.inputs ++ c.latchOutputs) c.latchOutputs σ
        { r with store := r.store.advance } r' := by
  obtain ⟨r₁, hload, hp₁⟩ :=
    loadInputs_produces (r := { r with store := r.store.advance }) hinput hr
  obtain ⟨r₂, hcommit, hp₂⟩ :=
    commitLatches_produces c.latches (hp₁.covers (r := { r with store := _ }) hr)
  rw [hnames] at hp₁
  refine ⟨r₂, ?_, hp₁.trans hp₂⟩
  have hsample := sample_ok (s := r.store.advance) hlatch
  rw [laterCycle, bind_of_ok (modify_apply _ r), bind_of_ok (get_apply _), hsample,
    bind_of_ok (check_ok _ _), bind_of_ok hload, bind_of_ok hcommit]

/-- The updates of an ordered circuit go well once inputs and latches are there. -/
theorem performUpdates_ready (hord : c.Ordered) (hσ : ∀ u ∈ c.updates, σ u.output = u.expr.value σ)
    {r₀ r : Run} (hload : Produces time (c.inputs ++ c.latchOutputs) c.latchOutputs σ r₀ r)
    (hr : Covers time r₀) :
    ∃ r', performUpdates c time c.ready c.updates r = (.ok (), r') ∧
      Produces time c.signals (c.latchOutputs ++ c.updateOutputs) σ r₀ r' := by
  have hord' : Update.OrderedFrom c.ready c.updates :=
    (Design.ordered_iff.1 hord).mono fun n hn => mem_ready.2 hn
  have hready : ∀ n ∈ c.ready, r.store.lookup n = some (σ n) := by
    intro n hn
    rw [hload.lookup, if_pos (mem_ready.1 hn)]
  obtain ⟨r', hrun, hp⟩ :=
    performUpdates_append c [] hord' hσ (hload.covers hr) hready
  rw [List.append_nil] at hrun
  exact ⟨r', hrun, hload.trans hp⟩

/-- Cycle 0 of an ordered circuit goes well and produces all its signals. -/
theorem firstCycle_ok (σ : String → Bool) (hord : c.Ordered)
    (hnames : stimuli.map (·.signal) = c.inputs)
    (hinput : ∀ s ∈ stimuli, s.at? 0 = some (σ s.signal))
    (hreset : ∀ l ∈ c.latches, σ l.output = false)
    (hσ : ∀ u ∈ c.updates, σ u.output = u.expr.value σ) {r : Run} (hr : Covers 0 r) :
    ∃ r', firstCycle c stimuli r = (.ok (), r') ∧
      Produces 0 c.signals (c.latchOutputs ++ c.updateOutputs) σ r r' := by
  obtain ⟨r₁, hrun, hload⟩ := firstCycle_load hnames hinput hreset hr
  obtain ⟨r₂, hupd, hp⟩ := performUpdates_ready hord hσ hload hr
  exact ⟨r₂, hrun.trans hupd, hp⟩

/-- A later cycle of an ordered circuit goes well if the inputs of the latches
are bound, and produces all signals. -/
theorem laterCycle_ok (σ : String → Bool) (hord : c.Ordered)
    (hnames : stimuli.map (·.signal) = c.inputs)
    (hinput : ∀ s ∈ stimuli, s.at? time = some (σ s.signal)) {r : Run}
    (hlatch : ∀ l ∈ c.latches, r.store.lookup l.input = some (σ l.output))
    (hσ : ∀ u ∈ c.updates, σ u.output = u.expr.value σ) (hr : Covers time r) :
    ∃ r', laterCycle c stimuli time r = (.ok (), r') ∧
      Produces time c.signals (c.latchOutputs ++ c.updateOutputs) σ
        { r with store := r.store.advance } r' := by
  obtain ⟨r₁, hrun, hload⟩ := laterCycle_load hnames hinput hlatch hr
  obtain ⟨r₂, hupd, hp⟩ := performUpdates_ready hord hσ hload hr
  exact ⟨r₂, hrun.trans hupd, hp⟩

/-- The first update that reads too early stops cycle 0. -/
theorem firstCycle_error (hnames : stimuli.map (·.signal) = c.inputs)
    (hlen : ∀ s ∈ stimuli, 0 < s.length) {before after : List Update} {u : Update}
    (hsplit : c.updates = before ++ u :: after)
    (hbefore : Update.OrderedFrom (c.inputs ++ c.latchOutputs) before)
    (hmiss : u.missing (c.available before) ≠ []) {r : Run} (hr : Covers 0 r) :
    ∃ r', firstCycle c stimuli r =
      (.error (.simulation (c.outOfOrder u (u.missing (c.available before)) 0)), r') := by
  have hnd : ((c.inputs ++ c.latchOutputs) ++ before.map (·.output)).Nodup := by
    have := c.signals_nodup
    rw [Design.signals, Design.updateOutputs, hsplit, List.map_append, ← List.append_assoc] at this
    exact (List.nodup_append.1 this).1
  -- the values of the part of the cycle that goes well
  let d : Design := { c.toDesign with stimuli := stimuli }
  let σ : String → Bool := Update.settle before (d.load 0 fun _ => false)
  have hkeep : ∀ n ∈ c.inputs ++ c.latchOutputs, σ n = d.load 0 (fun _ => false) n :=
    fun n hn => Update.settle_of_not_mem _ fun hm => List.disjoint_of_nodup_append hnd hn hm
  have hinput : ∀ s ∈ stimuli, s.at? 0 = some (σ s.signal) := by
    intro s hs
    have hin : s.signal ∈ c.inputs := hnames ▸ List.mem_map_of_mem hs
    rw [hkeep _ (List.mem_append_left _ hin)]
    exact Design.load_signal (hnames ▸ c.inputs_nodup) hs (hlen s hs) _
  have hreset : ∀ l ∈ c.latches, σ l.output = false := by
    intro l hl
    rw [hkeep _ (List.mem_append_right _ (List.mem_map_of_mem hl))]
    exact Design.load_of_not_mem (hnames ▸ c.latchOutput_not_mem_inputs hl) 0 _
  obtain ⟨r₁, hrun, hload⟩ := firstCycle_load hnames hinput hreset hr
  have hready : ∀ n ∈ c.ready, r₁.store.lookup n = some (σ n) := by
    intro n hn
    rw [hload.lookup, if_pos (mem_ready.1 hn)]
  obtain ⟨r₂, hupd, -⟩ := performUpdates_append c (u :: after)
    (hbefore.mono fun n hn => mem_ready.2 hn) (Update.settle_output hbefore hnd)
    (hload.covers hr) hready
  have hcongr : u.missing ((before.map (·.output)).reverse ++ c.ready) =
      u.missing (c.available before) := by
    refine missing_congr fun n => ?_
    simp only [Design.available, List.mem_append, List.mem_reverse, mem_ready]
    tauto
  refine ⟨r₂, ?_⟩
  rw [hrun, hsplit, hupd, performUpdates_error (hcongr ▸ hmiss), hcongr]

/-- The first latch with an unbound input stops a later cycle before anything is
written. -/
theorem laterCycle_error {before after : List Latch} {l : Latch} {r : Run}
    (stimuli : List Trace) (time : Nat) (hsplit : c.latches = before ++ l :: after)
    (hb : ∀ l ∈ before, (r.store.lookup l.input).isSome)
    (hl : r.store.lookup l.input = none) :
    laterCycle c stimuli time r =
      (.error (.simulation (.unbound l.input)), { r with store := r.store.advance }) := by
  have hsample := sample_error after (s := r.store.advance) hb hl
  rw [laterCycle, bind_of_ok (modify_apply _ r), bind_of_ok (get_apply _), hsplit, hsample,
    bind_of_error (Attempt.check_error _ _)]

end Run

end Clocked
