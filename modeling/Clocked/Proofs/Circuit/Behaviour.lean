/-
Clocked.Proofs.Circuit.Behaviour — the synchronous equations of a design.

A design says how its signals depend on each other: an input has its stimulus's
bit, a latch output the value its input had one cycle earlier, an update output
the value of its expression. `Solves` states these equations for an assignment
`V` of a value to every signal in every cycle; nothing in them speaks of a
store or of an order of evaluation.

* §2 `Ordered` says that every update reads only what stands before it;
* §3 `solves_wave` — an ordered circuit has a solution, found by evaluating its
  updates one after the other;
* §4 `Solves.unique` — it has no other one.
-/
import Mathlib.Data.List.Nodup
import Clocked.Proofs.Circuit.Soundness

namespace Clocked

/-! ## 1. The equations -/

namespace Design

/-- The equations between the signals of a design, for as many cycles as it has. -/
structure Solves (d : Design) (V : Nat → String → Bool) : Prop where
  input : ∀ t < d.length, ∀ i s, (i, s) ∈ d.inputs.zip d.stimuli → s.at? t = some (V t i)
  reset : ∀ l ∈ d.latches, V 0 l.output = false
  latch : ∀ t, t + 1 < d.length → ∀ l ∈ d.latches, V (t + 1) l.output = V t l.input
  update : ∀ t < d.length, ∀ u ∈ d.updates, V t u.output = u.expr.value (V t)

/-! ## 2. Order of the updates -/

/-- The signals that have a value once some updates have been evaluated. -/
def available (d : Design) (before : List Update) : List String :=
  d.inputs ++ d.latchOutputs ++ before.map (·.output)

/-- Every update reads only inputs, latch outputs and outputs of updates listed
before it. -/
def Ordered (d : Design) : Prop :=
  ∀ before u after, d.updates = before ++ u :: after →
    ∀ n ∈ u.dependencies, n ∈ d.available before

end Design

namespace Update

/-- Every update of a list reads only `ready` and outputs of updates before it. -/
def OrderedFrom (ready : List String) : List Update → Prop
  | [] => True
  | u :: us => (∀ n ∈ u.dependencies, n ∈ ready) ∧ OrderedFrom (u.output :: ready) us

instance decidableOrderedFrom :
    ∀ (ready : List String) (us : List Update), Decidable (OrderedFrom ready us)
  | _, [] => isTrue trivial
  | ready, u :: us =>
    have := decidableOrderedFrom (u.output :: ready) us
    inferInstanceAs
      (Decidable ((∀ n ∈ u.dependencies, n ∈ ready) ∧ OrderedFrom (u.output :: ready) us))

theorem orderedFrom_iff {ready : List String} {us : List Update} :
    OrderedFrom ready us ↔ ∀ before u after, us = before ++ u :: after →
      ∀ n ∈ u.dependencies, n ∈ ready ++ before.map (·.output) := by
  induction us generalizing ready with
  | nil => simp [OrderedFrom]
  | cons v us ih =>
    rw [OrderedFrom, ih]
    constructor
    · rintro ⟨hv, hus⟩ before u after heq n hn
      cases before with
      | nil =>
        obtain ⟨rfl, -⟩ := List.cons.inj heq
        exact List.mem_append_left _ (hv n hn)
      | cons w before =>
        obtain ⟨rfl, htail⟩ := List.cons.inj heq
        have := hus before u after htail n hn
        simp only [List.mem_append, List.mem_cons, List.map_cons] at this ⊢
        tauto
    · intro h
      refine ⟨fun n hn => by simpa using h [] v us rfl n hn, ?_⟩
      intro before u after heq n hn
      have := h (v :: before) u after (by rw [heq]; rfl) n hn
      simp only [List.mem_append, List.mem_cons, List.map_cons] at this ⊢
      tauto

/-- In a list that is out of order there is a first update that reads too early. -/
theorem exists_first_of_not_orderedFrom {ready : List String} {us : List Update}
    (h : ¬ OrderedFrom ready us) :
    ∃ before u after, us = before ++ u :: after ∧ OrderedFrom ready before ∧
      ∃ n ∈ u.dependencies, n ∉ ready ++ before.map (·.output) := by
  induction us generalizing ready with
  | nil => exact absurd trivial h
  | cons v us ih =>
    by_cases hv : ∀ n ∈ v.dependencies, n ∈ ready
    · have hus : ¬ OrderedFrom (v.output :: ready) us := fun hus => h ⟨hv, hus⟩
      obtain ⟨before, u, after, rfl, hbefore, n, hn, hmiss⟩ := ih hus
      refine ⟨v :: before, u, after, rfl, ⟨hv, hbefore⟩, n, hn, ?_⟩
      simp only [List.mem_append, List.mem_cons, List.map_cons] at hmiss ⊢
      tauto
    · push Not at hv
      obtain ⟨n, hn, hmiss⟩ := hv
      exact ⟨[], v, us, rfl, trivial, n, hn, by simpa using hmiss⟩

/-- Order depends only on which signals are ready. -/
theorem OrderedFrom.mono {ready ready' : List String} {us : List Update}
    (hsub : ∀ n ∈ ready, n ∈ ready') (h : OrderedFrom ready us) : OrderedFrom ready' us := by
  induction us generalizing ready ready' with
  | nil => trivial
  | cons u us ih =>
    refine ⟨fun n hn => hsub n (h.1 n hn), ih ?_ h.2⟩
    intro n hn
    rcases List.mem_cons.1 hn with rfl | hn
    · exact List.mem_cons_self
    · exact List.mem_cons_of_mem _ (hsub n hn)

end Update

theorem Design.ordered_iff {d : Design} :
    d.Ordered ↔ Update.OrderedFrom (d.inputs ++ d.latchOutputs) d.updates :=
  Update.orderedFrom_iff.symm

instance (d : Design) : Decidable d.Ordered := decidable_of_iff _ Design.ordered_iff.symm

/-! ## 3. A solution -/

namespace Update

/-- The assignment after some updates were evaluated one after the other. -/
def settle (us : List Update) (σ : String → Bool) : String → Bool :=
  us.foldl (fun σ u n => if n = u.output then u.expr.value σ else σ n) σ

/-- Updates change only their outputs. -/
theorem settle_of_not_mem {us : List Update} {n : String} (σ : String → Bool)
    (h : n ∉ us.map (·.output)) : settle us σ n = σ n := by
  induction us generalizing σ with
  | nil => rfl
  | cons u us ih =>
    simp only [List.map_cons, List.mem_cons, not_or] at h
    rw [settle, List.foldl_cons, ← settle, ih _ h.2, if_neg h.1]

/-- Updates in order, each with an output of its own, end up at a solution of
their equations. -/
theorem settle_output {ready : List String} {us : List Update} {σ : String → Bool}
    (hord : OrderedFrom ready us) (hnd : (ready ++ us.map (·.output)).Nodup) :
    ∀ u ∈ us, settle us σ u.output = u.expr.value (settle us σ) := by
  induction us generalizing ready σ with
  | nil => simp
  | cons v us ih =>
    have hnd' : ((v.output :: ready) ++ us.map (·.output)).Nodup := by
      refine (List.Perm.nodup_iff ?_).1 hnd
      simp
    have hlater : ∀ n, n ∈ v.output :: ready → n ∉ us.map (·.output) := fun n hn hm =>
      List.disjoint_of_nodup_append hnd' hn hm
    intro u hu
    rcases List.mem_cons.1 hu with rfl | hu
    · -- what `u` reads and drives is left alone by the updates after it
      rw [settle, List.foldl_cons, ← settle]
      have hout := settle_of_not_mem (fun n => if n = u.output then u.expr.value σ else σ n)
        (hlater u.output List.mem_cons_self)
      rw [hout, if_pos rfl]
      refine Expr.value_congr fun n hn => ?_
      have hready : n ∈ ready := hord.1 n hn
      have hne : n ≠ u.output := by
        rintro rfl
        exact (List.nodup_cons.1 (List.nodup_append.1 hnd').1).1 hready
      rw [settle_of_not_mem _ (hlater n (List.mem_cons_of_mem _ hready)), if_neg hne]
    · exact ih hord.2 hnd' u hu

end Update

/-- In a list without repeated keys every element is found by its key. -/
theorem find?_key {α : Type} {key : α → String} {xs : List α} (hnd : (xs.map key).Nodup)
    {x : α} (hx : x ∈ xs) : xs.find? (fun y => key y = key x) = some x := by
  induction xs with
  | nil => cases hx
  | cons y xs ih =>
    obtain ⟨hy, hnd⟩ := List.nodup_cons.1 hnd
    rcases List.mem_cons.1 hx with rfl | hx
    · simp
    · have hne : key y ≠ key x := fun h => hy (h ▸ List.mem_map_of_mem hx)
      rw [List.find?_cons_of_neg (by simpa using hne), ih hnd hx]

namespace Design

/-- The assignment of a cycle before its updates: stimulus bits for the inputs,
and `state` for everything else. -/
def load (d : Design) (time : Nat) (state : String → Bool) (n : String) : Bool :=
  match d.stimuli.find? (·.signal = n) with
  | some s => (s.at? time).getD false
  | none => state n

/-- What the latches hold in the cycle after an assignment. -/
def latched (d : Design) (σ : String → Bool) (n : String) : Bool :=
  match d.latches.find? (·.output = n) with
  | some l => σ l.input
  | none => false

/-- The values of the signals, computed cycle by cycle. -/
def wave (d : Design) : Nat → String → Bool
  | 0 => Update.settle d.updates (d.load 0 fun _ => false)
  | t + 1 => Update.settle d.updates (d.load (t + 1) (d.latched (d.wave t)))

/-- An input is loaded with its stimulus's bit. -/
theorem load_signal {d : Design} (hnd : (d.stimuli.map (·.signal)).Nodup) {s : Trace}
    (hs : s ∈ d.stimuli) {time : Nat} (htime : time < s.length) (state : String → Bool) :
    s.at? time = some (d.load time state s.signal) := by
  obtain ⟨v, hv⟩ := Option.isSome_iff_exists.1 ((s.at?_isSome_iff time).2 htime)
  rw [load, find?_key hnd hs]
  simp [hv]

/-- What has no stimulus is loaded with the state. -/
theorem load_of_not_mem {d : Design} {n : String} (hn : n ∉ d.stimuli.map (·.signal))
    (time : Nat) (state : String → Bool) : d.load time state n = state n := by
  have hnone : d.stimuli.find? (·.signal = n) = none := by
    rw [List.find?_eq_none]
    intro s hs heq
    exact hn (of_decide_eq_true heq ▸ List.mem_map_of_mem hs)
  rw [load, hnone]

end Design

namespace Circuit

variable (c : Circuit)

theorem mem_zip_stimuli {i : String} {s : Trace} :
    (i, s) ∈ c.inputs.zip c.stimuli ↔ s ∈ c.stimuli ∧ s.signal = i := by
  have hzip : c.inputs.zip c.stimuli = c.stimuli.map fun s => (s.signal, s) := by
    rw [← c.map_signal_stimuli]
    induction c.stimuli with
    | nil => rfl
    | cons t ts ih => simp [ih]
  rw [hzip, List.mem_map]
  constructor
  · rintro ⟨s', hs', heq⟩
    obtain ⟨rfl, rfl⟩ := Prod.mk.inj heq
    exact ⟨hs', rfl⟩
  · rintro ⟨hs, rfl⟩
    exact ⟨s, hs, rfl⟩

/-- A solution has the bits of the stimuli. -/
theorem stimulus_bit {c : Circuit} {V : Nat → String → Bool} (hV : c.Solves V) {t : Nat}
    (ht : t < c.length) : ∀ s ∈ c.stimuli, s.at? t = some (V t s.signal) :=
  fun _ hs => hV.input t ht _ _ (c.mem_zip_stimuli.2 ⟨hs, rfl⟩)

theorem ready_nodup : (c.inputs ++ c.latchOutputs).Nodup :=
  (List.nodup_append.1 c.signals_nodup).1

theorem inputs_nodup : c.inputs.Nodup :=
  (List.nodup_append.1 c.ready_nodup).1

theorem latchOutput_not_mem_inputs {l : Latch} (hl : l ∈ c.latches) : l.output ∉ c.inputs :=
  fun hin => List.disjoint_of_nodup_append c.ready_nodup hin (List.mem_map_of_mem hl)

/-- A latch output is loaded with the state. -/
theorem load_latch {l : Latch} (hl : l ∈ c.latches) (time : Nat) (state : String → Bool) :
    c.load time state l.output = state l.output :=
  Design.load_of_not_mem (c.map_signal_stimuli ▸ c.latchOutput_not_mem_inputs hl) time state

theorem latched_output {l : Latch} (hl : l ∈ c.latches) (σ : String → Bool) :
    c.latched σ l.output = σ l.input := by
  rw [Design.latched, find?_key (List.nodup_append.1 c.ready_nodup).2.1 hl]

theorem settle_ready {n : String} (hn : n ∈ c.inputs ++ c.latchOutputs) (σ : String → Bool) :
    Update.settle c.updates σ n = σ n :=
  Update.settle_of_not_mem σ fun hm => List.disjoint_of_nodup_append c.signals_nodup hn hm

/-- In every cycle the values are those of the updates over some loaded state. -/
theorem exists_wave_eq (t : Nat) :
    ∃ state, c.wave t = Update.settle c.updates (c.load t state) := by
  cases t with
  | zero => exact ⟨_, rfl⟩
  | succ t => exact ⟨_, rfl⟩

/-- The computed values solve the equations, if the updates are in order. -/
theorem solves_wave (hord : c.Ordered) : c.Solves c.wave where
  input := by
    intro t ht i s his
    obtain ⟨hs, rfl⟩ := c.mem_zip_stimuli.1 his
    have hready : s.signal ∈ c.inputs ++ c.latchOutputs := by
      rw [← c.map_signal_stimuli]
      exact List.mem_append_left _ (List.mem_map_of_mem hs)
    have hnd : (c.stimuli.map (·.signal)).Nodup := by
      rw [c.map_signal_stimuli]
      exact c.inputs_nodup
    obtain ⟨state, hwave⟩ := c.exists_wave_eq t
    rw [hwave, c.settle_ready hready]
    exact Design.load_signal hnd hs (by rwa [c.length_stimulus hs]) state
  reset := by
    intro l hl
    have hready : l.output ∈ c.inputs ++ c.latchOutputs :=
      List.mem_append_right _ (List.mem_map_of_mem hl)
    rw [Design.wave, c.settle_ready hready, c.load_latch hl]
  latch := by
    intro t _ l hl
    have hready : l.output ∈ c.inputs ++ c.latchOutputs :=
      List.mem_append_right _ (List.mem_map_of_mem hl)
    rw [Design.wave, c.settle_ready hready, c.load_latch hl, c.latched_output hl]
  update := by
    intro t _ u hu
    obtain ⟨state, hwave⟩ := c.exists_wave_eq t
    rw [hwave]
    exact Update.settle_output (Design.ordered_iff.1 hord) c.signals_nodup u hu

end Circuit

/-! ## 4. No other solution -/

/-- Two solutions of the equations of updates in order agree on their outputs if
they agree on what is ready. -/
theorem Update.OrderedFrom.agree {ready : List String} {us : List Update}
    {σ τ : String → Bool} (hord : OrderedFrom ready us) (hready : ∀ n ∈ ready, σ n = τ n)
    (hσ : ∀ u ∈ us, σ u.output = u.expr.value σ) (hτ : ∀ u ∈ us, τ u.output = u.expr.value τ) :
    ∀ n ∈ us.map (·.output), σ n = τ n := by
  induction us generalizing ready with
  | nil => simp
  | cons v us ih =>
    have hv : σ v.output = τ v.output := by
      rw [hσ v List.mem_cons_self, hτ v List.mem_cons_self]
      exact Expr.value_congr fun n hn => hready n (hord.1 n hn)
    have hready' : ∀ n ∈ v.output :: ready, σ n = τ n := by
      intro n hn
      rcases List.mem_cons.1 hn with rfl | hn
      · exact hv
      · exact hready n hn
    intro n hn
    rcases List.mem_cons.1 hn with rfl | hn
    · exact hv
    · exact ih hord.2 hready' (fun u hu => hσ u (List.mem_cons_of_mem _ hu))
        (fun u hu => hτ u (List.mem_cons_of_mem _ hu)) n hn

/-- An ordered design whose latches read its own signals has one solution: any
two agree on every signal in every cycle. -/
theorem Design.Solves.unique {c : Circuit} {V W : Nat → String → Bool} (hV : c.Solves V)
    (hW : c.Solves W) (hord : c.Ordered)
    (hlatch : c.length = 1 ∨ ∀ l ∈ c.latches, l.input ∈ c.signals) :
    ∀ t < c.length, ∀ n ∈ c.signals, V t n = W t n := by
  have hinput : ∀ t < c.length, ∀ n ∈ c.inputs, V t n = W t n := by
    intro t ht n hn
    rw [← c.map_signal_stimuli] at hn
    obtain ⟨s, hs, rfl⟩ := List.mem_map.1 hn
    have hzip := c.mem_zip_stimuli.2 ⟨hs, rfl⟩
    have hv := hV.input t ht _ _ hzip
    rw [hW.input t ht _ _ hzip] at hv
    exact (Option.some.inj hv).symm
  -- the updates carry agreement from the state of a cycle to all its signals
  have hcycle : ∀ t < c.length, (∀ n ∈ c.latchOutputs, V t n = W t n) →
      ∀ n ∈ c.signals, V t n = W t n := by
    intro t ht hstate n hn
    have hready : ∀ m ∈ c.inputs ++ c.latchOutputs, V t m = W t m := by
      intro m hm
      rcases List.mem_append.1 hm with hm | hm
      · exact hinput t ht m hm
      · exact hstate m hm
    rcases List.mem_append.1 hn with hn | hn
    · exact hready n hn
    · exact (Design.ordered_iff.1 hord).agree hready (hV.update t ht) (hW.update t ht) n hn
  intro t
  induction t with
  | zero =>
    intro ht
    refine hcycle 0 ht fun n hn => ?_
    obtain ⟨l, hl, rfl⟩ := List.mem_map.1 hn
    rw [hV.reset l hl, hW.reset l hl]
  | succ t ih =>
    intro ht
    have hknown : ∀ l ∈ c.latches, l.input ∈ c.signals := hlatch.resolve_left (by omega)
    refine hcycle (t + 1) ht fun n hn => ?_
    obtain ⟨l, hl, rfl⟩ := List.mem_map.1 hn
    rw [hV.latch t ht l hl, hW.latch t ht l hl]
    exact ih (by omega) l.input (hknown l hl)

end Clocked
