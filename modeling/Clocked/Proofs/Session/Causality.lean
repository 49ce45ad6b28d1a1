/-
Clocked.Proofs.Session.Causality — a cycle depends on nothing that comes after it.

Two runs are compared with a longer one.

* Of a circuit whose stimuli go on for longer (`Circuit.Prefixes`): a solution of the longer
  equations solves the shorter ones too, and both runs show it (`runAll_prefix`).
* Of the same circuit, taken step by step up to some cycle (`Stepped`): later cycles
  leave the bits of the earlier ones alone, and the bits of cycles that were not taken yet are 0
  (`outputs_eq_cut`).

A run is shorter in one more way: the input of a latch is sampled from cycle 1 on, so what
is missing there is not noticed by a run of one cycle.
-/
import Clocked.Proofs.Session.Interference
import Clocked.Proofs.Session.Permutation

namespace Clocked

/-! ## 1. Shorter traces -/

namespace Trace

/-- The first cycles of a trace. -/
def take (t : Trace) (n : Nat) : Trace := .ofList t.signal (t.toList.take n)

theorem take_ofList (signal : String) (values : List Bool) (n : Nat) :
    (ofList signal values).take n = ofList signal (values.take n) := by
  rw [take, toList_ofList]
  rfl

/-- The trace with 0 in place of all later cycles. -/
def cut (t : Trace) (n : Nat) : Trace :=
  .ofList t.signal (t.toList.take n ++ List.replicate (t.length - n) false)

theorem eq_cut {s t : Trace} {n : Nat} (hsignal : s.signal = t.signal)
    (hlength : s.length = t.length) (hn : n ≤ t.length) (hbefore : ∀ j < n, s.at? j = t.at? j)
    (hafter : ∀ j, n ≤ j → j < t.length → s.at? j = some false) : s = t.cut n := by
  refine ext_toList hsignal (List.ext_getElem? fun j => ?_)
  rw [cut, toList_ofList, ← at?_eq_getElem?]
  have htake : (t.toList.take n).length = n := by simp [length_toList, hn]
  by_cases hj : j < n
  · rw [hbefore j hj, List.getElem?_append_left (by omega), List.getElem?_take_of_lt hj,
      at?_eq_getElem?]
  · rw [List.getElem?_append_right (by omega), htake, List.getElem?_replicate]
    by_cases hlt : j < t.length
    · rw [hafter j (by omega) hlt, if_pos (by omega)]
    · rw [if_neg (by omega)]
      have hnone : ¬ (s.at? j).isSome := by
        rw [at?_isSome_iff]
        omega
      simpa using hnone

end Trace

/-! ## 2. Longer stimuli -/

/-- The circuits differ in nothing but their stimuli, and those of the first are prefixes of
those of the second. -/
structure Circuit.Prefixes (c c' : Circuit) : Prop where
  design : c'.toDesign = { c.toDesign with stimuli := c'.stimuli }
  stimuli : List.Forall₂ (fun s s' => s'.signal = s.signal ∧ s.toList <+: s'.toList)
    c.stimuli c'.stimuli

namespace Circuit.Prefixes

variable {c c' : Circuit} {V : Nat → String → Bool}

/-- Every stimulus goes on in the longer circuit. -/
theorem exists_stimulus (h : c.Prefixes c') {s : Trace} (hs : s ∈ c.stimuli) :
    ∃ s' ∈ c'.stimuli, s'.signal = s.signal ∧ s.toList <+: s'.toList := by
  have hall := h.stimuli
  generalize c.stimuli = xs at hall hs
  generalize c'.stimuli = ys at hall
  induction hall with
  | nil => cases hs
  | cons hxy _ ih =>
    rcases List.mem_cons.1 hs with rfl | hs
    · exact ⟨_, List.mem_cons_self, hxy⟩
    · obtain ⟨s', hs', hrest⟩ := ih hs
      exact ⟨s', List.mem_cons_of_mem _ hs', hrest⟩

theorem length_le (h : c.Prefixes c') : c.length ≤ c'.length := by
  obtain ⟨s, hs⟩ : ∃ s, s ∈ c.stimuli := by
    refine List.exists_mem_of_ne_nil _ fun hnil => ?_
    have := c.length_pos
    simp [Design.length, hnil] at this
  obtain ⟨s', hs', -, hpre⟩ := h.exists_stimulus hs
  rw [← c.length_stimulus hs, ← c'.length_stimulus hs', ← Trace.length_toList,
    ← Trace.length_toList]
  exact hpre.length_le

theorem signals_eq (h : c.Prefixes c') : c'.signals = c.signals := by
  unfold Design.signals Design.latchOutputs Design.updateOutputs
  rw [h.design]

theorem outputs_eq (h : c.Prefixes c') : c'.outputs = c.outputs := by rw [h.design]

theorem latches_eq (h : c.Prefixes c') : c'.latches = c.latches := by rw [h.design]

theorem ordered_iff (h : c.Prefixes c') : c'.Ordered ↔ c.Ordered := by
  rw [h.design]
  exact Iff.rfl

/-- What solves the equations of the longer circuit solves those of the shorter one. -/
theorem solves (h : c.Prefixes c') (hV : c'.Solves V) : c.Solves V where
  input := by
    intro t ht i s his
    obtain ⟨hs, rfl⟩ := c.mem_zip_stimuli.1 his
    obtain ⟨s', hs', hsignal, rest, hrest⟩ := h.exists_stimulus hs
    have hbit := Circuit.stimulus_bit hV (Nat.lt_of_lt_of_le ht h.length_le) s' hs'
    have hlt : t < s.toList.length := by rwa [Trace.length_toList, c.length_stimulus hs]
    rw [hsignal, Trace.at?_eq_getElem?, ← hrest, List.getElem?_append_left hlt] at hbit
    rw [Trace.at?_eq_getElem?, hbit]
  reset := fun l hl => hV.reset l (h.latches_eq ▸ hl)
  latch := fun t ht l hl =>
    hV.latch t (Nat.lt_of_lt_of_le ht h.length_le) l (h.latches_eq ▸ hl)
  update := by
    intro t ht u hu
    have hupdates : c'.updates = c.updates := by rw [h.design]
    exact hV.update t (Nat.lt_of_lt_of_le ht h.length_le) u (hupdates ▸ hu)

/-- The latches of both read signals of the circuit, or those of neither. -/
theorem known_iff (h : c.Prefixes c') :
    (∀ l ∈ c'.latches, l.input ∈ c'.signals) ↔ ∀ l ∈ c.latches, l.input ∈ c.signals := by
  rw [h.latches_eq, h.signals_eq]

end Circuit.Prefixes

namespace Session

open Attempt (bind_of_ok bind_of_error bind_eq_ok)

variable {c c' : Circuit} {s s' u v : Session} {k : Nat}

/-- A run of the shorter circuit goes through if one of the longer circuit does. -/
theorem runAll_ok_of_longer (h : c.Prefixes c')
    (hrun : ∃ r s, runAll (ofCircuit c' none) = (.ok r, s)) :
    ∃ r s, runAll (ofCircuit c none) = (.ok r, s) := by
  obtain ⟨r, s, hok⟩ := hrun
  have hord' : c'.Ordered := ordered_of_runAll (regular_ofCircuit c' none) hok
  have hlatch := (runAll_ok_iff hord').1 ⟨r, s, hok⟩
  refine (runAll_ok_iff (h.ordered_iff.1 hord')).2 (hlatch.imp (fun hone => ?_) h.known_iff.1)
  have := c.length_pos
  have := h.length_le
  omega

/-- The other way round the shorter run must be long enough to sample the latches. -/
theorem runAll_ok_of_shorter (h : c.Prefixes c') (hlength : 2 ≤ c.length)
    (hrun : ∃ r s, runAll (ofCircuit c none) = (.ok r, s)) :
    ∃ r s, runAll (ofCircuit c' none) = (.ok r, s) := by
  obtain ⟨r, s, hok⟩ := hrun
  have hord : c.Ordered := ordered_of_runAll (regular_ofCircuit c none) hok
  have hlatch := (runAll_ok_iff hord).1 ⟨r, s, hok⟩
  refine (runAll_ok_iff (h.ordered_iff.2 hord)).2 (.inr (h.known_iff.2 ?_))
  exact hlatch.resolve_left (by omega)

/-- Both runs show the one solution of the equations that they share. -/
theorem runAll_prefix (h : c.Prefixes c') {r r' : Result}
    (hrun : runAll (ofCircuit c none) = (.ok r, s))
    (hrun' : runAll (ofCircuit c' none) = (.ok r', s')) :
    s.resultOutputs r = (s'.resultOutputs r').map fun e => (e.1, e.2.take c.length) := by
  have hord : c.Ordered := ordered_of_runAll (regular_ofCircuit c none) hrun
  have hord' : c'.Ordered := h.ordered_iff.2 hord
  have hV' : c'.Solves c'.wave := c'.solves_wave hord'
  obtain ⟨t, hok, ht⟩ := runAll_shows (s := ofCircuit c none) (h.solves hV') hord
    ((runAll_ok_iff hord).1 ⟨r, s, hrun⟩) rfl rfl rfl rfl
  obtain ⟨t', hok', ht'⟩ := runAll_shows (s := ofCircuit c' none) hV' hord'
    ((runAll_ok_iff hord').1 ⟨r', s', hrun'⟩) rfl rfl rfl rfl
  cases hrun.symm.trans hok
  cases hrun'.symm.trans hok'
  rw [ht.resultOutputs_eq, ht'.resultOutputs_eq, h.outputs_eq, List.map_map]
  refine List.map_congr_left fun n _ => Prod.ext rfl ?_
  show Trace.ofList n _ = (Trace.ofList n _).take c.length
  rw [Trace.take_ofList, ← List.map_take, List.take_range, Nat.min_eq_left h.length_le]

/-! ## 3. Runs up to a cycle -/

/-- A run that was taken up to cycle `k` and no further. -/
structure Stepped (c : Circuit) (k : Nat) (u : Session) : Prop where
  regular : Regular c u
  ordered : c.Ordered
  started : u.started
  upcoming : u.upcoming = k + 1
  /-- The output traces have all cycles, and are 0 where no cycle was taken yet. -/
  zeros : ∀ n tr, u.run.outputs.get? n = some tr → tr.signal = n ∧ tr.length = c.length ∧
    ∀ j, k < j → j < c.length → tr.at? j = some false
  /-- Once the latches could be sampled they always can. -/
  sampled : 0 < k → ∀ l ∈ c.latches, l.input ∈ u.run.store.names

theorem stepped_start (h : Regular c s) (hstart : start s = (.ok (), u)) : Stepped c 0 u := by
  obtain ⟨r, hr, heq⟩ | ⟨e, r, -, -, heq⟩ := h.start_cases
  · have hregular := hr.complete.regular_finish
    rw [heq] at hstart
    rw [hstart] at hregular
    rw [hr.complete.finish] at hstart
    have hu := (Prod.mk.inj hstart).2
    subst hu
    refine ⟨hregular, hr.complete.ordered, hr.complete.started, hr.complete.upcoming,
      fun n tr htr => ?_, nofun⟩
    obtain ⟨tr₀, htr₀, hsignal, hlength, hbits⟩ := hr.traces n tr htr
    rw [Run.blank, Table.get?_ofList_map (fun n => Trace.zeros n c.length)] at htr₀
    split at htr₀
    · cases htr₀
      refine ⟨hsignal, hlength.trans (Trace.length_zeros n c.length), fun j hj hlt => ?_⟩
      rw [hbits j (Nat.ne_of_gt hj), Trace.at?_zeros hlt]
    · cases htr₀
  · rw [heq] at hstart
    cases hstart

/-- The next cycle leaves the earlier ones as they are. -/
theorem Stepped.next (h : Stepped c k u) (hnext : next (.ofNat (k + 1)) u = (.ok (), v)) :
    Stepped c (k + 1) v ∧ v.run.TracesFrom u.run.outputs (k + 1) := by
  have hregular := h.regular.next (.ofNat (k + 1))
  rw [hnext] at hregular
  obtain ⟨r, -, hr, heq⟩ | ⟨e, r, -, -, heq⟩ := h.regular.next_cases (.ofNat (k + 1))
  · rw [heq, hr.complete.finish] at hnext
    have hv := (Prod.mk.inj hnext).2
    subst hv
    have htraces := hr.traces
    rw [h.upcoming] at htraces
    refine ⟨⟨hregular, h.ordered, h.started, ?_, fun n tr' htr' => ?_, fun _ l hl => ?_⟩, htraces⟩
    · show u.upcoming + 1 = k + 1 + 1
      rw [h.upcoming]
    · obtain ⟨tr, htr, hsignal, hlength, hbits⟩ := htraces n tr' htr'
      obtain ⟨hname, hall, hzero⟩ := h.zeros n tr htr
      refine ⟨hsignal.trans hname, hlength.trans hall, fun j hj hlt => ?_⟩
      rw [hbits j (Nat.ne_of_gt hj), hzero j (by omega) hlt]
    · show l.input ∈ (r.store.writeAll _).names
      rw [Store.names_writeAll, mem_addNames]
      exact .inl (hr.names _ (hr.sampled l hl))
  · rw [heq] at hnext
    cases hnext

/-- Going on leaves the bits of the cycles that were taken before. -/
theorem Stepped.nexts (h : Stepped c k u) {d : Nat}
    (hrest : (List.range' (k + 1) d).forM (fun time => Session.next (.ofNat time)) u =
      (.ok (), v)) :
    Stepped c (k + d) v ∧ ∀ n tr', v.run.outputs.get? n = some tr' →
      ∃ tr, u.run.outputs.get? n = some tr ∧ ∀ j ≤ k, tr'.at? j = tr.at? j := by
  induction d generalizing k u with
  | zero =>
    cases hrest
    exact ⟨h, fun n tr htr => ⟨tr, htr, fun _ _ => rfl⟩⟩
  | succ d ih =>
    rw [List.range'_succ] at hrest
    obtain ⟨_, w, hnext, hrest'⟩ := bind_eq_ok
      (show (Session.next (.ofNat (k + 1)) >>= fun _ =>
        (List.range' (k + 1 + 1) d).forM fun time => Session.next (.ofNat time)) u = _ from hrest)
    obtain ⟨hw, htraces⟩ := h.next hnext
    obtain ⟨hv, hbits⟩ := ih hw hrest'
    refine ⟨by rwa [Nat.add_right_comm] at hv, fun n tr'' htr'' => ?_⟩
    obtain ⟨tr', htr', hlater⟩ := hbits n tr'' htr''
    obtain ⟨tr, htr, -, -, hnow⟩ := htraces n tr' htr'
    refine ⟨tr, htr, fun j hj => ?_⟩
    rw [hlater j (by omega), hnow j (by omega)]

theorem stepped_of_stepTo (h : Regular c s) (hstep : stepTo k s = (.ok (), u)) :
    Stepped c k u := by
  obtain ⟨_, w, hstart, hrest⟩ := bind_eq_ok hstep
  have hu := ((stepped_start h hstart).nexts hrest).1
  rwa [Nat.zero_add] at hu

variable {stimuli : List Trace} {watched watched' : Option (List String)}

/-- Without a hook every further cycle goes well, once the latches could be sampled. -/
theorem Stepped.nexts_ok (h : Stepped c k u) (hset : Setup c none stimuli watched u) (hk : 0 < k)
    {d : Nat} (hd : k + d < c.length) :
    ∃ v, (List.range' (k + 1) d).forM (fun time => Session.next (.ofNat time)) u = (.ok (), v) := by
  induction d generalizing k u with
  | zero => exact ⟨u, rfl⟩
  | succ d ih =>
    have hlt : u.upcoming < u.circuit.length := by
      rw [h.upcoming, h.regular.circuit]
      omega
    obtain ⟨r, hr⟩ := h.regular.laterCycle_ordered h.ordered h.started hlt (h.sampled hk)
    have hnone : u.hook = none := hset.hook
    obtain ⟨log, hfin⟩ := hr.complete.finish_ok (by simp only [reaction, hnone])
    have hnext := (next_of_ok h.started hlt hr.run).trans hfin
    rw [h.upcoming] at hnext
    have hset' := hset.next (.ofNat (k + 1))
    rw [hnext] at hset'
    obtain ⟨v, hrest⟩ := ih (h.next hnext).1 hset' (Nat.succ_pos k) (by omega)
    refine ⟨v, ?_⟩
    rw [List.range'_succ]
    exact (bind_of_ok hnext).trans hrest

/-! ## 4. Steps and whole runs -/

/-- A run that goes through can be taken up to any of its cycles. -/
theorem stepTo_ok_of_runAll (h : Setup c none stimuli watched s)
    (h' : Setup c none stimuli watched' s') (hk : k < c.length)
    (hrun : ∃ r v, runAll s' = (.ok r, v)) : ∃ u, stepTo k s = (.ok (), u) := by
  obtain ⟨r, v, hok⟩ := hrun
  obtain ⟨w, log, hlast, -⟩ := h'.regular.stepTo_of_runAll hok
  have hsplit : c.length - 1 = k + (c.length - 1 - k) := by omega
  rw [hsplit, stepTo_add] at hlast
  obtain ⟨_, w', hstep', -⟩ := bind_eq_ok hlast
  obtain ⟨outcome, u, u', hstep, hsame, -⟩ := stepTo_agree h h' rfl k
  rw [hstep'] at hsame
  cases hsame
  exact ⟨u, hstep⟩

/-- A run that can be taken up to a cycle after the first one goes through. -/
theorem runAll_ok_of_stepTo (h : Setup c none stimuli watched s)
    (h' : Setup c none stimuli watched' s') (hk : k < c.length) (hpos : 0 < k)
    (hstep : ∃ u, stepTo k s = (.ok (), u)) : ∃ r v, runAll s' = (.ok r, v) := by
  obtain ⟨u, hok⟩ := hstep
  obtain ⟨outcome, u₁, u', hsame, hstep', hagree⟩ := stepTo_agree h h' rfl k
  rw [hok] at hsame
  cases hsame
  have hu' := stepped_of_stepTo h'.regular hstep'
  have hsplit : c.length - 1 = k + (c.length - 1 - k) := by omega
  obtain ⟨w, hrest⟩ := hu'.nexts_ok hagree.right hpos (d := c.length - 1 - k) (by omega)
  have hlast : stepTo (c.length - 1) s' = (.ok (), w) := by
    rw [hsplit, stepTo_add]
    exact (bind_of_ok hstep').trans hrest
  obtain ⟨log, hall⟩ := h'.regular.runAll_of_stepTo hlast
  exact ⟨_, _, hall⟩

/-- What is shown after some cycle is what the whole run shows, cut off after that cycle. -/
theorem outputs_eq_cut (h : Setup c none stimuli watched s)
    (h' : Setup c none stimuli watched' s') (hk : k < c.length) (hstep : stepTo k s = (.ok (), u))
    {r : Result} (hrun : runAll s' = (.ok r, v)) :
    u.resultOutputs u.result =
      (v.resultOutputs r).map fun e => (e.1, e.2.cut (k + 1)) := by
  obtain ⟨w, log, hlast, rfl, rfl⟩ := h'.regular.stepTo_of_runAll hrun
  have hsplit : c.length - 1 = k + (c.length - 1 - k) := by omega
  rw [hsplit, stepTo_add] at hlast
  obtain ⟨_, u', hstep', hrest⟩ := bind_eq_ok hlast
  obtain ⟨outcome, _, _, hsame, hsame', hagree⟩ := stepTo_agree h h' rfl k
  cases hsame.symm.trans hstep
  cases hsame'.symm.trans hstep'
  have hu := stepped_of_stepTo h.regular hstep
  obtain ⟨hw, hbits⟩ := (stepped_of_stepTo h'.regular hstep').nexts hrest
  show _ = (w.resultOutputs w.result).map _
  rw [resultOutputs_result, resultOutputs_result, (hu.regular.whole hu.ordered).keys,
    (hw.regular.whole hw.ordered).keys, List.map_filterMap]
  refine List.filterMap_congr fun n hn => ?_
  obtain ⟨tr', htr'⟩ := (hw.regular.whole hw.ordered).exists_trace (List.mem_eraseDups.1 hn)
  obtain ⟨tr, htr, hearlier⟩ := hbits n tr' htr'
  rw [hagree.outputs] at htr
  obtain ⟨hsignal, hlength, hzero⟩ := hu.zeros n tr htr
  obtain ⟨hsignal', hlength', -⟩ := hw.zeros n tr' htr'
  have hcut : tr = tr'.cut (k + 1) := by
    refine Trace.eq_cut (hsignal.trans hsignal'.symm) (hlength.trans hlength'.symm) ?_ ?_ ?_
    · omega
    · intro j hj
      exact (hearlier j (by omega)).symm
    · intro j hj hlt
      exact hzero j (by omega) (by omega)
  rw [htr, htr', hcut]
  rfl

/-! ## 5. Causality -/

/-- **Causality.** Let circuits without a hook differ in their stimuli only, those of the first
being prefixes of those of the second. If a run of the second goes through all its cycles, so does
one of the first, and its output traces are those of the second, up to their own length; and if
the first has more than one cycle, a run of the second goes through if one of the first does.

Likewise take a run of one circuit up to some cycle `k`, and another one to its end, each after
any operations, with the same stimuli. The first goes well if the second does, and the other way
round if `k` is not 0. Its output traces are those of the second up to cycle `k`, and 0 from there
on. -/
theorem runs_are_causal (c : Circuit) :
    (∀ c', c.Prefixes c' →
      ((∃ r s, runAll (ofCircuit c' none) = (.ok r, s)) →
        ∃ r s, runAll (ofCircuit c none) = (.ok r, s)) ∧
      (2 ≤ c.length → (∃ r s, runAll (ofCircuit c none) = (.ok r, s)) →
        ∃ r s, runAll (ofCircuit c' none) = (.ok r, s)) ∧
      ∀ r s r' s', runAll (ofCircuit c none) = (.ok r, s) →
        runAll (ofCircuit c' none) = (.ok r', s') →
        s.resultOutputs r = (s'.resultOutputs r').map fun e => (e.1, e.2.take c.length)) ∧
    ∀ ops ops' k, k < c.length →
      let s := after (ofCircuit c none) ops
      let s' := after (ofCircuit c none) ops'
      s'.stimuli = s.stimuli →
        ((∃ r v, runAll s' = (.ok r, v)) → ∃ u, stepTo k s = (.ok (), u)) ∧
        (0 < k → (∃ u, stepTo k s = (.ok (), u)) → ∃ r v, runAll s' = (.ok r, v)) ∧
        ∀ u r v, stepTo k s = (.ok (), u) → runAll s' = (.ok r, v) →
          u.resultOutputs u.result =
            (v.resultOutputs r).map fun e => (e.1, e.2.cut (k + 1)) := by
  refine ⟨fun c' h => ⟨runAll_ok_of_longer h, runAll_ok_of_shorter h,
    fun r s r' s' hrun hrun' => runAll_prefix h hrun hrun'⟩, fun ops ops' k hk => ?_⟩
  intro s s' hstimuli
  have hnew : Setup c none c.stimuli none (ofCircuit c none) :=
    ⟨regular_ofCircuit c none, rfl, rfl, rfl⟩
  obtain ⟨stimuli, watched, hafter⟩ := setup_after c c.stimuli none ops
  obtain ⟨stimuli', watched', hafter'⟩ := setup_after c c.stimuli none ops'
  have h : Setup c none stimuli watched s := hafter none _ hnew
  have h' : Setup c none stimuli' watched' s' := hafter' none _ hnew
  have heq : stimuli' = stimuli := h'.stimuli.symm.trans (hstimuli.trans h.stimuli)
  subst heq
  exact ⟨stepTo_ok_of_runAll h h' hk, runAll_ok_of_stepTo h h' hk,
    fun u r v hstep hrun => outputs_eq_cut h h' hk hstep hrun⟩

/-- The counter of pulses with a stimulus that goes on. -/
def longPulseCounter : Circuit :=
  { pulseCounter with
    stimuli := [.ofList "pulse" [true, true, false, true, true, false]]
    sound := by decide }

theorem runs_are_causal_pulseCounter :
    pulseCounter.Prefixes longPulseCounter ∧ 2 ≤ pulseCounter.length ∧
      ∃ r s r' s' u, runAll (ofCircuit pulseCounter none) = (.ok r, s) ∧
        runAll (ofCircuit longPulseCounter none) = (.ok r', s') ∧
        stepTo 1 (ofCircuit pulseCounter none) = (.ok (), u) ∧
        s.resultOutputs r =
          (s'.resultOutputs r').map (fun e => (e.1, e.2.take pulseCounter.length)) ∧
        u.resultOutputs u.result = (s.resultOutputs r).map fun e => (e.1, e.2.cut 2) := by
  have hprefixes : pulseCounter.Prefixes longPulseCounter :=
    ⟨rfl, .cons ⟨rfl, by decide⟩ .nil⟩
  have hlength : 2 ≤ pulseCounter.length := by decide
  obtain ⟨hlonger, hsteps⟩ := runs_are_causal pulseCounter
  obtain ⟨-, hok, hprefix⟩ := hlonger longPulseCounter hprefixes
  obtain ⟨hstep, -, hcut⟩ := hsteps [] [] 1 (by decide) rfl
  have hshort : ∃ r s, runAll (ofCircuit pulseCounter none) = (.ok r, s) :=
    (runAll_ok_iff (by decide)).2 (.inr (by decide))
  obtain ⟨r', s', hrun'⟩ := hok hlength hshort
  obtain ⟨u, hu⟩ := hstep hshort
  obtain ⟨r, s, hrun⟩ := hshort
  exact ⟨hprefixes, hlength, r, s, r', s', u, hrun, hrun', hu, hprefix r s r' s' hrun hrun',
    hcut u r s hu hrun⟩

end Session

end Clocked
