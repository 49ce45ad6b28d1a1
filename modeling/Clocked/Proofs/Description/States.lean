/-
Clocked.Proofs.Description.States — the reader's states between two lines.

`after` is the state once a title and some sections have been read: it is a
function of those alone. `enter?_after` says which sections may follow,
`step?_after_snoc` how a line of the section under way begins, and `after_input`
and its like how it is added. `steps?` takes a list of tokens, and `read_ok_iff`
reduces `read` to it.
-/
import Clocked.Description.Reader
import Clocked.Proofs.Description.Grammar

namespace Clocked.Description

variable {α : Type} {name : String} {note : α} {parts : List (Part α)}

/-! ## 1. The state after some sections -/

/-- Where the reader is inside a section, between its lines. -/
def Part.mode : Part α → Mode α
  | .inputs _ => .inputs
  | .outputs _ => .outputs
  | .latches _ => .latch
  | .updates _ => .update
  | .stimuli _ => .stimulus

/-- The section a kind of token begins, with nothing in it. -/
def Part.blank? : Token.Kind → Option (Part α)
  | .inputs => some (.inputs [])
  | .outputs => some (.outputs [])
  | .latch => some (.latches [])
  | .update => some (.updates [])
  | .simulate => some (.stimuli [])
  | _ => none

/-- The sections that may not come again, the last one first. -/
def closedBy (parts : List (Part α)) : List Token.Kind :=
  ((parts.map Part.kind).filter (· ∈ single)).reverse

/-- The state after a title and some sections. -/
def State.after (name : String) (note : α) (parts : List (Part α)) : State α where
  draft := assemble name note parts
  closed := closedBy parts
  mode := (parts.getLast?.map Part.mode).getD .top

theorem assemble_snoc (p : Part α) :
    assemble name note (parts ++ [p]) = (assemble name note parts).add p := by
  rw [assemble, assemble, List.foldl_append, List.foldl_cons, List.foldl_nil]

theorem closedBy_snoc (p : Part α) :
    closedBy (parts ++ [p]) = if p.kind ∈ single then p.kind :: closedBy parts
      else closedBy parts := by
  by_cases h : p.kind ∈ single <;> simp [closedBy, h]

theorem mem_closedBy {kind : Token.Kind} :
    kind ∈ closedBy parts ↔ kind ∈ single ∧ kind ∈ parts.map Part.kind := by
  simp only [closedBy, List.mem_reverse, List.mem_filter, decide_eq_true_eq, and_comm]

namespace State

theorem after_nil : after name note [] = ⟨⟨name, [], [], [], [], [], note⟩, [], .top⟩ := rfl

theorem after_snoc (p : Part α) :
    after name note (parts ++ [p]) =
      ⟨(assemble name note parts).add p, closedBy (parts ++ [p]), p.mode⟩ := by
  rw [after, assemble_snoc, List.getLast?_concat]
  rfl

theorem after_betweenSections : (after name note parts).mode.betweenSections = true := by
  rcases parts.eq_nil_or_concat with rfl | ⟨parts, p, rfl⟩
  · rfl
  · rw [List.concat_eq_append, after_snoc]
    cases p <;> rfl

theorem finish?_of_betweenSections {s : State α} (h : s.mode.betweenSections = true) :
    s.finish? = some s.draft := by
  unfold finish?
  split
  · next hm =>
    rw [hm] at h
    cases h
  · rfl
  · rw [if_pos h]

end State

/-! ## 2. Sections and lines -/

theorem atMostOnce_nil : AtMostOnce ([] : List (Part α)) := by
  intro kind _
  exact Nat.zero_le 1

theorem atMostOnce_snoc {p : Part α} :
    AtMostOnce (parts ++ [p]) ↔ AtMostOnce parts ∧ p.kind ∉ closedBy parts := by
  rw [mem_closedBy]
  unfold AtMostOnce
  simp only [List.map_append, List.map_cons, List.map_nil, List.count_append,
    List.count_singleton]
  constructor
  · intro h
    refine ⟨fun kind hk => ?_, fun ⟨hk, hmem⟩ => ?_⟩
    · have := h kind hk
      omega
    · have hone := h p.kind hk
      have hpos := List.count_pos_iff.2 hmem
      simp only [beq_self_eq_true, if_true] at hone
      omega
  · rintro ⟨h, hnew⟩ kind hk
    have hone := h kind hk
    by_cases heq : p.kind = kind
    · subst heq
      have hzero := List.count_eq_zero.2 fun hmem => hnew ⟨hk, hmem⟩
      simp only [hzero, beq_self_eq_true, if_true]
      omega
    · simp only [beq_iff_eq, heq, if_false]
      omega

namespace State

/-- A section begins in front of a token of its kind, unless it has been. -/
theorem enter?_after {kind : Token.Kind} {s : State α} :
    (after name note parts).enter? kind = some s ↔
      ∃ p, Part.blank? kind = some p ∧ p.kind ∉ closedBy parts ∧
        s = after name note (parts ++ [p]) := by
  have hclosed : (after name note parts).closed = closedBy parts := rfl
  have hdraft : (after name note parts).draft = assemble name note parts := rfl
  have hlatch : .latch ∉ closedBy parts := fun h => absurd (mem_closedBy.1 h).1 (by decide)
  have hupdate : .update ∉ closedBy parts := fun h => absurd (mem_closedBy.1 h).1 (by decide)
  cases kind <;>
    simp [enter?, Part.blank?, Part.kind, after_snoc, hclosed, hdraft, closedBy_snoc, add,
      Part.mode, single, eq_comm, hlatch, hupdate]

theorem after_input (xs : List String) (x : String) :
    after name note (parts ++ [.inputs (xs ++ [x])]) =
      let s := after name note (parts ++ [.inputs xs])
      { s with mode := .inputs, draft := { s.draft with inputs := s.draft.inputs ++ [x] } } := by
  simp [after_snoc, closedBy, add, Part.kind, Part.mode]

theorem after_output (xs : List String) (x : String) :
    after name note (parts ++ [.outputs (xs ++ [x])]) =
      let s := after name note (parts ++ [.outputs xs])
      { s with mode := .outputs, draft := { s.draft with outputs := s.draft.outputs ++ [x] } } := by
  simp [after_snoc, closedBy, add, Part.kind, Part.mode]

theorem after_latch (xs : List (LatchLine α)) (x : LatchLine α) :
    after name note (parts ++ [.latches (xs ++ [x])]) =
      let s := after name note (parts ++ [.latches xs])
      { s with mode := .latch, draft := { s.draft with latches := s.draft.latches ++ [x] } } := by
  simp [after_snoc, closedBy, add, Part.kind, Part.mode]

theorem after_update (xs : List (UpdateLine α)) (output : String) (place : α) (e : Expr α) :
    after name note (parts ++ [.updates (xs ++ [⟨output, e, place⟩])]) =
      (after name note (parts ++ [.updates xs])).addUpdate output place e := by
  simp [after_snoc, closedBy, add, addUpdate, Part.kind, Part.mode]

theorem after_stimulus (xs : List (StimulusLine α)) (x : StimulusLine α) :
    after name note (parts ++ [.stimuli (xs ++ [x])]) =
      let s := after name note (parts ++ [.stimuli xs])
      { s with
        mode := .stimulus
        draft := { s.draft with stimuli := s.draft.stimuli ++ [x] } } := by
  simp [after_snoc, closedBy, add, Part.kind, Part.mode]

/-- The state after the first token of a line of the section `p`. A name is a line of its own. -/
def begun (name : String) (note : α) (parts : List (Part α)) (t : Token α) : Part α → State α
  | .inputs xs => after name note (parts ++ [.inputs (xs ++ [t.text])])
  | .outputs xs => after name note (parts ++ [.outputs (xs ++ [t.text])])
  | .latches xs =>
    { after name note (parts ++ [.latches xs]) with mode := .latchArrow t.text t.place }
  | .updates xs =>
    { after name note (parts ++ [.updates xs]) with mode := .updateEquals t.text t.place }
  | .stimuli xs =>
    { after name note (parts ++ [.stimuli xs]) with mode := .stimulusEquals t.text t.place }

/-- Between two lines an identifier begins a line; any other token may end the section. -/
theorem step?_after_snoc (p : Part α) (t : Token α) :
    (after name note (parts ++ [p])).step? t =
      if t.kind = .identifier then some (begun name note parts t p)
      else (after name note (parts ++ [p])).between? t := by
  have hmode : (after name note (parts ++ [p])).mode = p.mode := by rw [after_snoc]
  unfold step?
  rw [hmode]
  by_cases ht : t.kind = .identifier
  · rw [if_pos ht, ht]
    cases p with
    | inputs xs =>
      rw [begun, after_input]
      rfl
    | outputs xs =>
      rw [begun, after_output]
      rfl
    | latches xs | updates xs | stimuli xs => rfl
  · rw [if_neg ht]
    cases p with
    | inputs xs | outputs xs | latches xs | updates xs | stimuli xs =>
      simp only [Part.mode]

end State

/-! ## 3. Lists of tokens -/

namespace State

/-- The state after some tokens, if all of them can be taken. -/
def steps? (s : State α) : List (Token α) → Option (State α)
  | [] => some s
  | t :: ts => (s.step? t).bind (·.steps? ts)

theorem steps?_append (s : State α) (ts us : List (Token α)) :
    s.steps? (ts ++ us) = (s.steps? ts).bind (·.steps? us) := by
  induction ts generalizing s with
  | nil => rfl
  | cons t ts ih =>
    rw [List.cons_append, steps?, steps?, Option.bind_assoc]
    congr 1
    funext s'
    exact ih s'

/-- The end-of-text token is never taken. -/
theorem step?_eof (s : State α) {t : Token α} (ht : t.kind = .eof) : s.step? t = none := by
  obtain ⟨draft, closed, mode⟩ := s
  unfold step?
  cases mode <;> simp [ht, between?, enter?, operand?, operator?]

theorem kind_ne_of_steps? {s s' : State α} {ts : List (Token α)} (h : s.steps? ts = some s') :
    ∀ t ∈ ts, t.kind ≠ .eof := by
  induction ts generalizing s with
  | nil => simp
  | cons t ts ih =>
    obtain ⟨s₁, hstep, hrest⟩ := Option.bind_eq_some_iff.1 h
    intro u hu heof
    rcases List.mem_cons.1 hu with rfl | hu
    · rw [step?_eof s heof] at hstep
      cases hstep
    · exact ih hrest u hu heof

theorem conclude_ok_iff {s : State α} {t : Token α} {d : Description α} :
    s.conclude t = .ok d ↔ s.finish? = some d ∧ stimulusFault? d.inputs [] d.stimuli = none := by
  unfold conclude
  cases hfinish : s.finish? with
  | none => simp
  | some d' =>
    simp only [Option.some.injEq]
    constructor
    · intro h
      split at h
      · next hfault =>
        cases h
        exact ⟨rfl, hfault⟩
      · cases h
    · rintro ⟨rfl, hfault⟩
      rw [hfault]

/-- What is read from a state: all tokens are taken, and the description may end. -/
theorem read_ok_iff [Inhabited α] {ts : List (Token α)} {eof : Token α} {s : State α}
    {d : Description α} (hts : ∀ t ∈ ts, t.kind ≠ .eof) (heof : eof.kind = .eof) :
    (s.read (ts ++ [eof])).1 = .ok d ↔ ∃ s', s.steps? ts = some s' ∧ s'.conclude eof = .ok d := by
  induction ts generalizing s with
  | nil => simp [read, steps?, heof]
  | cons t ts ih =>
    have ht : t.kind ≠ .eof := hts t List.mem_cons_self
    rw [List.cons_append, read, if_neg ht, steps?]
    cases s.step? t with
    | none => simp
    | some s' => exact ih fun u hu => hts u (List.mem_cons_of_mem _ hu)

end State

/-! ## 4. Stimuli -/

theorem stimulusFault?_eq_none_iff {inputs given : List String} {ss : List (StimulusLine α)} :
    stimulusFault? inputs given ss = none ↔
      (∀ s ∈ ss, s.signal ∈ inputs ∧ s.signal ∉ given) ∧ (ss.map (·.signal)).Nodup := by
  induction ss generalizing given with
  | nil => simp [stimulusFault?]
  | cons s ss ih =>
    rw [stimulusFault?]
    by_cases hin : s.signal ∈ inputs
    · by_cases hgiven : s.signal ∈ given
      · simp [hin, hgiven]
      · rw [if_neg (not_not_intro hin), if_neg hgiven, ih]
        simp only [List.map_cons, List.nodup_cons, List.mem_cons, not_or, List.mem_map,
          not_exists, not_and]
        constructor
        · rintro ⟨hrest, hnodup⟩
          refine ⟨fun u hu => ?_, fun u hu => (hrest u hu).2.1, hnodup⟩
          rcases hu with rfl | hu
          · exact ⟨hin, hgiven⟩
          · exact ⟨(hrest u hu).1, (hrest u hu).2.2⟩
        · rintro ⟨hrest, hnew, hnodup⟩
          refine ⟨fun u hu => ?_, hnodup⟩
          have hu' := hrest u (.inr hu)
          exact ⟨hu'.1, hnew u hu, hu'.2⟩
    · simp [hin]

theorem stimuliFit_iff {d : Description α} :
    stimulusFault? d.inputs [] d.stimuli = none ↔ StimuliFit d := by
  simp [stimulusFault?_eq_none_iff, StimuliFit]

end Clocked.Description
