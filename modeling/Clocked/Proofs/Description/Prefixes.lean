/-
Clocked.Proofs.Description.Prefixes — a refused token is the first that fits nothing.

Tokens are viable if some text of the grammar begins with tokens of their kinds. The
reader takes tokens as long as they are viable (`viable_of_steps`, `not_viable_snoc`), for
two reasons:

* from every state some tokens lead to the end of a text (`State.completable`), so what
  has been taken is viable: open parentheses can be closed, a line that has begun can be
  finished;
* which kinds of tokens a state takes is decided by its `form`, in which names, places and
  operands are forgotten (`State.step?_form`), so where one list of tokens is taken every
  list of the same kinds is, those with which texts begin included.

Once a text is complete only its stimuli can be refused, the first one that does not fit.
-/
import Mathlib.Data.List.Nodup
import Mathlib.Order.Bounds.Defs
import Clocked.Proofs.Description.Reading

namespace Clocked

variable {α β : Type}

/-- A token of the same kind, without text and place. -/
def Token.form (t : Token α) : Token Unit := ⟨t.kind, "", ()⟩

namespace Description

/-! ## 1. Forms of states -/

/-- The mode without names, places and operands. Of the levels their number is left. -/
def Mode.form : Mode α → Mode Unit
  | .opening => .opening
  | .title => .title
  | .top => .top
  | .inputs => .inputs
  | .outputs => .outputs
  | .latch => .latch
  | .latchArrow _ _ => .latchArrow "" ()
  | .latchOutput _ _ => .latchOutput "" ()
  | .update => .update
  | .updateEquals _ _ => .updateEquals "" ()
  | .operand _ _ _ outer => .operand "" () {} (outer.map fun _ => {})
  | .operator _ _ _ _ outer => .operator "" () {} (.signal () "") (outer.map fun _ => {})
  | .stimulus => .stimulus
  | .stimulusEquals _ _ => .stimulusEquals "" ()
  | .stimulusBits _ _ => .stimulusBits "" ()
  | .stimulusEnd => .stimulusEnd

namespace State

/-- The state without what has been read. -/
def form (s : State α) : State Unit := ⟨blank, s.closed, s.mode.form⟩

/-- A form has no more to forget. -/
theorem form_form (s : State α) : s.form.form = s.form := by
  obtain ⟨draft, closed, mode⟩ := s
  cases mode <;> simp [form, Mode.form]

theorem enter?_form (s : State α) (kind : Token.Kind) :
    (s.form.enter? kind).map form = (s.enter? kind).map form := by
  cases kind with
  | inputs => by_cases h : .inputs ∈ s.closed <;> simp [enter?, form, h, Mode.form]
  | outputs => by_cases h : .outputs ∈ s.closed <;> simp [enter?, form, h, Mode.form]
  | simulate => by_cases h : .simulate ∈ s.closed <;> simp [enter?, form, h, Mode.form]
  | _ => rfl

theorem between?_form (s : State α) (t : Token α) :
    (s.form.between? t.form).map form = (s.between? t).map form := by
  unfold between?
  by_cases ht : t.kind = .newline
  · rw [if_pos ht, if_pos (show t.form.kind = .newline from ht)]
    exact congrArg some s.form_form
  · rw [if_neg ht, if_neg (show ¬ t.form.kind = .newline from ht)]
    exact enter?_form s t.kind

theorem operand?_form (s : State α) (output : String) (place : α) (level : Waiting α)
    (outer : List (Waiting α)) (t : Token α) :
    (s.form.operand? "" () {} (outer.map fun _ => {}) t.form).map form =
      (s.operand? output place level outer t).map form := by
  unfold operand?
  simp only [Token.form]
  split <;> simp [form, Mode.form]

theorem operator?_form (s : State α) (output : String) (place : α) (level : Waiting α)
    (value : Expr α) (outer : List (Waiting α)) (t : Token α) :
    (s.form.operator? "" () {} (.signal () "") (outer.map fun _ => {}) t.form).map form =
      (s.operator? output place level value outer t).map form := by
  unfold operator?
  simp only [Token.form]
  split
  · simp [form, Mode.form]
  · simp [form, Mode.form]
  · cases outer <;> simp [form, Mode.form]
  · cases outer <;> rfl
  · rfl

/-- Which kinds of tokens a state takes, and what form it then has, its form decides. -/
theorem step?_form (s : State α) (t : Token α) :
    (s.form.step? t.form).map form = (s.step? t).map form := by
  obtain ⟨draft, closed, mode⟩ := s
  have hbetween := between?_form ⟨draft, closed, mode⟩ t
  unfold step?
  cases mode with
  | top => exact hbetween
  | operator output place level value outer =>
    exact operator?_form _ output place level value outer t
  | inputs | outputs | latch | update | stimulus =>
    simp only [form, Mode.form, Token.form]
    split
    · rfl
    · exact hbetween
  | operand output place level outer => exact operand?_form _ output place level outer t
  | opening | title | latchArrow _ _ | latchOutput _ _ | updateEquals _ _ | stimulusEquals _ _
  | stimulusBits _ _ | stimulusEnd =>
    simp only [form, Mode.form, Token.form]
    split <;> rfl

/-- A text may end by the form of the state alone. -/
theorem finish?_form (s : State α) : s.form.finish?.isSome = s.finish?.isSome := by
  obtain ⟨draft, closed, mode⟩ := s
  cases mode with
  | operator output place level value outer => cases outer <;> rfl
  | _ => rfl

/-- Tokens of the same kinds lead from states of one form to states of one form. -/
theorem steps?_form {s : State α} {s' : State β} (hs : s.form = s'.form) {ts : List (Token α)}
    {us : List (Token β)} (h : ts.map (·.kind) = us.map (·.kind)) :
    (s.steps? ts).map form = (s'.steps? us).map form := by
  induction ts generalizing s s' us with
  | nil =>
    rw [List.map_eq_nil_iff.1 h.symm]
    exact congrArg some hs
  | cons t ts ih =>
    obtain ⟨u, us, rfl, hkind, hkinds⟩ := List.map_eq_cons_iff.1 h.symm
    have hform : t.form = u.form := by simp only [Token.form, hkind]
    have hstep : (s.step? t).map form = (s'.step? u).map form := by
      rw [← step?_form s t, hs, hform, step?_form s' u]
    rw [steps?, steps?]
    cases ht : s.step? t with
    | none =>
      rw [ht] at hstep
      rw [Option.map_eq_none_iff.1 hstep.symm]
      rfl
    | some s₁ =>
      rw [ht] at hstep
      obtain ⟨s₁', hu, hs₁⟩ := Option.map_eq_some_iff.1 hstep.symm
      rw [hu]
      exact ih hs₁.symm hkinds.symm

/-! ## 2. The way to an end -/

/-- Some tokens lead to a state in which a text may end. -/
def Completable (s : State α) : Prop :=
  ∃ us s', s.steps? us = some s' ∧ s'.finish?.isSome

theorem completable_of_finish {s : State α} (h : s.finish?.isSome) : s.Completable :=
  ⟨[], s, rfl, h⟩

theorem Completable.of_step {s s' : State α} {t : Token α} (h : s'.Completable)
    (hstep : s.step? t = some s') : s.Completable := by
  obtain ⟨us, u, hus, hfin⟩ := h
  exact ⟨t :: us, u, by rw [steps?_cons hstep, hus], hfin⟩

/-- Open parentheses can be closed, one after the other. -/
theorem completable_operator (s : State α) (output : String) (place : α) (level : Waiting α)
    (value : Expr α) (outer : List (Waiting α)) :
    ({ s with mode := .operator output place level value outer } : State α).Completable := by
  induction outer generalizing level value with
  | nil => exact completable_of_finish rfl
  | cons up outer ih => exact (ih up (level.close value)).of_step (t := ⟨.rparen, "", place⟩) rfl

theorem completable_operand (s : State α) (output : String) (place : α) (level : Waiting α)
    (outer : List (Waiting α)) :
    ({ s with mode := .operand output place level outer } : State α).Completable :=
  (completable_operator s output place level _ outer).of_step (t := ⟨.identifier, "", place⟩) rfl

theorem completable_stimulusBits (s : State α) (signal : String) (place : α) :
    ({ s with mode := .stimulusBits signal place } : State α).Completable :=
  (completable_of_finish rfl).of_step (t := ⟨.bits, "", place⟩) rfl

theorem completable_title [Inhabited α] (s : State α) :
    ({ s with mode := .title } : State α).Completable :=
  (completable_of_finish rfl).of_step (t := ⟨.identifier, "", default⟩) rfl

/-- Whatever has been taken can be the beginning of a text. -/
theorem completable [Inhabited α] (s : State α) : s.Completable := by
  obtain ⟨draft, closed, mode⟩ := s
  cases mode with
  | opening =>
    exact (completable_title ⟨_, closed, .title⟩).of_step (t := ⟨.hardware, "", default⟩) rfl
  | title => exact completable_title ⟨draft, closed, .title⟩
  | latchArrow input place =>
    have houtput : (⟨draft, closed, .latchOutput input place⟩ : State α).Completable :=
      (completable_of_finish rfl).of_step (t := ⟨.identifier, "", place⟩) rfl
    exact houtput.of_step (t := ⟨.arrow, "", place⟩) rfl
  | latchOutput input place =>
    exact (completable_of_finish rfl).of_step (t := ⟨.identifier, "", place⟩) rfl
  | updateEquals output place =>
    exact (completable_operand ⟨draft, closed, .title⟩ output place {} []).of_step
      (t := ⟨.equals, "", place⟩) rfl
  | operand output place level outer =>
    exact completable_operand ⟨draft, closed, .title⟩ output place level outer
  | operator output place level value outer =>
    exact completable_operator ⟨draft, closed, .title⟩ output place level value outer
  | stimulusEquals signal place =>
    exact (completable_stimulusBits ⟨draft, closed, .title⟩ signal place).of_step
      (t := ⟨.equals, "", place⟩) rfl
  | stimulusBits signal place => exact completable_stimulusBits ⟨draft, closed, .title⟩ signal place
  | _ => exact completable_of_finish rfl

end State

/-! ## 3. Viable tokens -/

/-- Some text of the grammar begins with tokens of these kinds. -/
def Viable (ts : List (Token α)) : Prop :=
  ∃ (us : List (Token α)) (d : Description α),
    IsText us d ∧ ts.map (·.kind) <+: us.map (·.kind)

theorem Viable.mono {ts us : List (Token α)} (h : Viable us) (hts : ts <+: us) :
    Viable ts := by
  obtain ⟨vs, d, hvs, hus⟩ := h
  exact ⟨vs, d, hvs, (hts.map _).trans hus⟩

section Reader

variable [Inhabited α] {ts : List (Token α)} {t eof : Token α} {s : State α}

theorem viable_of_steps (h : State.initial.steps? ts = some s) : Viable ts := by
  obtain ⟨us, u, hus, hfin⟩ := s.completable
  obtain ⟨d, hd⟩ := Option.isSome_iff_exists.1 hfin
  have htext : IsText (ts ++ us ++ [Token.endOfText default]) d :=
    (isText_iff rfl).2 ⟨u, State.steps?_trans h hus, hd⟩
  refine ⟨_, d, htext, ?_⟩
  rw [List.append_assoc]
  exact (List.prefix_append _ _).map _

/-- No text begins with what has been taken and a token that cannot stand next. -/
theorem not_viable_snoc (h : State.initial.steps? ts = some s) (hstep : s.step? t = none)
    (hend : t.kind = .eof → s.finish? = none) : ¬ Viable (ts ++ [t]) := by
  rintro ⟨us, d, hus, hprefix⟩
  cases hus with
  | @mk init eof _ _ parts hbody heof =>
    obtain ⟨u, hu, hfin⟩ := hbody.finish
    rw [List.map_append, List.map_append, List.map_singleton, List.map_singleton,
      List.prefix_concat_iff] at hprefix
    rcases hprefix with hall | hinit
    · -- the token ends the text, in a state of the form of one that may end
      obtain ⟨hkinds, hkind⟩ := List.append_inj' hall rfl
      have hform : (State.initial.steps? ts).map State.form =
          (State.initial.steps? init).map State.form := State.steps?_form rfl hkinds
      rw [h, hu] at hform
      have hsome := State.finish?_form s
      rw [Option.some.inj hform, State.finish?_form, hfin,
        hend ((List.singleton_inj.1 hkind).trans heof)] at hsome
      cases hsome
    · -- the token stands inside a text, where a state of the same form takes it
      obtain ⟨rest, hrest⟩ := hinit
      obtain ⟨vs, ws, rfl, hvs, -⟩ := List.map_eq_append_iff.1 hrest.symm
      have hkinds : (ts ++ [t]).map (·.kind) = vs.map (·.kind) := by
        rw [hvs, List.map_append, List.map_singleton]
      have hform : (State.initial.steps? (ts ++ [t])).map State.form =
          (State.initial.steps? vs).map State.form := State.steps?_form rfl hkinds
      rw [State.steps?_append] at hu
      obtain ⟨v, hv, -⟩ := Option.bind_eq_some_iff.1 hu
      have hnone : State.initial.steps? (ts ++ [t]) = none := by
        rw [State.steps?_append, h, Option.bind_some, State.steps?, hstep, Option.bind_none]
      rw [hv, hnone] at hform
      cases hform

/-- The first token at which a list of tokens is viable no more. -/
theorem isLeast_of_steps (h : State.initial.steps? ts = some s) (ht : ¬ Viable (ts ++ [t]))
    (after : List (Token α)) :
    IsLeast {k | k < (ts ++ t :: after).length ∧ ¬ Viable ((ts ++ t :: after).take (k + 1))}
      ts.length := by
  constructor
  · have htake : (ts ++ t :: after).take (ts.length + 1) = ts ++ [t] := by
      rw [List.take_length_add_append, List.take_succ_cons, List.take_zero]
    exact ⟨by simp, htake ▸ ht⟩
  · rintro k ⟨-, hk⟩
    refine Nat.not_lt.1 fun hlt => hk ?_
    rw [List.take_append_of_le_length hlt]
    exact (viable_of_steps h).mono (List.take_prefix _ _)

/-! ## 4. The token that is refused -/

/-- Either all tokens are taken and the text is concluded, or one of them is refused. -/
theorem State.read_cases (s : State α) (hts : ∀ t ∈ ts, t.kind ≠ .eof) (heof : eof.kind = .eof) :
    (∃ u, s.steps? ts = some u ∧ s.read (ts ++ [eof]) = (u.conclude eof, [eof])) ∨
    ∃ before t after u, ts = before ++ t :: after ∧ s.steps? before = some u ∧
      u.step? t = none ∧ s.read (ts ++ [eof]) = (.error (u.refuse t), t :: (after ++ [eof])) := by
  induction ts generalizing s with
  | nil => exact .inl ⟨s, rfl, by rw [List.nil_append, read, if_pos heof]⟩
  | cons t ts ih =>
    obtain ⟨ht, hts⟩ := List.forall_mem_cons.1 hts
    rw [List.cons_append, read, if_neg ht]
    cases hstep : s.step? t with
    | none => exact .inr ⟨[], t, ts, s, rfl, rfl, hstep, rfl⟩
    | some s' =>
      rcases ih s' hts with ⟨u, hu, hread⟩ | ⟨before, t', after, u, rfl, hu, hnone, hread⟩
      · exact .inl ⟨u, by rw [steps?_cons hstep, hu], hread⟩
      · exact .inr ⟨t :: before, t', after, u, rfl, by rw [steps?_cons hstep, hu], hnone, hread⟩

end Reader

/-! ## 5. The stimulus that is refused -/

/-- A stimulus is refused if those before it fit and it does not. -/
theorem stimulusFault?_eq_some {inputs given : List String} {ss : List (StimulusLine α)}
    {e : SyntaxError α} (h : stimulusFault? inputs given ss = some e) :
    ∃ before s after, ss = before ++ s :: after ∧ stimulusFault? inputs given before = none ∧
      e.place = s.note ∧
      (s.signal ∉ inputs ∨ s.signal ∈ given ∨ s.signal ∈ before.map (·.signal)) := by
  induction ss generalizing given with
  | nil => cases h
  | cons s ss ih =>
    rw [stimulusFault?] at h
    split at h
    · next hin =>
      cases h
      exact ⟨[], s, ss, rfl, rfl, rfl, .inl hin⟩
    · next hin =>
      split at h
      · next hgiven =>
        cases h
        exact ⟨[], s, ss, rfl, rfl, rfl, .inr (.inl hgiven)⟩
      · next hgiven =>
        obtain ⟨before, s', after, rfl, hnone, hplace, hbad⟩ := ih h
        refine ⟨s :: before, s', after, rfl, ?_, hplace, ?_⟩
        · rw [stimulusFault?, if_neg hin, if_neg hgiven, hnone]
        · rw [List.map_cons, List.mem_cons]
          rcases hbad with hin' | hmem | hmem
          · exact .inl hin'
          · exact (List.mem_cons.1 hmem).elim (fun heq => .inr (.inr (.inl heq)))
              fun hmem => .inr (.inl hmem)
          · exact .inr (.inr (.inr hmem))

/-- The stimulus at a place is for no input, or for the same one as another before it. -/
def Misfit (d : Description α) (k : Nat) : Prop :=
  ∃ s ∈ d.stimuli[k]?, s.signal ∉ d.inputs ∨ s.signal ∈ (d.stimuli.take k).map (·.signal)

theorem exists_isLeast_misfit {d : Description α} {e : SyntaxError α}
    (h : stimulusFault? d.inputs [] d.stimuli = some e) :
    ∃ k, IsLeast {k | d.Misfit k} k ∧ ∃ s ∈ d.stimuli[k]?, e.place = s.note := by
  obtain ⟨before, s, after, hss, hnone, hplace, hbad⟩ := stimulusFault?_eq_some h
  have hs : s ∈ d.stimuli[before.length]? := by simp [hss]
  obtain ⟨hfit, hnodup⟩ := stimulusFault?_eq_none_iff.1 hnone
  refine ⟨before.length, ⟨⟨s, hs, ?_⟩, ?_⟩, s, hs, hplace⟩
  · simpa [hss] using hbad
  · rintro k ⟨s', hs', hbad'⟩
    refine Nat.not_lt.1 fun hk => ?_
    obtain ⟨_, hget⟩ : ∃ _, before[k] = s' := by
      rw [hss, List.getElem?_append_left hk] at hs'
      exact List.getElem?_eq_some_iff.1 hs'
    have htake : d.stimuli.take k = before.take k := by
      rw [hss, List.take_append_of_le_length (Nat.le_of_lt hk)]
    have hsplit : before = before.take k ++ s' :: before.drop (k + 1) := by
      rw [← hget, ← List.drop_eq_getElem_cons hk, List.take_append_drop]
    rcases hbad' with hin | hbefore
    · exact hin (hfit s' (hget ▸ List.getElem_mem hk)).1
    · rw [hsplit, List.map_append, List.map_cons] at hnodup
      rw [htake] at hbefore
      exact List.disjoint_of_nodup_append hnodup hbefore List.mem_cons_self

/-! ## 6. Errors -/

/-- **Errors come as early as they can.** If tokens of which the last one alone ends the text
are no text, then the error is at the first token up to which they are viable no more, and
the tokens from there on are left over. If they are one, an error is at the first stimulus
that is for no input or for the same one as another before it. -/
theorem ofTokens_error_earliest [Inhabited α] {ts : List (Token α)} {eof : Token α}
    (hts : ∀ t ∈ ts, t.kind ≠ .eof) (heof : eof.kind = .eof) :
    ((¬ ∃ d, IsText (ts ++ [eof]) d) →
      ∃ k, IsLeast {k | k < (ts ++ [eof]).length ∧ ¬ Viable ((ts ++ [eof]).take (k + 1))} k ∧
        ∃ t ∈ (ts ++ [eof])[k]?, ∃ e,
          ofTokens (ts ++ [eof]) = (.error e, (ts ++ [eof]).drop k) ∧ e.place = t.place) ∧
    ∀ d e, IsText (ts ++ [eof]) d → (ofTokens (ts ++ [eof])).1 = .error e →
      ∃ k, IsLeast {k | d.Misfit k} k ∧ ∃ s ∈ d.stimuli[k]?, e.place = s.note := by
  have hcases := State.read_cases State.initial hts heof
  refine ⟨fun hnone => ?_, fun d e htext hread => ?_⟩
  · rcases hcases with ⟨s, hs, hread⟩ | ⟨before, t, after, s, rfl, hs, hstep, hread⟩
    · have hfin : s.finish? = none := by
        refine Option.eq_none_iff_forall_ne_some.2 fun d hd => ?_
        exact hnone ⟨d, (isText_iff heof).2 ⟨s, hs, hd⟩⟩
      have hbad := not_viable_snoc hs (s.step?_eof heof) fun _ => hfin
      refine ⟨ts.length, isLeast_of_steps hs hbad [], eof, by simp, s.refuse eof, ?_, rfl⟩
      rw [ofTokens, hread, State.conclude, hfin, List.drop_left]
    · have ht : t.kind ≠ .eof := hts t (by simp)
      have hbad := not_viable_snoc hs hstep fun hkind => absurd hkind ht
      rw [List.append_assoc, List.cons_append]
      refine ⟨before.length, isLeast_of_steps hs hbad (after ++ [eof]), t, by simp,
        s.refuse t, ?_, rfl⟩
      rw [List.append_assoc, List.cons_append] at hread
      rw [ofTokens, hread, List.drop_left]
  · obtain ⟨s, hs, hfin⟩ := (isText_iff heof).1 htext
    rcases hcases with ⟨u, hu, hall⟩ | ⟨before, t, after, u, rfl, hu, hstep, -⟩
    · cases hs.symm.trans hu
      rw [ofTokens, hall, State.conclude, hfin] at hread
      cases hfault : stimulusFault? d.inputs [] d.stimuli with
      | none =>
        simp only [hfault] at hread
        cases hread
      | some e' =>
        simp only [hfault] at hread
        cases hread
        exact exists_isLeast_misfit hfault
    · rw [State.steps?_append, hu, Option.bind_some, State.steps?, hstep] at hs
      cases hs

/-- The tokens of `.hardware h .update x = (a` and a line end, placed by number. -/
def openGate : List (Token Nat) :=
  [⟨.hardware, ".hardware", 0⟩, ⟨.identifier, "h", 1⟩, ⟨.update, ".update", 2⟩,
    ⟨.identifier, "x", 3⟩, ⟨.equals, "=", 4⟩, ⟨.lparen, "(", 5⟩, ⟨.identifier, "a", 6⟩,
    ⟨.newline, "\n", 7⟩]

/-- The tokens of `.hardware h .inputs a .simulate a = 0`, a line end, and `a = 1`. -/
def givenTwice : List (Token Nat) :=
  [⟨.hardware, ".hardware", 0⟩, ⟨.identifier, "h", 1⟩, ⟨.inputs, ".inputs", 2⟩,
    ⟨.identifier, "a", 3⟩, ⟨.simulate, ".simulate", 4⟩, ⟨.identifier, "a", 5⟩,
    ⟨.equals, "=", 6⟩, ⟨.bits, "0", 7⟩, ⟨.newline, "\n", 8⟩, ⟨.identifier, "a", 9⟩,
    ⟨.equals, "=", 10⟩, ⟨.bits, "1", 11⟩]

/-- What `givenTwice` stands for. -/
def givenTwiceText : Description Nat :=
  ⟨"h", ["a"], [], [], [], [⟨"a", [false], 5⟩, ⟨"a", [true], 9⟩], 0⟩

theorem ofTokens_error_earliest_gates :
    ((∀ t ∈ openGate, t.kind ≠ .eof) ∧ (¬ ∃ d, IsText (openGate ++ [Token.endOfText 8]) d) ∧
      ∃ k, IsLeast {k | k < (openGate ++ [Token.endOfText 8]).length ∧
          ¬ Viable ((openGate ++ [Token.endOfText 8]).take (k + 1))} k ∧
        ∃ t ∈ (openGate ++ [Token.endOfText 8])[k]?, ∃ e,
          ofTokens (openGate ++ [Token.endOfText 8]) =
            (.error e, (openGate ++ [Token.endOfText 8]).drop k) ∧ e.place = t.place) ∧
    (∀ t ∈ givenTwice, t.kind ≠ .eof) ∧
      IsText (givenTwice ++ [Token.endOfText 12]) givenTwiceText ∧
      (ofTokens (givenTwice ++ [Token.endOfText 12])).1 = .error ⟨.repeatedStimulus "a", 9⟩ ∧
      ∃ k, IsLeast {k | givenTwiceText.Misfit k} k ∧
        ∃ s ∈ givenTwiceText.stimuli[k]?, 9 = s.note := by
  have hgate : ∀ t ∈ openGate, t.kind ≠ .eof := by decide
  have hgiven : ∀ t ∈ givenTwice, t.kind ≠ .eof := by decide
  have hopen : ¬ ∃ d, IsText (openGate ++ [Token.endOfText 8]) d := by
    rintro ⟨d, hd⟩
    obtain ⟨s, hs, -⟩ := (isText_iff rfl).1 hd
    have hnone : State.initial.steps? openGate = none := rfl
    cases hnone.symm.trans hs
  have htext : IsText (givenTwice ++ [Token.endOfText 12]) givenTwiceText :=
    (isText_iff rfl).2 ⟨_, rfl, rfl⟩
  have hread : (ofTokens (givenTwice ++ [Token.endOfText 12])).1 =
      .error ⟨.repeatedStimulus "a", 9⟩ := rfl
  refine ⟨⟨hgate, hopen, ?_⟩, hgiven, htext, hread, ?_⟩
  · exact (ofTokens_error_earliest hgate rfl).1 hopen
  · exact (ofTokens_error_earliest hgiven rfl).2 _ _ htext hread

end Description
end Clocked
