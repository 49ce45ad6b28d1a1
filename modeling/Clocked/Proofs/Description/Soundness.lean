/-
Clocked.Proofs.Description.Soundness — what the reader takes is grammatical.

`Taken s ts` says how the state `s` was reached by the tokens `ts`, in terms of
the grammar alone: which sections are complete, which line has begun, which
levels of parentheses are open in it. `Taken.step` carries it over one token
and `Taken.steps` over a list; `Taken.finish` reads the whole text off a state
that may end.
-/
import Clocked.Proofs.Description.States

namespace Clocked.Description

open Clocked.Expr (Rank Derives)

variable {α : Type} {name : String} {note : α} {parts : List (Part α)}

/-! ## 1. Levels of parentheses -/

/-- A left-hand side with its operator, or nothing. -/
inductive IsLeft (rank : Rank) (operator : Token.Kind) :
    Option (Expr α × α) → List (Token α) → Prop
  | none : IsLeft rank operator none []
  | some {t : Token α} {ts : List (Token α)} {e : Expr α} (he : Derives rank ts e)
      (ht : t.kind = operator) : IsLeft rank operator (some (e, t.place)) (ts ++ [t])

/-- Any number of `!`, with their places from the last to the first. -/
inductive AreNots : List α → List (Token α) → Prop
  | nil : AreNots [] []
  | snoc {t : Token α} {ts : List (Token α)} {places : List α} (hs : AreNots places ts)
      (ht : t.kind = .not) : AreNots (t.place :: places) (ts ++ [t])

/-- The tokens of one level that wait for an operand. -/
inductive IsLevel : Waiting α → List (Token α) → Prop
  | mk {d c : Option (Expr α × α)} {places : List α} {ds cs ns : List (Token α)}
      (hd : IsLeft .expr .or d ds) (hc : IsLeft .term .and c cs) (hn : AreNots places ns) :
      IsLevel ⟨d, c, places⟩ (ds ++ (cs ++ ns))

/-- The tokens of all open levels, the innermost level first. -/
inductive AreLevels : List (Waiting α) → List (Token α) → Prop
  | outermost {w : Waiting α} {ts : List (Token α)} (h : IsLevel w ts) : AreLevels [w] ts
  | inner {w : Waiting α} {outer : List (Waiting α)} {l : Token α} {ts us : List (Token α)}
      (ho : AreLevels outer ts) (hl : l.kind = .lparen) (h : IsLevel w us) :
      AreLevels (w :: outer) (ts ++ l :: us)

theorem isLevel_empty : IsLevel ({} : Waiting α) [] := .mk .none .none .nil

section Level

variable {w : Waiting α} {ts us : List (Token α)} {e : Expr α}

theorem AreNots.factor {places : List α} (hn : AreNots places ts) (he : Derives .factor us e) :
    Derives .factor (ts ++ us) (places.foldl (fun e place => .not place e) e) := by
  induction hn generalizing us e with
  | nil => exact he
  | snoc hs ht ih =>
    rw [List.append_assoc]
    exact ih (.not ht he)

theorem IsLeft.term {c : Option (Expr α × α)} {places : List α} {cs ns : List (Token α)}
    (hc : IsLeft .term .and c cs) (hn : AreNots places ns) (he : Derives .factor us e)
    (d : Option (Expr α × α)) :
    Derives .term (cs ++ (ns ++ us)) ((⟨d, c, places⟩ : Waiting α).term e) := by
  cases hc with
  | none => exact .factor (hn.factor he)
  | some hl ht =>
    rw [List.append_assoc]
    exact .and hl ht (hn.factor he)

/-- An operand completes its level. -/
theorem IsLevel.close (h : IsLevel w ts) (he : Derives .factor us e) :
    Derives .expr (ts ++ us) (w.close e) := by
  cases h with
  | mk hd hc hn =>
    rw [List.append_assoc, List.append_assoc]
    cases hd with
    | none => exact .term (hc.term hn he none)
    | some hl ht =>
      rw [List.append_assoc]
      exact .or hl ht (hc.term hn he _)

theorem IsLevel.negate {t : Token α} (h : IsLevel w ts) (ht : t.kind = .not) :
    IsLevel (w.negate t.place) (ts ++ [t]) := by
  cases h with
  | mk hd hc hn =>
    rw [List.append_assoc, List.append_assoc]
    exact .mk hd hc (hn.snoc ht)

theorem IsLevel.conjoin {t : Token α} (h : IsLevel w ts) (he : Derives .factor us e)
    (ht : t.kind = .and) : IsLevel (w.conjoin e t.place) (ts ++ us ++ [t]) := by
  cases h with
  | @mk d _ _ _ _ _ hd hc hn =>
    have hlevel := IsLevel.mk hd (.some (hc.term hn he d) ht) .nil
    simpa only [Waiting.conjoin, List.append_assoc, List.append_nil] using hlevel

theorem IsLevel.disjoin {t : Token α} (h : IsLevel w ts) (he : Derives .factor us e)
    (ht : t.kind = .or) : IsLevel (w.disjoin e t.place) (ts ++ us ++ [t]) := by
  rw [← List.append_nil (_ ++ [t])]
  exact .mk (.some (h.close he) ht) .none .nil

/-- Whatever the innermost level becomes, the outer ones stay. -/
theorem AreLevels.innermost {outer : List (Waiting α)} (h : AreLevels (w :: outer) ts) :
    ∃ before us, ts = before ++ us ∧ IsLevel w us ∧
      ∀ w' us', IsLevel w' us' → AreLevels (w' :: outer) (before ++ us') := by
  cases h with
  | outermost h => exact ⟨[], ts, rfl, h, fun w' us' h' => .outermost h'⟩
  | @inner _ _ l vs us ho hl h =>
    refine ⟨vs ++ [l], us, by simp, h, fun w' us' h' => ?_⟩
    rw [List.append_assoc]
    exact .inner ho hl h'

end Level

/-! ## 2. What has been taken -/

/-- A line of a section that has begun, and the mode the reader is in. -/
inductive Begins : Part α → List (Token α) → Mode α → Prop
  | latchArrow {i : Token α} {xs : List (LatchLine α)} (hi : i.kind = .identifier) :
      Begins (.latches xs) [i] (.latchArrow i.text i.place)
  | latchOutput {i a : Token α} {xs : List (LatchLine α)} (hi : i.kind = .identifier)
      (ha : a.kind = .arrow) : Begins (.latches xs) [i, a] (.latchOutput i.text i.place)
  | updateEquals {o : Token α} {xs : List (UpdateLine α)} (ho : o.kind = .identifier) :
      Begins (.updates xs) [o] (.updateEquals o.text o.place)
  | operand {o q : Token α} {ts : List (Token α)} {xs : List (UpdateLine α)} {w : Waiting α}
      {outer : List (Waiting α)} (ho : o.kind = .identifier) (hq : q.kind = .equals)
      (hw : AreLevels (w :: outer) ts) :
      Begins (.updates xs) (o :: q :: ts) (.operand o.text o.place w outer)
  | operator {o q : Token α} {ts us : List (Token α)} {xs : List (UpdateLine α)} {w : Waiting α}
      {outer : List (Waiting α)} {e : Expr α} (ho : o.kind = .identifier) (hq : q.kind = .equals)
      (hw : AreLevels (w :: outer) ts) (he : Derives .factor us e) :
      Begins (.updates xs) (o :: q :: (ts ++ us)) (.operator o.text o.place w e outer)
  | stimulusEquals {i : Token α} {xs : List (StimulusLine α)} (hi : i.kind = .identifier) :
      Begins (.stimuli xs) [i] (.stimulusEquals i.text i.place)
  | stimulusBits {i q : Token α} {xs : List (StimulusLine α)} (hi : i.kind = .identifier)
      (hq : q.kind = .equals) : Begins (.stimuli xs) [i, q] (.stimulusBits i.text i.place)

/-- The tokens that lead to a state. -/
inductive Taken [Inhabited α] : State α → List (Token α) → Prop
  | opening {nl : List (Token α)} (hnl : Newlines nl) : Taken .initial nl
  | title {nl : List (Token α)} {w : Token α} (hnl : Newlines nl) (hw : w.kind = .hardware) :
      Taken ⟨{ blank with note := w.place }, [], .title⟩ (nl ++ [w])
  | between {ts : List (Token α)} {name : String} {note : α} {parts : List (Part α)}
      (h : IsBody false ts name note parts) : Taken (.after name note parts) ts
  | line {ts us : List (Token α)} {name : String} {note : α} {parts : List (Part α)} {p : Part α}
      {mode : Mode α} (h : IsBody false ts name note (parts ++ [p])) (hline : Begins p us mode) :
      Taken { State.after name note (parts ++ [p]) with mode := mode } (ts ++ us)
  | stimulus {ts us : List (Token α)} {name : String} {note : α} {parts : List (Part α)}
      {xs : List (StimulusLine α)} {x : StimulusLine α}
      (h : IsBody false ts name note (parts ++ [.stimuli xs])) (hline : IsStimulus true us x) :
      Taken { State.after name note (parts ++ [.stimuli (xs ++ [x])]) with mode := .stimulusEnd }
        (ts ++ us)

/-! ## 3. Sections and lines that come to an end -/

theorem IsBody.enter {last : Bool} {ts : List (Token α)} {p : Part α} {w : Token α}
    (h : IsBody false ts name note parts) (hp : Part.blank? w.kind = some p)
    (hnew : p.kind ∉ closedBy parts) : IsBody last (ts ++ [w]) name note (parts ++ [p]) := by
  have hsection : IsSection last [w] p := by
    have hheaded {β : Type} (item : Bool → List (Token α) → β → Prop) :
        Headed w.kind item last [w] [] := .mk rfl newlines_nil .none
    cases hk : w.kind <;> simp only [hk, Part.blank?, Option.some.injEq, reduceCtorEq] at hp
    all_goals subst hp; rw [hk] at hheaded
    · exact .inputs (hheaded _)
    · exact .outputs (hheaded _)
    · exact .latches (hheaded _)
    · exact .updates (hheaded _)
    · exact .stimuli (hheaded _)
  cases h with
  | mk ht hs honce =>
    rw [List.append_assoc]
    exact .mk ht (.more hs hsection) (atMostOnce_snoc.2 ⟨honce, hnew⟩)

/-- A line added to the section under way. -/
inductive Grows (last : Bool) : Part α → List (Token α) → Part α → Prop
  | input {ts : List (Token α)} {xs : List String} {x : String} (h : IsName last ts x) :
      Grows last (.inputs xs) ts (.inputs (xs ++ [x]))
  | output {ts : List (Token α)} {xs : List String} {x : String} (h : IsName last ts x) :
      Grows last (.outputs xs) ts (.outputs (xs ++ [x]))
  | latch {ts : List (Token α)} {xs : List (LatchLine α)} {x : LatchLine α}
      (h : IsLatch last ts x) : Grows last (.latches xs) ts (.latches (xs ++ [x]))
  | update {ts : List (Token α)} {xs : List (UpdateLine α)} {x : UpdateLine α}
      (h : IsUpdate last ts x) : Grows last (.updates xs) ts (.updates (xs ++ [x]))
  | stimulus {ts : List (Token α)} {xs : List (StimulusLine α)} {x : StimulusLine α}
      (h : IsStimulus last ts x) : Grows last (.stimuli xs) ts (.stimuli (xs ++ [x]))

theorem Headed.more {β : Type} {kind : Token.Kind} {item : Bool → List (Token α) → β → Prop}
    {last : Bool} {ts us : List (Token α)} {xs : List β} {x : β}
    (h : Headed kind item false ts xs) (hx : item last us x) :
    Headed kind item last (ts ++ us) (xs ++ [x]) := by
  cases h with
  | mk hw hnl hmany =>
    rw [List.cons_append, List.append_assoc]
    exact .mk hw hnl (.more hmany hx)

theorem IsSection.grow {last : Bool} {ts us : List (Token α)} {p q : Part α}
    (h : IsSection false ts p) (hg : Grows last p us q) : IsSection last (ts ++ us) q := by
  cases hg with
  | input hx => cases h with | inputs h => exact .inputs (h.more hx)
  | output hx => cases h with | outputs h => exact .outputs (h.more hx)
  | latch hx => cases h with | latches h => exact .latches (h.more hx)
  | update hx => cases h with | updates h => exact .updates (h.more hx)
  | stimulus hx => cases h with | stimuli h => exact .stimuli (h.more hx)

theorem Grows.kind {last : Bool} {ts : List (Token α)} {p q : Part α} (h : Grows last p ts q) :
    q.kind = p.kind := by
  cases h <;> rfl

theorem IsBody.grow {last : Bool} {ts us : List (Token α)} {p q : Part α}
    (h : IsBody false ts name note (parts ++ [p])) (hg : Grows last p us q) :
    IsBody last (ts ++ us) name note (parts ++ [q]) := by
  -- the line extends the last section, so the list of sections is taken apart from its end
  have hparts {ps : List (Part α)} {vs : List (Token α)} (hs : Many IsSection false vs ps)
      (hps : ps = parts ++ [p]) : Many IsSection last (vs ++ us) (parts ++ [q]) := by
    cases hs with
    | none => simp at hps
    | more hs hp =>
      obtain ⟨rfl, hpeq⟩ := List.append_inj' hps rfl
      cases hpeq
      rw [List.append_assoc]
      exact .more hs (hp.grow hg)
  cases h with
  | mk ht hs honce =>
    rw [atMostOnce_snoc, ← hg.kind] at honce
    rw [List.append_assoc]
    exact .mk ht (hparts hs rfl) (atMostOnce_snoc.2 honce)

/-! ## 4. One token more -/

section Step

variable [Inhabited α] {s s' : State α} {t : Token α} {ts us : List (Token α)}

/-- A section that has a line more. -/
theorem Taken.grown {p q : Part α} (h : IsBody false ts name note (parts ++ [p]))
    (hg : Grows false p us q) (hs : s = .after name note (parts ++ [q])) : Taken s (ts ++ us) := by
  rw [hs]
  exact .between (h.grow hg)

theorem Taken.of_between (h : IsBody false ts name note parts)
    (hstep : (State.after name note parts).between? t = some s') : Taken s' (ts ++ [t]) := by
  unfold State.between? at hstep
  by_cases ht : t.kind = .newline
  · rw [if_pos ht] at hstep
    cases hstep
    exact .between (h.snoc ht)
  · rw [if_neg ht] at hstep
    obtain ⟨p, hp, hnew, rfl⟩ := State.enter?_after.1 hstep
    exact .between (h.enter hp hnew)

/-- The first token of a line, or one between two lines. -/
theorem Taken.step_after (h : IsBody false ts name note parts)
    (hstep : (State.after name note parts).step? t = some s') : Taken s' (ts ++ [t]) := by
  rcases parts.eq_nil_or_concat with rfl | ⟨parts, p, rfl⟩
  · exact Taken.of_between h hstep
  · rw [List.concat_eq_append] at h hstep
    rw [State.step?_after_snoc] at hstep
    split at hstep
    · next hi =>
      cases hstep
      cases p with
      | inputs xs => exact Taken.grown h (.input (.mk hi newlines_nil)) rfl
      | outputs xs => exact Taken.grown h (.output (.mk hi newlines_nil)) rfl
      | latches xs => exact .line h (.latchArrow hi)
      | updates xs => exact .line h (.updateEquals hi)
      | stimuli xs => exact .line h (.stimulusEquals hi)
    · exact Taken.of_between h hstep

/-- A token where an operand must stand. -/
theorem Taken.operand {o q : Token α} {xs : List (UpdateLine α)} {w : Waiting α}
    {outer : List (Waiting α)} (h : IsBody false ts name note (parts ++ [.updates xs]))
    (ho : o.kind = .identifier) (hq : q.kind = .equals) (hw : AreLevels (w :: outer) us)
    (hstep : ({ State.after name note (parts ++ [.updates xs]) with
        mode := .operand o.text o.place w outer } : State α).operand? o.text o.place w outer t =
      some s') : Taken s' (ts ++ (o :: q :: (us ++ [t]))) := by
  unfold State.operand? at hstep
  split at hstep
  · next ht =>
    cases hstep
    -- only the innermost level changes
    obtain ⟨before, vs, rfl, hv, hrest⟩ := hw.innermost
    rw [List.append_assoc]
    exact .line h (.operand ho hq (hrest _ _ (hv.negate ht)))
  · next ht =>
    cases hstep
    exact .line h (.operand ho hq (.inner hw ht isLevel_empty))
  · next ht =>
    cases hstep
    exact .line h (.operator ho hq hw (.signal ht))
  · cases hstep

/-- A token after an operand. -/
theorem Taken.operator {o q : Token α} {xs : List (UpdateLine α)} {w : Waiting α}
    {outer : List (Waiting α)} {vs : List (Token α)} {e : Expr α}
    (h : IsBody false ts name note (parts ++ [.updates xs])) (ho : o.kind = .identifier)
    (hq : q.kind = .equals) (hw : AreLevels (w :: outer) us) (he : Derives .factor vs e)
    (hstep : ({ State.after name note (parts ++ [.updates xs]) with
        mode := .operator o.text o.place w e outer } : State α).operator? o.text o.place w e outer
      t = some s') : Taken s' (ts ++ (o :: q :: (us ++ vs ++ [t]))) := by
  unfold State.operator? at hstep
  split at hstep
  · next ht =>
    cases hstep
    obtain ⟨before, us, rfl, hu, hrest⟩ := hw.innermost
    rw [List.append_assoc before, List.append_assoc before]
    exact .line h (.operand ho hq (hrest _ _ (hu.conjoin he ht)))
  · next ht =>
    cases hstep
    obtain ⟨before, us, rfl, hu, hrest⟩ := hw.innermost
    rw [List.append_assoc before, List.append_assoc before]
    exact .line h (.operand ho hq (hrest _ _ (hu.disjoin he ht)))
  · next ht =>
    cases outer with
    | nil => cases hstep
    | cons up outer =>
      cases hstep
      cases hw with
      | inner houter hl hu =>
        rw [List.append_assoc, List.append_assoc, List.cons_append, ← List.append_assoc _ vs]
        exact .line h (.operator ho hq houter (.parens hl (hu.close he) ht))
  · next ht =>
    cases outer with
    | cons up outer => cases hstep
    | nil =>
      cases hstep
      cases hw with
      | inner houter _ _ => cases houter
      | outermost hu =>
        have hend : LineEnd false [t] := ⟨newlines_nil.snoc ht, fun hnil => by simp at hnil⟩
        exact Taken.grown h (.update (.mk ho hq (hu.close he) hend))
          (State.after_update _ _ _ _).symm
  · cases hstep

/-- One token more, wherever the reader is. -/
theorem Taken.step (h : Taken s ts) (hstep : s.step? t = some s') : Taken s' (ts ++ [t]) := by
  cases h with
  | opening hnl =>
    simp only [State.step?, State.initial] at hstep
    split at hstep
    · next ht =>
      cases hstep
      exact .opening (hnl.snoc ht)
    · next ht =>
      cases hstep
      exact .title hnl ht
    · cases hstep
  | @title nl w hnl hw =>
    simp only [State.step?] at hstep
    split at hstep
    · next ht =>
      cases hstep
      have htitle : IsTitle (nl ++ w :: [t]) t.text w.place := .mk hnl hw ht newlines_nil
      have hbody := (IsBody.mk htitle .none atMostOnce_nil : IsBody false _ _ _ [])
      rw [List.append_nil] at hbody
      rw [List.append_assoc]
      exact .between hbody
    · cases hstep
  | between h => exact Taken.step_after h hstep
  | @line ts us name note parts p mode h hline =>
    rw [List.append_assoc]
    simp only [State.step?] at hstep
    cases hline with
    | latchArrow hi =>
      simp only at hstep
      split at hstep
      · next ha =>
        cases hstep
        exact .line h (.latchOutput hi ha)
      · cases hstep
    | latchOutput hi ha =>
      simp only at hstep
      split at hstep
      · next ho =>
        cases hstep
        exact Taken.grown h (.latch (.mk hi ha ho newlines_nil)) (State.after_latch _ _).symm
      · cases hstep
    | updateEquals ho =>
      simp only at hstep
      split at hstep
      · next hq =>
        cases hstep
        exact .line h (.operand ho hq (.outermost isLevel_empty))
      · cases hstep
    | operand ho hq hw => exact Taken.operand h ho hq hw hstep
    | operator ho hq hw he => exact Taken.operator h ho hq hw he hstep
    | stimulusEquals hi =>
      simp only at hstep
      split at hstep
      · next hq =>
        cases hstep
        exact .line h (.stimulusBits hi hq)
      · cases hstep
    | stimulusBits hi hq =>
      simp only at hstep
      split at hstep
      · next hb =>
        cases hstep
        have htaken := Taken.stimulus h (.mk hi hq hb ⟨newlines_nil, fun _ => rfl⟩)
        rwa [State.after_stimulus] at htaken
      · cases hstep
  | stimulus h hline =>
    simp only [State.step?] at hstep
    split at hstep
    · next ht =>
      cases hstep
      rw [List.append_assoc]
      refine Taken.grown h (.stimulus (continues_isStimulus hline ht)) ?_
      rw [State.after_snoc]
      rfl
    · cases hstep

theorem Taken.steps (h : Taken s ts) (hsteps : s.steps? us = some s') : Taken s' (ts ++ us) := by
  induction us generalizing s ts with
  | nil =>
    cases hsteps
    rw [List.append_nil]
    exact h
  | cons t us ih =>
    obtain ⟨s₁, hstep, hrest⟩ := Option.bind_eq_some_iff.1 hsteps
    have htaken := ih (h.step hstep) hrest
    rwa [List.append_assoc] at htaken

/-! ## 5. The end of the text -/

/-- A state that may end gives the description of a whole text. -/
theorem Taken.finish {d : Description α} (h : Taken s ts) (hfin : s.finish? = some d) :
    ∃ name note parts, IsBody true ts name note parts ∧ d = assemble name note parts := by
  cases h with
  | opening hnl => cases hfin
  | title hnl hw => cases hfin
  | @between _ name note parts h =>
    refine ⟨name, note, parts, h.ends, ?_⟩
    rw [State.finish?_of_betweenSections State.after_betweenSections] at hfin
    cases hfin
    rfl
  | @line ts us name note parts p mode h hline =>
    cases hline with
    | @operator o q us vs xs w outer e ho hq hw he =>
      -- inside parentheses the text may not end
      cases outer with
      | cons up outer => cases hfin
      | nil =>
        cases hw with
        | inner houter _ _ => cases houter
        | outermost hu =>
          have hend : LineEnd true ([] : List (Token α)) := ⟨newlines_nil, fun _ => rfl⟩
          have hbody := h.grow (.update (.mk ho hq (hu.close he) hend))
          rw [List.append_nil] at hbody
          refine ⟨name, note, _, hbody, ?_⟩
          cases hfin
          show ((State.after name note (parts ++ [.updates xs])).addUpdate o.text o.place
            (w.close e)).draft = _
          rw [← State.after_update]
          rfl
    | latchArrow _ | latchOutput _ _ | updateEquals _ | operand _ _ _ | stimulusEquals _
    | stimulusBits _ _ => cases hfin
  | @stimulus ts us name note parts xs x h hline =>
    cases hfin
    exact ⟨name, note, _, h.grow (.stimulus hline), rfl⟩

end Step

end Clocked.Description
