/-
Clocked.Proofs.Description.Completeness — every grammatical text is read.

Rule by rule, the reader takes the tokens of a rule and arrives where the rule
says: `reads_of_derives` for expressions, by induction on the derivation, the
lemmas `leads` for lines, sections and texts. A line at the end of the text has
no line end, so what the last rules promise is a state that may end (`Leads`).
-/
import Clocked.Proofs.Description.States

namespace Clocked.Description

open Clocked.Expr (Rank Derives)

variable {α β : Type} {last : Bool} {name : String} {note : α} {parts : List (Part α)}
  {s s' : State α} {t : Token α} {ts us : List (Token α)}

namespace State

theorem steps?_cons (hstep : s.step? t = some s') : s.steps? (t :: ts) = s'.steps? ts := by
  rw [steps?, hstep]
  rfl

theorem steps?_trans {u : State α} (h : s.steps? ts = some s') (h' : s'.steps? us = some u) :
    s.steps? (ts ++ us) = some u := by
  rw [steps?_append, h]
  exact h'

end State

/-! ## 1. Expressions -/

/-- What an expression of a rank needs of the level it stands on. -/
def Waiting.Admits (w : Waiting α) : Rank → Prop
  | .factor => True
  | .term => w.conjunct = none ∧ w.negations = []
  | .expr => w = {}

/-- The level `w'` with the operand `v` is the level `w` with the expression `e`. -/
def Waiting.Holds (w : Waiting α) (e : Expr α) (w' : Waiting α) (v : Expr α) : Rank → Prop
  | .factor => w'.disjunct = w.disjunct ∧ w'.conjunct = w.conjunct ∧ w'.factor v = w.factor e
  | .term => w'.disjunct = w.disjunct ∧ w'.term v = e
  | .expr => w'.close v = e

/-- Taking the tokens leads from an operand's place to the place behind it. -/
def Reads (s : State α) (output : String) (place : α) (outer : List (Waiting α))
    (w : Waiting α) (ts : List (Token α)) (w' : Waiting α) (v : Expr α) : Prop :=
  ({ s with mode := .operand output place w outer } : State α).steps? ts =
    some { s with mode := .operator output place w' v outer }

section Reads

variable {output : String} {place : α} {outer : List (Waiting α)} {w w' : Waiting α}
  {e v : Expr α}

theorem Reads.signal (ht : t.kind = .identifier) :
    Reads s output place outer w [t] w (.signal t.place t.text) := by
  refine State.steps?_cons ?_
  simp [State.step?, State.operand?, ht]

theorem Reads.not (h : Reads s output place outer (w.negate t.place) ts w' v)
    (ht : t.kind = .not) : Reads s output place outer w (t :: ts) w' v := by
  refine (State.steps?_cons ?_).trans h
  simp [State.step?, State.operand?, ht]

theorem Reads.parens {l r : Token α} (h : Reads s output place (w :: outer) {} ts w' v)
    (hl : l.kind = .lparen) (hr : r.kind = .rparen) :
    Reads s output place outer w (l :: (ts ++ [r])) w (w'.close v) := by
  have hopen : ({ s with mode := .operand output place w outer } : State α).step? l =
      some { s with mode := .operand output place {} (w :: outer) } := by
    simp [State.step?, State.operand?, hl]
  have hclose : ({ s with mode := .operator output place w' v (w :: outer) } : State α).step? r =
      some { s with mode := .operator output place w (w'.close v) outer } := by
    simp [State.step?, State.operator?, hr]
  refine (State.steps?_cons hopen).trans (State.steps?_trans h ?_)
  exact State.steps?_cons hclose

theorem Reads.and {w₁ : Waiting α} {l r : Expr α} {ls rs : List (Token α)}
    (hl : Reads s output place outer w ls w₁ l) (ht : t.kind = .and)
    (hr : Reads s output place outer (w₁.conjoin l t.place) rs w' r) :
    Reads s output place outer w (ls ++ t :: rs) w' r := by
  refine State.steps?_trans hl ((State.steps?_cons ?_).trans hr)
  simp [State.step?, State.operator?, ht]

theorem Reads.or {w₁ : Waiting α} {l r : Expr α} {ls rs : List (Token α)}
    (hl : Reads s output place outer w ls w₁ l) (ht : t.kind = .or)
    (hr : Reads s output place outer (w₁.disjoin l t.place) rs w' r) :
    Reads s output place outer w (ls ++ t :: rs) w' r := by
  refine State.steps?_trans hl ((State.steps?_cons ?_).trans hr)
  simp [State.step?, State.operator?, ht]

/-- An expression is read wherever its rank is admitted. -/
theorem reads_of_derives (s : State α) (output : String) (place : α) {rank : Rank}
    (h : Derives rank ts e) :
    ∀ (w : Waiting α) (outer : List (Waiting α)), w.Admits rank →
      ∃ w' v, Reads s output place outer w ts w' v ∧ w.Holds e w' v rank := by
  -- a factor leaves its level as it is but for the `!` in front of it; terms and
  -- expressions may leave another level, with the same meaning
  induction h with
  | signal ht =>
    intro w outer _
    exact ⟨w, _, .signal ht, rfl, rfl, rfl⟩
  | @not t ts e ht _ ih =>
    intro w outer _
    obtain ⟨w', v, hreads, hd, hc, hf⟩ := ih (w.negate t.place) outer trivial
    exact ⟨w', v, hreads.not ht, hd, hc, hf⟩
  | parens hl _ hr ih =>
    intro w outer _
    obtain ⟨w', v, hreads, rfl⟩ := ih {} (w :: outer) rfl
    exact ⟨w, _, hreads.parens hl hr, rfl, rfl, rfl⟩
  | factor _ ih =>
    rintro w outer ⟨hc, hn⟩
    obtain ⟨w', v, hreads, hd, hc', hf⟩ := ih w outer trivial
    refine ⟨w', v, hreads, hd, ?_⟩
    rw [Waiting.term, hc', hc, hf, Waiting.factor, hn]
    rfl
  | @and t _ _ _ _ _ ht _ ihl ihr =>
    intro w outer hw
    obtain ⟨w₁, l, hl, hd, rfl⟩ := ihl w outer hw
    obtain ⟨w', r, hr, hd', hc, hf⟩ := ihr (w₁.conjoin l t.place) outer trivial
    refine ⟨w', r, hl.and ht hr, hd'.trans hd, ?_⟩
    rw [Waiting.term, hc, hf]
    rfl
  | term _ ih =>
    rintro w outer rfl
    obtain ⟨w', v, hreads, hd, ht⟩ := ih {} outer ⟨rfl, rfl⟩
    refine ⟨w', v, hreads, ?_⟩
    rw [Waiting.Holds, Waiting.close, hd]
    exact ht
  | @or t _ _ _ _ _ ht _ ihl ihr =>
    intro w outer hw
    obtain ⟨w₁, l, hl, rfl⟩ := ihl w outer hw
    obtain ⟨w', r, hr, hd, hterm⟩ := ihr (w₁.disjoin l t.place) outer ⟨rfl, rfl⟩
    refine ⟨w', r, hl.or ht hr, ?_⟩
    rw [Waiting.Holds, Waiting.close, hd, hterm]
    rfl

end Reads

/-! ## 2. Between two lines -/

/-- Taking the tokens leads from one state to another, or, if the text ends
there, to a state that may end with the same description. -/
def State.Leads (last : Bool) (s : State α) (ts : List (Token α)) (s' : State α) : Prop :=
  ∃ u, s.steps? ts = some u ∧ (u = s' ∨ last = true ∧ u.finish? = some s'.draft)

namespace State

theorem Leads.of_steps (h : s.steps? ts = some s') : Leads last s ts s' := ⟨s', h, .inl rfl⟩

theorem Leads.trans {u : State α} (h : Leads false s ts s') (h' : Leads last s' us u) :
    Leads last s (ts ++ us) u := by
  obtain ⟨s₁, hs, rfl | ⟨hfalse, -⟩⟩ := h
  · obtain ⟨s₂, hs', hu⟩ := h'
    exact ⟨s₂, steps?_trans hs hs', hu⟩
  · cases hfalse

theorem Leads.cons {u : State α} (hstep : s.step? t = some s') (h : Leads last s' ts u) :
    Leads last s (t :: ts) u :=
  Leads.trans (.of_steps (steps?_cons hstep : s.steps? [t] = some s')) h

theorem step?_newline (hs : s.mode.betweenSections = true) (ht : t.kind = .newline) :
    s.step? t = some s := by
  unfold step?
  cases hm : s.mode <;> simp [hm, Mode.betweenSections] at hs <;> simp [between?, ht]

theorem steps?_newlines (hs : s.mode.betweenSections = true) (hts : Newlines ts) :
    s.steps? ts = some s := by
  induction ts with
  | nil => rfl
  | cons t ts ih =>
    rw [steps?_cons (step?_newline hs (hts t List.mem_cons_self))]
    exact ih fun u hu => hts u (List.mem_cons_of_mem _ hu)

/-- A line is complete at its line end, or at the end of the text. -/
theorem leads_lineEnd (hend : s.finish? = some s'.draft)
    (hstep : ∀ t : Token α, t.kind = .newline → s.step? t = some s')
    (hs' : s'.mode.betweenSections = true) (h : LineEnd last ts) : Leads last s ts s' := by
  cases ts with
  | nil => exact ⟨s, rfl, .inr ⟨h.2 rfl, hend⟩⟩
  | cons t ts =>
    refine .cons (hstep t (h.1 t List.mem_cons_self)) (.of_steps (steps?_newlines hs' ?_))
    exact fun u hu => h.1 u (List.mem_cons_of_mem _ hu)

end State

/-! ## 3. Lines -/

open State (Leads after)

theorem step?_begun {p : Part α} (ht : t.kind = .identifier) :
    (after name note (parts ++ [p])).step? t = some (.begun name note parts t p) := by
  rw [State.step?_after_snoc, if_pos ht]

theorem IsName.leads_input {xs : List String} {x : String} (h : IsName last ts x) :
    Leads last (after name note (parts ++ [.inputs xs])) ts
      (after name note (parts ++ [.inputs (xs ++ [x])])) := by
  cases h with
  | mk ht hnl =>
    exact .cons (step?_begun ht)
      (.of_steps (State.steps?_newlines State.after_betweenSections hnl))

theorem IsName.leads_output {xs : List String} {x : String} (h : IsName last ts x) :
    Leads last (after name note (parts ++ [.outputs xs])) ts
      (after name note (parts ++ [.outputs (xs ++ [x])])) := by
  cases h with
  | mk ht hnl =>
    exact .cons (step?_begun ht)
      (.of_steps (State.steps?_newlines State.after_betweenSections hnl))

theorem IsLatch.leads {xs : List (LatchLine α)} {x : LatchLine α} (h : IsLatch last ts x) :
    Leads last (after name note (parts ++ [.latches xs])) ts
      (after name note (parts ++ [.latches (xs ++ [x])])) := by
  cases h with
  | @mk i a o nl hi ha ho hnl =>
    have harrow : ∀ s : State α,
        ({ s with mode := .latchArrow i.text i.place } : State α).step? a =
          some { s with mode := .latchOutput i.text i.place } := fun s => by
      simp [State.step?, ha]
    refine .cons (step?_begun hi) (.cons (harrow _) (.cons ?_
      (.of_steps (State.steps?_newlines State.after_betweenSections hnl))))
    rw [State.after_latch]
    simp [State.step?, ho]

theorem IsUpdate.leads {xs : List (UpdateLine α)} {x : UpdateLine α} (h : IsUpdate last ts x) :
    Leads last (after name note (parts ++ [.updates xs])) ts
      (after name note (parts ++ [.updates (xs ++ [x])])) := by
  cases h with
  | @mk o q es le e ho hq he hle =>
    have hequals : ∀ s : State α,
        ({ s with mode := .updateEquals o.text o.place } : State α).step? q =
          some { s with mode := .operand o.text o.place {} [] } := fun s => by
      simp [State.step?, hq]
    obtain ⟨w', v, hreads, rfl⟩ :=
      reads_of_derives (after name note (parts ++ [.updates xs])) o.text o.place he {} [] rfl
    refine .cons (step?_begun ho) (.cons (hequals _) (.trans (.of_steps hreads) ?_))
    refine State.leads_lineEnd ?_ (fun t ht => ?_) State.after_betweenSections hle
    · rw [State.after_update]
      rfl
    · rw [State.after_update]
      simp [State.step?, State.operator?, State.addUpdate, ht]

theorem IsStimulus.leads {xs : List (StimulusLine α)} {x : StimulusLine α}
    (h : IsStimulus last ts x) :
    Leads last (after name note (parts ++ [.stimuli xs])) ts
      (after name note (parts ++ [.stimuli (xs ++ [x])])) := by
  cases h with
  | @mk i q b le hi hq hb hle =>
    have hequals : ∀ s : State α,
        ({ s with mode := .stimulusEquals i.text i.place } : State α).step? q =
          some { s with mode := .stimulusBits i.text i.place } := fun s => by
      simp [State.step?, hq]
    have hbits : ∀ s : State α,
        ({ s with mode := .stimulusBits i.text i.place } : State α).step? b =
          some { s with
            mode := .stimulusEnd
            draft := { s.draft with stimuli := s.draft.stimuli ++
              [⟨i.text, b.text.toList.map (· == '1'), i.place⟩] } } := fun s => by
      simp [State.step?, hb]
    refine .cons (step?_begun hi) (.cons (hequals _) (.cons (hbits _) ?_))
    refine State.leads_lineEnd ?_ (fun t ht => ?_) State.after_betweenSections hle
    · rw [State.after_stimulus]
      rfl
    · rw [State.after_stimulus]
      simp [State.step?, ht]

/-! ## 4. Sections -/

theorem Many.leads {item : Bool → List (Token α) → β → Prop} (state : List β → State α)
    (hitem : ∀ {last ts x xs}, item last ts x → Leads last (state xs) ts (state (xs ++ [x])))
    {xs : List β} (h : Many item last ts xs) : Leads last (state []) ts (state xs) := by
  induction h with
  | none => exact .of_steps rfl
  | more _ hx ih => exact ih.trans (hitem hx)

theorem State.step?_opener {p : Part α} (hs : s.mode.betweenSections = true)
    (hp : Part.blank? t.kind = some p) : s.step? t = s.enter? t.kind := by
  unfold State.step?
  cases hk : t.kind <;> simp only [hk, Part.blank?, reduceCtorEq] at hp <;>
    cases hm : s.mode <;> simp [hm, Mode.betweenSections] at hs <;> simp [State.between?, hk]

/-- A section is read: `part` makes the section from what it lists. -/
theorem Headed.leads {kind : Token.Kind} {item : Bool → List (Token α) → β → Prop}
    (part : List β → Part α) (hblank : Part.blank? kind = some (part []))
    (hnew : (part []).kind ∉ closedBy parts)
    (hitem : ∀ {last ts x xs}, item last ts x → Leads last
      (after name note (parts ++ [part xs])) ts (after name note (parts ++ [part (xs ++ [x])])))
    {xs : List β} (h : Headed kind item last ts xs) :
    Leads last (after name note parts) ts (after name note (parts ++ [part xs])) := by
  cases h with
  | @mk w _ _ _ hw hnl hmany =>
    subst hw
    have hopen : (after name note parts).step? w = some (after name note (parts ++ [part []])) := by
      rw [State.step?_opener State.after_betweenSections hblank]
      exact State.enter?_after.2 ⟨_, hblank, hnew, rfl⟩
    have hlines := Many.leads (fun xs => after name note (parts ++ [part xs])) hitem hmany
    exact .cons hopen (.trans
      (.of_steps (State.steps?_newlines State.after_betweenSections hnl)) hlines)

theorem IsSection.leads {p : Part α} (h : IsSection last ts p) (hnew : p.kind ∉ closedBy parts) :
    Leads last (after name note parts) ts (after name note (parts ++ [p])) := by
  cases h with
  | inputs h => exact h.leads .inputs rfl hnew IsName.leads_input
  | outputs h => exact h.leads .outputs rfl hnew IsName.leads_output
  | latches h => exact h.leads .latches rfl hnew IsLatch.leads
  | updates h => exact h.leads .updates rfl hnew IsUpdate.leads
  | stimuli h => exact h.leads .stimuli rfl hnew IsStimulus.leads

theorem leads_sections (h : Many IsSection last ts parts) (honce : AtMostOnce parts) :
    Leads last (after name note []) ts (after name note parts) := by
  induction h with
  | none => exact .of_steps rfl
  | more _ hp ih =>
    rw [atMostOnce_snoc] at honce
    exact (ih honce.1).trans (hp.leads honce.2)

/-! ## 5. Texts -/

theorem steps?_opening [Inhabited α] (h : Newlines ts) :
    (State.initial : State α).steps? ts = some .initial := by
  induction ts with
  | nil => rfl
  | cons t ts ih =>
    have hstep : (State.initial : State α).step? t = some .initial := by
      simp [State.step?, State.initial, h t List.mem_cons_self]
    rw [State.steps?_cons hstep]
    exact ih fun u hu => h u (List.mem_cons_of_mem _ hu)

theorem IsTitle.steps? [Inhabited α] (h : IsTitle ts name note) :
    State.initial.steps? ts = some (after name note []) := by
  cases h with
  | @mk nl nl' w i hnl hw hi hnl' =>
    have hword : (State.initial : State α).step? w =
        some ⟨{ blank with note := w.place }, [], .title⟩ := by
      simp [State.step?, State.initial, hw]
    have hname : (⟨{ blank with note := w.place }, [], .title⟩ : State α).step? i =
        some (after i.text w.place []) := by
      simp [State.step?, State.after_nil, blank, hi]
    refine State.steps?_trans (steps?_opening hnl) ?_
    rw [State.steps?_cons hword, State.steps?_cons hname]
    exact State.steps?_newlines rfl hnl'

/-- Every text up to the end of a section is read. -/
theorem IsBody.leads [Inhabited α] (h : IsBody last ts name note parts) :
    Leads last State.initial ts (after name note parts) := by
  cases h with
  | mk ht hs honce => exact .trans (.of_steps ht.steps?) (leads_sections hs honce)

/-- Where a text may end, the reader may end, with the description of the text. -/
theorem IsBody.finish [Inhabited α] (h : IsBody true ts name note parts) :
    ∃ s, State.initial.steps? ts = some s ∧ s.finish? = some (assemble name note parts) := by
  obtain ⟨s, hs, rfl | ⟨-, hfin⟩⟩ := h.leads
  · exact ⟨_, hs, State.finish?_of_betweenSections State.after_betweenSections⟩
  · exact ⟨s, hs, hfin⟩

end Clocked.Description
