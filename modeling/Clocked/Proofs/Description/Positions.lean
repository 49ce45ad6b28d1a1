/-
Clocked.Proofs.Description.Positions — where the reader stands among its tokens.

The reader takes tokens from the front of a list. Here it stands at a position in a list that
stays as it is, asks for the token at its position, and has no outcome if there is none
(`State.readAt`). A next reading begins where the one before it stopped, whatever came of that
(`readingsAt`).

As long as it is not past the first end-of-text token a reader finds a token, and it moves on
from that one only if it is another (`Reading.Follows.of_step`). So no reading leaves the
tokens in front of that end and the end itself, and `readings_orderly` says what that means for
any number of them. They are the readings of `ofTokens`, each of the tokens that the one before
it left over.
-/
import Clocked.Proofs.Description.States

namespace Clocked

variable {α : Type}

/-- Whether a cause lies in the stimuli of a description, whose syntax is in order then. -/
def SyntaxError.Cause.concernsStimuli : SyntaxError.Cause → Bool
  | .strayStimulus _ | .repeatedStimulus _ => true
  | _ => false

namespace Description

/-! ## 1. Reading by position -/

/-- One reading of a list of tokens. -/
structure Reading (α : Type) where
  /-- The positions of the tokens that it asked for, in order. -/
  asked : List Nat
  /-- The position at which it stopped. -/
  stop : Nat
  /-- Its outcome, if there was a token whenever it asked for one. -/
  outcome : Option (Except (SyntaxError α) (Description α))

/-- Where a reading stood, in order, up to the position at which it stopped. -/
def Reading.positions (r : Reading α) : List Nat := r.asked ++ [r.stop]

/-- A reading that asks for one token. -/
def Reading.single (position : Nat) (outcome : Option (Except (SyntaxError α) (Description α))) :
    Reading α :=
  ⟨[position], position, outcome⟩

/-- A reading that asks for a token in front of those that `r` asks for. -/
def Reading.onto (position : Nat) (r : Reading α) : Reading α :=
  { r with asked := position :: r.asked }

/-- Reads on from a state at a position. -/
def State.readAt (tokens : List (Token α)) (s : State α) (position : Nat) : Reading α :=
  match _h : tokens[position]? with
  | none => .single position none
  | some t =>
    if t.kind = .eof then .single position (some (s.conclude t))
    else
      match s.step? t with
      | some s' => .onto position (s'.readAt tokens (position + 1))
      | none => .single position (some (.error (s.refuse t)))
termination_by tokens.length - position
decreasing_by
  have := (List.getElem?_eq_some_iff.1 _h).1
  omega

/-- Readings one after the other, the first one from a position and every other one from where
the one before it stopped. -/
def readingsAt [Inhabited α] (tokens : List (Token α)) : Nat → Nat → List (Reading α)
  | 0, _ => []
  | n + 1, position =>
    let r := State.initial.readAt tokens position
    r :: readingsAt tokens n r.stop

/-- Readings one after the other, every one of the tokens that the one before it left over. -/
def readings [Inhabited α] :
    Nat → List (Token α) → List (Except (SyntaxError α) (Description α) × List (Token α))
  | 0, _ => []
  | n + 1, ts =>
    let r := ofTokens ts
    r :: readings n r.2

/-- The position of the first end-of-text token. -/
def firstEnd (tokens : List (Token α)) : Nat := tokens.findIdx (·.kind = .eof)

/-- What is to hold of every reading. -/
structure Reading.Orderly (tokens : List (Token α)) (r : Reading α) : Prop where
  /-- It stays among the tokens, and is never past the first end of a text. -/
  inside : ∀ p ∈ r.positions, p < tokens.length ∧ p ≤ firstEnd tokens
  /-- It has an outcome. -/
  answers : ∃ outcome, r.outcome = some outcome
  /-- If it ends well, then at that end. -/
  success : ∀ d, r.outcome = some (.ok d) → r.stop = firstEnd tokens
  /-- If the syntax is at fault, it stops at the token whose place is reported. -/
  failure : ∀ e, r.outcome = some (.error e) → e.cause.concernsStimuli = false →
    ∃ t ∈ tokens[r.stop]?, e.place = t.place
  /-- If only the stimuli are, it has come to the end, too. -/
  misfit : ∀ e, r.outcome = some (.error e) → e.cause.concernsStimuli = true →
    r.stop = firstEnd tokens

variable {tokens : List (Token α)} {s s' : State α} {t : Token α} {p : Nat}

/-! ## 2. One token -/

@[simp] theorem Reading.positions_onto (r : Reading α) :
    (r.onto p).positions = p :: r.positions := rfl

theorem Reading.stop_mem_positions (r : Reading α) : r.stop ∈ r.positions := by
  simp [positions]

/-- At a token the reader ends, moves on, or refuses it. -/
theorem State.readAt_eq (ht : tokens[p]? = some t) :
    s.readAt tokens p =
      if t.kind = .eof then .single p (some (s.conclude t))
      else
        match s.step? t with
        | some s' => .onto p (s'.readAt tokens (p + 1))
        | none => .single p (some (.error (s.refuse t))) := by
  rw [readAt]
  split
  · next hnone => cases hnone.symm.trans ht
  · next t' ht' =>
    cases ht.symm.trans ht'
    rfl

theorem drop_eq_cons (ht : tokens[p]? = some t) : tokens.drop p = t :: tokens.drop (p + 1) := by
  obtain ⟨hlt, rfl⟩ := List.getElem?_eq_some_iff.1 ht
  exact List.drop_eq_getElem_cons hlt

/-- Only stimuli are found to be at fault once the syntax is in order. -/
theorem concernsStimuli_of_stimulusFault? {inputs given : List String}
    {ss : List (StimulusLine α)} {e : SyntaxError α} (h : stimulusFault? inputs given ss = some e) :
    e.cause.concernsStimuli = true := by
  induction ss generalizing given with
  | nil => cases h
  | cons s ss ih =>
    rw [stimulusFault?] at h
    split at h
    · cases h
      rfl
    · split at h
      · cases h
        rfl
      · exact ih h

theorem State.concernsStimuli_refusal (s : State α) (t : Token α) :
    (s.refusal t).concernsStimuli = false := by
  unfold refusal
  split
  · rfl
  · split <;> rfl

/-- What is concluded at the end of a text is either a fault of the stimuli or has the place of
the end. -/
theorem State.place_of_conclude_error {e : SyntaxError α} (h : s.conclude t = .error e)
    (hcause : e.cause.concernsStimuli = false) : e.place = t.place := by
  unfold conclude at h
  cases hfin : s.finish? with
  | none =>
    rw [hfin] at h
    cases h
    rfl
  | some d =>
    rw [hfin] at h
    cases hfault : stimulusFault? d.inputs [] d.stimuli with
    | none =>
      simp only [hfault] at h
      cases h
    | some e' =>
      simp only [hfault] at h
      cases h
      rw [concernsStimuli_of_stimulusFault? hfault] at hcause
      cases hcause

/-! ## 3. One reading -/

theorem kind_ne_of_lt_firstEnd (ht : tokens[p]? = some t) (h : p < firstEnd tokens) :
    t.kind ≠ .eof := by
  obtain ⟨hlt, rfl⟩ := List.getElem?_eq_some_iff.1 ht
  simpa using List.not_of_lt_findIdx h

theorem getElem?_firstEnd (h : firstEnd tokens < tokens.length) :
    ∃ t, tokens[firstEnd tokens]? = some t ∧ t.kind = .eof := by
  have hkind := List.findIdx_getElem (w := h)
  exact ⟨_, List.getElem?_eq_getElem h, of_decide_eq_true hkind⟩

section Reading

variable [Inhabited α] {r : Reading α}

/-- A reading from a state at a position, against the reader of the tokens from there on. -/
structure Reading.Follows (tokens : List (Token α)) (s : State α) (p : Nat) (r : Reading α) :
    Prop where
  orderly : r.Orderly tokens
  onward : r.positions.Pairwise (· ≤ ·)
  after : ∀ q ∈ r.positions, p ≤ q
  before : ∀ q ∈ r.positions, q ≤ r.stop
  reads : ∃ outcome, r.outcome = some outcome ∧
    s.read (tokens.drop p) = (outcome, tokens.drop r.stop)

/-- A reading that stops at the token it begins with. -/
theorem Reading.Follows.of_stop {outcome : Except (SyntaxError α) (Description α)}
    (hlt : p < tokens.length) (hp : p ≤ firstEnd tokens)
    (hread : s.read (tokens.drop p) = (outcome, tokens.drop p))
    (hsuccess : ∀ d, outcome = .ok d → p = firstEnd tokens)
    (hfailure : ∀ e, outcome = .error e → e.cause.concernsStimuli = false →
      ∃ t ∈ tokens[p]?, e.place = t.place)
    (hmisfit : ∀ e, outcome = .error e → e.cause.concernsStimuli = true → p = firstEnd tokens) :
    Reading.Follows tokens s p (.single p (some outcome)) := by
  have hpositions : ∀ q ∈ (Reading.single p (some outcome)).positions, q = p := by
    simp [single, positions]
  exact {
    orderly := {
      inside := fun q hq => hpositions q hq ▸ ⟨hlt, hp⟩
      answers := ⟨outcome, rfl⟩
      success := fun d hd => hsuccess d (Option.some.inj hd)
      failure := fun e he => hfailure e (Option.some.inj he)
      misfit := fun e he => hmisfit e (Option.some.inj he) }
    onward := by simp [single, positions]
    after := fun q hq => Nat.le_of_eq (hpositions q hq).symm
    before := fun q hq => Nat.le_of_eq (hpositions q hq)
    reads := ⟨outcome, rfl, hread⟩ }

/-- A reading that moves on from the token it begins with. -/
theorem Reading.Follows.of_step (ht : tokens[p]? = some t) (hkind : t.kind ≠ .eof)
    (hstep : s.step? t = some s') (hp : p ≤ firstEnd tokens)
    (h : Reading.Follows tokens s' (p + 1) r) :
    Reading.Follows tokens s p (r.onto p) := by
  obtain ⟨outcome, houtcome, hread⟩ := h.reads
  have hreads : s.read (tokens.drop p) = (outcome, tokens.drop r.stop) := by
    rw [drop_eq_cons ht, State.read, if_neg hkind, hstep]
    exact hread
  have hafter : ∀ q ∈ r.positions, p ≤ q := by
    intro q hq
    exact Nat.le_of_succ_le (h.after q hq)
  refine {
    orderly := {
      inside := ?inside
      answers := h.orderly.answers
      success := h.orderly.success
      failure := h.orderly.failure
      misfit := h.orderly.misfit }
    onward := ?onward
    after := ?after
    before := ?before
    reads := ⟨outcome, houtcome, hreads⟩ }
  case inside =>
    rw [positions_onto, List.forall_mem_cons]
    exact ⟨⟨(List.getElem?_eq_some_iff.1 ht).1, hp⟩, h.orderly.inside⟩
  case onward =>
    rw [positions_onto, List.pairwise_cons]
    exact ⟨hafter, h.onward⟩
  case after =>
    rw [positions_onto, List.forall_mem_cons]
    exact ⟨Nat.le_refl p, hafter⟩
  case before =>
    rw [positions_onto, List.forall_mem_cons]
    exact ⟨hafter r.stop r.stop_mem_positions, h.before⟩

/-- Every reading from a position that is not past the first end of a text. -/
theorem State.readAt_follows (hend : firstEnd tokens < tokens.length) (s : State α)
    (hp : p ≤ firstEnd tokens) : Reading.Follows tokens s p (s.readAt tokens p) := by
  -- on the number of tokens in front of the end
  induction hleft : firstEnd tokens - p generalizing s p with
  | zero =>
    have hpend : p = firstEnd tokens := Nat.le_antisymm hp (Nat.le_of_sub_eq_zero hleft)
    obtain ⟨t, ht, hkind⟩ := getElem?_firstEnd hend
    rw [← hpend] at ht
    rw [readAt_eq ht, if_pos hkind]
    refine .of_stop (hpend ▸ hend) hp ?_ (fun _ _ => hpend) (fun e he hcause => ?_)
      fun _ _ _ => hpend
    · rw [drop_eq_cons ht, read, if_pos hkind]
    · exact ⟨t, ht, place_of_conclude_error he hcause⟩
  | succ n ih =>
    have hlt : p < firstEnd tokens := Nat.lt_of_sub_eq_succ hleft
    obtain ⟨t, ht⟩ : ∃ t, tokens[p]? = some t :=
      ⟨_, List.getElem?_eq_getElem (Nat.lt_trans hlt hend)⟩
    have hkind := kind_ne_of_lt_firstEnd ht hlt
    cases hstep : s.step? t with
    | none =>
      rw [readAt_eq ht, if_neg hkind, hstep]
      refine .of_stop (Nat.lt_trans hlt hend) hp ?_ (fun d hd => ?_) (fun e he _ => ?_)
        fun e he hcause => ?_
      · rw [drop_eq_cons ht, read, if_neg hkind, hstep]
      · cases hd
      · cases he
        exact ⟨t, ht, rfl⟩
      · cases he
        exact absurd hcause (by simp [refuse, concernsStimuli_refusal])
    | some s' =>
      rw [readAt_eq ht, if_neg hkind, hstep]
      exact .of_step ht hkind hstep hp (ih s' hlt (by omega))

/-! ## 4. Readings one after the other -/

theorem readings_follow (hend : firstEnd tokens < tokens.length) (n : Nat)
    (hp : p ≤ firstEnd tokens) :
    (∀ r ∈ readingsAt tokens n p, r.Orderly tokens) ∧
      ((readingsAt tokens n p).flatMap Reading.positions).Pairwise (· ≤ ·) ∧
      (∀ q ∈ (readingsAt tokens n p).flatMap Reading.positions, p ≤ q) ∧
      (readingsAt tokens n p).map (fun r => (r.outcome, tokens.drop r.stop)) =
        (readings n (tokens.drop p)).map fun r => (some r.1, r.2) := by
  induction n generalizing p with
  | zero => exact ⟨nofun, .nil, nofun, rfl⟩
  | succ n ih =>
    have h := State.readAt_follows hend State.initial hp
    have hstop := (State.initial.readAt tokens p).stop_mem_positions
    obtain ⟨horderly, honward, hafter, hreads⟩ := ih (h.orderly.inside _ hstop).2
    obtain ⟨outcome, houtcome, hread⟩ := h.reads
    rw [readingsAt, readings, ofTokens, hread, List.flatMap_cons, List.map_cons, List.map_cons,
      hreads, houtcome]
    refine ⟨List.forall_mem_cons.2 ⟨h.orderly, horderly⟩, ?_, ?_, rfl⟩
    · exact List.pairwise_append.2 ⟨h.onward, honward, fun q hq q' hq' =>
        Nat.le_trans (h.before q hq) (hafter q' hq')⟩
    · intro q hq
      rcases List.mem_append.1 hq with hq | hq
      · exact h.after q hq
      · exact Nat.le_trans (h.after _ hstop) (hafter q hq)

/-- **The reader stays among its tokens.** Of tokens of which the last one ends the text, others
as well or not, any number of readings is made one after the other. Every one has an outcome and
asks for tokens only, up to the first end of a text; if it ends well it ends there, and if the
syntax is at fault it stops at the token whose place is reported. From reading to reading the
position never goes back. -/
theorem readings_orderly (ts : List (Token α)) {eof : Token α} (heof : eof.kind = .eof) (n : Nat) :
    (∀ r ∈ readingsAt (ts ++ [eof]) n 0, r.Orderly (ts ++ [eof])) ∧
      ((readingsAt (ts ++ [eof]) n 0).flatMap Reading.positions).Pairwise (· ≤ ·) ∧
      (readingsAt (ts ++ [eof]) n 0).map (fun r => (r.outcome, (ts ++ [eof]).drop r.stop)) =
        (readings n (ts ++ [eof])).map fun r => (some r.1, r.2) := by
  have hend : firstEnd (ts ++ [eof]) < (ts ++ [eof]).length :=
    List.findIdx_lt_length_of_exists ⟨eof, by simp, decide_eq_true heof⟩
  obtain ⟨horderly, honward, -, hreads⟩ := readings_follow hend n (Nat.zero_le _)
  exact ⟨horderly, honward, hreads⟩

/-- The tokens of `.hardware .hardware h`, an end of the text, and `)`, placed by number. -/
def brokenOff : List (Token Nat) :=
  [⟨.hardware, ".hardware", 0⟩, ⟨.hardware, ".hardware", 1⟩, ⟨.identifier, "h", 2⟩,
    ⟨.eof, "", 3⟩, ⟨.rparen, ")", 4⟩]

/-- The first reading of `brokenOff` stops at the second word, from which the second one reads a
description up to the end; there is nothing left for the third. -/
theorem readings_orderly_brokenOff :
    (Token.endOfText 5).kind = .eof ∧
      (∀ r ∈ readingsAt (brokenOff ++ [Token.endOfText 5]) 3 0,
        r.Orderly (brokenOff ++ [Token.endOfText 5])) ∧
      (readingsAt (brokenOff ++ [Token.endOfText 5]) 3 0).map
          (fun r => (r.outcome, (brokenOff ++ [Token.endOfText 5]).drop r.stop)) =
        [(some (.error ⟨.expected .identifier .hardware, 1⟩),
            brokenOff.drop 1 ++ [Token.endOfText 5]),
          (some (.ok ⟨"h", [], [], [], [], [], 1⟩), brokenOff.drop 3 ++ [Token.endOfText 5]),
          (some (.error ⟨.expected .hardware .eof, 3⟩),
            brokenOff.drop 3 ++ [Token.endOfText 5])] := by
  have heof : (Token.endOfText 5).kind = .eof := rfl
  obtain ⟨horderly, -, hreads⟩ := readings_orderly brokenOff heof 3
  exact ⟨heof, horderly, hreads.trans rfl⟩

end Reading

end Description

end Clocked
