/-
Clocked.Proofs.Description.SectionOrder — sections can be put in another order.

A description lists inputs, outputs, latches, updates and stimuli apart from each other, and
only latches and updates may be spread over several sections. So the order of sections of
different kinds does not matter (`assemble_eq_of_filter`). For tokens this says: they can
be cut in front of each section word (`cut`), in one way only, each piece is a section by
itself, whatever stands around it (`Many.exists_pieces`), and the pieces can be read in
another order.
-/
import Mathlib.Data.List.Perm.Basic
import Clocked.Proofs.Description.Parts
import Clocked.Proofs.Description.Places

namespace Clocked

variable {α β : Type}

/-! ## 1. Section words -/

/-- The kinds of tokens that begin a section. -/
def openers : List Token.Kind := [.inputs, .outputs, .latch, .update, .simulate]

/-- The token begins a section. -/
def Token.Opens (t : Token α) : Prop := t.kind ∈ openers

instance (t : Token α) : Decidable t.Opens := inferInstanceAs (Decidable (t.kind ∈ openers))

/-- No token begins a section. -/
def Plain (ts : List (Token α)) : Prop := ∀ t ∈ ts, ¬ t.Opens

@[simp] theorem plain_nil : Plain ([] : List (Token α)) := nofun

@[simp] theorem plain_cons {t : Token α} {ts : List (Token α)} :
    Plain (t :: ts) ↔ ¬ t.Opens ∧ Plain ts :=
  List.forall_mem_cons

@[simp] theorem plain_append {ts us : List (Token α)} :
    Plain (ts ++ us) ↔ Plain ts ∧ Plain us :=
  List.forall_mem_append

theorem Expr.Derives.plain {rank : Rank} {ts : List (Token α)} {e : Expr α}
    (h : Derives rank ts e) : Plain ts := by
  induction h with
  | signal ht => simp [Token.Opens, openers, ht]
  | not ht _ ih => simp [Token.Opens, openers, ht, ih]
  | parens hl _ hr ih => simp [Token.Opens, openers, hl, hr, ih]
  | factor _ ih | term _ ih => exact ih
  | and _ ht _ ihl ihr | or _ ht _ ihl ihr => simp [Token.Opens, openers, ht, ihl, ihr]

namespace Description

section Plain

variable {last : Bool} {ts : List (Token α)}

theorem Newlines.plain (h : Newlines ts) : Plain ts := by
  intro t ht
  simp [Token.Opens, openers, h t ht]

theorem IsTitle.plain {name : String} {note : α} (h : IsTitle ts name note) : Plain ts := by
  cases h with
  | mk hnl hw hi hnl' => simp [Token.Opens, openers, hnl.plain, hw, hi, hnl'.plain]

theorem IsName.plain {x : String} (h : IsName last ts x) : Plain ts := by
  cases h with
  | mk ht hnl => simp [Token.Opens, openers, ht, hnl.plain]

theorem IsLatch.plain {x : LatchLine α} (h : IsLatch last ts x) : Plain ts := by
  cases h with
  | mk hi ha ho hnl => simp [Token.Opens, openers, hi, ha, ho, hnl.plain]

theorem IsUpdate.plain {x : UpdateLine α} (h : IsUpdate last ts x) : Plain ts := by
  cases h with
  | mk ho hq he hle => simp [Token.Opens, openers, ho, hq, he.plain, hle.1.plain]

theorem IsStimulus.plain {x : StimulusLine α} (h : IsStimulus last ts x) : Plain ts := by
  cases h with
  | mk hi hq hb hle => simp [Token.Opens, openers, hi, hq, hb, hle.1.plain]

theorem Many.plain {item : Bool → List (Token α) → β → Prop}
    (hitem : ∀ ⦃last us x⦄, item last us x → Plain us) {xs : List β} (h : Many item last ts xs) :
    Plain ts := by
  induction h with
  | none => exact plain_nil
  | more _ hx ih => exact plain_append.2 ⟨ih, hitem hx⟩

theorem Headed.exists_cons {kind : Token.Kind} {item : Bool → List (Token α) → β → Prop}
    (hitem : ∀ ⦃last us x⦄, item last us x → Plain us) {xs : List β}
    (h : Headed kind item last ts xs) : ∃ w body, ts = w :: body ∧ w.kind = kind ∧ Plain body := by
  cases h with
  | mk hw hnl hmany => exact ⟨_, _, rfl, hw, plain_append.2 ⟨hnl.plain, hmany.plain hitem⟩⟩

/-- A section is a section word and what stands in front of the next one. -/
theorem IsSection.exists_cons {p : Part α} (h : IsSection last ts p) :
    ∃ w body, ts = w :: body ∧ w.kind = p.kind ∧ Plain body := by
  cases h with
  | inputs h | outputs h => exact h.exists_cons fun _ _ _ hx => hx.plain
  | latches h => exact h.exists_cons fun _ _ _ hx => hx.plain
  | updates h => exact h.exists_cons fun _ _ _ hx => hx.plain
  | stimuli h => exact h.exists_cons fun _ _ _ hx => hx.plain

theorem Part.kind_mem_openers (p : Part α) : p.kind ∈ openers := by
  cases p <;> simp [Part.kind, openers]

end Plain

/-! ## 2. Cutting tokens in front of section words -/

/-- The tokens in front of the first section word, and the pieces that begin with one. -/
def cut : List (Token α) → List (Token α) × List (List (Token α))
  | [] => ([], [])
  | t :: ts =>
    if t.Opens then ([], (t :: (cut ts).1) :: (cut ts).2) else (t :: (cut ts).1, (cut ts).2)

theorem cut_append {before : List (Token α)} (h : Plain before) (ts : List (Token α)) :
    cut (before ++ ts) = (before ++ (cut ts).1, (cut ts).2) := by
  induction before with
  | nil => rfl
  | cons t before ih =>
    obtain ⟨ht, hbefore⟩ := plain_cons.1 h
    rw [List.cons_append, cut, if_neg ht, ih hbefore, List.cons_append]

/-- A piece that is not cut any further. -/
def IsPiece (c : List (Token α)) : Prop := ∃ w body, c = w :: body ∧ w.Opens ∧ Plain body

theorem cut_pieces {cs : List (List (Token α))} (h : ∀ c ∈ cs, IsPiece c) :
    cut cs.flatten = ([], cs) := by
  induction cs with
  | nil => rfl
  | cons c cs ih =>
    obtain ⟨⟨w, body, rfl, hw, hbody⟩, hcs⟩ := List.forall_mem_cons.1 h
    rw [List.flatten_cons, List.cons_append, cut, if_pos hw, cut_append hbody, ih hcs,
      List.append_nil]

/-- Tokens can be cut into pieces in one way only. -/
theorem cut_inj {before before' : List (Token α)} {cs cs' : List (List (Token α))}
    (hbefore : Plain before) (hbefore' : Plain before') (hcs : ∀ c ∈ cs, IsPiece c)
    (hcs' : ∀ c ∈ cs', IsPiece c) (h : before ++ cs.flatten = before' ++ cs'.flatten) :
    before = before' ∧ cs = cs' := by
  have hcut := congrArg cut h
  rw [cut_append hbefore, cut_append hbefore', cut_pieces hcs, cut_pieces hcs', List.append_nil,
    List.append_nil] at hcut
  exact Prod.mk.inj hcut

theorem IsSection.isPiece {last : Bool} {ts : List (Token α)} {p : Part α}
    (h : IsSection last ts p) : IsPiece ts := by
  obtain ⟨w, body, rfl, hw, hbody⟩ := h.exists_cons
  refine ⟨w, body, rfl, ?_, hbody⟩
  rw [Token.Opens, hw]
  exact p.kind_mem_openers

/-! ## 3. Sections, piece by piece -/

/-- Each of many items has its own tokens. -/
theorem Many.exists_pieces {item : Bool → List (Token α) → β → Prop} {ts : List (Token α)}
    {xs : List β} (h : Many item false ts xs) :
    ∃ cs : List (List (Token α)), ts = cs.flatten ∧ List.Forall₂ (item false) cs xs := by
  generalize hlast : false = last at h
  induction h with
  | none => exact ⟨[], rfl, .nil⟩
  | @more last ts us xs x _ hx ih =>
    obtain ⟨cs, rfl, hcs⟩ := ih rfl
    subst hlast
    exact ⟨cs ++ [us], by simp, List.rel_append hcs (.cons hx .nil)⟩

theorem Many.of_pieces {item : Bool → List (Token α) → β → Prop} {ts : List (Token α)}
    {cs : List (List (Token α))} {xs ys : List β} (hmany : Many item false ts xs)
    (h : List.Forall₂ (item false) cs ys) : Many item false (ts ++ cs.flatten) (xs ++ ys) := by
  induction h generalizing ts xs with
  | nil => simpa using hmany
  | @cons c y cs ys hy _ ih =>
    have hmore := ih (hmany.more hy)
    rwa [List.append_assoc, List.append_assoc] at hmore

/-- A section can be told from the state behind it. -/
theorem State.after_singleton_inj {name : String} {note : α} {p q : Part α}
    (h : State.after name note ([] ++ [p]) = State.after name note ([] ++ [q])) : p = q := by
  rw [State.after_snoc, State.after_snoc] at h
  have hmode : p.mode = q.mode := congrArg State.mode h
  have hdraft : (assemble name note []).add p = (assemble name note []).add q :=
    congrArg State.draft h
  cases p <;> cases q <;> simp_all [add, assemble, Part.mode]

/-- The tokens of a section say what it lists, wherever the section stands. -/
theorem IsSection.unique [Inhabited α] {c : List (Token α)} {p q : Part α}
    (hp : IsSection false c p) (hq : IsSection false c q) : p = q := by
  have hsteps {r : Part α} (hr : IsSection false c r) :
      (State.after "" default []).steps? c = some (State.after "" default ([] ++ [r])) := by
    obtain ⟨s, hs, rfl | ⟨hlast, -⟩⟩ :
        State.Leads false (State.after "" default []) c (State.after "" default ([] ++ [r])) :=
      hr.leads List.not_mem_nil
    · exact hs
    · cases hlast
  exact State.after_singleton_inj (Option.some.inj ((hsteps hp).symm.trans (hsteps hq)))

/-! ## 4. Sections in another order -/

theorem flatMap_filter_kind {kind : Token.Kind} {F : Part α → List β}
    (hF : ∀ p, p.kind ≠ kind → F p = []) (parts : List (Part α)) :
    (parts.filter (·.kind = kind)).flatMap F = parts.flatMap F := by
  induction parts with
  | nil => rfl
  | cons p parts ih =>
    by_cases hp : p.kind = kind
    · rw [List.filter_cons_of_pos (by simpa using hp), List.flatMap_cons, List.flatMap_cons, ih]
    · rw [List.filter_cons_of_neg (by simpa using hp), List.flatMap_cons, hF p hp, ih,
        List.nil_append]

/-- What is listed depends on the sections of each kind, not on how kinds are mixed. -/
theorem assemble_eq_of_filter {name : String} {note : α} {parts parts' : List (Part α)}
    (h : ∀ kind, parts'.filter (·.kind = kind) = parts.filter (·.kind = kind)) :
    assemble name note parts' = assemble name note parts := by
  have hlist {γ : Type} (kind : Token.Kind) (F : Part α → List γ)
      (hF : ∀ p, p.kind ≠ kind → F p = []) : parts'.flatMap F = parts.flatMap F := by
    rw [← flatMap_filter_kind hF parts', h kind, flatMap_filter_kind hF parts]
  rw [assemble_eq, assemble_eq, hlist .inputs Part.inputNames, hlist .outputs Part.outputNames,
    hlist .latch Part.latchLines, hlist .update Part.updateLines,
    hlist .simulate Part.stimulusLines]
  all_goals
    intro p hp
    cases p <;> first | rfl | exact absurd rfl hp

theorem AtMostOnce.perm {parts parts' : List (Part α)} (h : AtMostOnce parts)
    (hperm : parts'.Perm parts) : AtMostOnce parts' := by
  intro kind hkind
  rw [(hperm.map Part.kind).count_eq]
  exact h kind hkind

/-- Of a kind of which there is one section at most, there is nothing to be put in order. -/
theorem AtMostOnce.filter_eq {parts parts' : List (Part α)} (h : AtMostOnce parts)
    (hperm : parts'.Perm parts) {kind : Token.Kind} (hkind : kind ∈ single) :
    parts'.filter (·.kind = kind) = parts.filter (·.kind = kind) := by
  have hfilter := hperm.filter (·.kind = kind)
  have hlength : (parts.filter (·.kind = kind)).length ≤ 1 := by
    have hcount := h kind hkind
    rwa [List.count_eq_countP, List.countP_map, List.countP_eq_length_filter] at hcount
  generalize parts.filter (·.kind = kind) = ps at hfilter hlength
  cases ps with
  | nil => exact hfilter.eq_nil
  | cons p ps =>
    cases ps with
    | nil => exact List.perm_singleton.1 hfilter
    | cons q ps => simp at hlength

/-- The piece begins with a word of the kind. -/
def beginsWith (kind : Token.Kind) (c : List (Token α)) : Bool := c.head?.map (·.kind) = some kind

/-- The same pieces in another order. Those of latches stay in order among themselves, and
so do those of updates. -/
structure Reordered (cs cs' : List (List (Token α))) : Prop where
  perm : cs'.Perm cs
  latches : cs'.filter (beginsWith .latch) = cs.filter (beginsWith .latch)
  updates : cs'.filter (beginsWith .update) = cs.filter (beginsWith .update)

theorem Reordered.symm {cs cs' : List (List (Token α))} (h : Reordered cs cs') :
    Reordered cs' cs :=
  ⟨h.perm.symm, h.latches.symm, h.updates.symm⟩

theorem IsSection.beginsWith_iff {last : Bool} {c : List (Token α)} {p : Part α}
    (h : IsSection last c p) (kind : Token.Kind) :
    beginsWith kind c = true ↔ decide (p.kind = kind) = true := by
  obtain ⟨w, body, rfl, hw, -⟩ := h.exists_cons
  simp [beginsWith, hw]

/-- Sections in another order list the same. -/
theorem Reordered.exists_parts [Inhabited α] {cs cs' : List (List (Token α))}
    {parts : List (Part α)} (h : Reordered cs cs')
    (hcs : List.Forall₂ (IsSection false) cs parts) (honce : AtMostOnce parts) :
    ∃ parts', List.Forall₂ (IsSection false) cs' parts' ∧ AtMostOnce parts' ∧
      ∀ kind, parts'.filter (·.kind = kind) = parts.filter (·.kind = kind) := by
  obtain ⟨parts', hcs', hperm⟩ := List.perm_comp_forall₂ h.perm hcs
  refine ⟨parts', hcs', honce.perm hperm, fun kind => ?_⟩
  have hunique : Relator.RightUnique (IsSection (α := α) false) := fun _ _ _ => IsSection.unique
  have hkept (hsame : cs'.filter (beginsWith kind) = cs.filter (beginsWith kind)) :
      parts'.filter (·.kind = kind) = parts.filter (·.kind = kind) := by
    have hfilter := List.rel_filter (fun _ _ hp => hp.beginsWith_iff kind) hcs
    have hfilter' := List.rel_filter (fun _ _ hp => hp.beginsWith_iff kind) hcs'
    rw [hsame] at hfilter'
    exact hunique.forall₂ hfilter' hfilter
  by_cases hkind : kind ∈ openers
  · simp only [openers, List.mem_cons, List.not_mem_nil, or_false] at hkind
    rcases hkind with rfl | rfl | rfl | rfl | rfl
    · exact honce.filter_eq hperm (by decide)
    · exact honce.filter_eq hperm (by decide)
    · exact hkept h.latches
    · exact hkept h.updates
    · exact honce.filter_eq hperm (by decide)
  · have hnone (ps : List (Part α)) : ps.filter (·.kind = kind) = [] := by
      refine List.filter_eq_nil_iff.2 fun p _ hp => hkind ?_
      exact of_decide_eq_true hp ▸ p.kind_mem_openers
    rw [hnone, hnone]

/-! ## 5. Texts in another order -/

/-- A section word and what stands in front of the next one, to the end of a line. The end of
the text comes behind all chunks. -/
inductive IsChunk : List (Token α) → Prop
  | mk {w nl : Token α} {body : List (Token α)} (hw : w.Opens) (hbody : Plain body)
      (hproper : ∀ t ∈ body, t.kind ≠ .eof) (hnl : nl.kind = .newline) :
      IsChunk (w :: (body ++ [nl]))

theorem IsChunk.isPiece {c : List (Token α)} (h : IsChunk c) : IsPiece c := by
  cases h with
  | mk hw hbody hproper hnl => exact ⟨_, _, rfl, hw, by simp [hbody, Token.Opens, openers, hnl]⟩

theorem IsChunk.ne_eof {c : List (Token α)} (h : IsChunk c) : ∀ t ∈ c, t.kind ≠ .eof := by
  cases h with
  | mk hw hbody hproper hnl =>
    intro t ht heof
    rcases List.mem_cons.1 ht with rfl | ht
    · rw [Token.Opens, heof] at hw
      simp [openers] at hw
    · rcases List.mem_append.1 ht with ht | ht
      · exact hproper t ht heof
      · rw [List.mem_singleton.1 ht, hnl] at heof
        cases heof

/-- A line end leads back between two lines, or stands in front of everything. -/
theorem State.mode_of_step?_newline {s s' : State α} {t : Token α} (ht : t.kind = .newline)
    (h : s.step? t = some s') : s'.mode = .opening ∨ s'.mode.betweenSections = true := by
  obtain ⟨draft, closed, mode⟩ := s
  unfold step? at h
  cases mode with
  | opening =>
    simp only [ht] at h
    cases h
    exact .inl rfl
  | operator output place level value outer =>
    cases outer with
    | nil =>
      simp only [operator?, ht] at h
      cases h
      exact .inr rfl
    | cons up outer => simp [operator?, ht] at h
  | top | inputs | outputs | latch | update | stimulus | stimulusEnd =>
    simp only [between?, ht, if_true] at h
    cases h
    exact .inr rfl
  | operand output place level outer => simp [operand?, ht] at h
  | title | latchArrow _ _ | latchOutput _ _ | updateEquals _ _ | stimulusEquals _ _
  | stimulusBits _ _ => simp [ht] at h

variable [Inhabited α] {header : List (Token α)} {name : String} {note : α} {s : State α}

/-- Between two lines what has been taken is a text up to the end of some section. -/
theorem Taken.isBody {ts : List (Token α)} (h : Taken s ts) (hs : s.mode.betweenSections = true) :
    ∃ name note parts, IsBody false ts name note parts ∧ s = .after name note parts := by
  cases h with
  | opening hnl => cases hs
  | title hnl hw => cases hs
  | between hbody => exact ⟨_, _, _, hbody, rfl⟩
  | line hbody hline => cases hline <;> cases hs
  | stimulus hbody hline => cases hs

/-- Behind a header and some chunks that are read a section may begin. -/
theorem betweenSections_of_chunks (hheader : IsTitle header name note)
    {cs : List (List (Token α))} (hcs : ∀ c ∈ cs, IsChunk c)
    (hs : State.initial.steps? (header ++ cs.flatten) = some s) {d : Description α}
    (hfin : s.finish? = some d) : s.mode.betweenSections = true := by
  rcases cs.eq_nil_or_concat with rfl | ⟨cs, c, rfl⟩
  · rw [List.flatten_nil, List.append_nil, hheader.steps?] at hs
    cases hs
    rfl
  · cases hcs c (by simp) with
    | @mk w nl body hw hbody hproper hnl =>
      have hsplit : header ++ (cs.concat (w :: (body ++ [nl]))).flatten =
          (header ++ cs.flatten ++ w :: body) ++ [nl] := by simp
      rw [hsplit, State.steps?_append] at hs
      obtain ⟨s', -, hlast⟩ := Option.bind_eq_some_iff.1 hs
      obtain ⟨s'', hstep, heq⟩ := Option.bind_eq_some_iff.1 hlast
      cases heq
      rcases State.mode_of_step?_newline hnl hstep with hopening | hbetween
      · simp [State.finish?, hopening, Mode.betweenSections] at hfin
      · exact hbetween

/-- Chunks that are read are read in another order too. -/
theorem ofTokens_of_reordered (hheader : IsTitle header name note)
    {cs cs' : List (List (Token α))} (hcs : ∀ c ∈ cs, IsChunk c) (h : Reordered cs cs')
    {eof : Token α} (heof : eof.kind = .eof) {d : Description α}
    (hread : (ofTokens (header ++ cs.flatten ++ [eof])).1 = .ok d) :
    (ofTokens (header ++ cs'.flatten ++ [eof])).1 = .ok d := by
  have hproper {cs : List (List (Token α))} (hcs : ∀ c ∈ cs, IsChunk c) :
      ∀ t ∈ header ++ cs.flatten, t.kind ≠ .eof := by
    intro t ht
    rcases List.mem_append.1 ht with ht | ht
    · exact State.kind_ne_of_steps? hheader.steps? t ht
    · obtain ⟨c, hc, ht⟩ := List.mem_flatten.1 ht
      exact (hcs c hc).ne_eof t ht
  have hcs' : ∀ c ∈ cs', IsChunk c := fun c hc => hcs c (h.perm.mem_iff.1 hc)
  obtain ⟨htext, hfit⟩ := (ofTokens_ok_iff (hproper hcs) heof).1 hread
  obtain ⟨s, hs, hfin⟩ := (isText_iff heof).1 htext
  have hbetween := betweenSections_of_chunks hheader hcs hs hfin
  have htaken := (Taken.opening newlines_nil).steps hs
  obtain ⟨name', note', parts, hbody, rfl⟩ := htaken.isBody hbetween
  rw [State.finish?_of_betweenSections hbetween] at hfin
  cases hfin
  generalize hall : header ++ cs.flatten = all at hbody
  cases hbody with
  | @mk ts us _ _ _ htitle hsections honce =>
    obtain ⟨pieces, rfl, hpieces⟩ := hsections.exists_pieces
    have hisPiece : ∀ c ∈ pieces, IsPiece c :=
      ((List.forall₂_and_left _ _).1 (hpieces.imp fun _ _ hp => ⟨hp.isPiece, hp⟩)).1
    obtain ⟨rfl, rfl⟩ := cut_inj hheader.plain htitle.plain (fun c hc => (hcs c hc).isPiece)
      hisPiece hall
    obtain ⟨parts', hparts', honce', hfilter⟩ := h.exists_parts hpieces honce
    have hbody' : IsBody false (header ++ cs'.flatten) name' note' parts' :=
      .mk htitle (Many.none.of_pieces hparts') honce'
    refine (ofTokens_ok_iff (hproper hcs') heof).2 ⟨?_, hfit⟩
    have hsame : assemble name' note' parts' = assemble name' note' parts :=
      assemble_eq_of_filter hfilter
    have htext' := IsText.mk hbody'.ends heof
    rwa [hsame] at htext'

/-- The same for tokens whose places are others in the other order. -/
theorem ofTokens_of_erase_reordered {header : List (Token Unit)}
    (hheader : IsTitle header name ()) {cs cs' : List (List (Token Unit))}
    (hcs : ∀ c ∈ cs, IsChunk c) (h : Reordered cs cs') {eof : Token Unit} (heof : eof.kind = .eof)
    {ts ts' : List (Token α)} (hts : ts.map Token.erase = header ++ cs.flatten ++ [eof])
    (hts' : ts'.map Token.erase = header ++ cs'.flatten ++ [eof]) {d : Description α}
    (hread : (ofTokens ts).1 = .ok d) :
    ∃ d', (ofTokens ts').1 = .ok d' ∧ d'.erase = d.erase := by
  have herase : (ofTokens (ts.map Token.erase)).1 = .ok d.erase := by
    rw [ofTokens_erase, hread]
    rfl
  rw [hts] at herase
  have herase' := ofTokens_of_reordered hheader hcs h heof herase
  rw [← hts'] at herase'
  exact ofTokens_ok_of_erase herase'

/-- **The order of sections does not matter.** Let tokens be, apart from their places, a header,
chunks, and the end of the text, and others the same with the chunks in another order, those of
latches and those of updates in order among themselves. Then a description is read of both
or of none, and the two descriptions are the same, apart from their notes. -/
theorem ofTokens_reordered {header : List (Token Unit)} (hheader : IsTitle header name ())
    {cs cs' : List (List (Token Unit))} (hcs : ∀ c ∈ cs, IsChunk c) (h : Reordered cs cs')
    {eof : Token Unit} (heof : eof.kind = .eof) {ts ts' : List (Token α)}
    (hts : ts.map Token.erase = header ++ cs.flatten ++ [eof])
    (hts' : ts'.map Token.erase = header ++ cs'.flatten ++ [eof]) :
    ((∃ d, (ofTokens ts).1 = .ok d) ↔ ∃ d, (ofTokens ts').1 = .ok d) ∧
    ∀ d d', (ofTokens ts).1 = .ok d → (ofTokens ts').1 = .ok d' → d.erase = d'.erase := by
  have hcs' : ∀ c ∈ cs', IsChunk c := fun c hc => hcs c (h.perm.mem_iff.1 hc)
  refine ⟨⟨?_, ?_⟩, fun d d' hd hd' => ?_⟩
  · rintro ⟨d, hd⟩
    obtain ⟨d', hd', -⟩ := ofTokens_of_erase_reordered hheader hcs h heof hts hts' hd
    exact ⟨d', hd'⟩
  · rintro ⟨d', hd'⟩
    obtain ⟨d, hd, -⟩ := ofTokens_of_erase_reordered hheader hcs' h.symm heof hts' hts hd'
    exact ⟨d, hd⟩
  · obtain ⟨d'', hd'', hsame⟩ := ofTokens_of_erase_reordered hheader hcs h heof hts hts' hd
    cases hd'.symm.trans hd''
    exact hsame.symm

/-- A section word, other tokens, and a line end. -/
def chunk (w : Token Unit) (body : List (Token Unit)) : List (Token Unit) :=
  w :: (body ++ [⟨.newline, "\n", ()⟩])

/-- The chunk of a section with one latch. -/
def latchChunk (input output : String) : List (Token Unit) :=
  chunk ⟨.latch, ".latch", ()⟩
    [⟨.identifier, input, ()⟩, ⟨.arrow, "->", ()⟩, ⟨.identifier, output, ()⟩]

/-- The chunk of a section with one input. -/
def inputChunk (name : String) : List (Token Unit) :=
  chunk ⟨.inputs, ".inputs", ()⟩ [⟨.identifier, name, ()⟩]

/-- The tokens of `.hardware h`. -/
def shortHeader : List (Token Unit) := [⟨.hardware, ".hardware", ()⟩, ⟨.identifier, "h", ()⟩]

/-- A header, chunks, and the end of the text, placed by number. -/
def numbered (cs : List (List (Token Unit))) : List (Token Nat) :=
  (shortHeader ++ cs.flatten ++ [Token.endOfText ()]).zipIdx.map
    fun (t, n) => Token.mk t.kind t.text n

/-- Two latches, the input of the first one in between. -/
def latchesApart : List (List (Token Unit)) :=
  [latchChunk "a" "q", inputChunk "a", latchChunk "q" "r"]

/-- The input in front of the latches. -/
def inputFirst : List (List (Token Unit)) :=
  [inputChunk "a", latchChunk "a" "q", latchChunk "q" "r"]

theorem ofTokens_reordered_latches :
    IsTitle shortHeader "h" () ∧ (∀ c ∈ latchesApart, IsChunk c) ∧
      Reordered latchesApart inputFirst ∧
      ∃ d d', (ofTokens (numbered latchesApart)).1 = .ok d ∧
        (ofTokens (numbered inputFirst)).1 = .ok d' ∧ d.erase = d'.erase := by
  have hheader : IsTitle shortHeader "h" () := .mk newlines_nil rfl rfl newlines_nil
  have hlatch (i o : String) : IsChunk (latchChunk i o) :=
    .mk (by decide) (by simp [Token.Opens, openers]) (by simp) rfl
  have hinput (n : String) : IsChunk (inputChunk n) :=
    .mk (by decide) (by simp [Token.Opens, openers]) (by simp) rfl
  have hchunks : ∀ c ∈ latchesApart, IsChunk c := by
    simp [latchesApart, hlatch, hinput]
  have horder : Reordered latchesApart inputFirst := ⟨.swap _ _ _, rfl, rfl⟩
  have heof : (Token.endOfText ()).kind = .eof := rfl
  have hts : (numbered latchesApart).map Token.erase =
      shortHeader ++ latchesApart.flatten ++ [Token.endOfText ()] := rfl
  have hts' : (numbered inputFirst).map Token.erase =
      shortHeader ++ inputFirst.flatten ++ [Token.endOfText ()] := rfl
  obtain ⟨hiff, hsame⟩ := ofTokens_reordered hheader hchunks horder heof hts hts'
  obtain ⟨d, hd⟩ : ∃ d, (ofTokens (numbered latchesApart)).1 = .ok d := ⟨_, rfl⟩
  obtain ⟨d', hd'⟩ := hiff.1 ⟨d, hd⟩
  exact ⟨hheader, hchunks, horder, d, d', hd, hd', hsame d d' hd hd'⟩

end Description

end Clocked
