/-
Clocked.Proofs.Analysis.Components — the search finds the components.

§3 says what `components next nodes` is, for any graph whose edges stay among
the nodes: every member is a strongly connected component, every node is in one,
none stands twice, and a component comes after all that it reaches.

Visits nest no deeper than there are nodes left to meet, so the bound that
`visit` counts down is never reached (`visits`).
-/
import Mathlib.Data.Finset.Basic
import Mathlib.Data.Finset.Card
import Clocked.Proofs.Analysis.Search

namespace Clocked.Components

variable {α : Type} [DecidableEq α] {next : α → List α} {nodes : List α}

/-! ## 1. One visit -/

/-- Looks along one edge: the least height reached so far, and the search. -/
def look (next : α → List α) (fuel : Nat) (seen : Nat × Search α) (w : α) : Nat × Search α :=
  if w ∈ seen.2.met then
    match seen.2.height? w with
    | some h => (min seen.1 h, seen.2)
    | none => seen
  else (min seen.1 (visit next fuel w seen.2).1, (visit next fuel w seen.2).2)

theorem visit_succ (fuel : Nat) (v : α) (s : Search α) :
    visit next (fuel + 1) v s =
      let seen := (next v).foldl (look next fuel) (s.stack.length, s.enter v)
      if seen.1 = s.stack.length then (s.stack.length, seen.2.close s.stack.length)
      else seen := rfl

/-- The nodes that a search has yet to meet. -/
def unmet (nodes : List α) (s : Search α) : Finset α := nodes.toFinset \ s.met.toFinset

theorem card_unmet_lt {s s' : Search α} {v : α} (hnode : v ∈ nodes) (hv : v ∉ s.met)
    (hmet : ∀ x, x = v ∨ x ∈ s.met → x ∈ s'.met) :
    (unmet nodes s').card < (unmet nodes s).card := by
  refine Finset.card_lt_card (Finset.ssubset_iff_of_subset ?_ |>.2 ⟨v, ?_, ?_⟩)
  · intro x hx
    simp only [unmet, Finset.mem_sdiff, List.mem_toFinset] at hx ⊢
    exact ⟨hx.1, fun hm => hx.2 (hmet x (.inr hm))⟩
  · simp [unmet, hnode, hv]
  · simp [unmet, hmet v (.inl rfl)]

/-- Visits of nodes not met before end as `Visited` says, if `fuel` is enough for
all nodes not yet met. -/
def Visits (next : α → List α) (nodes : List α) (fuel : Nat) : Prop :=
  ∀ (v : α) (s : Search α), Valid next nodes s → v ∈ nodes → v ∉ s.met →
    (∀ x ∈ s.stack, Reaches next x v) → (unmet nodes s).card ≤ fuel →
    Visited next nodes v s (visit next fuel v s).1 (visit next fuel v s).2

namespace Scanning

variable {fuel : Nat} {v : α} {s : Search α} {fresh done : List α} {seen : Nat × Search α}

/-- One look keeps `Scanning`, if visits from there end well. -/
theorem look_spec (hnodes : ∀ v ∈ nodes, ∀ w ∈ next v, w ∈ nodes)
    (hvisits : Visits next nodes fuel) (hnode : v ∈ nodes) (hv : v ∉ s.met)
    (hreach : ∀ x ∈ s.stack, Reaches next x v) (hfuel : (unmet nodes s).card ≤ fuel + 1)
    {w : α} (hw : w ∈ next v) (h : Scanning next nodes v s fresh done seen.1 seen.2) :
    ∃ fresh', Scanning next nodes v s fresh' (done ++ [w])
      (look next fuel seen w).1 (look next fuel seen w).2 := by
  unfold look
  by_cases hmet : w ∈ seen.2.met
  · rw [if_pos hmet]
    cases hk : seen.2.height? w with
    | some k =>
      rw [Search.height?, heightIn_eq_some_iff h.valid.stack_nodup] at hk
      exact ⟨fresh, h.look_stack hw hk⟩
    | none =>
      refine ⟨fresh, h.look_found hmet fun hstack => ?_⟩
      obtain ⟨k, -, hk'⟩ := exists_height hstack
      rw [← heightIn_eq_some_iff h.valid.stack_nodup] at hk'
      rw [Search.height?, hk'] at hk
      cases hk
  · rw [if_neg hmet]
    have hless := card_unmet_lt hnode hv h.met
    have hvisit := hvisits w seen.2 h.valid (hnodes v hnode w hw) hmet
      (fun x hx => (h.stack_reaches hreach x hx).tail hw) (by omega)
    exact h.look_visited hw hmet hreach hvisit

/-- So do all looks in a row. -/
theorem foldl_look_spec (hnodes : ∀ v ∈ nodes, ∀ w ∈ next v, w ∈ nodes)
    (hvisits : Visits next nodes fuel) (hnode : v ∈ nodes) (hv : v ∉ s.met)
    (hreach : ∀ x ∈ s.stack, Reaches next x v) (hfuel : (unmet nodes s).card ≤ fuel + 1) :
    ∀ (todo done : List α) (seen : Nat × Search α) (fresh : List α),
      (∀ w ∈ todo, w ∈ next v) → Scanning next nodes v s fresh done seen.1 seen.2 →
      ∃ fresh', Scanning next nodes v s fresh' (done ++ todo)
        (todo.foldl (look next fuel) seen).1 (todo.foldl (look next fuel) seen).2
  | [], done, seen, fresh, _, h => ⟨fresh, by simpa using h⟩
  | w :: todo, done, seen, fresh, hsub, h => by
    obtain ⟨fresh₁, h₁⟩ :=
      h.look_spec hnodes hvisits hnode hv hreach hfuel (hsub w List.mem_cons_self)
    obtain ⟨fresh₂, h₂⟩ := foldl_look_spec hnodes hvisits hnode hv hreach hfuel todo (done ++ [w])
      (look next fuel seen w) fresh₁ (fun x hx => hsub x (List.mem_cons_of_mem _ hx)) h₁
    exact ⟨fresh₂, by simpa using h₂⟩

end Scanning

/-- With any fuel visits end well; every nested one needs less. -/
theorem visits (hnodes : ∀ v ∈ nodes, ∀ w ∈ next v, w ∈ nodes) (fuel : Nat) :
    Visits next nodes fuel := by
  induction fuel with
  | zero =>
    intro v s _ hnode hv _ hfuel
    have hmem : v ∈ unmet nodes s := by simp [unmet, hnode, hv]
    rw [Finset.card_eq_zero.1 (Nat.le_zero.1 hfuel)] at hmem
    exact absurd hmem (Finset.notMem_empty v)
  | succ fuel ih =>
    intro v s hs hnode hv hreach hfuel
    obtain ⟨fresh, h⟩ := Scanning.foldl_look_spec hnodes ih hnode hv hreach hfuel (next v) []
      (s.stack.length, s.enter v) [] (fun _ hw => hw) (scanning_enter hs hv hnode hreach)
    have hfin := h.finish
    rw [visit_succ]
    simp only
    split
    · next hlow =>
      rw [if_pos hlow, hlow] at hfin
      exact hfin
    · next hlow =>
      rw [if_neg hlow] at hfin
      exact hfin

/-! ## 2. All visits -/

/-- Between two visits that are not nested the stack is empty. -/
theorem visitAll_spec (hnodes : ∀ v ∈ nodes, ∀ w ∈ next v, w ∈ nodes) {fuel : Nat}
    (hfuel : nodes.length ≤ fuel) :
    ∀ (todo : List α) (s : Search α), (∀ v ∈ todo, v ∈ nodes) → Valid next nodes s →
      s.stack = [] →
      Valid next nodes (visitAll next fuel todo s) ∧ (visitAll next fuel todo s).stack = [] ∧
        ∀ v, v ∈ s.met ∨ v ∈ todo → v ∈ (visitAll next fuel todo s).met := by
  intro todo
  induction todo with
  | nil =>
    intro s _ hs hstack
    exact ⟨hs, hstack, by simp [visitAll]⟩
  | cons v todo ih =>
    intro s hsub hs hstack
    have hrest : ∀ x ∈ todo, x ∈ nodes := fun x hx => hsub x (List.mem_cons_of_mem _ hx)
    have hunfold : visitAll next fuel (v :: todo) s =
        visitAll next fuel todo (if v ∈ s.met then s else (visit next fuel v s).2) := rfl
    rw [hunfold]
    by_cases hv : v ∈ s.met
    · rw [if_pos hv]
      obtain ⟨hvalid, hempty, hmet⟩ := ih s hrest hs hstack
      refine ⟨hvalid, hempty, fun x hx => hmet x ?_⟩
      rcases hx with hx | hx
      · exact .inl hx
      · rcases List.mem_cons.1 hx with rfl | hx
        · exact .inl hv
        · exact .inr hx
    · rw [if_neg hv]
      have hcard : (unmet nodes s).card ≤ fuel :=
        (Finset.card_le_card Finset.sdiff_subset).trans
          ((List.toFinset_card_le nodes).trans hfuel)
      have hvisit := visits hnodes fuel v s hs (hsub v List.mem_cons_self) hv
        (by simp [hstack]) hcard
      have hempty : (visit next fuel v s).2.stack = [] := by
        rcases hvisit.outcome with ⟨-, h⟩ | ⟨h, -⟩
        · rw [h, hstack]
        · rw [hstack] at h
          exact absurd h (Nat.not_lt_zero _)
      obtain ⟨hvalid, hempty', hmet⟩ := ih _ hrest hvisit.valid hempty
      refine ⟨hvalid, hempty', fun x hx => hmet x ?_⟩
      rcases hx with hx | hx
      · exact .inl (hvisit.met x (.inr hx))
      · rcases List.mem_cons.1 hx with rfl | hx
        · exact .inl (hvisit.met x (.inl rfl))
        · exact .inr hx

/-! ## 3. The components -/

section Components

variable (hnodes : ∀ v ∈ nodes, ∀ w ∈ next v, w ∈ nodes)

include hnodes

theorem visitAll_nodes :
    Valid next nodes (visitAll next nodes.length nodes Search.initial) ∧
      (visitAll next nodes.length nodes Search.initial).stack = [] ∧
      ∀ v ∈ nodes, v ∈ (visitAll next nodes.length nodes Search.initial).met := by
  obtain ⟨hvalid, hempty, hmet⟩ := visitAll_spec hnodes le_rfl nodes Search.initial
    (fun _ hv => hv) valid_initial rfl
  exact ⟨hvalid, hempty, fun v hv => hmet v (.inr hv)⟩

theorem isComponent_of_mem {c : List α} (hc : c ∈ components next nodes) : IsComponent next c :=
  (visitAll_nodes hnodes).1.component c hc

/-- The members of the components are the nodes. -/
theorem mem_flatten_components {v : α} : v ∈ (components next nodes).flatten ↔ v ∈ nodes := by
  obtain ⟨hvalid, hempty, hmet⟩ := visitAll_nodes hnodes
  constructor
  · intro hv
    exact hvalid.met_nodes v ((hvalid.met_iff v).2 (.inr hv))
  · intro hv
    have hfound := (hvalid.met_iff v).1 (hmet v hv)
    rw [hempty] at hfound
    exact hfound.resolve_left List.not_mem_nil

/-- No node stands in two components, or twice in one. -/
theorem nodup_flatten_components : (components next nodes).flatten.Nodup :=
  (List.nodup_append.1 (visitAll_nodes hnodes).1.nodup).2.1

/-- No component reaches one that comes after it. -/
theorem components_ordered :
    (components next nodes).Pairwise fun c d => ∀ v ∈ c, ∀ w ∈ d, ¬ Reaches next v w :=
  (visitAll_nodes hnodes).1.ordered

end Components

end Clocked.Components
