/-
Clocked.Table — tables of named entries in the order the names came in.

A table keeps every name once. Writing to a name it holds changes the value and
keeps the place; writing to a new name appends. The view of a table is its list
of `entries`; `get?` reads it, and the lemmas of §3 say what each operation
does to `get?` and to `keys`.
-/
namespace Clocked

variable {β γ : Type}

/-- A table from names to values of type `β`. -/
structure Table (β : Type) where
  /-- Names and values in order of arrival. -/
  entries : List (String × β)
  /-- No name stands twice. -/
  distinct : (entries.map Prod.fst).Nodup

namespace Table

/-! ## 1. Entries as a list -/

theorem lookup_cons_eq_ite (n k : String) (v : β) (es : List (String × β)) :
    List.lookup n ((k, v) :: es) = if n = k then some v else es.lookup n := by
  rw [List.lookup_cons]
  by_cases h : n = k
  · simp [h]
  · have hb : (n == k) = false := by simpa using h
    simp [hb, h]

/-- Writes a value under a name in a list of entries. -/
def write (k : String) (v : β) : List (String × β) → List (String × β)
  | [] => [(k, v)]
  | e :: r => if e.1 = k then (k, v) :: r else e :: write k v r

theorem keys_write (k : String) (v : β) (es : List (String × β)) :
    (write k v es).map Prod.fst =
      if k ∈ es.map Prod.fst then es.map Prod.fst else es.map Prod.fst ++ [k] := by
  induction es with
  | nil => simp [write]
  | cons e r ih =>
    by_cases h : e.1 = k
    · simp [write, h]
    · have h' : ¬ k = e.1 := fun hk => h hk.symm
      simp only [write, h, if_false, List.map_cons, ih, List.mem_cons, h', false_or]
      split <;> simp

theorem nodup_keys_write (k : String) (v : β) {es : List (String × β)}
    (h : (es.map Prod.fst).Nodup) : ((write k v es).map Prod.fst).Nodup := by
  rw [keys_write]
  split
  · exact h
  · next hk =>
    refine List.nodup_append.2 ⟨h, by simp, ?_⟩
    intro a ha b hb
    rw [List.mem_singleton.1 hb]
    rintro rfl
    exact hk ha

theorem lookup_write (k : String) (v : β) (es : List (String × β)) (n : String) :
    (write k v es).lookup n = if n = k then some v else es.lookup n := by
  induction es with
  | nil => rw [write, lookup_cons_eq_ite]
  | cons e r ih =>
    obtain ⟨a, b⟩ := e
    rw [lookup_cons_eq_ite]
    by_cases h : a = k
    · subst h
      rw [write, if_pos rfl, lookup_cons_eq_ite]
      split <;> rfl
    · rw [write, if_neg h, lookup_cons_eq_ite, ih]
      by_cases hn : n = a
      · subst hn; simp [h]
      · simp [hn]

/-! ## 2. Operations -/

/-- The table without entries. -/
def empty : Table β := ⟨[], by simp⟩

instance : Inhabited (Table β) := ⟨empty⟩

/-- The names, in order. -/
def keys (t : Table β) : List String := t.entries.map Prod.fst

/-- The value under a name. -/
def get? (t : Table β) (k : String) : Option β := t.entries.lookup k

/-- Whether a name has an entry. -/
def contains (t : Table β) (k : String) : Bool := (t.get? k).isSome

/-- Number of entries. -/
def size (t : Table β) : Nat := t.entries.length

/-- Writes a value under a name. -/
def set (t : Table β) (k : String) (v : β) : Table β :=
  ⟨write k v t.entries, nodup_keys_write k v t.distinct⟩

/-- Changes every value, each under its own name. -/
def mapValues (f : String → β → γ) (t : Table β) : Table γ :=
  ⟨t.entries.map fun e => (e.1, f e.1 e.2), by
    simpa [List.map_map, Function.comp_def] using t.distinct⟩

/-- Changes the value under a name, if it has one. -/
def modify (t : Table β) (k : String) (f : β → β) : Table β :=
  t.mapValues fun n v => if n = k then f v else v

/-- Writes the entries of a list from first to last. -/
def ofList (es : List (String × β)) : Table β :=
  es.foldl (fun t e => t.set e.1 e.2) empty

/-! ## 3. What the operations do to names and values -/

theorem keys_nodup (t : Table β) : t.keys.Nodup := t.distinct

@[simp] theorem keys_empty : (empty : Table β).keys = [] := rfl

@[simp] theorem get?_empty (k : String) : (empty : Table β).get? k = none := rfl

theorem keys_set (t : Table β) (k : String) (v : β) :
    (t.set k v).keys = if k ∈ t.keys then t.keys else t.keys ++ [k] :=
  keys_write k v t.entries

theorem get?_set (t : Table β) (k : String) (v : β) (n : String) :
    (t.set k v).get? n = if n = k then some v else t.get? n :=
  lookup_write k v t.entries n

/-- A name written to is read back. -/
@[simp] theorem get?_set_self (t : Table β) (k : String) (v : β) :
    (t.set k v).get? k = some v := by
  simp [get?_set]

/-- Writing to one name leaves the others alone. -/
theorem get?_set_of_ne (t : Table β) {k n : String} (h : n ≠ k) (v : β) :
    (t.set k v).get? n = t.get? n := by
  simp [get?_set, h]

@[simp] theorem keys_mapValues (f : String → β → γ) (t : Table β) :
    (t.mapValues f).keys = t.keys := by
  simp [keys, mapValues, List.map_map, Function.comp_def]

theorem get?_mapValues (f : String → β → γ) (t : Table β) (n : String) :
    (t.mapValues f).get? n = (t.get? n).map (f n) := by
  obtain ⟨es, h⟩ := t
  simp only [get?, mapValues]
  clear h
  induction es with
  | nil => rfl
  | cons e r ih =>
    obtain ⟨a, b⟩ := e
    rw [List.map_cons, lookup_cons_eq_ite, lookup_cons_eq_ite, ih]
    by_cases h : n = a
    · subst h; simp
    · simp [h]

@[simp] theorem keys_modify (t : Table β) (k : String) (f : β → β) :
    (t.modify k f).keys = t.keys := by
  simp [modify]

theorem get?_modify (t : Table β) (k : String) (f : β → β) (n : String) :
    (t.modify k f).get? n = if n = k then (t.get? n).map f else t.get? n := by
  rw [modify, get?_mapValues]
  split <;> simp_all

/-- A name has a value exactly when it is among the names. -/
theorem get?_isSome_iff (t : Table β) (k : String) : (t.get? k).isSome ↔ k ∈ t.keys := by
  unfold get? keys
  induction t.entries with
  | nil => simp
  | cons e r ih =>
    obtain ⟨a, b⟩ := e
    rw [lookup_cons_eq_ite, List.map_cons, List.mem_cons, ← ih]
    by_cases h : k = a <;> simp [h]

theorem contains_iff (t : Table β) (k : String) : t.contains k = true ↔ k ∈ t.keys :=
  get?_isSome_iff t k

theorem get?_eq_none_iff (t : Table β) (k : String) : t.get? k = none ↔ k ∉ t.keys := by
  rw [← get?_isSome_iff]; simp

/-- Writing a list adds the names that are new, in the order they come first. -/
theorem keys_foldl_set (es : List (String × β)) (t : Table β) :
    (es.foldl (fun t e => t.set e.1 e.2) t).keys =
      t.keys ++ ((es.map Prod.fst).filter (· ∉ t.keys)).eraseDups := by
  induction es generalizing t with
  | nil => simp
  | cons e es ih =>
    rw [List.foldl_cons, ih, keys_set, List.map_cons]
    by_cases h : e.1 ∈ t.keys
    · simp [h]
    · have hf : (es.map Prod.fst).filter (· ∉ t.keys ++ [e.1]) =
          ((es.map Prod.fst).filter (· ∉ t.keys)).filter (!· == e.1) := by
        rw [List.filter_filter]
        congr 1
        funext n
        by_cases hn : n = e.1 <;> simp [hn]
      rw [if_neg h, hf, List.filter_cons_of_pos (by simpa using h), List.eraseDups_cons]
      simp

theorem keys_ofList (es : List (String × β)) :
    (ofList es).keys = (es.map Prod.fst).eraseDups := by
  have hnew : (es.map Prod.fst).filter (· ∉ (empty : Table β).keys) = es.map Prod.fst :=
    List.filter_eq_self.2 (by simp)
  rw [ofList, keys_foldl_set, hnew, keys_empty, List.nil_append]

theorem get?_foldl_set_map (f : String → β) (ns : List String) (t : Table β) (n : String) :
    ((ns.map fun n => (n, f n)).foldl (fun t e => t.set e.1 e.2) t).get? n =
      if n ∈ ns then some (f n) else t.get? n := by
  induction ns generalizing t with
  | nil => simp
  | cons k ns ih =>
    rw [List.map_cons, List.foldl_cons, ih, get?_set]
    by_cases hk : n = k <;> by_cases hn : n ∈ ns <;> simp [hk, hn]

/-- A table made from a function holds its values at the names it was made for. -/
theorem get?_ofList_map (f : String → β) (ns : List String) (n : String) :
    (ofList (ns.map fun n => (n, f n))).get? n = if n ∈ ns then some (f n) else none := by
  rw [ofList, get?_foldl_set_map, get?_empty]

/-- A table whose values are those of a function lists them in the order of its names. -/
theorem entries_eq_map {t : Table β} {f : String → β}
    (h : ∀ n ∈ t.keys, t.get? n = some (f n)) : t.entries = t.keys.map fun n => (n, f n) := by
  obtain ⟨es, hdistinct⟩ := t
  simp only [keys, get?] at h ⊢
  induction es with
  | nil => rfl
  | cons e es ih =>
    obtain ⟨a, b⟩ := e
    rw [List.map_cons, List.nodup_cons] at hdistinct
    have hfirst : b = f a := by
      have ha := h a List.mem_cons_self
      rw [List.lookup_cons_self] at ha
      exact Option.some.inj ha
    have hrest : ∀ n ∈ es.map Prod.fst, es.lookup n = some (f n) := by
      intro n hn
      have hne : n ≠ a := fun heq => hdistinct.1 (heq ▸ hn)
      have hlookup := h n (List.mem_cons_of_mem _ hn)
      rwa [lookup_cons_eq_ite, if_neg hne] at hlookup
    rw [List.map_cons, List.map_cons, ← ih hdistinct.2 hrest, hfirst]

theorem keys_ofList_map (f : String → β) (ns : List String) :
    (ofList (ns.map fun n => (n, f n))).keys = ns.eraseDups := by
  rw [keys_ofList, List.map_map]
  exact congrArg List.eraseDups (List.map_id ns)

theorem entries_ofList_map (f : String → β) (ns : List String) :
    (ofList (ns.map fun n => (n, f n))).entries = ns.eraseDups.map fun n => (n, f n) := by
  rw [← keys_ofList_map f ns]
  refine entries_eq_map fun n hn => ?_
  rw [keys_ofList_map, List.mem_eraseDups] at hn
  rw [get?_ofList_map, if_pos hn]

/-- No name is left twice. -/
theorem nodup_eraseDups (ns : List String) : ns.eraseDups.Nodup := by
  have hkeys := (ofList (ns.map fun n => (n, ()))).keys_nodup
  rwa [keys_ofList_map] at hkeys

end Table

end Clocked
