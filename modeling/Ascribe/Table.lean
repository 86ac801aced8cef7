/-!
# Tables by name

A table lists entries under names.  Looking a name up gives its first entry.  New
entries go to the end, so a table keeps the order in which its names were declared.
-/

namespace Ascribe

/-- Entries under names, in the order of declaration. -/
abbrev Table (α : Type) :=
  List (String × α)

namespace Table

variable {α β : Type}

def find? : Table α → String → Option α
  | [], _ => none
  | (key, value) :: rest, name => if key = name then some value else find? rest name

def contains (table : Table α) (name : String) : Bool :=
  (table.find? name).isSome

def names (table : Table α) : List String :=
  table.map Prod.fst

/-- Add an entry at the end. -/
def add (table : Table α) (name : String) (value : α) : Table α :=
  table ++ [(name, value)]

/-- Overwrite the entry under a name, if there is one. -/
def set : Table α → String → α → Table α
  | [], _, _ => []
  | (key, old) :: rest, name, value =>
      if key = name then (key, value) :: rest else (key, old) :: set rest name value

/-- Remove every entry under one of the given names. -/
def without : Table α → List String → Table α
  | [], _ => []
  | (key, value) :: rest, names =>
      if key ∈ names then without rest names else (key, value) :: without rest names

/-- The table under other names. -/
def rename (f : String → String) (table : Table α) : Table α :=
  table.map fun entry => (f entry.1, entry.2)

/-! ## Names that are found -/

theorem contains_iff {table : Table α} {name : String} :
    table.contains name = true ↔ name ∈ table.names := by
  induction table with
  | nil => simp [contains, find?, names]
  | cons entry rest ih =>
      obtain ⟨key, value⟩ := entry
      simp only [contains, find?, names, List.map_cons, List.mem_cons] at ih ⊢
      split
      · rename_i h
        simp [h]
      · rename_i h
        rw [ih]
        constructor
        · exact .inr
        · rintro (eq | mem)
          · exact absurd eq.symm h
          · exact mem

theorem contains_eq_false {table : Table α} {name : String} :
    table.contains name = false ↔ name ∉ table.names := by
  rw [← contains_iff, Bool.not_eq_true]

theorem find?_eq_none
    {table : Table α} {name : String} (h : name ∉ table.names) :
    table.find? name = none := by
  rwa [← contains_eq_false, contains, Option.isSome_eq_false_iff,
    Option.isNone_iff_eq_none] at h

theorem exists_find?_of_mem
    {table : Table α} {name : String} (h : name ∈ table.names) :
    ∃ value, table.find? name = some value :=
  Option.isSome_iff_exists.1 (contains_iff.2 h)

theorem mem_of_find?
    {table : Table α} {name : String} {value : α} (h : table.find? name = some value) :
    (name, value) ∈ table := by
  induction table with
  | nil => cases h
  | cons entry rest ih =>
      obtain ⟨key, old⟩ := entry
      rw [find?] at h
      split at h
      · rename_i hkey
        cases h
        rw [hkey]
        exact List.mem_cons_self
      · exact List.mem_cons_of_mem _ (ih h)

/-! ## Entries that are changed -/

theorem find?_map (f : α → β) (table : Table α) (name : String) :
    find? (table.map fun entry => (entry.1, f entry.2)) name = (table.find? name).map f := by
  induction table with
  | nil => rfl
  | cons entry rest ih =>
      simp only [List.map_cons, find?]
      split
      · rfl
      · exact ih

theorem names_map (f : α → β) (table : Table α) :
    names (table.map fun entry => (entry.1, f entry.2)) = table.names := by
  simp [names]

theorem map_add (f : α → β) (table : Table α) (name : String) (value : α) :
    (table.add name value).map (fun entry => (entry.1, f entry.2)) =
      add (table.map fun entry => (entry.1, f entry.2)) name (f value) := by
  simp [add]

theorem map_snd_rename (f : String → String) (table : Table α) :
    (table.rename f).map Prod.snd = table.map Prod.snd := by
  simp [rename]

theorem rename_add (f : String → String) (table : Table α) (name : String) (value : α) :
    (table.add name value).rename f = (table.rename f).add (f name) value := by
  simp [rename, add]

/-- A name is found under its new name if no other name has it too. -/
theorem find?_rename
    {f : String → String} {table : Table α} {name : String}
    (h : ∀ other ∈ table.names, f other = f name → other = name) :
    (table.rename f).find? (f name) = table.find? name := by
  induction table with
  | nil => rfl
  | cons entry rest ih =>
      obtain ⟨key, value⟩ := entry
      obtain ⟨hkey, hrest⟩ := List.forall_mem_cons.1 h
      simp only [rename, List.map_cons, find?]
      by_cases heq : key = name
      · rw [if_pos heq, if_pos (congrArg f heq)]
      · rw [if_neg heq, if_neg fun hf => heq (hkey hf)]
        exact ih hrest

/-! ## Entries that are added -/

theorem find?_append (first second : Table α) (name : String) :
    find? (first ++ second) name = (first.find? name).or (second.find? name) := by
  induction first with
  | nil => rfl
  | cons entry rest ih =>
      obtain ⟨key, value⟩ := entry
      rw [List.cons_append, find?, find?]
      split
      · rfl
      · exact ih

theorem find?_add (table : Table α) (name other : String) (value : α) :
    (table.add name value).find? other =
      (table.find? other).or (if name = other then some value else none) :=
  find?_append table [(name, value)] other

theorem find?_add_self
    {table : Table α} {name : String} (value : α) (new : table.contains name = false) :
    (table.add name value).find? name = some value := by
  have hnone : table.find? name = none := find?_eq_none (contains_eq_false.1 new)
  rw [find?_add, if_pos rfl, hnone, Option.none_or]

theorem names_add (table : Table α) (name : String) (value : α) :
    (table.add name value).names = table.names ++ [name] := by
  simp [names, add]

theorem nodup_names_add
    {table : Table α} {name : String} (value : α)
    (h : table.names.Nodup) (new : name ∉ table.names) :
    (table.add name value).names.Nodup := by
  rw [names_add, List.nodup_append]
  refine ⟨h, by simp, ?_⟩
  intro other hother single hsingle heq
  obtain rfl := List.mem_singleton.1 hsingle
  exact new (heq ▸ hother)

/-! ## Entries that are overwritten or removed -/

theorem find?_set (table : Table α) (name other : String) (value : α) :
    (table.set name value).find? other =
      if name = other then (table.find? other).map fun _ => value else table.find? other := by
  induction table with
  | nil => simp [set, find?]
  | cons entry rest ih =>
      obtain ⟨key, old⟩ := entry
      unfold set
      by_cases hk : key = name
      · subst hk
        simp only [if_true, find?]
        split <;> simp
      · simp only [hk, if_false, find?, ih]
        by_cases ho : key = other
        · have hne : name ≠ other := fun h => hk (ho.trans h.symm)
          simp [ho, hne]
        · simp [ho]

theorem set_add_self
    {table : Table α} {name : String} (old new : α) (free : table.contains name = false) :
    (table.add name old).set name new = table.add name new := by
  rw [contains_eq_false] at free
  induction table with
  | nil => simp [add, set]
  | cons entry rest ih =>
      obtain ⟨key, value⟩ := entry
      have hkey : key ≠ name := fun heq => free (heq ▸ List.mem_cons_self)
      have hrest : name ∉ names rest := fun hmem => free (List.mem_cons_of_mem _ hmem)
      have ih := ih hrest
      rw [add] at ih ⊢
      rw [List.cons_append, set, if_neg hkey, ih]
      rfl

theorem find?_without (table : Table α) (names : List String) (name : String) :
    (table.without names).find? name = if name ∈ names then none else table.find? name := by
  induction table with
  | nil => simp [without, find?]
  | cons entry rest ih =>
      obtain ⟨key, value⟩ := entry
      simp only [without, find?]
      by_cases hm : key ∈ names
      · rw [if_pos hm, ih]
        by_cases hk : key = name
        · subst hk
          simp [hm]
        · simp [hk]
      · rw [if_neg hm]
        by_cases hk : key = name
        · subst hk
          simp [hm, find?]
        · simp [hk, find?, ih]

theorem forall_find?_without
    {table : Table α} {P : String → α → Prop}
    (h : ∀ name value, table.find? name = some value → P name value) (names : List String) :
    ∀ name value, (table.without names).find? name = some value → P name value := by
  intro name value hfind
  rw [find?_without] at hfind
  split at hfind
  · cases hfind
  · exact h name value hfind

/-! ## Tables that are joined -/

/-- A table holds the entries of two tables and no others. -/
def Joins (merged first second : Table α) : Prop :=
  ∀ name value, merged.find? name = some value ↔
    first.find? name = some value ∨ second.find? name = some value

variable {merged first second : Table α}

/-- Two tables without a common name are joined by appending one to the other. -/
theorem joins_append
    (disjoint : ∀ name, first.find? name = none ∨ second.find? name = none) :
    Joins (first ++ second) first second := by
  intro name value
  rw [find?_append]
  rcases disjoint name with h | h
  · simp [h]
  · simp [h]

theorem Joins.find?_of_none
    (h : Joins merged first second) {name : String} (hnone : first.find? name = none) :
    merged.find? name = second.find? name := by
  refine Option.ext fun value => ?_
  rw [h name value, hnone]
  simp

theorem Joins.without (h : Joins merged first second) (names : List String) :
    Joins (merged.without names) (first.without names) (second.without names) := by
  intro name value
  simp only [find?_without]
  split
  · simp
  · exact h name value

end Table

end Ascribe
