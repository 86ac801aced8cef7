import Ascribe.Expr.Substitute

/-!
# Free names under replacement

A name occurs free in an expression where no closure or block around it binds the name.  Here
every free occurrence is listed together with the names that are bound around it, which is what
decides the fate of an expression that is put there: its free names stay free, apart from those
that are bound around the place.

* `Expr.occurrences_substitute`: replacing names puts, in the place of every free occurrence of
  a replaced name, the free occurrences of the replacing expression that are not captured.
* `Expr.substitute_eq_self`: nothing happens to an expression in which no replaced name is free.
* `Expr.substitute_substitute`: expressions without free names may be put in one after the other
  or all at once.
-/

namespace Ascribe

/-! ## Occurrences -/

/-- A free occurrence of a name in an expression, with the names that are bound around it,
outermost first. -/
structure Occurrence where
  name : String
  bound : List String
  deriving DecidableEq

namespace Occurrence

/-- The occurrences that stay free when the given names are bound around them. -/
def under (names : List String) (occs : List Occurrence) : List Occurrence :=
  (occs.filter fun o => o.name ∉ names).map fun o => ⟨o.name, names ++ o.bound⟩

theorem under_append (names : List String) (occs others : List Occurrence) :
    under names (occs ++ others) = under names occs ++ under names others := by
  simp [under]

theorem under_nil (occs : List Occurrence) : under [] occs = occs := by
  induction occs with
  | nil => rfl
  | cons o occs ih => exact congrArg (List.cons o) ih

theorem under_cons_of_mem
    {names : List String} {name : String} (h : name ∈ names) (bound : List String)
    (occs : List Occurrence) :
    under names (⟨name, bound⟩ :: occs) = under names occs := by
  simp [under, h]

theorem under_cons_of_not_mem
    {names : List String} {name : String} (h : name ∉ names) (bound : List String)
    (occs : List Occurrence) :
    under names (⟨name, bound⟩ :: occs) = ⟨name, names ++ bound⟩ :: under names occs := by
  simp [under, h]

/-- Binders around binders. -/
theorem under_under (outer inner : List String) (occs : List Occurrence) :
    under outer (under inner occs) = under (outer ++ inner) occs := by
  induction occs with
  | nil => rfl
  | cons o occs ih =>
      obtain ⟨name, bound⟩ := o
      by_cases hinner : name ∈ inner
      · rw [under_cons_of_mem hinner, under_cons_of_mem (List.mem_append_right _ hinner), ih]
      · rw [under_cons_of_not_mem hinner]
        by_cases houter : name ∈ outer
        · rw [under_cons_of_mem houter, under_cons_of_mem (List.mem_append_left _ houter), ih]
        · have hboth : name ∉ outer ++ inner := by simp [houter, hinner]
          rw [under_cons_of_not_mem houter, under_cons_of_not_mem hboth, ih, List.append_assoc]

theorem mem_map_name_under {names : List String} {occs : List Occurrence} {name : String} :
    name ∈ (under names occs).map Occurrence.name ↔
      name ∈ occs.map Occurrence.name ∧ name ∉ names := by
  simp only [under, List.map_map, List.mem_map, List.mem_filter, Function.comp_def,
    decide_eq_true_eq]
  constructor
  · rintro ⟨o, ⟨ho, hfree⟩, rfl⟩
    exact ⟨⟨o, ho, rfl⟩, hfree⟩
  · rintro ⟨⟨o, ho, rfl⟩, hfree⟩
    exact ⟨o, ⟨ho, hfree⟩, rfl⟩

end Occurrence

namespace Expr

open Occurrence

mutual

/-- The free occurrences of names in an expression, from left to right.  The parameters of a
closure are bound in its body.  Annotations do not count. -/
def occurrences : Expr → List Occurrence
  | .literal _ _ => []
  | .ident name _ => [⟨name, []⟩]
  | .closure params body _ => under (params.map Param.name) body.occurrences
  | .app fn args _ => fn.occurrences ++ occurrencesAll args
  | .cond condition thenBranch none _ => condition.occurrences ++ thenBranch.occurrences
  | .cond condition thenBranch (some elseBranch) _ =>
      condition.occurrences ++ thenBranch.occurrences ++ elseBranch.occurrences
  | .member base _ _ => base.occurrences
  | .tuple elems _ => occurrencesAll elems
  | .structLit _ fields _ => occurrencesFields fields
  | .tycon _ args _ => occurrencesAll args
  | .arrow params result _ => occurrencesAll params ++ result.occurrences
  | .block items _ => occurrencesItems items
termination_by structural e => e

def occurrencesAll : List Expr → List Occurrence
  | [] => []
  | e :: es => e.occurrences ++ occurrencesAll es
termination_by structural es => es

def occurrencesFields : List (String × Expr) → List Occurrence
  | [] => []
  | (_, value) :: rest => value.occurrences ++ occurrencesFields rest
termination_by structural fields => fields

/-- The free occurrences in block items.  A local name is bound in the items after it, but not
in its own value. -/
def occurrencesItems : List (Item Expr Expr) → List Occurrence
  | [] => []
  | .binding ⟨name, _, _, none, _⟩ :: rest => under [name] (occurrencesItems rest)
  | .binding ⟨name, _, _, some value, _⟩ :: rest =>
      value.occurrences ++ under [name] (occurrencesItems rest)
  | .expr e :: rest => e.occurrences ++ occurrencesItems rest
termination_by structural items => items

end

/-- The names that are free in an expression. -/
def freeNames (e : Expr) : List String :=
  e.occurrences.map Occurrence.name

/-- The names that are free in block items. -/
def freeNamesItems (items : List (Item Expr Expr)) : List String :=
  (occurrencesItems items).map Occurrence.name

end Expr

/-! ## Replacing occurrences -/

namespace Occurrence

/-- What stands in the place of a free occurrence after names have been replaced. -/
def replace (r : Replacements) (o : Occurrence) : List Occurrence :=
  match r.find? o.name with
  | none => [o]
  | some e => under o.bound e.occurrences

theorem replace_without_of_mem
    (r : Replacements) {names : List String} {o : Occurrence} (h : o.name ∈ names) :
    replace (r.without names) o = [o] := by
  rw [replace, Table.find?_without, if_pos h]

/-- Under a binder, a name that is not bound is replaced as before. -/
theorem under_replace_without
    (r : Replacements) {names : List String} {o : Occurrence} (h : o.name ∉ names) :
    under names (replace (r.without names) o) = replace r ⟨o.name, names ++ o.bound⟩ := by
  simp only [replace, Table.find?_without, if_neg h]
  cases r.find? o.name with
  | none => exact under_cons_of_not_mem h o.bound []
  | some e => exact under_under names o.bound e.occurrences

/-- Replacing inside a binder, where the bound names are not replaced, is replacing what is free
outside of it. -/
theorem under_flatMap_replace
    (r : Replacements) (names : List String) (occs : List Occurrence) :
    under names (occs.flatMap (replace (r.without names))) =
      (under names occs).flatMap (replace r) := by
  induction occs with
  | nil => rfl
  | cons o occs ih =>
      rw [List.flatMap_cons, under_append, ih]
      by_cases h : o.name ∈ names
      · rw [replace_without_of_mem r h, under_cons_of_mem h, under_cons_of_mem h]
        rfl
      · rw [under_replace_without r h, under_cons_of_not_mem h, List.flatMap_cons]

theorem mem_flatMap_replace {r : Replacements} {occs : List Occurrence} {name : String} :
    name ∈ (occs.flatMap (replace r)).map Occurrence.name ↔
      (name ∈ occs.map Occurrence.name ∧ r.find? name = none) ∨
        ∃ o ∈ occs, ∃ e, r.find? o.name = some e ∧ name ∈ e.freeNames ∧ name ∉ o.bound := by
  have hreplace : ∀ o : Occurrence, name ∈ (replace r o).map Occurrence.name ↔
      (o.name = name ∧ r.find? name = none) ∨
        ∃ e, r.find? o.name = some e ∧ name ∈ e.freeNames ∧ name ∉ o.bound := by
    intro o
    rw [replace]
    cases hfind : r.find? o.name with
    | none =>
        constructor
        · intro hname
          obtain rfl := List.mem_singleton.1 hname
          exact .inl ⟨rfl, hfind⟩
        · rintro (⟨rfl, -⟩ | ⟨e, he, -⟩)
          · exact List.mem_singleton_self _
          · cases he
    | some e =>
        constructor
        · intro hname
          exact .inr ⟨e, rfl, mem_map_name_under.1 hname⟩
        · rintro (⟨rfl, hnone⟩ | ⟨e', he, hname⟩)
          · rw [hfind] at hnone
            cases hnone
          · cases he
            exact mem_map_name_under.2 hname
  simp only [List.map_flatMap, List.mem_flatMap, hreplace, List.mem_map]
  constructor
  · rintro ⟨o, ho, ⟨rfl, hnone⟩ | hsome⟩
    · exact .inl ⟨⟨o, ho, rfl⟩, hnone⟩
    · exact .inr ⟨o, ho, hsome⟩
  · rintro (⟨⟨o, ho, rfl⟩, hnone⟩ | ⟨o, ho, hsome⟩)
    · exact ⟨o, ho, .inl ⟨rfl, hnone⟩⟩
    · exact ⟨o, ho, .inr hsome⟩

end Occurrence

namespace Expr

open Occurrence

mutual

/-- Replacing names in an expression replaces its free occurrences. -/
theorem occurrences_substitute (r : Replacements) :
    ∀ e : Expr, (e.substitute r).occurrences = e.occurrences.flatMap (replace r)
  | .literal _ _ => rfl
  | .ident name span => by
      simp only [substitute, occurrences, List.flatMap_singleton, replace]
      cases hfind : r.find? name with
      | none => rfl
      | some e => exact (under_nil _).symm
  | .closure params body span => by
      rw [substitute, occurrences, occurrences_substitute _ body, under_flatMap_replace,
        occurrences]
  | .app fn args span => by
      rw [substitute, occurrences, occurrences_substitute r fn, occurrencesAll_substituteAll r args,
        occurrences, List.flatMap_append]
  | .cond condition thenBranch none span => by
      rw [substitute, occurrences, occurrences_substitute r condition,
        occurrences_substitute r thenBranch, occurrences, List.flatMap_append]
  | .cond condition thenBranch (some elseBranch) span => by
      rw [substitute, occurrences, occurrences_substitute r condition,
        occurrences_substitute r thenBranch, occurrences_substitute r elseBranch, occurrences,
        List.flatMap_append, List.flatMap_append]
  | .member base selector span => occurrences_substitute r base
  | .tuple elems span => occurrencesAll_substituteAll r elems
  | .structLit type fields span => occurrencesFields_substituteFields r fields
  | .tycon name args span => occurrencesAll_substituteAll r args
  | .arrow params result span => by
      rw [substitute, occurrences, occurrencesAll_substituteAll r params,
        occurrences_substitute r result, occurrences, List.flatMap_append]
  | .block items span => occurrencesItems_substituteItems r items
termination_by structural e => e

theorem occurrencesAll_substituteAll (r : Replacements) :
    ∀ es : List Expr, occurrencesAll (substituteAll r es) = (occurrencesAll es).flatMap (replace r)
  | [] => rfl
  | e :: es => by
      rw [substituteAll, occurrencesAll, occurrences_substitute r e,
        occurrencesAll_substituteAll r es, occurrencesAll, List.flatMap_append]
termination_by structural es => es

theorem occurrencesFields_substituteFields (r : Replacements) :
    ∀ fields : List (String × Expr),
      occurrencesFields (substituteFields r fields) =
        (occurrencesFields fields).flatMap (replace r)
  | [] => rfl
  | (name, value) :: rest => by
      rw [substituteFields, occurrencesFields, occurrences_substitute r value,
        occurrencesFields_substituteFields r rest, occurrencesFields, List.flatMap_append]
termination_by structural fields => fields

theorem occurrencesItems_substituteItems (r : Replacements) :
    ∀ items : List (Item Expr Expr),
      occurrencesItems (substituteItems r items) = (occurrencesItems items).flatMap (replace r)
  | [] => rfl
  | .binding ⟨name, modifiers, ascription, none, span⟩ :: rest => by
      rw [substituteItems, occurrencesItems, occurrencesItems_substituteItems _ rest,
        under_flatMap_replace, occurrencesItems]
  | .binding ⟨name, modifiers, ascription, some value, span⟩ :: rest => by
      -- the value is outside the reach of its own name
      rw [substituteItems, occurrencesItems, occurrences_substitute r value,
        occurrencesItems_substituteItems _ rest, under_flatMap_replace, occurrencesItems,
        List.flatMap_append]
  | .expr e :: rest => by
      rw [substituteItems, occurrencesItems, occurrences_substitute r e,
        occurrencesItems_substituteItems r rest, occurrencesItems, List.flatMap_append]
termination_by structural items => items

end

/-- The free names after replacing.  A free name that is not replaced stays free.  A free name of
a replacing expression is free if it is not bound around some free occurrence of the name that
the expression replaces. -/
theorem freeNames_substitute (r : Replacements) (e : Expr) (items : List (Item Expr Expr)) :
    (∀ name, name ∈ (e.substitute r).freeNames ↔
      (name ∈ e.freeNames ∧ r.find? name = none) ∨
        ∃ o ∈ e.occurrences, ∃ v, r.find? o.name = some v ∧ name ∈ v.freeNames ∧
          name ∉ o.bound) ∧
    (∀ name, name ∈ freeNamesItems (substituteItems r items) ↔
      (name ∈ freeNamesItems items ∧ r.find? name = none) ∨
        ∃ o ∈ occurrencesItems items, ∃ v, r.find? o.name = some v ∧ name ∈ v.freeNames ∧
          name ∉ o.bound) := by
  constructor
  · intro name
    rw [freeNames, occurrences_substitute]
    exact mem_flatMap_replace
  · intro name
    rw [freeNamesItems, occurrencesItems_substituteItems]
    exact mem_flatMap_replace

/-- A function that gives back a name, whatever it is applied to. -/
def keepX : Expr :=
  .closure [⟨"y", none, default⟩] (.ident "x" default) default

/-- A block that gives back a name after another one has been bound. -/
def keepXItems : List (Item Expr Expr) :=
  [.binding ⟨"y", [], none, some (.tuple [] default), default⟩, .expr (.ident "x" default)]

def yForX : Replacements :=
  [("x", .ident "y" default)]

/-- The parameter and the local name capture the name that is put in their reach, so it is not
free any more. -/
theorem freeNames_substitute_captured :
    ¬ (∀ name, name ∈ (keepX.substitute yForX).freeNames ↔
      (name ∈ keepX.freeNames ∧ yForX.find? name = none) ∨
        ∃ x ∈ keepX.freeNames, ∃ v, yForX.find? x = some v ∧ name ∈ v.freeNames) ∧
    ¬ (∀ name, name ∈ freeNamesItems (substituteItems yForX keepXItems) ↔
      (name ∈ freeNamesItems keepXItems ∧ yForX.find? name = none) ∨
        ∃ x ∈ freeNamesItems keepXItems, ∃ v, yForX.find? x = some v ∧ name ∈ v.freeNames) := by
  constructor
  · intro h
    have hfree := (h "y").2 (.inr ⟨"x", by decide, .ident "y" default, rfl, by decide⟩)
    exact absurd hfree (by decide)
  · intro h
    have hfree := (h "y").2 (.inr ⟨"x", by decide, .ident "y" default, rfl, by decide⟩)
    exact absurd hfree (by decide)

end Expr

/-! ## One after the other -/

namespace Expr

open Occurrence

/-- None of the occurrences is of a replaced name. -/
def Untouched (r : Replacements) (occs : List Occurrence) : Prop :=
  ∀ o ∈ occs, r.find? o.name = none

theorem untouched_append_iff {r : Replacements} {occs others : List Occurrence} :
    Untouched r (occs ++ others) ↔ Untouched r occs ∧ Untouched r others :=
  List.forall_mem_append

theorem untouched_of_under
    {r : Replacements} {names : List String} {occs : List Occurrence}
    (h : Untouched r (under names occs)) :
    Untouched (r.without names) occs := by
  intro o ho
  rw [Table.find?_without]
  split
  · rfl
  · rename_i hfree
    exact h ⟨o.name, names ++ o.bound⟩ (List.mem_map.2 ⟨o, by simp [ho, hfree], rfl⟩)

mutual

/-- Nothing happens to an expression in which no replaced name is free. -/
theorem substitute_eq_self (r : Replacements) :
    ∀ e : Expr, Untouched r e.occurrences → e.substitute r = e
  | .literal _ _, _ => rfl
  | .ident name span, h => by
      rw [substitute, h ⟨name, []⟩ (List.mem_singleton_self _), Option.getD_none]
  | .closure params body span, h => by
      rw [substitute, substitute_eq_self _ body (untouched_of_under h)]
  | .app fn args span, h => by
      obtain ⟨hfn, hargs⟩ := untouched_append_iff.1 h
      rw [substitute, substitute_eq_self r fn hfn, substituteAll_eq_self r args hargs]
  | .cond condition thenBranch none span, h => by
      obtain ⟨hcondition, hthen⟩ := untouched_append_iff.1 h
      rw [substitute, substitute_eq_self r condition hcondition,
        substitute_eq_self r thenBranch hthen]
  | .cond condition thenBranch (some elseBranch) span, h => by
      obtain ⟨hfirst, helse⟩ := untouched_append_iff.1 h
      obtain ⟨hcondition, hthen⟩ := untouched_append_iff.1 hfirst
      rw [substitute, substitute_eq_self r condition hcondition,
        substitute_eq_self r thenBranch hthen, substitute_eq_self r elseBranch helse]
  | .member base selector span, h => by
      rw [substitute, substitute_eq_self r base h]
  | .tuple elems span, h => by
      rw [substitute, substituteAll_eq_self r elems h]
  | .structLit type fields span, h => by
      rw [substitute, substituteFields_eq_self r fields h]
  | .tycon name args span, h => by
      rw [substitute, substituteAll_eq_self r args h]
  | .arrow params result span, h => by
      obtain ⟨hparams, hresult⟩ := untouched_append_iff.1 h
      rw [substitute, substituteAll_eq_self r params hparams, substitute_eq_self r result hresult]
  | .block items span, h => by
      rw [substitute, substituteItems_eq_self r items h]
termination_by structural e => e

theorem substituteAll_eq_self (r : Replacements) :
    ∀ es : List Expr, Untouched r (occurrencesAll es) → substituteAll r es = es
  | [], _ => rfl
  | e :: es, h => by
      obtain ⟨he, hes⟩ := untouched_append_iff.1 h
      rw [substituteAll, substitute_eq_self r e he, substituteAll_eq_self r es hes]
termination_by structural es => es

theorem substituteFields_eq_self (r : Replacements) :
    ∀ fields : List (String × Expr), Untouched r (occurrencesFields fields) →
      substituteFields r fields = fields
  | [], _ => rfl
  | (name, value) :: rest, h => by
      obtain ⟨hvalue, hrest⟩ := untouched_append_iff.1 h
      rw [substituteFields, substitute_eq_self r value hvalue,
        substituteFields_eq_self r rest hrest]
termination_by structural fields => fields

theorem substituteItems_eq_self (r : Replacements) :
    ∀ items : List (Item Expr Expr), Untouched r (occurrencesItems items) →
      substituteItems r items = items
  | [], _ => rfl
  | .binding ⟨name, modifiers, ascription, none, span⟩ :: rest, h => by
      rw [substituteItems, substituteItems_eq_self _ rest (untouched_of_under h)]
  | .binding ⟨name, modifiers, ascription, some value, span⟩ :: rest, h => by
      obtain ⟨hvalue, hrest⟩ := untouched_append_iff.1 h
      rw [substituteItems, substitute_eq_self r value hvalue,
        substituteItems_eq_self _ rest (untouched_of_under hrest)]
  | .expr e :: rest, h => by
      obtain ⟨he, hrest⟩ := untouched_append_iff.1 h
      rw [substituteItems, substitute_eq_self r e he, substituteItems_eq_self r rest hrest]
termination_by structural items => items

end

/-- So an expression need not be walked when there is nothing to replace. -/
theorem substitute_nil (e : Expr) : e.substitute [] = e :=
  substitute_eq_self [] e fun _ _ => rfl

/-- The replacing expressions have no free names. -/
def Closed (r : Replacements) : Prop :=
  ∀ name e, r.find? name = some e → e.freeNames = []

theorem Closed.without {r : Replacements} (h : Closed r) (names : List String) :
    Closed (r.without names) :=
  Table.forall_find?_without h names

theorem substitute_of_freeNames_eq_nil
    {e : Expr} (h : e.freeNames = []) (r : Replacements) :
    e.substitute r = e := by
  refine substitute_eq_self r e ?_
  rw [List.map_eq_nil_iff.1 h]
  exact List.forall_mem_nil _

mutual

/-- What has been put in first is left alone by the second replacement. -/
theorem substitute_substitute
    {merged first second : Replacements} (h : merged.Joins first second) (closed : Closed first) :
    ∀ e : Expr, (e.substitute first).substitute second = e.substitute merged
  | .literal _ _ => rfl
  | .ident name span => by
      simp only [substitute]
      cases hfind : first.find? name with
      | none => rw [Option.getD_none, substitute, h.find?_of_none hfind]
      | some e =>
          rw [Option.getD_some, substitute_of_freeNames_eq_nil (closed name e hfind),
            (h name e).2 (.inl hfind), Option.getD_some]
  | .closure params body span => by
      simp only [substitute]
      rw [substitute_substitute (h.without _) (closed.without _) body]
  | .app fn args span => by
      simp only [substitute, substitute_substitute h closed fn,
        substituteAll_substituteAll h closed args]
  | .cond condition thenBranch none span => by
      simp only [substitute, substitute_substitute h closed condition,
        substitute_substitute h closed thenBranch]
  | .cond condition thenBranch (some elseBranch) span => by
      simp only [substitute, substitute_substitute h closed condition,
        substitute_substitute h closed thenBranch, substitute_substitute h closed elseBranch]
  | .member base selector span => by
      simp only [substitute, substitute_substitute h closed base]
  | .tuple elems span => by
      simp only [substitute, substituteAll_substituteAll h closed elems]
  | .structLit type fields span => by
      simp only [substitute, substituteFields_substituteFields h closed fields]
  | .tycon name args span => by
      simp only [substitute, substituteAll_substituteAll h closed args]
  | .arrow params result span => by
      simp only [substitute, substituteAll_substituteAll h closed params,
        substitute_substitute h closed result]
  | .block items span => by
      simp only [substitute, substituteItems_substituteItems h closed items]
termination_by structural e => e

theorem substituteAll_substituteAll
    {merged first second : Replacements} (h : merged.Joins first second) (closed : Closed first) :
    ∀ es : List Expr, substituteAll second (substituteAll first es) = substituteAll merged es
  | [] => rfl
  | e :: es => by
      simp only [substituteAll, substitute_substitute h closed e,
        substituteAll_substituteAll h closed es]
termination_by structural es => es

theorem substituteFields_substituteFields
    {merged first second : Replacements} (h : merged.Joins first second) (closed : Closed first) :
    ∀ fields : List (String × Expr),
      substituteFields second (substituteFields first fields) = substituteFields merged fields
  | [] => rfl
  | (name, value) :: rest => by
      simp only [substituteFields, substitute_substitute h closed value,
        substituteFields_substituteFields h closed rest]
termination_by structural fields => fields

theorem substituteItems_substituteItems
    {merged first second : Replacements} (h : merged.Joins first second) (closed : Closed first) :
    ∀ items : List (Item Expr Expr),
      substituteItems second (substituteItems first items) = substituteItems merged items
  | [] => rfl
  | .binding ⟨name, modifiers, ascription, none, span⟩ :: rest => by
      simp only [substituteItems]
      rw [substituteItems_substituteItems (h.without _) (closed.without _) rest]
  | .binding ⟨name, modifiers, ascription, some value, span⟩ :: rest => by
      simp only [substituteItems, substitute_substitute h closed value]
      rw [substituteItems_substituteItems (h.without _) (closed.without _) rest]
  | .expr e :: rest => by
      simp only [substituteItems, substitute_substitute h closed e,
        substituteItems_substituteItems h closed rest]
termination_by structural items => items

end

/-- Replacing the names of one table and then those of another is replacing the names of both at
once, when the expressions of the first table have no free names. -/
theorem substitute_of_joins
    {merged first second : Replacements} (joins : merged.Joins first second)
    (closed : Closed first) (e : Expr) (items : List (Item Expr Expr)) :
    (e.substitute first).substitute second = e.substitute merged ∧
      substituteItems second (substituteItems first items) = substituteItems merged items :=
  ⟨substitute_substitute joins closed e, substituteItems_substituteItems joins closed items⟩

def unitForX : Replacements :=
  [("x", .tuple [] default)]

def identityForY : Replacements :=
  [("y", .closure [⟨"z", none, default⟩] (.ident "z" default) default)]

/-- Two names, of which the first is bound again after its first use. -/
def rebindX : List (Item Expr Expr) :=
  [.binding ⟨"x", [], none, some (.ident "x" default), default⟩,
    .expr (.tuple [.ident "x" default, .ident "y" default] default)]

theorem substitute_of_joins_rebindX :
    ((Expr.block rebindX default).substitute unitForX).substitute identityForY =
        (Expr.block rebindX default).substitute (unitForX ++ identityForY) ∧
      substituteItems identityForY (substituteItems unitForX rebindX) =
        [.binding ⟨"x", [], none, some (.tuple [] default), default⟩,
          .expr (.tuple [.ident "x" default,
            .closure [⟨"z", none, default⟩] (.ident "z" default) default] default)] := by
  have hjoins : Table.Joins (unitForX ++ identityForY) unitForX identityForY := by
    refine Table.joins_append fun name => ?_
    by_cases h : "x" = name
    · exact .inr (by subst h; rfl)
    · exact .inl (if_neg h)
  have hclosed : Closed unitForX := by
    intro name e hfind
    simp only [unitForX, Table.find?] at hfind
    split at hfind
    · cases hfind
      rfl
    · cases hfind
  obtain ⟨hexpr, hitems⟩ := substitute_of_joins hjoins hclosed (.block rebindX default) rebindX
  exact ⟨hexpr, hitems⟩

end Expr

end Ascribe
