import Ascribe.Proofs.Insertion

/-!
# The order of declarations in a body

The body of a type is read twice, first for the types in it and then for its other members.
Either reading passes over what is for the other one.  So the two kinds of members may stand in
any mixture, and only the order within each kind counts: a field may come before the nested type
that it mentions.

A declaration can therefore be rearranged so that in every body, at every depth, the types come
first (`Declaration.typesFirst`).  Rearranging changes neither the scope that a declaration
leaves nor the error with which it fails (`Scope.insert_typesFirst`), and two declarations that
differ in the mixture only are rearranged to the same one.
-/

namespace Ascribe

namespace Declaration

variable {ε : Type}

mutual

/-- The declaration with the types before the other members, in its body and in the bodies
inside. -/
def typesFirst : Declaration ε → Declaration ε
  | .type kind name modifiers members span =>
      .type kind name modifiers (typesOf members ++ members.filter (!·.isType)) span
  | .binding b => .binding b
  | .function f => .function f
  | .enumCase name modifiers values span => .enumCase name modifiers values span
  | .trait name modifiers span => .trait name modifiers span

/-- The type declarations of a list, each with the types first in its body. -/
def typesOf : List (Declaration ε) → List (Declaration ε)
  | [] => []
  | d :: ds => if d.isType then d.typesFirst :: typesOf ds else typesOf ds

end

theorem isType_typesFirst (d : Declaration ε) : d.typesFirst.isType = d.isType := by
  cases d <;> rfl

theorem typesOf_eq (ds : List (Declaration ε)) :
    typesOf ds = (ds.filter isType).map typesFirst := by
  induction ds with
  | nil => rfl
  | cons d ds ih =>
      rw [typesOf, List.filter_cons]
      split
      · rw [ih, List.map_cons]
      · exact ih

/-- The types of a rearranged body are those of the body, rearranged. -/
theorem filter_isType_typesOf_append (ds : List (Declaration ε)) :
    (typesOf ds ++ ds.filter (!·.isType)).filter isType = typesOf ds := by
  have htypes : ∀ d ∈ typesOf ds, d.isType = true := by
    intro d hd
    rw [typesOf_eq, List.mem_map] at hd
    obtain ⟨d', hd', rfl⟩ := hd
    rw [isType_typesFirst]
    exact (List.mem_filter.1 hd').2
  rw [List.filter_append, List.filter_eq_self.2 htypes, List.filter_filter]
  simp

/-- The other members of a rearranged body are those of the body. -/
theorem filter_not_isType_typesOf_append (ds : List (Declaration ε)) :
    (typesOf ds ++ ds.filter (!·.isType)).filter (!·.isType) = ds.filter (!·.isType) := by
  have hothers : (typesOf ds).filter (!·.isType) = [] := by
    rw [typesOf_eq, List.filter_eq_nil_iff]
    intro d hd
    obtain ⟨d', hd', rfl⟩ := List.mem_map.1 hd
    simp [isType_typesFirst, (List.mem_filter.1 hd').2]
  rw [List.filter_append, hothers, List.filter_filter]
  simp

end Declaration

namespace Scope

/-! ## The two readings -/

/-- The first reading passes over what is not a type. -/
theorem insertTypes_filter (ds : List (Declaration Expr)) :
    insertTypes (ds.filter Declaration.isType) = insertTypes ds := by
  induction ds with
  | nil => rfl
  | cons d ds ih =>
      rw [List.filter_cons]
      split
      · rw [insertTypes, insertTypes, ih]
      · rename_i htype
        rw [ih, insertTypes, if_neg htype]

/-- The second reading passes over types. -/
theorem draftMembers_filter
    (scope : Scope) (kind : TypeKind) (self : Ty) (draft : Draft)
    (ds : List (Declaration Expr)) :
    draftMembers scope kind self draft (ds.filter (!·.isType)) =
      draftMembers scope kind self draft ds := by
  induction ds generalizing draft with
  | nil => rfl
  | cons d ds ih =>
      cases d with
      | type kind' name modifiers members span => exact ih draft
      | binding | function | enumCase | trait =>
          rw [List.filter_cons_of_pos rfl, draftMembers, draftMembers]
          simp only [ih]

/-- Only the types and the other members of a body count, each in their order. -/
theorem insert_type_congr
    {members members' : List (Declaration Expr)}
    (types : insertTypes members = insertTypes members')
    (others : members.filter (!·.isType) = members'.filter (!·.isType))
    (kind : TypeKind) (name : String) (modifiers modifiers' : List Modifier) (span : Span) :
    insert (.type kind name modifiers members span) =
      insert (.type kind name modifiers' members' span) := by
  have hdefine : ∀ scope : Scope, scope.define kind name members (insertTypes members) =
      scope.define kind name members' (insertTypes members') := by
    intro scope
    simp only [define, ← types]
    split
    · rfl
    · rw [← draftMembers_filter _ _ _ _ members, others, draftMembers_filter]
  simp only [insert, hdefine]

/-! ## Rearranging -/

mutual

/-- Rearranging the bodies of a declaration does not change what declaring it does. -/
theorem insert_typesFirst :
    ∀ d : Declaration Expr, insert d.typesFirst = insert d
  | .type kind name modifiers members span => by
      refine insert_type_congr ?_ (Declaration.filter_not_isType_typesOf_append members)
        kind name modifiers modifiers span
      rw [← insertTypes_filter, Declaration.filter_isType_typesOf_append]
      exact insertTypes_typesOf members
  | .binding b => rfl
  | .function f => rfl
  | .enumCase name modifiers values span => rfl
  | .trait name modifiers span => rfl

theorem insertTypes_typesOf :
    ∀ ds : List (Declaration Expr), insertTypes (Declaration.typesOf ds) = insertTypes ds
  | [] => rfl
  | d :: ds => by
      rw [Declaration.typesOf]
      split
      · rw [insertTypes, insertTypes, Declaration.isType_typesFirst, insert_typesFirst d,
          insertTypes_typesOf ds]
      · rename_i htype
        rw [insertTypes_typesOf ds, insertTypes, if_neg htype]

end

/-- Types may be declared anywhere in a body.  Two structs or two enums with the same name and
place whose bodies have the same types and the same other members, each in the same order, do
the same to every scope, whether they succeed or fail. -/
theorem insert_eq_of_filter_eq
    {members members' : List (Declaration Expr)}
    (types : members.filter Declaration.isType = members'.filter Declaration.isType)
    (others : members.filter (!·.isType) = members'.filter (!·.isType))
    (scope : Scope) (kind : TypeKind) (name : String) (modifiers modifiers' : List Modifier)
    (span : Span) :
    insert (.type kind name modifiers members span) scope =
      insert (.type kind name modifiers' members' span) scope := by
  have hrearranged : (Declaration.type kind name modifiers members span).typesFirst =
      .type kind name modifiers
        (Declaration.typesOf members' ++ members'.filter (!·.isType)) span := by
    rw [Declaration.typesFirst, Declaration.typesOf_eq, types, others, Declaration.typesOf_eq]
  calc
    insert (.type kind name modifiers members span) scope =
        insert (Declaration.typesFirst (.type kind name modifiers members span)) scope := by
      rw [insert_typesFirst]
    _ = insert (Declaration.typesFirst (.type kind name modifiers' members' span)) scope := by
      rw [hrearranged]
      rfl
    _ = insert (.type kind name modifiers' members' span) scope := by
      rw [insert_typesFirst]

/-- A body in which a field mentions a type that is declared after it. -/
def fieldFirst : List (Declaration Expr) :=
  [.binding ⟨"x", [], some (.ident "Inner" default), none, default⟩,
    .type .struct "Inner" [] [] default,
    .binding ⟨"y", [.static], some (.ident "Int32" default), none, default⟩]

/-- The same body with the type at its end. -/
def typeLast : List (Declaration Expr) :=
  [.binding ⟨"x", [], some (.ident "Inner" default), none, default⟩,
    .binding ⟨"y", [.static], some (.ident "Int32" default), none, default⟩,
    .type .struct "Inner" [] [] default]

/-- The module with the struct that has this body. -/
def outerScope : Scope :=
  ⟨⟨none, [], [("Outer", .struct
    ⟨[("x", .signature (.mono (.named "Outer.Inner")))], [("y", .signature (.mono .int))],
      [("Inner", .empty .struct)]⟩)]⟩, [.prelude], .standard⟩

theorem insert_eq_of_filter_eq_fieldFirst :
    insert (.type .struct "Outer" [] fieldFirst default) (.empty .standard) =
        .ok () outerScope ∧
      insert (.type .struct "Outer" [] typeLast default) (.empty .standard) =
        .ok () outerScope := by
  have hfirst : insert (.type .struct "Outer" [] fieldFirst default) (.empty .standard) =
      .ok () outerScope := by cbv
  have hsame : insert (.type .struct "Outer" [] typeLast default) (.empty .standard) =
      insert (.type .struct "Outer" [] fieldFirst default) (.empty .standard) :=
    insert_eq_of_filter_eq rfl rfl (.empty .standard) .struct "Outer" [] [] default
  exact ⟨hfirst, hsame.trans hfirst⟩

end Scope

end Ascribe
