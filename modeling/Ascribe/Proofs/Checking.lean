import Ascribe.Proofs.Signatures
import Ascribe.Proofs.Tables

/-!
# What checking keeps and what it promises

A module that passes its check comes back with a type on every node of its values and bodies.
Nothing else is changed, at any depth: without the types it is the module that was given.  And
the declared types are the types that stand there.  A body has exactly the type that its
result annotation denotes, and an annotated value has exactly the type of its annotation, both
read in the scope in which the declaration was checked.

A declaration that fails comes back without its value or body, and a type whose body cannot be
entered without its members, so nothing of this holds of the declarations of a module that
does not pass.
-/

namespace Ascribe

namespace Scope

variable {scope : Scope} {owner : Option Ty}

/-! ## Checks without errors -/

theorem checkDeclaration_binding_eq
    {b : Binding Expr Expr} {checked : Declaration TypedExpr} :
    scope.checkDeclaration owner (.binding b) = (checked, []) ↔
      ∃ typed, scope.checkBinding b = .ok typed ∧ checked = .binding typed := by
  rw [checkDeclaration]
  cases scope.checkBinding b with
  | ok typed => simp [eq_comm]
  | error e => simp

theorem checkDeclaration_function_eq
    {f : Function Expr} {checked : Declaration TypedExpr} :
    scope.checkDeclaration owner (.function f) = (checked, []) ↔
      ∃ typed, scope.checkFunction (if f.modifiers.contains .static then none else owner) f =
        .ok typed ∧ checked = .function typed := by
  simp only [checkDeclaration]
  cases scope.checkFunction (if f.modifiers.contains .static then none else owner) f with
  | ok typed => simp [eq_comm]
  | error e => simp

theorem checkDeclaration_type_eq
    {kind : TypeKind} {name : String} {modifiers : List Modifier}
    {members : List (Declaration Expr)} {span : Span} {checked : Declaration TypedExpr} :
    scope.checkDeclaration owner (.type kind name modifiers members span) = (checked, []) ↔
      ∃ body typed, scope.typeScope (scope.qualify name) = some body ∧
        body.checkAll (some (.named (scope.qualify name))) members = (typed, []) ∧
        checked = .type kind name modifiers typed span := by
  simp only [checkDeclaration]
  cases scope.typeScope (scope.qualify name) with
  | none => simp
  | some body =>
      constructor
      · intro h
        obtain ⟨rfl, herrors⟩ := Prod.mk.inj h
        exact ⟨body, _, rfl, Prod.ext rfl herrors, rfl⟩
      · rintro ⟨body', typed, hbody, hmembers, rfl⟩
        cases hbody
        simp only [hmembers]

theorem checkAll_cons_eq
    {d : Declaration Expr} {ds : List (Declaration Expr)}
    {checked : List (Declaration TypedExpr)} :
    scope.checkAll owner (d :: ds) = (checked, []) ↔
      ∃ first rest, scope.checkDeclaration owner d = (first, []) ∧
        scope.checkAll owner ds = (rest, []) ∧ checked = first :: rest := by
  simp only [checkAll, Prod.mk.injEq, List.append_eq_nil_iff]
  constructor
  · rintro ⟨rfl, hfirst, hrest⟩
    exact ⟨_, _, Prod.ext rfl hfirst, Prod.ext rfl hrest, rfl⟩
  · rintro ⟨first, rest, hfirst, hrest, rfl⟩
    simp [hfirst, hrest]

/-! ## Checking keeps the declarations -/

theorem annotate_erase {e : Expr} {typed : TypedExpr} (h : scope.annotate e = .ok typed) :
    typed.erase = e := by
  obtain ⟨provisional, final, s, hrun, -, rfl⟩ := complete_eq_ok.1 h
  rw [TypedExpr.erase_apply]
  exact infer_erase e hrun

theorem erase_and_ty_of_checkBinding
    {b : Binding Expr Expr} {a value : Expr} {checked : Binding Expr TypedExpr}
    (hascription : b.ascription = some a) (hvalue : b.value = some value)
    (h : scope.checkBinding b = .ok checked) :
    ∃ typed : TypedExpr, typed.erase = value ∧ scope.annotationTy a = .ok typed.ty ∧
      checked = ⟨b.name, b.modifiers, b.ascription, some typed, b.span⟩ := by
  obtain ⟨name, modifiers, ascription, value, span⟩ := b
  cases hascription
  cases hvalue
  obtain ⟨t, typed, ht, hcomplete, rfl⟩ := complete_of_checkBinding_annotated h
  obtain ⟨herase, hty⟩ := erase_and_ty_of_complete_expecting (annotationTy_vars ht)
    (fun _ => ⟨_, .inl rfl⟩) hcomplete
  exact ⟨typed, herase, by rw [ht, hty], rfl⟩

theorem checkBinding_erase
    {b : Binding Expr Expr} {checked : Binding Expr TypedExpr}
    (h : scope.checkBinding b = .ok checked) :
    Declaration.erase (.binding checked) = .binding b := by
  obtain ⟨name, modifiers, ascription, value, span⟩ := b
  match ascription, value with
  | _, none =>
      cases h
      rfl
  | none, some value =>
      obtain ⟨typed, htyped, rfl⟩ := checkBinding_inferred_eq_ok.1 h
      rw [← annotate_erase htyped]
      rfl
  | some a, some value =>
      obtain ⟨typed, rfl, -, rfl⟩ := erase_and_ty_of_checkBinding rfl rfl h
      rfl

theorem erase_and_ty_of_checkFunction
    {receiver : Option Ty} {f : Function Expr} {body : Expr} {checked : Function TypedExpr}
    (hbody : f.body = some body) (h : scope.checkFunction receiver f = .ok checked) :
    ∃ typed : TypedExpr, typed.erase = body ∧ scope.resultTy f = .ok typed.ty ∧
      checked = ⟨f.name, f.modifiers, f.params, f.result, some typed, f.span⟩ := by
  obtain ⟨bound, declared, typed, -, hdeclared, hcomplete, rfl⟩ :=
    (checkFunction_eq_ok hbody).1 h
  obtain ⟨herase, hty⟩ := erase_and_ty_of_complete_expecting (resultTy_vars hdeclared)
    (fun _ => ⟨_, .inr rfl⟩) hcomplete
  exact ⟨typed, herase, by rw [hdeclared, hty], rfl⟩

theorem checkFunction_erase
    {receiver : Option Ty} {f : Function Expr} {checked : Function TypedExpr}
    (h : scope.checkFunction receiver f = .ok checked) :
    Declaration.erase (.function checked) = .function f := by
  obtain ⟨name, modifiers, params, result, body, span⟩ := f
  cases body with
  | none =>
      cases h
      rfl
  | some body =>
      obtain ⟨typed, rfl, -, rfl⟩ := erase_and_ty_of_checkFunction rfl h
      rfl

mutual

theorem checkDeclaration_erase :
    ∀ (d : Declaration Expr) {scope : Scope} {owner : Option Ty}
      {checked : Declaration TypedExpr},
      scope.checkDeclaration owner d = (checked, []) → checked.erase = d
  | .binding b, _, _, _, h => by
      obtain ⟨typed, htyped, rfl⟩ := checkDeclaration_binding_eq.1 h
      exact checkBinding_erase htyped
  | .function f, _, _, _, h => by
      obtain ⟨typed, htyped, rfl⟩ := checkDeclaration_function_eq.1 h
      exact checkFunction_erase htyped
  | .type kind name modifiers members span, _, _, _, h => by
      obtain ⟨body, typed, -, hmembers, rfl⟩ := checkDeclaration_type_eq.1 h
      rw [Declaration.erase, Declaration.map, checkAll_erase members hmembers]
  | .enumCase name modifiers values span, _, _, _, h => by
      cases h
      rfl
  | .trait name modifiers span, _, _, _, h => by
      cases h
      rfl

theorem checkAll_erase :
    ∀ (ds : List (Declaration Expr)) {scope : Scope} {owner : Option Ty}
      {checked : List (Declaration TypedExpr)},
      scope.checkAll owner ds = (checked, []) →
        Declaration.mapAll TypedExpr.erase checked = ds
  | [], _, _, _, h => by
      cases h
      rfl
  | d :: ds, _, _, _, h => by
      obtain ⟨first, rest, hfirst, hrest, rfl⟩ := checkAll_cons_eq.1 h
      have hd := checkDeclaration_erase d hfirst
      rw [Declaration.erase] at hd
      rw [Declaration.mapAll, hd, checkAll_erase ds hrest]

end

/-! ## Checking honours the declared types -/

mutual

/-- The declared types of a declaration are on its checked form, at every depth: an annotated
value has the type that its annotation denotes in the scope, and a body has the type of the
result.  The members of a type are checked in the scope of its body. -/
inductive Honours : Scope → Declaration Expr → Declaration TypedExpr → Prop where
  | binding {scope : Scope} {b : Binding Expr Expr} {checked : Binding Expr TypedExpr}
      (value : ∀ a e, b.ascription = some a → b.value = some e →
        ∃ typed, checked.value = some typed ∧ scope.annotationTy a = .ok typed.ty) :
      Honours scope (.binding b) (.binding checked)
  | function {scope : Scope} {f : Function Expr} {checked : Function TypedExpr}
      (body : ∀ e, f.body = some e →
        ∃ typed, checked.body = some typed ∧ scope.resultTy f = .ok typed.ty) :
      Honours scope (.function f) (.function checked)
  | type {scope inner : Scope} {kind : TypeKind} {name : String} {modifiers : List Modifier}
      {members : List (Declaration Expr)} {checked : List (Declaration TypedExpr)}
      {span : Span} (entered : scope.typeScope (scope.qualify name) = some inner)
      (inside : HonoursAll inner members checked) :
      Honours scope (.type kind name modifiers members span)
        (.type kind name modifiers checked span)
  | enumCase {scope : Scope} {name : String} {modifiers : List Modifier} {values : List Expr}
      {span : Span} :
      Honours scope (.enumCase name modifiers values span)
        (.enumCase name modifiers values span)
  | trait {scope : Scope} {name : String} {modifiers : List Modifier} {span : Span} :
      Honours scope (.trait name modifiers span) (.trait name modifiers span)

/-- `Honours` on a list of declarations. -/
inductive HonoursAll :
    Scope → List (Declaration Expr) → List (Declaration TypedExpr) → Prop where
  | nil {scope : Scope} :
      HonoursAll scope [] []
  | cons {scope : Scope} {d : Declaration Expr} {checked : Declaration TypedExpr}
      {ds : List (Declaration Expr)} {rest : List (Declaration TypedExpr)}
      (first : Honours scope d checked) (others : HonoursAll scope ds rest) :
      HonoursAll scope (d :: ds) (checked :: rest)

end

theorem honours_of_checkBinding
    {b : Binding Expr Expr} {checked : Binding Expr TypedExpr}
    (h : scope.checkBinding b = .ok checked) :
    Honours scope (.binding b) (.binding checked) := by
  refine .binding ?_
  intro a value hascription hvalue
  obtain ⟨typed, -, hty, rfl⟩ := erase_and_ty_of_checkBinding hascription hvalue h
  exact ⟨typed, rfl, hty⟩

theorem honours_of_checkFunction
    {receiver : Option Ty} {f : Function Expr} {checked : Function TypedExpr}
    (h : scope.checkFunction receiver f = .ok checked) :
    Honours scope (.function f) (.function checked) := by
  refine .function ?_
  intro body hbody
  obtain ⟨typed, -, hty, rfl⟩ := erase_and_ty_of_checkFunction hbody h
  exact ⟨typed, rfl, hty⟩

mutual

theorem honours_of_checkDeclaration :
    ∀ (d : Declaration Expr) {scope : Scope} {owner : Option Ty}
      {checked : Declaration TypedExpr},
      scope.checkDeclaration owner d = (checked, []) → Honours scope d checked
  | .binding b, _, _, _, h => by
      obtain ⟨typed, htyped, rfl⟩ := checkDeclaration_binding_eq.1 h
      exact honours_of_checkBinding htyped
  | .function f, _, _, _, h => by
      obtain ⟨typed, htyped, rfl⟩ := checkDeclaration_function_eq.1 h
      exact honours_of_checkFunction htyped
  | .type kind name modifiers members span, _, _, _, h => by
      obtain ⟨body, typed, hbody, hmembers, rfl⟩ := checkDeclaration_type_eq.1 h
      exact .type hbody (honoursAll_of_checkAll members hmembers)
  | .enumCase name modifiers values span, _, _, _, h => by
      cases h
      exact .enumCase
  | .trait name modifiers span, _, _, _, h => by
      cases h
      exact .trait

theorem honoursAll_of_checkAll :
    ∀ (ds : List (Declaration Expr)) {scope : Scope} {owner : Option Ty}
      {checked : List (Declaration TypedExpr)},
      scope.checkAll owner ds = (checked, []) → HonoursAll scope ds checked
  | [], _, _, _, h => by
      cases h
      exact .nil
  | d :: ds, _, _, _, h => by
      obtain ⟨first, rest, hfirst, hrest, rfl⟩ := checkAll_cons_eq.1 h
      exact .cons (honours_of_checkDeclaration d hfirst) (honoursAll_of_checkAll ds hrest)

end

end Scope

theorem Declaration.mapAll_eq_map {ε δ : Type} (f : ε → δ) (ds : List (Declaration ε)) :
    mapAll f ds = ds.map (map f) := by
  induction ds with
  | nil => rfl
  | cons d ds ih => rw [mapAll, ih, List.map_cons]

/-! ## Modules -/

/-- A module that passes its check is, without the types, the module that was given. -/
theorem checkModule_erase
    {options : Options} {ds : List (Declaration Expr)} {m : TypedModule}
    (h : checkModule options ds = .ok m) :
    m.declarations.map Declaration.erase = ds := by
  obtain ⟨-, hcheck⟩ := checkModule_eq_ok.1 h
  rw [Declaration.erase, ← Declaration.mapAll_eq_map]
  exact Scope.checkAll_erase ds hcheck

/-- In a module that passes its check, every body and every annotated value has its declared
type. -/
theorem checkModule_honours
    {options : Options} {ds : List (Declaration Expr)} {m : TypedModule}
    (h : checkModule options ds = .ok m) :
    Scope.HonoursAll m.scope ds m.declarations := by
  obtain ⟨-, hcheck⟩ := checkModule_eq_ok.1 h
  exact Scope.honoursAll_of_checkAll ds hcheck

open Scope

/-- The body that reads the field, with its types. -/
def readCountTyped : TypedExpr :=
  .block [.expr (.member (.ident "self" default (.named "Counter")) (.named "count") default
    .int)] default .int

def counterChecked : List (Declaration TypedExpr) :=
  counter (.literal (.int 0) default .int) readCountTyped

theorem checkModule_counterModule :
    checkModule .standard counterModule = .ok ⟨counterChecked, counterScope⟩ := by
  have hstart : counterBody.checkBinding (counterStart (.literal (.int 0) default)) =
      .ok (counterStart (.literal (.int 0) default .int)) := by
    simp only [checkBinding, counterStart, except_bind_eq_ok]
    exact ⟨_, complete_of_completeWithin (n := 2) (by cbv), rfl⟩
  have hbound : counterBody.bindParams (selfBinding (some (.named "Counter")))
      (counterNext readCount).params =
        .ok [("self", .mono (.named "Counter")), ("step", .mono (.named "Counter.Step"))] := by
    cbv
  have hnext : counterBody.checkFunction (some (.named "Counter")) (counterNext readCount) =
      .ok (counterNext readCountTyped) := by
    refine (checkFunction_eq_ok rfl).2 ⟨_, .int, _, hbound, by cbv, ?_, rfl⟩
    exact complete_of_completeWithin (n := 2) (by cbv)
  have hstep : counterBody.checkDeclaration (some (.named "Counter")) counterStep =
      (counterStep, []) := by cbv
  refine checkModule_eq_ok.2 ⟨build_counterModule, ?_⟩
  refine checkAll_cons_eq.2 ⟨_, _, checkDeclaration_type_eq.2
    ⟨counterBody, _, typeScope_counterScope, ?_, rfl⟩, rfl, rfl⟩
  refine checkAll_cons_eq.2 ⟨_, _, checkDeclaration_binding_eq.2 ⟨_, rfl, rfl⟩, ?_, rfl⟩
  refine checkAll_cons_eq.2 ⟨_, _, hstep, ?_, rfl⟩
  refine checkAll_cons_eq.2 ⟨_, _, checkDeclaration_binding_eq.2 ⟨_, hstart, rfl⟩, ?_, rfl⟩
  exact checkAll_cons_eq.2 ⟨_, _, checkDeclaration_function_eq.2 ⟨_, hnext, rfl⟩, rfl, rfl⟩

theorem checkModule_erase_counterModule :
    checkModule .standard counterModule = .ok ⟨counterChecked, counterScope⟩ ∧
      counterChecked.map Declaration.erase = counterModule :=
  ⟨checkModule_counterModule, checkModule_erase checkModule_counterModule⟩

theorem checkModule_honours_counterModule :
    checkModule .standard counterModule = .ok ⟨counterChecked, counterScope⟩ ∧
      HonoursAll counterScope counterModule counterChecked :=
  ⟨checkModule_counterModule, checkModule_honours checkModule_counterModule⟩

end Ascribe
