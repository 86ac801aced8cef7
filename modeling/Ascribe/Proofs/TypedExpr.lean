import Ascribe.TypedExpr
import Ascribe.Proofs.Substitution

/-!
# Changing and forgetting the types of a tree

Changing the types of a typed expression leaves the expression under them as it is, two
changes in turn are one change, and an expression with the same type on every node has
that type changed on every node.
-/

namespace Ascribe

theorem Literal.vars_ty (value : Literal) :
    value.ty.vars = [] := by
  cases value with
  | int | float | bool | string => rfl

namespace TypedExpr

mutual

@[simp]
theorem erase_mapTy (f : Ty → Ty) : ∀ e : TypedExpr, (e.mapTy f).erase = e.erase
  | .literal .. | .ident .. => rfl
  | .closure params body span ty => by simp only [mapTy, erase, erase_mapTy f body]
  | .app fn args span ty => by
      simp only [mapTy, erase, erase_mapTy f fn, eraseAll_mapTyAll f args]
  | .cond condition thenBranch none span ty => by
      simp only [mapTy, erase, erase_mapTy f condition, erase_mapTy f thenBranch]
  | .cond condition thenBranch (some elseBranch) span ty => by
      simp only [mapTy, erase, erase_mapTy f condition, erase_mapTy f thenBranch,
        erase_mapTy f elseBranch]
  | .member base selector span ty => by simp only [mapTy, erase, erase_mapTy f base]
  | .tuple elems span ty => by simp only [mapTy, erase, eraseAll_mapTyAll f elems]
  | .structLit type fields span ty => by
      simp only [mapTy, erase, eraseFields_mapTyFields f fields]
  | .tycon name args span ty => by simp only [mapTy, erase, eraseAll_mapTyAll f args]
  | .arrow params result span ty => by
      simp only [mapTy, erase, eraseAll_mapTyAll f params, erase_mapTy f result]
  | .block items span ty => by simp only [mapTy, erase, eraseItems_mapTyItems f items]

theorem eraseAll_mapTyAll (f : Ty → Ty) :
    ∀ es : List TypedExpr, eraseAll (mapTyAll f es) = eraseAll es
  | [] => rfl
  | e :: es => by simp only [mapTyAll, eraseAll, erase_mapTy f e, eraseAll_mapTyAll f es]

theorem eraseFields_mapTyFields (f : Ty → Ty) :
    ∀ fields : List (String × TypedExpr),
      eraseFields (mapTyFields f fields) = eraseFields fields
  | [] => rfl
  | (name, value) :: rest => by
      simp only [mapTyFields, eraseFields, erase_mapTy f value, eraseFields_mapTyFields f rest]

theorem eraseItems_mapTyItems (f : Ty → Ty) :
    ∀ items : List (Item Expr TypedExpr), eraseItems (mapTyItems f items) = eraseItems items
  | [] => rfl
  | .expr e :: rest => by
      simp only [mapTyItems, eraseItems, erase_mapTy f e, eraseItems_mapTyItems f rest]
  | .binding ⟨name, modifiers, ascription, none, span⟩ :: rest => by
      simp only [mapTyItems, eraseItems, eraseItems_mapTyItems f rest]
  | .binding ⟨name, modifiers, ascription, some value, span⟩ :: rest => by
      simp only [mapTyItems, eraseItems, erase_mapTy f value, eraseItems_mapTyItems f rest]

end

mutual

theorem mapTy_mapTy (f g : Ty → Ty) :
    ∀ e : TypedExpr, (e.mapTy g).mapTy f = e.mapTy fun t => f (g t)
  | .literal .. | .ident .. => rfl
  | .closure params body span ty => by simp only [mapTy, mapTy_mapTy f g body]
  | .app fn args span ty => by
      simp only [mapTy, mapTy_mapTy f g fn, mapTyAll_mapTyAll f g args]
  | .cond condition thenBranch none span ty => by
      simp only [mapTy, mapTy_mapTy f g condition, mapTy_mapTy f g thenBranch]
  | .cond condition thenBranch (some elseBranch) span ty => by
      simp only [mapTy, mapTy_mapTy f g condition, mapTy_mapTy f g thenBranch,
        mapTy_mapTy f g elseBranch]
  | .member base selector span ty => by simp only [mapTy, mapTy_mapTy f g base]
  | .tuple elems span ty => by simp only [mapTy, mapTyAll_mapTyAll f g elems]
  | .structLit type fields span ty => by
      simp only [mapTy, mapTyFields_mapTyFields f g fields]
  | .tycon name args span ty => by simp only [mapTy, mapTyAll_mapTyAll f g args]
  | .arrow params result span ty => by
      simp only [mapTy, mapTyAll_mapTyAll f g params, mapTy_mapTy f g result]
  | .block items span ty => by simp only [mapTy, mapTyItems_mapTyItems f g items]

theorem mapTyAll_mapTyAll (f g : Ty → Ty) :
    ∀ es : List TypedExpr, mapTyAll f (mapTyAll g es) = mapTyAll (fun t => f (g t)) es
  | [] => rfl
  | e :: es => by simp only [mapTyAll, mapTy_mapTy f g e, mapTyAll_mapTyAll f g es]

theorem mapTyFields_mapTyFields (f g : Ty → Ty) :
    ∀ fields : List (String × TypedExpr),
      mapTyFields f (mapTyFields g fields) = mapTyFields (fun t => f (g t)) fields
  | [] => rfl
  | (name, value) :: rest => by
      simp only [mapTyFields, mapTy_mapTy f g value, mapTyFields_mapTyFields f g rest]

theorem mapTyItems_mapTyItems (f g : Ty → Ty) :
    ∀ items : List (Item Expr TypedExpr),
      mapTyItems f (mapTyItems g items) = mapTyItems (fun t => f (g t)) items
  | [] => rfl
  | .expr e :: rest => by
      simp only [mapTyItems, mapTy_mapTy f g e, mapTyItems_mapTyItems f g rest]
  | .binding ⟨name, modifiers, ascription, none, span⟩ :: rest => by
      simp only [mapTyItems, mapTyItems_mapTyItems f g rest]
  | .binding ⟨name, modifiers, ascription, some value, span⟩ :: rest => by
      simp only [mapTyItems, mapTy_mapTy f g value, mapTyItems_mapTyItems f g rest]

end

@[simp]
theorem erase_apply (s : Subst) (e : TypedExpr) :
    (e.apply s).erase = e.erase :=
  erase_mapTy s.apply e

@[simp]
theorem ty_apply (s : Subst) (e : TypedExpr) :
    (e.apply s).ty = s.apply e.ty :=
  ty_mapTy s.apply e

theorem mapTyFields_eq_map (f : Ty → Ty) (fields : List (String × TypedExpr)) :
    mapTyFields f fields = fields.map fun field => (field.1, field.2.mapTy f) := by
  induction fields with
  | nil => rfl
  | cons field fields ih => simp [mapTyFields, ih]

section Apply

variable (s : Subst)

theorem apply_literal (value : Literal) (span : Span) :
    (literal value span value.ty).apply s = .literal value span value.ty := by
  rw [apply, mapTy, Subst.apply_of_vars_eq_nil value.vars_ty]

theorem apply_closure (params : List (Param Expr)) (body : TypedExpr) (span : Span) (t : Ty) :
    (closure params body span t).apply s =
      .closure params (body.apply s) span (s.apply t) :=
  rfl

theorem apply_app (fn : TypedExpr) (args : List TypedExpr) (span : Span) (t : Ty) :
    (app fn args span t).apply s =
      .app (fn.apply s) (args.map (apply s)) span (s.apply t) := by
  rw [apply, mapTy, mapTyAll_eq_map]
  rfl

theorem apply_condThen (condition thenBranch : TypedExpr) (span : Span) (t : Ty) :
    (cond condition thenBranch none span t).apply s =
      .cond (condition.apply s) (thenBranch.apply s) none span (s.apply t) :=
  rfl

theorem apply_condElse (condition thenBranch elseBranch : TypedExpr) (span : Span) (t : Ty) :
    (cond condition thenBranch (some elseBranch) span t).apply s =
      .cond (condition.apply s) (thenBranch.apply s) (some (elseBranch.apply s)) span
        (s.apply t) :=
  rfl

theorem apply_member (base : TypedExpr) (selector : Selector) (span : Span) (t : Ty) :
    (member base selector span t).apply s =
      .member (base.apply s) selector span (s.apply t) :=
  rfl

theorem apply_tuple (elems : List TypedExpr) (span : Span) (t : Ty) :
    (tuple elems span t).apply s = .tuple (elems.map (apply s)) span (s.apply t) := by
  rw [apply, mapTy, mapTyAll_eq_map]
  rfl

theorem apply_structLit
    (type : String) (fields : List (String × TypedExpr)) (span : Span) (t : Ty) :
    (structLit type fields span t).apply s =
      .structLit type (fields.map fun field => (field.1, field.2.apply s)) span
        (s.apply t) := by
  rw [apply, mapTy, mapTyFields_eq_map]
  rfl

end Apply

/-- What absorbs a substitution gives the same tree after it. -/
theorem apply_apply_of_absorbs {s u : Subst} (h : s.Absorbs u) (e : TypedExpr) :
    (e.apply u).apply s = e.apply s := by
  rw [apply, apply, mapTy_mapTy]
  exact congrArg (e.mapTy ·) (funext h)

end TypedExpr

namespace Expr

mutual

@[simp]
theorem erase_ascribe (t : Ty) : ∀ e : Expr, (e.ascribe t).erase = e
  | .literal .. | .ident .. => rfl
  | .closure params body span => by
      simp only [ascribe, TypedExpr.erase, erase_ascribe t body]
  | .app fn args span => by
      simp only [ascribe, TypedExpr.erase, erase_ascribe t fn, eraseAll_ascribeAll t args]
  | .cond condition thenBranch none span => by
      simp only [ascribe, TypedExpr.erase, erase_ascribe t condition,
        erase_ascribe t thenBranch]
  | .cond condition thenBranch (some elseBranch) span => by
      simp only [ascribe, TypedExpr.erase, erase_ascribe t condition,
        erase_ascribe t thenBranch, erase_ascribe t elseBranch]
  | .member base selector span => by
      simp only [ascribe, TypedExpr.erase, erase_ascribe t base]
  | .tuple elems span => by
      simp only [ascribe, TypedExpr.erase, eraseAll_ascribeAll t elems]
  | .structLit type fields span => by
      simp only [ascribe, TypedExpr.erase, eraseFields_ascribeFields t fields]
  | .tycon name args span => by
      simp only [ascribe, TypedExpr.erase, eraseAll_ascribeAll t args]
  | .arrow params result span => by
      simp only [ascribe, TypedExpr.erase, eraseAll_ascribeAll t params,
        erase_ascribe t result]
  | .block items span => by
      simp only [ascribe, TypedExpr.erase, eraseItems_ascribeItems t items]

theorem eraseAll_ascribeAll (t : Ty) :
    ∀ es : List Expr, TypedExpr.eraseAll (ascribeAll t es) = es
  | [] => rfl
  | e :: es => by
      simp only [ascribeAll, TypedExpr.eraseAll, erase_ascribe t e, eraseAll_ascribeAll t es]

theorem eraseFields_ascribeFields (t : Ty) :
    ∀ fields : List (String × Expr), TypedExpr.eraseFields (ascribeFields t fields) = fields
  | [] => rfl
  | (name, value) :: rest => by
      simp only [ascribeFields, TypedExpr.eraseFields, erase_ascribe t value,
        eraseFields_ascribeFields t rest]

theorem eraseItems_ascribeItems (t : Ty) :
    ∀ items : List (Item Expr Expr), TypedExpr.eraseItems (ascribeItems t items) = items
  | [] => rfl
  | .expr e :: rest => by
      simp only [ascribeItems, TypedExpr.eraseItems, erase_ascribe t e,
        eraseItems_ascribeItems t rest]
  | .binding ⟨name, modifiers, ascription, none, span⟩ :: rest => by
      simp only [ascribeItems, TypedExpr.eraseItems, eraseItems_ascribeItems t rest]
  | .binding ⟨name, modifiers, ascription, some value, span⟩ :: rest => by
      simp only [ascribeItems, TypedExpr.eraseItems, erase_ascribe t value,
        eraseItems_ascribeItems t rest]

end

mutual

@[simp]
theorem mapTy_ascribe (f : Ty → Ty) (t : Ty) :
    ∀ e : Expr, (e.ascribe t).mapTy f = e.ascribe (f t)
  | .literal .. | .ident .. => rfl
  | .closure params body span => by
      simp only [ascribe, TypedExpr.mapTy, mapTy_ascribe f t body]
  | .app fn args span => by
      simp only [ascribe, TypedExpr.mapTy, mapTy_ascribe f t fn, mapTyAll_ascribeAll f t args]
  | .cond condition thenBranch none span => by
      simp only [ascribe, TypedExpr.mapTy, mapTy_ascribe f t condition,
        mapTy_ascribe f t thenBranch]
  | .cond condition thenBranch (some elseBranch) span => by
      simp only [ascribe, TypedExpr.mapTy, mapTy_ascribe f t condition,
        mapTy_ascribe f t thenBranch, mapTy_ascribe f t elseBranch]
  | .member base selector span => by
      simp only [ascribe, TypedExpr.mapTy, mapTy_ascribe f t base]
  | .tuple elems span => by
      simp only [ascribe, TypedExpr.mapTy, mapTyAll_ascribeAll f t elems]
  | .structLit type fields span => by
      simp only [ascribe, TypedExpr.mapTy, mapTyFields_ascribeFields f t fields]
  | .tycon name args span => by
      simp only [ascribe, TypedExpr.mapTy, mapTyAll_ascribeAll f t args]
  | .arrow params result span => by
      simp only [ascribe, TypedExpr.mapTy, mapTyAll_ascribeAll f t params,
        mapTy_ascribe f t result]
  | .block items span => by
      simp only [ascribe, TypedExpr.mapTy, mapTyItems_ascribeItems f t items]

theorem mapTyAll_ascribeAll (f : Ty → Ty) (t : Ty) :
    ∀ es : List Expr, TypedExpr.mapTyAll f (ascribeAll t es) = ascribeAll (f t) es
  | [] => rfl
  | e :: es => by
      simp only [ascribeAll, TypedExpr.mapTyAll, mapTy_ascribe f t e,
        mapTyAll_ascribeAll f t es]

theorem mapTyFields_ascribeFields (f : Ty → Ty) (t : Ty) :
    ∀ fields : List (String × Expr),
      TypedExpr.mapTyFields f (ascribeFields t fields) = ascribeFields (f t) fields
  | [] => rfl
  | (name, value) :: rest => by
      simp only [ascribeFields, TypedExpr.mapTyFields, mapTy_ascribe f t value,
        mapTyFields_ascribeFields f t rest]

theorem mapTyItems_ascribeItems (f : Ty → Ty) (t : Ty) :
    ∀ items : List (Item Expr Expr),
      TypedExpr.mapTyItems f (ascribeItems t items) = ascribeItems (f t) items
  | [] => rfl
  | .expr e :: rest => by
      simp only [ascribeItems, TypedExpr.mapTyItems, mapTy_ascribe f t e,
        mapTyItems_ascribeItems f t rest]
  | .binding ⟨name, modifiers, ascription, none, span⟩ :: rest => by
      simp only [ascribeItems, TypedExpr.mapTyItems, mapTyItems_ascribeItems f t rest]
  | .binding ⟨name, modifiers, ascription, some value, span⟩ :: rest => by
      simp only [ascribeItems, TypedExpr.mapTyItems, mapTy_ascribe f t value,
        mapTyItems_ascribeItems f t rest]

end

end Expr

end Ascribe
