import Ascribe.Expr.Basic
import Ascribe.Ty.Subst

/-!
# Typed expressions

The tree of an expression with a type on every node.  Closure parameters and local
bindings have no type of their own, and annotations stay untyped expressions.
`TypedExpr.erase` forgets the types.
-/

namespace Ascribe

/-- An expression with a type on every node. -/
inductive TypedExpr where
  | literal (value : Literal) (span : Span) (ty : Ty)
  | ident (name : String) (span : Span) (ty : Ty)
  | closure (params : List (Param Expr)) (body : TypedExpr) (span : Span) (ty : Ty)
  | app (fn : TypedExpr) (args : List TypedExpr) (span : Span) (ty : Ty)
  | cond (condition thenBranch : TypedExpr) (elseBranch : Option TypedExpr) (span : Span)
      (ty : Ty)
  | member (base : TypedExpr) (selector : Selector) (span : Span) (ty : Ty)
  | tuple (elems : List TypedExpr) (span : Span) (ty : Ty)
  | structLit (type : String) (fields : List (String × TypedExpr)) (span : Span) (ty : Ty)
  | tycon (name : String) (args : List TypedExpr) (span : Span) (ty : Ty)
  | arrow (params : List TypedExpr) (result : TypedExpr) (span : Span) (ty : Ty)
  | block (items : List (Item Expr TypedExpr)) (span : Span) (ty : Ty)

namespace TypedExpr

instance : Inhabited TypedExpr :=
  ⟨.tuple [] .blank .unit⟩

/-- The type of the outermost node. -/
def ty : TypedExpr → Ty
  | .literal _ _ ty => ty
  | .ident _ _ ty => ty
  | .closure _ _ _ ty => ty
  | .app _ _ _ ty => ty
  | .cond _ _ _ _ ty => ty
  | .member _ _ _ ty => ty
  | .tuple _ _ ty => ty
  | .structLit _ _ _ ty => ty
  | .tycon _ _ _ ty => ty
  | .arrow _ _ _ ty => ty
  | .block _ _ ty => ty

/-! ## Forgetting the types -/

mutual

/-- The expression without its types. -/
def erase : TypedExpr → Expr
  | .literal value span _ => .literal value span
  | .ident name span _ => .ident name span
  | .closure params body span _ => .closure params body.erase span
  | .app fn args span _ => .app fn.erase (eraseAll args) span
  | .cond condition thenBranch none span _ => .cond condition.erase thenBranch.erase none span
  | .cond condition thenBranch (some elseBranch) span _ =>
      .cond condition.erase thenBranch.erase (some elseBranch.erase) span
  | .member base selector span _ => .member base.erase selector span
  | .tuple elems span _ => .tuple (eraseAll elems) span
  | .structLit type fields span _ => .structLit type (eraseFields fields) span
  | .tycon name args span _ => .tycon name (eraseAll args) span
  | .arrow params result span _ => .arrow (eraseAll params) result.erase span
  | .block items span _ => .block (eraseItems items) span

def eraseAll : List TypedExpr → List Expr
  | [] => []
  | e :: es => e.erase :: eraseAll es

def eraseFields : List (String × TypedExpr) → List (String × Expr)
  | [] => []
  | (name, value) :: rest => (name, value.erase) :: eraseFields rest

def eraseItems : List (Item Expr TypedExpr) → List (Item Expr Expr)
  | [] => []
  | .binding ⟨name, modifiers, ascription, none, span⟩ :: rest =>
      .binding ⟨name, modifiers, ascription, none, span⟩ :: eraseItems rest
  | .binding ⟨name, modifiers, ascription, some value, span⟩ :: rest =>
      .binding ⟨name, modifiers, ascription, some value.erase, span⟩ :: eraseItems rest
  | .expr e :: rest => .expr e.erase :: eraseItems rest

end

theorem eraseAll_eq_map (es : List TypedExpr) :
    eraseAll es = es.map erase := by
  induction es with
  | nil => rfl
  | cons e es ih => simp [eraseAll, ih]

/-! ## Changing the types -/

mutual

/-- The expression with a function applied to the type of every node. -/
def mapTy (f : Ty → Ty) : TypedExpr → TypedExpr
  | .literal value span ty => .literal value span (f ty)
  | .ident name span ty => .ident name span (f ty)
  | .closure params body span ty => .closure params (body.mapTy f) span (f ty)
  | .app fn args span ty => .app (fn.mapTy f) (mapTyAll f args) span (f ty)
  | .cond condition thenBranch none span ty =>
      .cond (condition.mapTy f) (thenBranch.mapTy f) none span (f ty)
  | .cond condition thenBranch (some elseBranch) span ty =>
      .cond (condition.mapTy f) (thenBranch.mapTy f) (some (elseBranch.mapTy f)) span (f ty)
  | .member base selector span ty => .member (base.mapTy f) selector span (f ty)
  | .tuple elems span ty => .tuple (mapTyAll f elems) span (f ty)
  | .structLit type fields span ty => .structLit type (mapTyFields f fields) span (f ty)
  | .tycon name args span ty => .tycon name (mapTyAll f args) span (f ty)
  | .arrow params result span ty => .arrow (mapTyAll f params) (result.mapTy f) span (f ty)
  | .block items span ty => .block (mapTyItems f items) span (f ty)

def mapTyAll (f : Ty → Ty) : List TypedExpr → List TypedExpr
  | [] => []
  | e :: es => e.mapTy f :: mapTyAll f es

def mapTyFields (f : Ty → Ty) : List (String × TypedExpr) → List (String × TypedExpr)
  | [] => []
  | (name, value) :: rest => (name, value.mapTy f) :: mapTyFields f rest

def mapTyItems (f : Ty → Ty) : List (Item Expr TypedExpr) → List (Item Expr TypedExpr)
  | [] => []
  | .binding ⟨name, modifiers, ascription, none, span⟩ :: rest =>
      .binding ⟨name, modifiers, ascription, none, span⟩ :: mapTyItems f rest
  | .binding ⟨name, modifiers, ascription, some value, span⟩ :: rest =>
      .binding ⟨name, modifiers, ascription, some (value.mapTy f), span⟩ :: mapTyItems f rest
  | .expr e :: rest => .expr (e.mapTy f) :: mapTyItems f rest

end

theorem mapTyAll_eq_map (f : Ty → Ty) (es : List TypedExpr) :
    mapTyAll f es = es.map (mapTy f) := by
  induction es with
  | nil => rfl
  | cons e es ih => simp [mapTyAll, ih]

/-- Apply a substitution to the type of every node. -/
def apply (s : Subst) (e : TypedExpr) : TypedExpr :=
  e.mapTy s.apply

@[simp]
theorem ty_mapTy (f : Ty → Ty) (e : TypedExpr) :
    (e.mapTy f).ty = f e.ty := by
  cases e with
  | cond condition thenBranch elseBranch span ty => cases elseBranch <;> rfl
  | _ => rfl

end TypedExpr

/-! ## One type for all nodes -/

namespace Expr

mutual

/-- The expression with the same type on every node. -/
def ascribe (ty : Ty) : Expr → TypedExpr
  | .literal value span => .literal value span ty
  | .ident name span => .ident name span ty
  | .closure params body span => .closure params (body.ascribe ty) span ty
  | .app fn args span => .app (fn.ascribe ty) (ascribeAll ty args) span ty
  | .cond condition thenBranch none span =>
      .cond (condition.ascribe ty) (thenBranch.ascribe ty) none span ty
  | .cond condition thenBranch (some elseBranch) span =>
      .cond (condition.ascribe ty) (thenBranch.ascribe ty) (some (elseBranch.ascribe ty)) span ty
  | .member base selector span => .member (base.ascribe ty) selector span ty
  | .tuple elems span => .tuple (ascribeAll ty elems) span ty
  | .structLit type fields span => .structLit type (ascribeFields ty fields) span ty
  | .tycon name args span => .tycon name (ascribeAll ty args) span ty
  | .arrow params result span => .arrow (ascribeAll ty params) (result.ascribe ty) span ty
  | .block items span => .block (ascribeItems ty items) span ty

def ascribeAll (ty : Ty) : List Expr → List TypedExpr
  | [] => []
  | e :: es => e.ascribe ty :: ascribeAll ty es

def ascribeFields (ty : Ty) : List (String × Expr) → List (String × TypedExpr)
  | [] => []
  | (name, value) :: rest => (name, value.ascribe ty) :: ascribeFields ty rest

def ascribeItems (ty : Ty) : List (Item Expr Expr) → List (Item Expr TypedExpr)
  | [] => []
  | .binding ⟨name, modifiers, ascription, none, span⟩ :: rest =>
      .binding ⟨name, modifiers, ascription, none, span⟩ :: ascribeItems ty rest
  | .binding ⟨name, modifiers, ascription, some value, span⟩ :: rest =>
      .binding ⟨name, modifiers, ascription, some (value.ascribe ty), span⟩ ::
        ascribeItems ty rest
  | .expr e :: rest => .expr (e.ascribe ty) :: ascribeItems ty rest

end

@[simp]
theorem ty_ascribe (ty : Ty) (e : Expr) :
    (e.ascribe ty).ty = ty := by
  cases e with
  | cond condition thenBranch elseBranch span => cases elseBranch <;> rfl
  | _ => rfl

end Expr

end Ascribe
