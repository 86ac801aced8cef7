import Ascribe.Expr.Basic
import Ascribe.TypedExpr

/-!
# Declarations

A module is a list of declarations, and so is the body of a type.  The same tree
serves before and after checking: it is given the type of its values and bodies,
which is `Expr` before and `TypedExpr` after.
-/

namespace Ascribe

/-- A parameter of a function.  Callers refer to it by its label. -/
structure Parameter where
  label : Option String
  name : String
  ascription : Expr
  span : Span
  deriving Inhabited

/-- The declaration of a function.  The body is a block, and without an annotation the result is
the unit type. -/
structure Function (ε : Type) where
  name : String
  modifiers : List Modifier
  params : List Parameter
  result : Option Expr
  body : Option ε
  span : Span
  deriving Inhabited

/-- The two kinds of declared types. -/
inductive TypeKind where
  | struct
  | enum
  deriving Inhabited, DecidableEq

/-- The declarations of a module or of the body of a type.  Traits are not checked. -/
inductive Declaration (ε : Type) where
  | binding (b : Binding Expr ε)
  | function (f : Function ε)
  | type (kind : TypeKind) (name : String) (modifiers : List Modifier)
      (members : List (Declaration ε)) (span : Span)
  | enumCase (name : String) (modifiers : List Modifier) (values : List Expr) (span : Span)
  | trait (name : String) (modifiers : List Modifier) (span : Span)
  deriving Inhabited

namespace Declaration

variable {ε δ : Type}

def name : Declaration ε → String
  | .binding b => b.name
  | .function f => f.name
  | .type _ name _ _ _ => name
  | .enumCase name _ _ _ => name
  | .trait name _ _ => name

def span : Declaration ε → Span
  | .binding b => b.span
  | .function f => f.span
  | .type _ _ _ _ span => span
  | .enumCase _ _ _ span => span
  | .trait _ _ span => span

def modifiers : Declaration ε → List Modifier
  | .binding b => b.modifiers
  | .function f => f.modifiers
  | .type _ _ modifiers _ _ => modifiers
  | .enumCase _ modifiers _ _ => modifiers
  | .trait _ modifiers _ => modifiers

/-- Whether the declaration belongs to its type and not to the values of the type. -/
def isStatic (d : Declaration ε) : Bool :=
  d.modifiers.contains .static

def isType : Declaration ε → Bool
  | .type .. => true
  | _ => false

mutual

/-- The declaration with a function applied to every value and body. -/
def map (f : ε → δ) : Declaration ε → Declaration δ
  | .binding b => .binding ⟨b.name, b.modifiers, b.ascription, b.value.map f, b.span⟩
  | .function g =>
      .function ⟨g.name, g.modifiers, g.params, g.result, g.body.map f, g.span⟩
  | .type kind name modifiers members span =>
      .type kind name modifiers (mapAll f members) span
  | .enumCase name modifiers values span => .enumCase name modifiers values span
  | .trait name modifiers span => .trait name modifiers span

def mapAll (f : ε → δ) : List (Declaration ε) → List (Declaration δ)
  | [] => []
  | d :: ds => d.map f :: mapAll f ds

end

/-- The declaration without the types of its values and bodies. -/
def erase : Declaration TypedExpr → Declaration Expr :=
  map TypedExpr.erase

end Declaration

end Ascribe
