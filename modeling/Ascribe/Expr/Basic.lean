import Ascribe.Literal
import Ascribe.Source.Span

/-!
# Expressions

Expressions stand for values and for types alike: `Int32`, `Array<Int32>`,
`(Int32, Bool) -> String` and `Outer.Inner` are expressions, and what they denote is
found by evaluation.  Every node has a span.

The small structures `Param`, `Binding` and `Item` are shared with the typed tree.
They take the type of annotations and the type of values apart, because annotations
stay expressions in both trees.
-/

namespace Ascribe

/-- What is selected from a value: a named member, or a component of a tuple by its position
counted from zero. -/
inductive Selector where
  | named (name : String)
  | index (position : Nat)
  deriving Inhabited, DecidableEq

def Selector.render : Selector → String
  | .named name => name
  | .index position => toString position

/-- What may stand before a declaration. -/
inductive Modifier where
  | static
  | publicAccess
  | privateAccess
  deriving Inhabited, DecidableEq

def Modifier.render : Modifier → String
  | .static => "static"
  | .publicAccess => "public"
  | .privateAccess => "private"

/-- A parameter of a closure, whose annotation may be left out. -/
structure Param (α : Type) where
  name : String
  ascription : Option α
  span : Span
  deriving Inhabited

/-- The declaration of a name by an annotation, a value or both. -/
structure Binding (α ε : Type) where
  name : String
  modifiers : List Modifier
  ascription : Option α
  value : Option ε
  span : Span
  deriving Inhabited

/-- An item of a block: a local name, which is visible in the items after it, or an expression,
which is the value of the block when it comes last. -/
inductive Item (α ε : Type) where
  | binding (binding : Binding α ε)
  | expr (expr : ε)

/-- The expressions of the language. -/
inductive Expr where
  | literal (value : Literal) (span : Span)
  | ident (name : String) (span : Span)
  | closure (params : List (Param Expr)) (body : Expr) (span : Span)
  | app (fn : Expr) (args : List Expr) (span : Span)
  | cond (condition thenBranch : Expr) (elseBranch : Option Expr) (span : Span)
  | member (base : Expr) (selector : Selector) (span : Span)
  | tuple (elems : List Expr) (span : Span)
  | structLit (type : String) (fields : List (String × Expr)) (span : Span)
  | tycon (name : String) (args : List Expr) (span : Span)
  | arrow (params : List Expr) (result : Expr) (span : Span)
  | block (items : List (Item Expr Expr)) (span : Span)

namespace Expr

instance : Inhabited Expr :=
  ⟨.tuple [] .blank⟩

def span : Expr → Span
  | .literal _ span => span
  | .ident _ span => span
  | .closure _ _ span => span
  | .app _ _ span => span
  | .cond _ _ _ span => span
  | .member _ _ span => span
  | .tuple _ span => span
  | .structLit _ _ span => span
  | .tycon _ _ span => span
  | .arrow _ _ span => span
  | .block _ span => span

end Expr

def Item.span : Item Expr Expr → Span
  | .binding b => b.span
  | .expr e => e.span

end Ascribe
