import Ascribe.Expr.Basic
import Ascribe.Table

/-!
# Replacing names in expressions

`substitute` replaces the free occurrences of names by expressions, all at once.  The
parameters of a closure shadow the replaced names in its body, and a local name of a
block shadows them in the items after it, but not in its own value.  Annotations are
left alone.

Replacement does not rename: a name that is free in a replacing expression may be
captured by a closure or block around the place where it is put.
-/

namespace Ascribe

/-- Names with the expressions that replace them. -/
abbrev Replacements :=
  Table Expr

/-- Replacements from a list of names and expressions, where the last entry of a name
counts. -/
def Replacements.ofList (pairs : List (String × Expr)) : Replacements :=
  pairs.reverse

namespace Expr

mutual

/-- Replace the free occurrences of names, all at once. -/
def substitute (r : Replacements) : Expr → Expr
  | .literal value span => .literal value span
  | .ident name span => (r.find? name).getD (.ident name span)
  | .closure params body span =>
      .closure params (body.substitute (r.without (params.map Param.name))) span
  | .app fn args span => .app (fn.substitute r) (substituteAll r args) span
  | .cond condition thenBranch none span =>
      .cond (condition.substitute r) (thenBranch.substitute r) none span
  | .cond condition thenBranch (some elseBranch) span =>
      .cond (condition.substitute r) (thenBranch.substitute r)
        (some (elseBranch.substitute r)) span
  | .member base selector span => .member (base.substitute r) selector span
  | .tuple elems span => .tuple (substituteAll r elems) span
  | .structLit type fields span => .structLit type (substituteFields r fields) span
  | .tycon name args span => .tycon name (substituteAll r args) span
  | .arrow params result span => .arrow (substituteAll r params) (result.substitute r) span
  | .block items span => .block (substituteItems r items) span
termination_by structural e => e

def substituteAll (r : Replacements) : List Expr → List Expr
  | [] => []
  | e :: es => e.substitute r :: substituteAll r es
termination_by structural es => es

def substituteFields (r : Replacements) : List (String × Expr) → List (String × Expr)
  | [] => []
  | (name, value) :: rest => (name, value.substitute r) :: substituteFields r rest
termination_by structural fs => fs

/-- Replace names in block items, each local name shadowing in the items after it. -/
def substituteItems (r : Replacements) : List (Item Expr Expr) → List (Item Expr Expr)
  | [] => []
  | .binding ⟨name, modifiers, ascription, none, span⟩ :: rest =>
      .binding ⟨name, modifiers, ascription, none, span⟩ ::
        substituteItems (r.without [name]) rest
  | .binding ⟨name, modifiers, ascription, some value, span⟩ :: rest =>
      .binding ⟨name, modifiers, ascription, some (value.substitute r), span⟩ ::
        substituteItems (r.without [name]) rest
  | .expr e :: rest => .expr (e.substitute r) :: substituteItems r rest
termination_by structural items => items

end

end Expr

end Ascribe
