import Ascribe.Expr.Basic
import Ascribe.Name
import Ascribe.Ty.Basic

/-!
# Types as annotations

A type without variables is denoted by an annotation.  A dotted name without arguments
becomes a chain of member selections; with arguments the name is kept whole.
-/

namespace Ascribe

/-- The annotation that denotes a type name. -/
def quoteName (name : String) : Expr :=
  let (first, others) := Name.segments name
  others.foldl (fun base segment => .member base (.named segment) .blank) (.ident first .blank)

namespace Ty

mutual

/-- The annotation that denotes a type, if the type has no variables. -/
def toExpr? : Ty → Option Expr
  | .con name args =>
      if args.isEmpty then some (quoteName name)
      else (toExprs? args).map fun args => .tycon name args .blank
  | .var _ => none
  | .arrow params result =>
      match toExprs? params, result.toExpr? with
      | some params, some result => some (.arrow params result .blank)
      | _, _ => none
  | .tuple elems => (toExprs? elems).map fun elems => .tuple elems .blank

/-- The annotations that denote a list of types. -/
def toExprs? : List Ty → Option (List Expr)
  | [] => some []
  | t :: ts =>
      match t.toExpr?, toExprs? ts with
      | some e, some es => some (e :: es)
      | _, _ => none

end

end Ty

end Ascribe
