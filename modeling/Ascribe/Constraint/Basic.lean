import Ascribe.Expr.Basic
import Ascribe.Ty.Subst

/-!
# Constraints

What must hold of the types of an expression: two types are equal, a type has a member of
some type, or the body of a function has the declared type.
-/

namespace Ascribe

/-- A receiver must have a member of the expected type. -/
structure MemberConstraint where
  receiver : Ty
  selector : Selector
  expected : Ty
  span : Span
  deriving Inhabited

/-- What must hold of the types of an expression: two types are equal, a receiver has a member, or
the body of a function has the declared type. -/
inductive Constraint where
  | equal (left right : Ty) (span : Span)
  | member (m : MemberConstraint)
  | result (expected actual : Ty) (span : Span)
  deriving Inhabited

/-- Apply a substitution to the types of a member constraint. -/
def MemberConstraint.apply (s : Subst) (m : MemberConstraint) : MemberConstraint :=
  ⟨s.apply m.receiver, m.selector, s.apply m.expected, m.span⟩

namespace Constraint

def span : Constraint → Span
  | .equal _ _ span => span
  | .member m => m.span
  | .result _ _ span => span

def apply (s : Subst) : Constraint → Constraint
  | .equal left right span => .equal (s.apply left) (s.apply right) span
  | .member m => .member (m.apply s)
  | .result expected actual span => .result (s.apply expected) (s.apply actual) span

def render : Constraint → String
  | .equal left right _ => left.render ++ " ~ " ++ right.render
  | .member m =>
      m.receiver.render ++ "." ++ m.selector.render ++ " : " ++ m.expected.render
  | .result expected actual _ => "return " ++ actual.render ++ " : " ++ expected.render

end Constraint

end Ascribe
