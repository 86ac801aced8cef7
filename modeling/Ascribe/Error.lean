import Ascribe.Expr.Basic
import Ascribe.Source.Span
import Ascribe.Ty.Unify

/-!
# Type errors

A type error is a cause at a place.  `Cause.message` is the text of a cause, and
`TypeError.render` shows it at the source lines when there are any.
-/

namespace Ascribe

/-- Why a declaration or an expression has no type.  The last four are faults that well-typed
input does not reach. -/
inductive Cause where
  | redeclaration (name : String)
  | unboundName (name : String)
  | unknownType (name : String)
  | unknownMember (owner : Ty) (selector : Selector)
  | tupleIndexOutOfRange (index arity : Nat)
  | unificationFailure (expected found : Ty)
  | infiniteType (var : Nat) (ty : Ty)
  | invalidMemberTarget (ty : Ty) (selector : Selector)
  | unannotated (name : String)
  | returnTypeMismatch (expected actual : Ty)
  | caseOutsideEnum (name : String)
  | caseModifier (name : String)
  | unresolvedMember (selector : Selector)
  | notAValue (expression : String)
  | conditionNotBoolean (form : String)
  | notSelectable (selector : Selector) (form : String)
  | typeVanished (name : String)
  | typeMissing (name : String)
  deriving Inhabited

namespace Cause

def ticked (text : String) : String :=
  "`" ++ text ++ "`"

/-- The text of a fault that well-typed input does not reach. -/
def internal (text : String) : String :=
  "internal compiler error: " ++ text

def message : Cause → String
  | .redeclaration name => ticked name ++ " already exists in this scope"
  | .unboundName name => "unbound name: " ++ name
  | .unknownType name => "unknown type: " ++ name
  | .unknownMember owner selector =>
      "type " ++ owner.render ++ " has no member " ++ ticked selector.render
  | .tupleIndexOutOfRange index arity =>
      "tuple index " ++ toString index ++ " out of range for tuple of arity " ++ toString arity
  | .unificationFailure expected found =>
      "cannot unify " ++ expected.render ++ " with " ++ found.render
  | .infiniteType var ty =>
      "cannot construct infinite type: " ++ Ty.renderVar var ++ " = " ++ ty.render
  | .invalidMemberTarget ty selector =>
      "cannot access member " ++ ticked selector.render ++ " on function type " ++ ty.render
  | .unannotated name => ticked name ++ " needs a type annotation or an initial value"
  | .returnTypeMismatch expected actual =>
      "return type mismatch: expected " ++ expected.render ++ ", found " ++ actual.render
  | .caseOutsideEnum name => "enum case " ++ ticked name ++ " declared outside of an enum"
  | .caseModifier name => "enum case " ++ ticked name ++ " cannot carry access modifiers"
  | .unresolvedMember selector =>
      "cannot infer the receiver type of member " ++ ticked selector.render
  | .notAValue expression => ticked expression ++ " is a type, not a value"
  | .conditionNotBoolean form =>
      internal ("condition reduced to " ++ ticked form ++ ", expected a boolean")
  | .notSelectable selector form =>
      internal ("cannot select " ++ ticked selector.render ++ " from " ++ ticked form)
  | .typeVanished name => internal ("type " ++ ticked name ++ " vanished from the environment")
  | .typeMissing name =>
      internal ("type " ++ ticked name ++ " missing from its own environment")

end Cause

/-- A cause at a place. -/
structure TypeError where
  cause : Cause
  span : Span
  deriving Inhabited

namespace TypeError

/-- The text of a type error.  When there are source lines, it is left to `showAt` how a message is
shown at the place of the error. -/
def render (showAt : Span → String → String) (e : TypeError) : String :=
  if e.span.source.isEmpty then "Type error: " ++ e.cause.message
  else showAt e.span e.cause.message

end TypeError

/-- A unification error at a place. -/
def UnifyError.located (span : Span) : UnifyError → TypeError
  | .mismatch expected found => ⟨.unificationFailure expected found, span⟩
  | .occursCheck var ty => ⟨.infiniteType var ty, span⟩

end Ascribe
