import Ascribe.Scope.Insert

/-!
# Checking modules

`checkModule` builds the scope of a module and gives every value and every body a type.  A
declaration that fails does not keep the others from being checked; all errors are given
together, in the order of the declarations.

In a body of a type, a function that is not static sees the value it is called on under the
name `self`.
-/

namespace Ascribe

/-- A module with a type on every node of its values and bodies, and its scope. -/
structure TypedModule where
  declarations : List (Declaration TypedExpr)
  scope : Scope

namespace Scope

open Infer

/-- Check the value of a binding. -/
def checkBinding (scope : Scope) (b : Binding Expr Expr) :
    Except TypeError (Binding Expr TypedExpr) :=
  match b.value with
  | none => .ok ⟨b.name, b.modifiers, b.ascription, none, b.span⟩
  | some value => do
      let typed ← scope.complete do
        let typed ← scope.infer [] value
        match b.ascription with
        | none => return typed
        | some ascription =>
            let expected ← lift (scope.annotationTy ascription)
            constrain (.equal expected typed.ty value.span)
            return typed
      return ⟨b.name, b.modifiers, b.ascription, some typed, b.span⟩

/-- The names that the body of a function sees, those to the left being given. -/
def bindParams (scope : Scope) (bound : Table Scheme) :
    List Parameter → Except TypeError (Table Scheme)
  | [] => .ok bound
  | p :: rest =>
      if bound.contains p.name then .error ⟨.redeclaration p.name, p.span⟩
      else do
        let t ← scope.annotationTy p.ascription
        bindParams scope (bound.add p.name (.mono t)) rest

/-- The value on which a function is called, under the name by which the body sees it. -/
def selfBinding : Option Ty → Table Scheme
  | some receiver => [("self", .mono receiver)]
  | none => []

/-- Where a body of the wrong type is reported: at its last item. -/
def resultSpan (f : Function Expr) : Expr → Span
  | .block items _ => (items.getLast?.map Item.span).getD f.span
  | _ => f.span

/-- Check the body of a function, given the type of the value on which it is called. -/
def checkFunction (scope : Scope) (receiver : Option Ty) (f : Function Expr) :
    Except TypeError (Function TypedExpr) :=
  match f.body with
  | none => .ok ⟨f.name, f.modifiers, f.params, f.result, none, f.span⟩
  | some body => do
      let bound ← scope.bindParams (selfBinding receiver) f.params
      let declared ← scope.resultTy f
      let typed ← scope.complete do
        let typed ← scope.infer [bound] body
        constrain (.result declared typed.ty (resultSpan f body))
        return typed
      return ⟨f.name, f.modifiers, f.params, f.result, some typed, f.span⟩

mutual

/-- Check a declaration, given the type in whose body it stands.  The second component
collects the errors. -/
def checkDeclaration (scope : Scope) (owner : Option Ty) :
    Declaration Expr → Declaration TypedExpr × List TypeError
  | .binding b =>
      match scope.checkBinding b with
      | .ok typed => (.binding typed, [])
      | .error e => (.binding ⟨b.name, b.modifiers, b.ascription, none, b.span⟩, [e])
  | .function f =>
      let receiver := if f.modifiers.contains .static then none else owner
      match scope.checkFunction receiver f with
      | .ok typed => (.function typed, [])
      | .error e => (.function ⟨f.name, f.modifiers, f.params, f.result, none, f.span⟩, [e])
  | .type kind name modifiers members span =>
      let qualified := scope.qualify name
      match scope.typeScope qualified with
      | some body =>
          let (members, errors) := checkAll body (some (.named qualified)) members
          (.type kind name modifiers members span, errors)
      | none => (.type kind name modifiers [] span, [⟨.typeMissing qualified, span⟩])
  | .enumCase name modifiers values span => (.enumCase name modifiers values span, [])
  | .trait name modifiers span => (.trait name modifiers span, [])
termination_by structural d => d

def checkAll (scope : Scope) (owner : Option Ty) :
    List (Declaration Expr) → List (Declaration TypedExpr) × List TypeError
  | [] => ([], [])
  | d :: rest =>
      let (typed, errors) := checkDeclaration scope owner d
      let (others, more) := checkAll scope owner rest
      (typed :: others, errors ++ more)
termination_by structural ds => ds

end

end Scope

/-- Check a module. -/
def checkModule (options : Options) (declarations : List (Declaration Expr)) :
    Except (List TypeError) TypedModule :=
  match Scope.build options declarations with
  | .error e => .error [e]
  | .ok scope =>
      match scope.checkAll none declarations with
      | (typed, []) => .ok ⟨typed, scope⟩
      | (_, errors) => .error errors

end Ascribe
