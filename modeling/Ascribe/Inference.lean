import Ascribe.Constraint.Solver
import Ascribe.Expr.Render
import Ascribe.NormalForm.Eval
import Ascribe.TypedExpr

/-!
# Inference

`infer` walks an expression once.  It gives every node a provisional type and collects the
constraints between these types; nothing is unified on the way.  The names that closures
and blocks bind are passed down, so leaving a closure or a block leaves its names behind.

The supply of fresh variables and the constraints collected so far are kept when inference
fails.
-/

namespace Ascribe

/-- What inference has used and collected so far, the constraints in order. -/
structure InferState (σ : Type) where
  supply : σ
  constraints : List Constraint

/-- Inference steps: they may fail and keep their state when they do. -/
abbrev Infer (σ : Type) :=
  EStateM TypeError (InferState σ)

/-- The names bound by the closures and blocks around a place, innermost first. -/
abbrev Locals :=
  List (Table Scheme)

def Locals.find? (locals : Locals) (name : String) : Option Scheme :=
  locals.findSome? fun frame => frame.find? name

namespace Infer

variable {σ : Type}

/-- The state before inference in a scope: fresh variables start above those of the
scope. -/
def start (scope : Scope) : InferState Supply :=
  ⟨⟨scope.nextVar⟩, []⟩

/-- The state before inference in a scope when variables are counted in a word. -/
def startCounted (scope : Scope) : InferState Counter :=
  ⟨scope.startCounter, []⟩

/-- A step that may fail but leaves the state alone. -/
def lift {α : Type} (x : Except TypeError α) : Infer σ α := fun state =>
  match x with
  | .ok a => .ok a state
  | .error e => .error e state

def fresh [VarSource σ] : Infer σ Ty := fun state =>
  let (t, supply) := VarSource.fresh state.supply
  .ok t { state with supply := supply }

/-- The type of a scheme with fresh variables in the place of its quantified ones. -/
def instantiate [VarSource σ] (scheme : Scheme) : Infer σ Ty := fun state =>
  let (t, supply) := VarSource.instantiate state.supply scheme
  .ok t { state with supply := supply }

def constrain (c : Constraint) : Infer σ Unit := fun state =>
  .ok () { state with constraints := state.constraints ++ [c] }

def fail {α : Type} (cause : Cause) (span : Span) : Infer σ α :=
  throw ⟨cause, span⟩

end Infer

namespace Scope

def isValueName (scope : Scope) (locals : Locals) (name : String) : Bool :=
  (locals.find? name).isSome || (scope.lookup name).isSome

/-- The scheme of a name in the place of a value. -/
def valueScheme (scope : Scope) (locals : Locals) (name : String) (span : Span) :
    Except TypeError Scheme :=
  match locals.find? name with
  | some scheme => .ok scheme
  | none =>
      match scope.lookup name with
      | some entry => .ok entry.scheme
      | none =>
          if (scope.resolveType name).isSome then .error ⟨.notAValue name, span⟩
          else .error ⟨.unboundName name, span⟩

/-- The qualified name of the type that an expression names, unless a value has its name. -/
def typeName? (scope : Scope) (locals : Locals) : Expr → Option String
  | .ident name _ =>
      if scope.isValueName locals name then none
      else (scope.resolveType name).map Prod.fst
  | .tycon name [] _ => (scope.resolveType name).map Prod.fst
  | .member base (.named name) _ =>
      match typeName? scope locals base with
      | none => none
      | some owner =>
          match scope.lookupType owner with
          | none => none
          | some d => if (d.nested? name).isSome then some (Name.qualified owner name) else none
  | _ => none

open Infer

variable {σ : Type} [VarSource σ]

/-- The parameters of a closure with their types, those to the left being given. -/
def inferParams (scope : Scope) (bound : Table Ty) : List (Param Expr) → Infer σ (Table Ty)
  | [] => return bound
  | p :: rest => do
      if bound.contains p.name then fail (.redeclaration p.name) p.span
      let t ←
        match p.ascription with
        | some ascription => lift (scope.annotationTy ascription)
        | none => fresh
      inferParams scope (bound.add p.name t) rest

/-- The type of a local binding, given its value with the type found for it. -/
def inferLocalTy (scope : Scope) (name : String) (ascription : Option Expr)
    (value : Option (Ty × Span)) (span : Span) : Infer σ Ty :=
  match ascription, value with
  | some ascription, none => lift (scope.annotationTy ascription)
  | some ascription, some (t, valueSpan) => do
      let annotated ← lift (scope.annotationTy ascription)
      constrain (.equal annotated t valueSpan)
      return annotated
  | none, some (t, _) => return t
  | none, none => fail (.unannotated name) span

/-- The scheme of a field of a struct literal. -/
def fieldScheme (owner : Ty) (d : Definition) (name : String) (span : Span) :
    Except TypeError Scheme :=
  match d.value? name with
  | some (.binding _ scheme) => .ok scheme
  | _ => .error ⟨.unknownMember owner (.named name), span⟩

mutual

/-- Give every node of an expression a provisional type and collect the constraints between
these types. -/
def infer (scope : Scope) (locals : Locals) : Expr → Infer σ TypedExpr
  | .literal value span => return .literal value span value.ty
  | .ident name span => do
      let scheme ← lift (scope.valueScheme locals name span)
      return .ident name span (← instantiate scheme)
  | .closure params body span => do
      let bound ← inferParams scope [] params
      let body ← infer scope (bound.map (fun p => (p.1, .mono p.2)) :: locals) body
      return .closure params body span (.arrow (bound.map Prod.snd) body.ty)
  | .app fn args span => do
      let fn ← infer scope locals fn
      let args ← inferAll scope locals args
      let result ← fresh
      constrain (.equal fn.ty (.arrow (args.map TypedExpr.ty) result) span)
      return .app fn args span result
  | .cond condition thenBranch none span => do
      let test ← infer scope locals condition
      constrain (.equal test.ty .bool condition.span)
      let thenBranch ← infer scope locals thenBranch
      constrain (.equal thenBranch.ty .unit span)
      return .cond test thenBranch none span thenBranch.ty
  | .cond condition thenBranch (some elseBranch) span => do
      let test ← infer scope locals condition
      constrain (.equal test.ty .bool condition.span)
      let thenBranch ← infer scope locals thenBranch
      let other ← infer scope locals elseBranch
      constrain (.equal thenBranch.ty other.ty elseBranch.span)
      return .cond test thenBranch (some other) span thenBranch.ty
  | .member base selector span =>
      match scope.typeName? locals base with
      | some owner => do
          let scheme ← lift (scope.staticMember (.named owner) owner selector span)
          return .member (base.ascribe (.named owner)) selector span (← instantiate scheme)
      | none => do
          let base ← infer scope locals base
          match ← lift (scope.select base.ty selector span) with
          | some scheme => return .member base selector span (← instantiate scheme)
          | none =>
              let t ← fresh
              constrain (.member ⟨base.ty, selector, t, span⟩)
              return .member base selector span t
  | .tuple elems span => do
      let elems ← inferAll scope locals elems
      return .tuple elems span (.tuple (elems.map TypedExpr.ty))
  | .structLit type fields span =>
      match scope.resolveType type with
      | none => fail (.unknownType type) span
      | some (owner, d) => do
          let fields ← inferFields scope locals (.named owner) d fields
          return .structLit type fields span (.named owner)
  | .tycon name args span => fail (.notAValue (Expr.tycon name args span).render) span
  | .arrow params result span => fail (.notAValue (Expr.arrow params result span).render) span
  | .block items span => do
      let (items, t) ← inferItems scope locals [] .unit items
      return .block items span t
termination_by structural e => e

def inferAll (scope : Scope) (locals : Locals) : List Expr → Infer σ (List TypedExpr)
  | [] => return []
  | e :: es => do
      let typed ← infer scope locals e
      let rest ← inferAll scope locals es
      return typed :: rest
termination_by structural es => es

/-- `infer` on the fields of a struct literal, given the type and its table. -/
def inferFields (scope : Scope) (locals : Locals) (owner : Ty) (d : Definition) :
    List (String × Expr) → Infer σ (List (String × TypedExpr))
  | [] => return []
  | (name, value) :: rest => do
      let typed ← infer scope locals value
      let scheme ← lift (fieldScheme owner d name value.span)
      let t ← instantiate scheme
      constrain (.equal t typed.ty value.span)
      let rest ← inferFields scope locals owner d rest
      return (name, typed) :: rest
termination_by structural fields => fields

/-- `infer` on the items of a block, given the names that the block has bound and the type
of what came before.  The second component is the type of the block. -/
def inferItems (scope : Scope) (locals : Locals) (own : Table Scheme) (last : Ty) :
    List (Item Expr Expr) → Infer σ (List (Item Expr TypedExpr) × Ty)
  | [] => return ([], last)
  | .expr e :: rest => do
      let typed ← infer scope (own :: locals) e
      let (items, t) ← inferItems scope locals own typed.ty rest
      return (.expr typed :: items, t)
  | .binding ⟨name, modifiers, ascription, none, span⟩ :: rest => do
      if own.contains name then fail (.redeclaration name) span
      let bound ← inferLocalTy scope name ascription none span
      let (items, t) ← inferItems scope locals (own.add name (.mono bound)) .unit rest
      return (.binding ⟨name, modifiers, ascription, none, span⟩ :: items, t)
  | .binding ⟨name, modifiers, ascription, some value, span⟩ :: rest => do
      if own.contains name then fail (.redeclaration name) span
      let typed ← infer scope (own :: locals) value
      let bound ← inferLocalTy scope name ascription (some (typed.ty, value.span)) span
      let (items, t) ← inferItems scope locals (own.add name (.mono bound)) .unit rest
      return (.binding ⟨name, modifiers, ascription, some typed, span⟩ :: items, t)
termination_by structural items => items

end

/-- Solve what inference has collected. -/
def solveInferred (scope : Scope) (state : InferState σ) : Except TypeError Subst :=
  (Solver.start state.constraints state.supply).solve scope scope.options.policy

/-- Run inference from a state, solve what it collected and apply the solution to every
node. -/
def completeFrom (scope : Scope) (start : InferState σ) (run : Infer σ TypedExpr) :
    Except TypeError TypedExpr :=
  match run start with
  | .error e _ => .error e
  | .ok typed state =>
      match scope.solveInferred state with
      | .error e => .error e
      | .ok s => .ok (typed.apply s)

/-- Run inference and complete it, with fresh variables above those of the scope. -/
def complete (scope : Scope) (run : Infer Supply TypedExpr) : Except TypeError TypedExpr :=
  scope.completeFrom (Infer.start scope) run

/-- The expression with a type on every node. -/
def annotate (scope : Scope) (e : Expr) : Except TypeError TypedExpr :=
  scope.complete (scope.infer [] e)

/-- `annotate` with variables counted in a word. -/
def annotateCounted (scope : Scope) (e : Expr) : Except TypeError TypedExpr :=
  scope.completeFrom (Infer.startCounted scope) (scope.infer [] e)

end Scope

end Ascribe
