import Ascribe.Inference

/-!
# Declaring

`Scope.insert` adds a declaration to the innermost frame of a scope.  A type is first added
without members, so that the declarations in its body may mention it, and gets its table
when the body has been read.  The types in the body are read before the other members,
which may mention them in any order.

The scope is kept when a declaration fails.  A type whose body fails stays in the scope
without members.
-/

namespace Ascribe

/-- Steps that declare: they may fail and keep the scope when they do. -/
abbrev Declare :=
  EStateM TypeError Scope

namespace Scope

def bindingEntry (scope : Scope) (b : Binding Expr Expr) : Except TypeError Entry :=
  match b.ascription, b.value with
  | some ascription, value => do
      let t ← scope.annotationTy ascription
      return .binding value (.mono t)
  | none, some value => do
      let typed ← scope.annotate value
      return .binding (some value) (.generalize typed.ty)
  | none, none => .error ⟨.unannotated b.name, b.span⟩

/-- The types that a list of annotations denotes. -/
def annotationTys (scope : Scope) : List Expr → Except TypeError (List Ty)
  | [] => .ok []
  | ascription :: rest => do
      let t ← scope.annotationTy ascription
      let ts ← annotationTys scope rest
      return t :: ts

/-- The declared type of the result of a function, which is the unit type when there is no
annotation. -/
def resultTy (scope : Scope) (f : Function Expr) : Except TypeError Ty :=
  match f.result with
  | some ascription => scope.annotationTy ascription
  | none => .ok .unit

def functionEntry (scope : Scope) (f : Function Expr) : Except TypeError Entry := do
  let params ← scope.annotationTys (f.params.map Parameter.ascription)
  let result ← scope.resultTy f
  return .function (f.params.map Parameter.name) f.body (.mono (.arrow params result))

/-- The table of a type under construction. -/
structure Draft where
  members : Members Definition
  cases : Table (List Ty)

/-- Add a case to the table of an enum, in the scope of its body. -/
def draftCase (scope : Scope) (self : Ty) (draft : Draft) (name : String) (values : List Expr)
    (span : Span) : Except TypeError Draft := do
  let associated ← scope.annotationTys values
  let t := if associated.isEmpty then self else .arrow associated self
  let members ← draft.members.declare name (.signature (.mono t)) true span
  return ⟨members, draft.cases.add name associated⟩

/-- Add a member that is not a type to the table of a type, in the scope of its body. -/
def draftMember (scope : Scope) (kind : TypeKind) (self : Ty) (draft : Draft) :
    Declaration Expr → Except TypeError Draft
  | .binding b => do
      let entry ← scope.bindingEntry b
      let members ← draft.members.declare b.name entry (b.modifiers.contains .static) b.span
      return { draft with members := members }
  | .function f => do
      let entry ← scope.functionEntry f
      let members ← draft.members.declare f.name entry (f.modifiers.contains .static) f.span
      return { draft with members := members }
  | .enumCase name modifiers values span =>
      match kind with
      | .struct => .error ⟨.caseOutsideEnum name, span⟩
      | .enum =>
          if modifiers.isEmpty then draftCase scope self draft name values span
          else .error ⟨.caseModifier name, span⟩
  | .type .. => .ok draft
  | .trait .. => .ok draft

/-- Add the members that are not types to the table of a type. -/
def draftMembers (scope : Scope) (kind : TypeKind) (self : Ty) (draft : Draft) :
    List (Declaration Expr) → Except TypeError Draft
  | [] => .ok draft
  | d :: rest => do
      let draft ← draftMember scope kind self draft d
      draftMembers scope kind self draft rest

/-- The finished table of a type, given the types declared in its body. -/
def Draft.finish (draft : Draft) (kind : TypeKind) (types : Table Definition) : Definition :=
  let members := { draft.members with types := types }
  match kind with
  | .struct => .struct members
  | .enum => .enum members draft.cases

/-- Add a value to the innermost frame. -/
def addValue (name : String) (entry : Entry) (span : Span) : Declare Unit := fun scope =>
  match scope.frame.values.declare name entry span with
  | .ok values => .ok () { scope with frame := { scope.frame with values := values } }
  | .error e => .error e scope

/-- Add a type to the innermost frame. -/
def addType (name : String) (d : Definition) (span : Span) : Declare Unit := fun scope =>
  match scope.frame.types.declare name d span with
  | .ok types => .ok () { scope with frame := { scope.frame with types := types } }
  | .error e => .error e scope

/-- Overwrite the table of a type of the innermost frame. -/
def setType (name : String) (d : Definition) : Declare Unit := fun scope =>
  .ok () { scope with frame := { scope.frame with types := scope.frame.types.set name d } }

/-- What the scope gives for a function of it that may fail. -/
def asks {α : Type} (f : Scope → Except TypeError α) : Declare α := fun scope =>
  match f scope with
  | .ok a => .ok a scope
  | .error e => .error e scope

/-- The table of a type, given how the types in its body are declared. -/
def define (scope : Scope) (kind : TypeKind) (name : String) (members : List (Declaration Expr))
    (declareTypes : Declare Unit) : Except TypeError Definition :=
  let qualified := scope.qualify name
  match declareTypes (scope.enter (some qualified)) with
  | .error e _ => .error e
  | .ok () body => do
      let draft ← draftMembers body kind (.named qualified) ⟨.empty, []⟩ members
      return draft.finish kind body.frame.types

mutual

/-- Add a declaration to the innermost frame. -/
def insert : Declaration Expr → Declare Unit
  | .binding b => do
      let entry ← asks fun scope => scope.bindingEntry b
      addValue b.name entry b.span
  | .function f => do
      let entry ← asks fun scope => scope.functionEntry f
      addValue f.name entry f.span
  | .type kind name _ members span => do
      addType name (.empty kind) span
      let d ← asks fun scope => scope.define kind name members (insertTypes members)
      setType name d
  | .enumCase name _ _ span => throw ⟨.caseOutsideEnum name, span⟩
  | .trait .. => return ()

/-- Add the type declarations of a list to the innermost frame. -/
def insertTypes : List (Declaration Expr) → Declare Unit
  | [] => return ()
  | d :: rest => do
      if d.isType then insert d
      insertTypes rest

end

/-- Add the declarations of a list to the innermost frame, in order. -/
def insertAll : List (Declaration Expr) → Declare Unit
  | [] => return ()
  | d :: rest => do
      insert d
      insertAll rest

/-- Add a name of which only the scheme is known to the innermost frame. -/
def insertScheme (name : String) (scheme : Scheme) : Declare Unit :=
  addValue name (.signature scheme) .blank

/-- The scope of a module. -/
def build (options : Options) (declarations : List (Declaration Expr)) :
    Except TypeError Scope :=
  match insertAll declarations (.empty options) with
  | .ok () scope => .ok scope
  | .error e _ => .error e

end Scope

end Ascribe
