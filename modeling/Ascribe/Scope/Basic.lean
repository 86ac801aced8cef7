import Ascribe.Name
import Ascribe.Scope.Members
import Ascribe.Ty.Counter

/-!
# Scopes

A scope is a chain of frames, innermost first: the body of a type in the bodies around it,
in the module, in the prelude.  A name means what the innermost frame that has it says.

A type declared in the body of a type has a dotted name.  `Scope.resolveType` finds the
first segment of a dotted name in the chain and the other segments in the tables of nested
types, and gives back the qualified name of what it found.
-/

namespace Ascribe

/-- What becomes of a member of a receiver whose type never became known: it is an error, or it is
dropped. -/
inductive MemberPolicy where
  | strict
  | permissive
  deriving Inhabited, DecidableEq

/-- The settings of checking: what becomes of members of unknown receivers, and how many definitions
may be put in place inside each other. -/
structure Options where
  policy : MemberPolicy
  depth : Nat
  deriving Inhabited, DecidableEq

/-- The settings that hold when nothing else is said. -/
def Options.standard : Options :=
  ⟨.strict, 64⟩

/-- One link of a scope.  The body of a type has the qualified name of the type as its qualifier. -/
structure Frame where
  qualifier : Option String
  values : Table Entry
  types : Table Definition
  deriving Inhabited

namespace Frame

/-- The qualified name of a type declared in the frame. -/
def qualify (frame : Frame) (name : String) : String :=
  match frame.qualifier with
  | some owner => Name.qualified owner name
  | none => name

/-- The variables that the schemes of the frame mention. -/
def mentioned (frame : Frame) : List Nat :=
  Entry.mentioned frame.values ++ Definition.mentionedAll frame.types

/-- The frame with the types that are always there, each without members. -/
def prelude : Frame :=
  { qualifier := none
    values := []
    types := ["Int32", "Float64", "Bool", "String", "Array"].map fun name =>
      (name, Definition.empty .struct) }

end Frame

/-- A chain of frames, innermost first, with the settings under which it is used. -/
structure Scope where
  frame : Frame
  outer : List Frame
  options : Options
  deriving Inhabited

namespace Scope

/-- The scope that has only the types that are always there. -/
def prelude : Scope :=
  ⟨.prelude, [], .standard⟩

/-- A new frame inside a scope. -/
def enter (scope : Scope) (qualifier : Option String) : Scope :=
  ⟨⟨qualifier, [], []⟩, scope.frame :: scope.outer, scope.options⟩

/-- The scope of a module without declarations. -/
def empty (options : Options) : Scope :=
  { prelude with options := options }.enter none

/-- The scope around the innermost frame. -/
def parent? (scope : Scope) : Option Scope :=
  match scope.outer with
  | [] => none
  | frame :: rest => some ⟨frame, rest, scope.options⟩

/-- All frames, innermost first. -/
def frames (scope : Scope) : List Frame :=
  scope.frame :: scope.outer

/-- The qualified name of a type declared in the innermost frame. -/
def qualify (scope : Scope) (name : String) : String :=
  scope.frame.qualify name

/-- The variables that the schemes of the scope mention, those that are shadowed too. -/
def mentioned (scope : Scope) : List Nat :=
  scope.frames.flatMap Frame.mentioned

/-- The first variable above all variables that the scope mentions. -/
def nextVar (scope : Scope) : Nat :=
  VarSet.ceiling scope.mentioned

/-- A counter that starts above all variables that the scope mentions. -/
def startCounter (scope : Scope) : Counter :=
  ⟨VarSet.wordCeiling scope.mentioned, [], scope.mentioned.any VarSet.isLast⟩

/-! ## Values -/

/-- What a name stands for. -/
def lookup (scope : Scope) (name : String) : Option Entry :=
  scope.frames.findSome? fun frame => frame.values.find? name

def schemeOf (scope : Scope) (name : String) (span : Span) : Except TypeError Scheme :=
  match scope.lookup name with
  | some entry => .ok entry.scheme
  | none => .error ⟨.unboundName name, span⟩

/-! ## Types -/

/-- The qualified name and the table of a type that is named without a dot. -/
def resolveHead (scope : Scope) (name : String) : Option (String × Definition) :=
  scope.frames.findSome? fun frame =>
    (frame.types.find? name).map fun d => (frame.qualify name, d)

/-- Follow segments through the tables of nested types. -/
def descend (found : String × Definition) : List String → Option (String × Definition)
  | [] => some found
  | segment :: rest =>
      match found.2.nested? segment with
      | some d => descend (Name.qualified found.1 segment, d) rest
      | none => none

/-- The qualified name and the table of a type. -/
def resolveType (scope : Scope) (name : String) : Option (String × Definition) :=
  let (first, others) := Name.segments name
  match scope.resolveHead first with
  | some found => descend found others
  | none => none

/-- The table of a type. -/
def lookupType (scope : Scope) (name : String) : Option Definition :=
  (scope.resolveType name).map Prod.snd

/-- The scope of the body of a type, in which the types of the body are in reach. -/
def typeScope (scope : Scope) (name : String) : Option Scope :=
  (scope.resolveType name).map fun found =>
    ⟨⟨some found.1, [], found.2.members.types⟩, scope.frame :: scope.outer, scope.options⟩

/-! ## Members -/

/-- The scheme of what a selector finds in the table of a type. -/
def memberOf (scope : Scope) (owner : Ty) (name : String) (selector : Selector) (span : Span)
    (find : Definition → String → Option Entry) : Except TypeError Scheme :=
  match scope.lookupType name with
  | none => .error ⟨.unknownType name, span⟩
  | some d =>
      match selector with
      | .index _ => .error ⟨.unknownMember owner selector, span⟩
      | .named member =>
          match find d member with
          | some entry => .ok entry.scheme
          | none => .error ⟨.unknownMember owner selector, span⟩

/-- The scheme of a member of the values of a type. -/
def instanceMember (scope : Scope) (owner : Ty) (name : String) (selector : Selector)
    (span : Span) : Except TypeError Scheme :=
  scope.memberOf owner name selector span Definition.value?

/-- The scheme of a member of a type itself. -/
def staticMember (scope : Scope) (owner : Ty) (name : String) (selector : Selector)
    (span : Span) : Except TypeError Scheme :=
  scope.memberOf owner name selector span Definition.static?

/-- The scheme of what is selected from a receiver, or nothing while the type of the
receiver is not known. -/
def select (scope : Scope) (receiver : Ty) (selector : Selector) (span : Span) :
    Except TypeError (Option Scheme) :=
  match receiver with
  | .var _ => .ok none
  | .con name _ =>
      match scope.instanceMember receiver name selector span with
      | .ok scheme => .ok (some scheme)
      | .error e => .error e
  | .tuple elems =>
      match selector with
      | .named _ => .error ⟨.unknownMember receiver selector, span⟩
      | .index position =>
          match elems[position]? with
          | some t => .ok (some (.mono t))
          | none => .error ⟨.tupleIndexOutOfRange position elems.length, span⟩
  | .arrow _ _ => .error ⟨.invalidMemberTarget receiver selector, span⟩

end Scope

end Ascribe
