import Ascribe.Declaration.Basic
import Ascribe.Error
import Ascribe.Table
import Ascribe.Ty.Scheme

/-!
# Members of types

An entry says what a name stands for: its scheme, and the value or body that evaluation
may put in its place.  The table of a type has the members of its values, the members of
the type itself and the types declared in its body.  The table of an enum lists its
cases too; every case is also a member of the type itself.
-/

namespace Ascribe

/-- What a name stands for.  A value or a body is there if evaluation may use it. -/
inductive Entry where
  | binding (value : Option Expr) (scheme : Scheme)
  | function (params : List String) (body : Option Expr) (scheme : Scheme)
  deriving Inhabited

namespace Entry

def scheme : Entry → Scheme
  | .binding _ scheme => scheme
  | .function _ _ scheme => scheme

/-- An entry of which only the scheme is known. -/
def signature (scheme : Scheme) : Entry :=
  .binding none scheme

/-- The variables that the schemes of a table mention. -/
def mentioned (table : Table Entry) : List Nat :=
  table.flatMap fun p => p.2.scheme.mentioned

end Entry

/-- The members of the values of a type, those of the type itself, and the types declared in its
body, given the type of their tables. -/
structure Members (δ : Type) where
  values : Table Entry
  statics : Table Entry
  types : List (String × δ)
  deriving Inhabited

/-- The table of a type, for an enum with the types of the associated values of its cases. -/
inductive Definition where
  | struct (members : Members Definition)
  | enum (members : Members Definition) (cases : Table (List Ty))
  deriving Inhabited

/-- Add an entry under a name that the table does not have. -/
def Table.declare {α : Type} (table : Table α) (name : String) (value : α) (span : Span) :
    Except TypeError (Table α) :=
  if table.contains name then .error ⟨.redeclaration name, span⟩
  else .ok (table.add name value)

namespace Definition

def members : Definition → Members Definition
  | .struct members => members
  | .enum members _ => members

/-- The table of a type without members. -/
def empty : TypeKind → Definition
  | .struct => .struct ⟨[], [], []⟩
  | .enum => .enum ⟨[], [], []⟩ []

/-- The entry of a member of the values of the type. -/
def value? (d : Definition) (name : String) : Option Entry :=
  d.members.values.find? name

/-- The entry of a member of the type itself. -/
def static? (d : Definition) (name : String) : Option Entry :=
  d.members.statics.find? name

/-- The table of a type declared in the body. -/
def nested? (d : Definition) (name : String) : Option Definition :=
  Table.find? d.members.types name

/-- The types of the associated values of a case. -/
def case? : Definition → String → Option (List Ty)
  | .struct _, _ => none
  | .enum _ cases, name => cases.find? name

mutual

/-- The variables that the schemes of all members mention, at every depth. -/
def mentioned : Definition → List Nat
  | .struct ⟨values, statics, types⟩ =>
      Entry.mentioned values ++ Entry.mentioned statics ++ mentionedAll types
  | .enum ⟨values, statics, types⟩ _ =>
      Entry.mentioned values ++ Entry.mentioned statics ++ mentionedAll types

def mentionedAll : List (String × Definition) → List Nat
  | [] => []
  | (_, d) :: rest => d.mentioned ++ mentionedAll rest

end

end Definition

namespace Members

/-- A table without members. -/
def empty : Members Definition :=
  ⟨[], [], []⟩

/-- Add a member.  The members of the values and of the type itself share their names. -/
def declare (members : Members Definition) (name : String) (entry : Entry) (static : Bool)
    (span : Span) : Except TypeError (Members Definition) :=
  if members.values.contains name || members.statics.contains name then
    .error ⟨.redeclaration name, span⟩
  else if static then .ok { members with statics := members.statics.add name entry }
  else .ok { members with values := members.values.add name entry }

/-- The variables that the schemes of all members mention, at every depth. -/
def mentioned (members : Members Definition) : List Nat :=
  (Definition.struct members).mentioned

end Members

end Ascribe
