import Ascribe.Declaration.Basic
import Ascribe.Expr.Render

/-!
# Printed form of declarations

The body of a type with members opens an indented section.  A case prints without its
modifiers.
-/

namespace Ascribe

open Writer

def TypeKind.keyword : TypeKind → String
  | .struct => "struct"
  | .enum => "enum"

def Parameter.write (p : Parameter) : Writer := do
  match p.label with
  | some label =>
      emit label
      emit " "
  | none => pure ()
  emit p.name
  emit ": "
  p.ascription.write

def Function.write (f : Function Expr) : Writer := do
  writeModifiers f.modifiers
  emit "func "
  emit f.name
  emit "("
  writeList (f.params.map Parameter.write)
  emit ")"
  Expr.writeOptional " -> " f.result
  Expr.writeOptional " " f.body

namespace Declaration

mutual

def write : Declaration Expr → Writer
  | .binding b =>
      writeBinding b.modifiers b.name (Expr.writeOptional ": " b.ascription)
        (Expr.writeOptional " = " b.value)
  | .function f => f.write
  | .type kind name modifiers members _ => do
      writeModifiers modifiers
      emit kind.keyword
      emit " "
      emit name
      emit " "
      if members.isEmpty then emit "\x7b\x7d" else writeSection (writeMembers members)
  | .enumCase name _ values _ => do
      emit "case "
      emit name
      if values.isEmpty then pure ()
      else
        emit "("
        writeList (Expr.writeAll values)
        emit ")"
  | .trait name modifiers _ => do
      writeModifiers modifiers
      emit "trait "
      emit name
      emit " \x7b\x7d"
termination_by structural d => d

/-- Write the lines of the members of a type. -/
def writeMembers : List (Declaration Expr) → Writer
  | [] => pure ()
  | d :: ds => do
      writeIndent
      d.write
      newline
      writeMembers ds
termination_by structural ds => ds

end

/-- The printed form of a declaration. -/
def render (d : Declaration Expr) : String :=
  finish d.write

end Declaration

end Ascribe
