import Ascribe.Expr.Basic
import Ascribe.Text.Formatter

/-!
# Printed form of expressions

Expressions print on one line, except that a block with items opens an indented
section.  The depth of indentation carries on into blocks inside expressions.
-/

namespace Ascribe

open Writer

/-- Write modifiers, a blank after each. -/
def writeModifiers : List Modifier → Writer
  | [] => pure ()
  | modifier :: rest => do
      emit (modifier.render ++ " ")
      writeModifiers rest

/-- Write a binding, given how its annotation with the colon and its value with the equals sign
are written. -/
def writeBinding (modifiers : List Modifier) (name : String) (ascription value : Writer) :
    Writer := do
  writeModifiers modifiers
  emit "let "
  emit name
  ascription
  value

namespace Expr

mutual

/-- Write an expression. -/
def write : Expr → Writer
  | .literal value _ => emit value.render
  | .ident name _ => emit name
  | .closure params body _ => do
      emit "\x7b "
      writeList (writeParams params)
      emit " in "
      body.write
      emit " \x7d"
  | .app fn args _ => do
      fn.write
      emit "("
      writeList (writeAll args)
      emit ")"
  | .cond condition thenBranch none _ => do
      emit "if "
      condition.write
      emit " \x7b "
      thenBranch.write
      emit " \x7d"
  | .cond condition thenBranch (some elseBranch) _ => do
      emit "if "
      condition.write
      emit " \x7b "
      thenBranch.write
      emit " \x7d"
      emit " else \x7b "
      elseBranch.write
      emit " \x7d"
  | .member base selector _ => do
      base.write
      emit "."
      emit selector.render
  | .tuple elems _ => do
      emit "("
      writeList (writeAll elems)
      emit ")"
  | .structLit type fields _ => do
      emit type
      emit " \x7b "
      writeList (writeFields fields)
      emit " \x7d"
  | .tycon name args _ =>
      if args.isEmpty then emit name
      else do
        emit name
        emit "<"
        writeList (writeAll args)
        emit ">"
  | .arrow params result _ => do
      emit "("
      writeList (writeAll params)
      emit ") -> "
      result.write
  | .block items _ =>
      if items.isEmpty then emit "\x7b\x7d" else writeSection (writeItems items)
termination_by structural e => e

def writeAll : List Expr → List Writer
  | [] => []
  | e :: es => e.write :: writeAll es
termination_by structural es => es

/-- Write an expression that may be left out, with what comes before it. -/
def writeOptional (lead : String) : Option Expr → Writer
  | none => pure ()
  | some e => do
      emit lead
      e.write
termination_by structural e => e

def writeParams : List (Param Expr) → List Writer
  | [] => []
  | ⟨name, ascription, _⟩ :: rest =>
      (do
        emit name
        writeOptional ": " ascription) :: writeParams rest
termination_by structural params => params

def writeFields : List (String × Expr) → List Writer
  | [] => []
  | (name, value) :: rest =>
      (do
        emit name
        emit ": "
        value.write) :: writeFields rest
termination_by structural fields => fields

/-- Write the lines of block items. -/
def writeItems : List (Item Expr Expr) → Writer
  | [] => pure ()
  | .binding ⟨name, modifiers, ascription, value, _⟩ :: rest => do
      writeIndent
      writeBinding modifiers name (writeOptional ": " ascription) (writeOptional " = " value)
      newline
      writeItems rest
  | .expr e :: rest => do
      writeIndent
      e.write
      newline
      writeItems rest
termination_by structural items => items

end

/-- The printed form of an expression. -/
def render (e : Expr) : String :=
  finish e.write

end Expr

end Ascribe
