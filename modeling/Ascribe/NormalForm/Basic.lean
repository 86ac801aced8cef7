import Ascribe.Expr.Render
import Ascribe.Ty.Basic

/-!
# Normal forms

Evaluation at compile time ends in a normal form.  What cannot be reduced further stays
symbolic: names without a value, applications of unknown functions, selections from
unknown values, and conditionals on a name.

A normal form that is built from type names, function types and tuples alone denotes a
type (`NormalForm.toTy?`), and every normal form can be read back as an expression
(`NormalForm.quote`).
-/

namespace Ascribe

open Text

/-- The results of evaluation at compile time.  The body of a closure is not evaluated.  A
conditional on a name, an application and a member are what could not be carried out. -/
inductive NormalForm where
  | closure (params : List String) (body : Expr)
  | literal (value : Literal)
  | cond (condition : String) (thenBranch : NormalForm) (elseBranch : Option NormalForm)
  | tuple (elems : List NormalForm)
  | structLit (type : String) (fields : List (String × NormalForm))
  | tycon (name : String) (args : List NormalForm)
  | arrow (params : List NormalForm) (result : NormalForm)
  | ident (name : String)
  | app (fn : NormalForm) (args : List NormalForm)
  | member (base : NormalForm) (selector : Selector)

namespace NormalForm

/-- The empty tuple. -/
def unit : NormalForm :=
  .tuple []

instance : Inhabited NormalForm :=
  ⟨unit⟩

mutual

/-- The type that a normal form denotes, if it denotes one. -/
def toTy? : NormalForm → Option Ty
  | .tycon name args => (toTys? args).map (.con name)
  | .arrow params result =>
      match toTys? params, result.toTy? with
      | some params, some result => some (.arrow params result)
      | _, _ => none
  | .tuple elems => (toTys? elems).map .tuple
  | _ => none

/-- The types that a list of normal forms denotes, if each denotes one. -/
def toTys? : List NormalForm → Option (List Ty)
  | [] => some []
  | form :: forms =>
      match form.toTy?, toTys? forms with
      | some t, some ts => some (t :: ts)
      | _, _ => none

end

mutual

/-- The expression that reads as a normal form. -/
def quote : NormalForm → Expr
  | .closure params body =>
      .closure (params.map fun name => ⟨name, none, .blank⟩) body .blank
  | .literal value => .literal value .blank
  | .cond condition thenBranch none =>
      .cond (.ident condition .blank) thenBranch.quote none .blank
  | .cond condition thenBranch (some elseBranch) =>
      .cond (.ident condition .blank) thenBranch.quote (some elseBranch.quote) .blank
  | .tuple elems => .tuple (quoteAll elems) .blank
  | .structLit type fields => .structLit type (quoteFields fields) .blank
  | .tycon name args => .tycon name (quoteAll args) .blank
  | .arrow params result => .arrow (quoteAll params) result.quote .blank
  | .ident name => .ident name .blank
  | .app fn args => .app fn.quote (quoteAll args) .blank
  | .member base selector => .member base.quote selector .blank

def quoteAll : List NormalForm → List Expr
  | [] => []
  | form :: forms => form.quote :: quoteAll forms

def quoteFields : List (String × NormalForm) → List (String × Expr)
  | [] => []
  | (name, value) :: rest => (name, value.quote) :: quoteFields rest

end

theorem quoteAll_eq_map (forms : List NormalForm) :
    quoteAll forms = forms.map quote := by
  induction forms with
  | nil => rfl
  | cons form forms ih => simp [quoteAll, ih]

mutual

/-- The printed form of a normal form. -/
def render : NormalForm → String
  | .closure params body =>
      "\x7b " ++ commaSeparated params ++ " in " ++ body.render ++ " \x7d"
  | .literal value => value.render
  | .cond condition thenBranch none =>
      "if " ++ condition ++ " \x7b " ++ thenBranch.render ++ " \x7d"
  | .cond condition thenBranch (some elseBranch) =>
      "if " ++ condition ++ " \x7b " ++ thenBranch.render ++ " \x7d" ++ " else \x7b " ++
        elseBranch.render ++ " \x7d"
  | .tuple elems => "(" ++ commaSeparated (renderAll elems) ++ ")"
  | .structLit type fields =>
      type ++ " \x7b " ++ commaSeparated (renderFields fields) ++ " \x7d"
  | .tycon name args =>
      if args.isEmpty then name
      else name ++ "<" ++ commaSeparated (renderAll args) ++ ">"
  | .arrow params result =>
      "(" ++ commaSeparated (renderAll params) ++ ") -> " ++ result.render
  | .ident name => name
  | .app fn args => fn.render ++ "(" ++ commaSeparated (renderAll args) ++ ")"
  | .member base selector => base.render ++ "." ++ selector.render

def renderAll : List NormalForm → List String
  | [] => []
  | form :: forms => form.render :: renderAll forms

def renderFields : List (String × NormalForm) → List String
  | [] => []
  | (name, value) :: rest => (name ++ ": " ++ value.render) :: renderFields rest

end

end NormalForm

end Ascribe
