import Ascribe.Expr.Weight
import Ascribe.Scope.Basic

/-!
# Evaluation at compile time

`Evaluator.eval` reduces an expression to its normal form.  The value of a binding or the
body of a function that is put in the place of its name or application is evaluated one
level deeper; at the limit, the name or application stays as it is.

Evaluation ends for every expression, whatever the scope holds.  A level of depth is spent
on each definition that is put in place, and without that the weight of the expression
drops or, at the same weight, its size: the items that follow a local binding may grow by
its value, but they do not get heavier.
-/

namespace Ascribe

/-- What evaluation found at the head of an expression: a finished form, or a definition to be
evaluated one level deeper, with the form that stands for it at the limit. -/
inductive Head where
  | done (form : NormalForm)
  | expand (body : Expr) (symbolic : NormalForm)

namespace Head

/-- The head of an entry, given the form that stands for its name. -/
def ofEntry (symbolic : NormalForm) : Entry → Head
  | .binding (some value) _ => .expand value symbolic
  | .binding none _ => .done symbolic
  | .function params (some body) _ => .done (.closure params body)
  | .function _ none _ => .done symbolic

/-- The head of the application of a form to arguments. -/
def ofApp (fn : NormalForm) (args : List NormalForm) : Head :=
  match fn with
  | .closure params body =>
      if params.length = args.length then
        .expand
          (body.substitute (Replacements.ofList (params.zip (NormalForm.quoteAll args))))
          (.app fn args)
      else .done (.app fn args)
  | _ => .done (.app fn args)

end Head

namespace Scope

def nameHead (scope : Scope) (name : String) : Head :=
  match scope.lookup name with
  | some entry => .ofEntry (.ident name) entry
  | none =>
      match scope.resolveType name with
      | some found => .done (.tycon found.1 [])
      | none => .done (.ident name)

def memberHead (owner member : String) (entry : Entry) : Head :=
  .ofEntry (.member (.tycon owner []) (.named member)) entry

/-- The head of the selection of a member from a form. -/
def selectHead (scope : Scope) (base : NormalForm) (selector : Selector) (span : Span) :
    Except TypeError Head :=
  match base, selector with
  | .tuple elems, .index position =>
      match elems[position]? with
      | some form => .ok (.done form)
      | none => .error ⟨.tupleIndexOutOfRange position elems.length, span⟩
  | .structLit type fields, .named name =>
      match Table.find? fields name with
      | some form => .ok (.done form)
      | none =>
          match (scope.lookupType type).bind fun d => (d.value? name).or (d.static? name) with
          | some entry => .ok (memberHead type name entry)
          | none => .error ⟨.unknownMember (.named type) selector, span⟩
  | .tycon type args, .named name =>
      match scope.lookupType type with
      | none => .error ⟨.typeVanished type, span⟩
      | some d =>
          if (d.nested? name).isSome then .ok (.done (.tycon (Name.qualified type name) []))
          else
            match d.static? name with
            | some entry => .ok (memberHead type name entry)
            | none =>
                .error
                  ⟨.unknownMember (.con type (args.filterMap NormalForm.toTy?)) selector, span⟩
  | .ident _, _ | .app _ _, _ | .member _ _, _ | .cond _ _ _, _ =>
      .ok (.done (.member base selector))
  | _, _ => .error ⟨.notSelectable selector base.render, span⟩

end Scope

namespace Eval

theorem lex_depth {a b c d e f : Nat} (h : a < d) :
    Prod.Lex (· < ·) (Prod.Lex (· < ·) (· < ·)) (a, b, c) (d, e, f) :=
  .left _ _ h

theorem lex_weight {a b c e f : Nat} (h : b < e) :
    Prod.Lex (· < ·) (Prod.Lex (· < ·) (· < ·)) (a, b, c) (a, e, f) :=
  .right _ (.left _ _ h)

theorem lex_size {a b c e f : Nat} (weight : b ≤ e) (size : c < f) :
    Prod.Lex (· < ·) (Prod.Lex (· < ·) (· < ·)) (a, b, c) (a, e, f) := by
  rcases Nat.lt_or_eq_of_le weight with h | h
  · exact lex_weight h
  · subst h
    exact .right _ (.right _ size)

end Eval

/-- An evaluator in a scope: how deep it is in definitions that were put in place, and how deep it
may go. -/
structure Evaluator where
  scope : Scope
  depth : Nat
  limit : Nat

namespace Evaluator

/-- The evaluator before anything was put in place. -/
def start (scope : Scope) : Evaluator :=
  ⟨scope, 0, scope.options.depth⟩

/-- Whether definitions stay as they are. -/
def exhausted (evaluator : Evaluator) : Bool :=
  evaluator.limit ≤ evaluator.depth

/-- The evaluator of a definition that was put in place. -/
def deeper (evaluator : Evaluator) : Evaluator :=
  { evaluator with depth := evaluator.depth + 1 }

/-- The number of levels that are left. -/
def left (evaluator : Evaluator) : Nat :=
  evaluator.limit - evaluator.depth

theorem left_eq_zero {evaluator : Evaluator} (h : evaluator.exhausted = true) :
    evaluator.left = 0 :=
  Nat.sub_eq_zero_of_le (of_decide_eq_true h)

theorem left_eq_succ {evaluator : Evaluator} (h : ¬ evaluator.exhausted = true) :
    evaluator.left = evaluator.deeper.left + 1 := by
  have hlt : ¬ evaluator.limit ≤ evaluator.depth := fun hle => h (decide_eq_true hle)
  simp only [left, deeper]
  omega

theorem left_deeper_lt {evaluator : Evaluator} (h : ¬ evaluator.exhausted = true) :
    evaluator.deeper.left < evaluator.left :=
  left_eq_succ h ▸ Nat.lt_succ_self _

open Eval

mutual

/-- The normal form of an expression. -/
def eval (evaluator : Evaluator) : Expr → Except TypeError NormalForm
  | .literal value _ => .ok (.literal value)
  | .ident name _ => finish evaluator (evaluator.scope.nameHead name)
  | .closure params body _ => .ok (.closure (params.map Param.name) body)
  | .app fn args _ => do
      let fn ← eval evaluator fn
      let args ← evalAll evaluator args
      finish evaluator (.ofApp fn args)
  | .cond condition thenBranch none _ => do
      match ← eval evaluator condition with
      | .literal (.bool true) => eval evaluator thenBranch
      | .literal (.bool false) => return .unit
      | .ident name => return .cond name (← eval evaluator thenBranch) none
      | other => throw ⟨.conditionNotBoolean other.render, condition.span⟩
  | .cond condition thenBranch (some elseBranch) _ => do
      match ← eval evaluator condition with
      | .literal (.bool true) => eval evaluator thenBranch
      | .literal (.bool false) => eval evaluator elseBranch
      | .ident name =>
          let thenForm ← eval evaluator thenBranch
          let elseForm ← eval evaluator elseBranch
          return .cond name thenForm (some elseForm)
      | other => throw ⟨.conditionNotBoolean other.render, condition.span⟩
  | .member base selector span => do
      let base ← eval evaluator base
      let head ← evaluator.scope.selectHead base selector span
      finish evaluator head
  | .tuple elems _ => return .tuple (← evalAll evaluator elems)
  | .structLit type fields _ => do
      let fields ← evalFields evaluator fields
      return .structLit (((evaluator.scope.resolveType type).map Prod.fst).getD type) fields
  | .tycon name args _ =>
      match evaluator.scope.resolveType name with
      | some found => return .tycon found.1 (← evalAll evaluator args)
      | none => .ok (.ident name)
  | .arrow params result _ => do
      let params ← evalAll evaluator params
      let result ← eval evaluator result
      return .arrow params result
  | .block items _ => evalItems evaluator items
termination_by e => (evaluator.left, e.weight, sizeOf e)
decreasing_by
  all_goals exact lex_size (by simp only [Expr.weight]; omega) (by simp; try omega)

def evalAll (evaluator : Evaluator) : List Expr → Except TypeError (List NormalForm)
  | [] => .ok []
  | e :: es => do
      let form ← eval evaluator e
      let forms ← evalAll evaluator es
      return form :: forms
termination_by es => (evaluator.left, Expr.weightAll es, sizeOf es)
decreasing_by
  all_goals exact lex_size (by simp only [Expr.weightAll]; omega) (by simp; try omega)

def evalFields (evaluator : Evaluator) :
    List (String × Expr) → Except TypeError (List (String × NormalForm))
  | [] => .ok []
  | (name, value) :: rest => do
      let form ← eval evaluator value
      let forms ← evalFields evaluator rest
      return (name, form) :: forms
termination_by fields => (evaluator.left, Expr.weightFields fields, sizeOf fields)
decreasing_by
  all_goals exact lex_size (by simp only [Expr.weightFields]; omega) (by simp; try omega)

/-- The normal form of a block, given by its items. -/
def evalItems (evaluator : Evaluator) :
    List (Item Expr Expr) → Except TypeError NormalForm
  | [] => .ok .unit
  | [.expr e] => eval evaluator e
  | .expr _ :: next :: rest => evalItems evaluator (next :: rest)
  | .binding ⟨_, _, _, none, _⟩ :: rest => evalItems evaluator rest
  | .binding ⟨name, _, _, some value, _⟩ :: rest => do
      let form ← eval evaluator value
      evalItems evaluator (Expr.substituteItems [(name, form.quote)] rest)
termination_by items => (evaluator.left, Expr.weightItems items, sizeOf items)
decreasing_by
  · exact lex_weight (by simp only [Expr.weightItems]; omega)
  · exact lex_weight (by simp only [Expr.weightItems]; omega)
  · exact lex_weight (by simp only [Expr.weightItems]; omega)
  · exact lex_weight (by simp only [Expr.weightItems]; omega)
  · refine lex_weight ?_
    rw [NormalForm.weightItems_substituteItems_quote]
    simp only [Expr.weightItems]
    omega

/-- Evaluate a definition one level deeper, unless the limit is reached. -/
def finish (evaluator : Evaluator) : Head → Except TypeError NormalForm
  | .done form => .ok form
  | .expand body symbolic =>
      if _h : evaluator.exhausted then .ok symbolic else eval evaluator.deeper body
termination_by (evaluator.left, 0, 0)
decreasing_by
  exact lex_depth (left_deeper_lt _h)

end

end Evaluator

namespace Scope

/-- The normal form of an expression, with the depth of the settings. -/
def eval (scope : Scope) (e : Expr) : Except TypeError NormalForm :=
  (Evaluator.start scope).eval e

/-- The type that an annotation denotes. -/
def annotationTy (scope : Scope) (ascription : Expr) : Except TypeError Ty := do
  let form ← scope.eval ascription
  match form.toTy? with
  | some t => return t
  | none => throw ⟨.unknownType form.render, ascription.span⟩

end Scope

end Ascribe
