import Ascribe.NormalForm.Eval

/-!
# The depth that is left

An evaluator keeps how deep it is and how deep it may go, and compares the two before it puts a
definition in place.  `Scope.evalAt` is given the difference instead and counts it down, so
evaluation is a recursion on the depth that is left.  Both give the same
(`Evaluator.eval_eq_evalAt`): of the two numbers of an evaluator only their difference counts.
-/

namespace Ascribe

namespace Scope

open Eval

mutual

/-- The normal form of an expression, with the given depth left. -/
def evalAt (scope : Scope) (depth : Nat) : Expr → Except TypeError NormalForm
  | .literal value _ => .ok (.literal value)
  | .ident name _ => finish scope depth (scope.nameHead name)
  | .closure params body _ => .ok (.closure (params.map Param.name) body)
  | .app fn args _ => do
      let fn ← evalAt scope depth fn
      let args ← evalAll scope depth args
      finish scope depth (.ofApp fn args)
  | .cond condition thenBranch none _ => do
      match ← evalAt scope depth condition with
      | .literal (.bool true) => evalAt scope depth thenBranch
      | .literal (.bool false) => return .unit
      | .ident name => return .cond name (← evalAt scope depth thenBranch) none
      | other => throw ⟨.conditionNotBoolean other.render, condition.span⟩
  | .cond condition thenBranch (some elseBranch) _ => do
      match ← evalAt scope depth condition with
      | .literal (.bool true) => evalAt scope depth thenBranch
      | .literal (.bool false) => evalAt scope depth elseBranch
      | .ident name =>
          let thenForm ← evalAt scope depth thenBranch
          let elseForm ← evalAt scope depth elseBranch
          return .cond name thenForm (some elseForm)
      | other => throw ⟨.conditionNotBoolean other.render, condition.span⟩
  | .member base selector span => do
      let base ← evalAt scope depth base
      let head ← scope.selectHead base selector span
      finish scope depth head
  | .tuple elems _ => return .tuple (← evalAll scope depth elems)
  | .structLit type fields _ => do
      let fields ← evalFields scope depth fields
      return .structLit (((scope.resolveType type).map Prod.fst).getD type) fields
  | .tycon name args _ =>
      match scope.resolveType name with
      | some found => return .tycon found.1 (← evalAll scope depth args)
      | none => .ok (.ident name)
  | .arrow params result _ => do
      let params ← evalAll scope depth params
      let result ← evalAt scope depth result
      return .arrow params result
  | .block items _ => evalItems scope depth items
termination_by e => (depth, e.weight, sizeOf e)
decreasing_by
  all_goals exact lex_size (by simp only [Expr.weight]; omega) (by simp; try omega)

def evalAll (scope : Scope) (depth : Nat) : List Expr → Except TypeError (List NormalForm)
  | [] => .ok []
  | e :: es => do
      let form ← evalAt scope depth e
      let forms ← evalAll scope depth es
      return form :: forms
termination_by es => (depth, Expr.weightAll es, sizeOf es)
decreasing_by
  all_goals exact lex_size (by simp only [Expr.weightAll]; omega) (by simp; try omega)

def evalFields (scope : Scope) (depth : Nat) :
    List (String × Expr) → Except TypeError (List (String × NormalForm))
  | [] => .ok []
  | (name, value) :: rest => do
      let form ← evalAt scope depth value
      let forms ← evalFields scope depth rest
      return (name, form) :: forms
termination_by fields => (depth, Expr.weightFields fields, sizeOf fields)
decreasing_by
  all_goals exact lex_size (by simp only [Expr.weightFields]; omega) (by simp; try omega)

/-- The normal form of a block, given by its items. -/
def evalItems (scope : Scope) (depth : Nat) :
    List (Item Expr Expr) → Except TypeError NormalForm
  | [] => .ok .unit
  | [.expr e] => evalAt scope depth e
  | .expr _ :: next :: rest => evalItems scope depth (next :: rest)
  | .binding ⟨_, _, _, none, _⟩ :: rest => evalItems scope depth rest
  | .binding ⟨name, _, _, some value, _⟩ :: rest => do
      let form ← evalAt scope depth value
      evalItems scope depth (Expr.substituteItems [(name, form.quote)] rest)
termination_by items => (depth, Expr.weightItems items, sizeOf items)
decreasing_by
  · exact lex_weight (by simp only [Expr.weightItems]; omega)
  · exact lex_weight (by simp only [Expr.weightItems]; omega)
  · exact lex_weight (by simp only [Expr.weightItems]; omega)
  · exact lex_weight (by simp only [Expr.weightItems]; omega)
  · refine lex_weight ?_
    rw [NormalForm.weightItems_substituteItems_quote]
    simp only [Expr.weightItems]
    omega

/-- Evaluate a definition one level deeper, if any depth is left. -/
def finish (scope : Scope) (depth : Nat) : Head → Except TypeError NormalForm
  | .done form => .ok form
  | .expand body symbolic =>
      match depth with
      | 0 => .ok symbolic
      | depth + 1 => evalAt scope depth body
termination_by (depth, 0, 0)
decreasing_by
  exact lex_depth (Nat.lt_succ_self _)

end

end Scope

namespace Evaluator

open Eval

mutual

/-- Of the depth and the limit of an evaluator only their difference counts. -/
theorem eval_eq_evalAt (evaluator : Evaluator) :
    ∀ e : Expr, evaluator.eval e = evaluator.scope.evalAt evaluator.left e
  | .literal value span => by rw [eval, Scope.evalAt]
  | .ident name span => by rw [eval, Scope.evalAt, finish_eq_finish]
  | .closure params body span => by rw [eval, Scope.evalAt]
  | .app fn args span => by
      rw [eval, Scope.evalAt, eval_eq_evalAt evaluator fn, evalAll_eq_evalAll evaluator args]
      simp only [finish_eq_finish evaluator]
  | .cond condition thenBranch none span => by
      rw [eval, eval_eq_evalAt evaluator condition]
      simp only [eval_eq_evalAt evaluator thenBranch]
      exact (Scope.evalAt.eq_def _ _ (.cond condition thenBranch none span)).symm
  | .cond condition thenBranch (some elseBranch) span => by
      rw [eval, eval_eq_evalAt evaluator condition]
      simp only [eval_eq_evalAt evaluator thenBranch, eval_eq_evalAt evaluator elseBranch]
      exact (Scope.evalAt.eq_def _ _ (.cond condition thenBranch (some elseBranch) span)).symm
  | .member base selector span => by
      rw [eval, Scope.evalAt, eval_eq_evalAt evaluator base]
      simp only [finish_eq_finish evaluator]
  | .tuple elems span => by rw [eval, Scope.evalAt, evalAll_eq_evalAll evaluator elems]
  | .structLit type fields span => by
      rw [eval, Scope.evalAt, evalFields_eq_evalFields evaluator fields]
  | .tycon name args span => by
      rw [eval, evalAll_eq_evalAll evaluator args]
      exact (Scope.evalAt.eq_def _ _ (.tycon name args span)).symm
  | .arrow params result span => by
      rw [eval, Scope.evalAt, evalAll_eq_evalAll evaluator params, eval_eq_evalAt evaluator result]
  | .block items span => by
      rw [eval, Scope.evalAt, evalItems_eq_evalItems evaluator items]
termination_by e => (evaluator.left, e.weight, sizeOf e)
decreasing_by
  all_goals exact lex_size (by simp only [Expr.weight]; omega) (by simp; try omega)

theorem evalAll_eq_evalAll (evaluator : Evaluator) :
    ∀ es : List Expr, evaluator.evalAll es = evaluator.scope.evalAll evaluator.left es
  | [] => by rw [evalAll, Scope.evalAll]
  | e :: es => by
      rw [evalAll, Scope.evalAll, eval_eq_evalAt evaluator e, evalAll_eq_evalAll evaluator es]
termination_by es => (evaluator.left, Expr.weightAll es, sizeOf es)
decreasing_by
  all_goals exact lex_size (by simp only [Expr.weightAll]; omega) (by simp; try omega)

theorem evalFields_eq_evalFields (evaluator : Evaluator) :
    ∀ fields : List (String × Expr),
      evaluator.evalFields fields = evaluator.scope.evalFields evaluator.left fields
  | [] => by rw [evalFields, Scope.evalFields]
  | (name, value) :: rest => by
      rw [evalFields, Scope.evalFields, eval_eq_evalAt evaluator value,
        evalFields_eq_evalFields evaluator rest]
termination_by fields => (evaluator.left, Expr.weightFields fields, sizeOf fields)
decreasing_by
  all_goals exact lex_size (by simp only [Expr.weightFields]; omega) (by simp; try omega)

theorem evalItems_eq_evalItems (evaluator : Evaluator) :
    ∀ items : List (Item Expr Expr),
      evaluator.evalItems items = evaluator.scope.evalItems evaluator.left items
  | [] => by rw [evalItems, Scope.evalItems]
  | [.expr e] => by rw [evalItems, Scope.evalItems, eval_eq_evalAt evaluator e]
  | .expr e :: next :: rest => by
      rw [evalItems, Scope.evalItems, evalItems_eq_evalItems evaluator (next :: rest)]
  | .binding ⟨name, modifiers, ascription, none, span⟩ :: rest => by
      rw [evalItems, Scope.evalItems, evalItems_eq_evalItems evaluator rest]
  | .binding ⟨name, modifiers, ascription, some value, span⟩ :: rest => by
      have hrest : ∀ form : NormalForm,
          evaluator.evalItems (Expr.substituteItems [(name, form.quote)] rest) =
            evaluator.scope.evalItems evaluator.left
              (Expr.substituteItems [(name, form.quote)] rest) :=
        fun form => evalItems_eq_evalItems evaluator _
      rw [evalItems, Scope.evalItems, eval_eq_evalAt evaluator value]
      simp only [hrest]
termination_by items => (evaluator.left, Expr.weightItems items, sizeOf items)
decreasing_by
  · exact lex_weight (by simp only [Expr.weightItems]; omega)
  · exact lex_weight (by simp only [Expr.weightItems]; omega)
  · exact lex_weight (by simp only [Expr.weightItems]; omega)
  · refine lex_weight ?_
    rw [NormalForm.weightItems_substituteItems_quote]
    simp only [Expr.weightItems]
    omega
  · exact lex_weight (by simp only [Expr.weightItems]; omega)

theorem finish_eq_finish (evaluator : Evaluator) :
    ∀ head : Head, evaluator.finish head = evaluator.scope.finish evaluator.left head
  | .done form => by rw [finish, Scope.finish]
  | .expand body symbolic => by
      rw [finish]
      split
      · rename_i h
        rw [left_eq_zero h, Scope.finish]
      · rename_i h
        rw [left_eq_succ h, Scope.finish, eval_eq_evalAt evaluator.deeper body]
        rfl
termination_by (evaluator.left, 0, 0)
decreasing_by
  exact lex_depth (left_deeper_lt ‹_›)

end

end Evaluator

theorem Scope.eval_eq_evalAt (scope : Scope) (e : Expr) :
    scope.eval e = scope.evalAt scope.options.depth e :=
  (Evaluator.start scope).eval_eq_evalAt e

end Ascribe
