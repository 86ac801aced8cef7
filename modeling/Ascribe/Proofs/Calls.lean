import Ascribe.NormalForm.Depth

/-!
# Calls of the evaluator

Evaluation calls itself, and what it calls itself on need not be smaller.  A definition is put
in the place of its name, and the items after a local binding get the value of the binding in
the place of its name.  Here evaluation is cut at its calls: `Scope.callTree` says what a call
does between the calls that it makes, without making them, so that nothing about it presupposes
that they come to an end.

Two facts follow.  Every call is smaller than the call that makes it
(`Scope.allCalls_callTree`), so that every call ends after finitely many calls, in what
evaluation gives for it.  And a property that passes from the forms that a call gets back to the
form in which it ends holds of every form that evaluation gives (`Scope.forall_of_yields`).  For
that it is enough to look at the ways in which a form is made (`Scope.Keeps`).
-/

namespace Ascribe

/-- A call of the evaluator, with the depth that is left. -/
inductive Call where
  | expr (depth : Nat) (e : Expr)
  | items (depth : Nat) (items : List (Item Expr Expr))

/-- What a call does: it ends, or it makes a call and goes on with the form that it gets back.
When the call that it makes fails, it fails too. -/
inductive CallTree (α : Type) where
  | done (outcome : Except TypeError α)
  | call (c : Call) (resume : NormalForm → CallTree α)

namespace CallTree

variable {α β : Type}

/-- One call tree after the other. -/
def bind : CallTree α → (α → CallTree β) → CallTree β
  | .done (.ok a), f => f a
  | .done (.error e), _ => .done (.error e)
  | .call c resume, f => .call c fun form => (resume form).bind f

instance : Monad CallTree where
  pure a := .done (.ok a)
  bind := bind

def expr (depth : Nat) (e : Expr) : CallTree NormalForm :=
  .call (.expr depth e) pure

def all (depth : Nat) : List Expr → CallTree (List NormalForm)
  | [] => pure []
  | e :: es => do
      let form ← expr depth e
      let forms ← all depth es
      return form :: forms

def fields (depth : Nat) : List (String × Expr) → CallTree (List (String × NormalForm))
  | [] => pure []
  | (name, value) :: rest => do
      let form ← expr depth value
      let forms ← fields depth rest
      return (name, form) :: forms

def items (depth : Nat) (items : List (Item Expr Expr)) : CallTree NormalForm :=
  .call (.items depth items) pure

/-- Evaluate a definition one level deeper, if any depth is left. -/
def head : Nat → Head → CallTree NormalForm
  | _, .done form => pure form
  | 0, .expand _ symbolic => pure symbolic
  | depth + 1, .expand body _ => expr depth body

end CallTree

namespace Scope

open CallTree in
/-- What a call of the evaluator does. -/
def callTree (scope : Scope) : Call → CallTree NormalForm
  | .expr _ (.literal value _) => return .literal value
  | .expr depth (.ident name _) => head depth (scope.nameHead name)
  | .expr _ (.closure params body _) => return .closure (params.map Param.name) body
  | .expr depth (.app fn args _) => do
      let fn ← expr depth fn
      let args ← all depth args
      head depth (.ofApp fn args)
  | .expr depth (.cond condition thenBranch none _) => do
      match ← expr depth condition with
      | .literal (.bool true) => expr depth thenBranch
      | .literal (.bool false) => return .unit
      | .ident name => return .cond name (← expr depth thenBranch) none
      | other => .done (.error ⟨.conditionNotBoolean other.render, condition.span⟩)
  | .expr depth (.cond condition thenBranch (some elseBranch) _) => do
      match ← expr depth condition with
      | .literal (.bool true) => expr depth thenBranch
      | .literal (.bool false) => expr depth elseBranch
      | .ident name =>
          let thenForm ← expr depth thenBranch
          let elseForm ← expr depth elseBranch
          return .cond name thenForm (some elseForm)
      | other => .done (.error ⟨.conditionNotBoolean other.render, condition.span⟩)
  | .expr depth (.member base selector span) => do
      let base ← expr depth base
      let selected ← .done (scope.selectHead base selector span)
      head depth selected
  | .expr depth (.tuple elems _) => return .tuple (← all depth elems)
  | .expr depth (.structLit type values _) => do
      let forms ← fields depth values
      return .structLit (((scope.resolveType type).map Prod.fst).getD type) forms
  | .expr depth (.tycon name args _) =>
      match scope.resolveType name with
      | some found => return .tycon found.1 (← all depth args)
      | none => return .ident name
  | .expr depth (.arrow params result _) => do
      let params ← all depth params
      let result ← expr depth result
      return .arrow params result
  | .expr depth (.block body _) => items depth body
  | .items _ [] => return .unit
  | .items depth [.expr e] => expr depth e
  | .items depth (.expr _ :: next :: rest) => items depth (next :: rest)
  | .items depth (.binding ⟨_, _, _, none, _⟩ :: rest) => items depth rest
  | .items depth (.binding ⟨name, _, _, some value, _⟩ :: rest) => do
      let form ← expr depth value
      items depth (Expr.substituteItems [(name, form.quote)] rest)

/-- A call tree ends in an outcome after the given number of calls, where the calls that are
made by calls count too. -/
inductive Ends (scope : Scope) :
    CallTree NormalForm → Nat → Except TypeError NormalForm → Prop where
  | done (outcome : Except TypeError NormalForm) :
      Ends scope (.done outcome) 0 outcome
  | call {c : Call} {resume : NormalForm → CallTree NormalForm} {form : NormalForm}
      {outcome : Except TypeError NormalForm} {m n : Nat}
      (called : Ends scope (scope.callTree c) m (.ok form))
      (resumed : Ends scope (resume form) n outcome) :
      Ends scope (.call c resume) (m + n + 1) outcome
  | fail {c : Call} {resume : NormalForm → CallTree NormalForm} {e : TypeError} {n : Nat}
      (called : Ends scope (scope.callTree c) n (.error e)) :
      Ends scope (.call c resume) (n + 1) (.error e)

theorem Ends.unique
    {scope : Scope} {tree : CallTree NormalForm} {m n : Nat}
    {outcome other : Except TypeError NormalForm} (h : scope.Ends tree m outcome)
    (h' : scope.Ends tree n other) :
    n = m ∧ other = outcome := by
  induction h generalizing n other with
  | done outcome =>
      cases h'
      exact ⟨rfl, rfl⟩
  | call called resumed ihCalled ihResumed =>
      cases h' with
      | call called' resumed' =>
          obtain ⟨rfl, hform⟩ := ihCalled called'
          cases hform
          obtain ⟨rfl, houtcome⟩ := ihResumed resumed'
          exact ⟨rfl, houtcome⟩
      | fail called' => cases (ihCalled called').2
  | fail called ih =>
      cases h' with
      | call called' resumed' => cases (ih called').2
      | fail called' =>
          obtain ⟨rfl, herror⟩ := ih called'
          exact ⟨rfl, by cases herror; rfl⟩

end Scope

/-! ## Answered calls -/

namespace CallTree

variable {α β : Type}

/-- The outcome of a call tree when its calls are answered by a function. -/
def runWith (answer : Call → Except TypeError NormalForm) : CallTree α → Except TypeError α
  | .done outcome => outcome
  | .call c resume => answer c >>= fun form => (resume form).runWith answer

theorem runWith_pure (answer : Call → Except TypeError NormalForm) (a : α) :
    (pure a : CallTree α).runWith answer = pure a :=
  rfl

theorem runWith_expr (answer : Call → Except TypeError NormalForm) (depth : Nat) (e : Expr) :
    (expr depth e).runWith answer = answer (.expr depth e) :=
  bind_pure _

theorem runWith_items
    (answer : Call → Except TypeError NormalForm) (depth : Nat)
    (body : List (Item Expr Expr)) :
    (items depth body).runWith answer = answer (.items depth body) :=
  bind_pure _

theorem runWith_bind
    (answer : Call → Except TypeError NormalForm) (tree : CallTree α)
    (f : α → CallTree β) :
    (tree >>= f).runWith answer = tree.runWith answer >>= fun a => (f a).runWith answer := by
  induction tree with
  | done outcome =>
      cases outcome with
      | ok a => rfl
      | error e => rfl
  | call c resume ih =>
      calc
        ((CallTree.call c resume) >>= f).runWith answer =
            answer c >>= fun form => (resume form >>= f).runWith answer := rfl
        _ = answer c >>= fun form =>
              (resume form).runWith answer >>= fun a => (f a).runWith answer := by
            simp only [ih]
        _ = (CallTree.call c resume).runWith answer >>= fun a => (f a).runWith answer :=
            (bind_assoc _ _ _).symm

end CallTree

namespace Scope

/-- What evaluation gives for a call. -/
def answer (scope : Scope) : Call → Except TypeError NormalForm
  | .expr depth e => scope.evalAt depth e
  | .items depth items => scope.evalItems depth items

theorem runWith_all (scope : Scope) (depth : Nat) (es : List Expr) :
    (CallTree.all depth es).runWith scope.answer = scope.evalAll depth es := by
  induction es with
  | nil =>
      rw [evalAll]
      rfl
  | cons e es ih =>
      simp only [CallTree.all, CallTree.runWith_bind, CallTree.runWith_expr, ih,
        CallTree.runWith_pure, answer, evalAll]

theorem runWith_fields (scope : Scope) (depth : Nat) (values : List (String × Expr)) :
    (CallTree.fields depth values).runWith scope.answer = scope.evalFields depth values := by
  induction values with
  | nil =>
      rw [evalFields]
      rfl
  | cons entry rest ih =>
      obtain ⟨name, value⟩ := entry
      simp only [CallTree.fields, CallTree.runWith_bind, CallTree.runWith_expr, ih,
        CallTree.runWith_pure, answer, evalFields]

theorem runWith_head (scope : Scope) (depth : Nat) (head : Head) :
    (CallTree.head depth head).runWith scope.answer = scope.finish depth head := by
  cases head with
  | done form =>
      rw [CallTree.head, finish]
      rfl
  | expand body symbolic =>
      cases depth with
      | zero =>
          rw [CallTree.head, finish]
          rfl
      | succ depth =>
          rw [CallTree.head, CallTree.runWith_expr, finish]
          rfl

/-- Evaluation answers every call by what the call does with the answers to the calls that it
makes. -/
theorem runWith_callTree (scope : Scope) (c : Call) :
    (scope.callTree c).runWith scope.answer = scope.answer c := by
  cases c with
  | expr depth e =>
      cases e with
      | literal value span => simp only [callTree, answer, evalAt, CallTree.runWith_pure]; rfl
      | ident name span => simp only [callTree, answer, evalAt, runWith_head]
      | closure params body span =>
          simp only [callTree, answer, evalAt, CallTree.runWith_pure]; rfl
      | app fn args span =>
          simp only [callTree, answer, evalAt, CallTree.runWith_bind, CallTree.runWith_expr,
            runWith_all, runWith_head]
      | cond condition thenBranch elseBranch span =>
          cases elseBranch with
          | none =>
              simp only [callTree, answer, evalAt, CallTree.runWith_bind, CallTree.runWith_expr]
              refine congrArg _ (funext fun form => ?_)
              cases form with
              | literal value =>
                  cases value with
                  | bool known =>
                      cases known with
                      | true => exact CallTree.runWith_expr ..
                      | false => rfl
                  | int | float | string => rfl
              | ident name =>
                  simp only [CallTree.runWith_bind, CallTree.runWith_expr, CallTree.runWith_pure,
                    answer]
              | closure | cond | tuple | structLit | tycon | arrow | app | member => rfl
          | some elseBranch =>
              simp only [callTree, answer, evalAt, CallTree.runWith_bind, CallTree.runWith_expr]
              refine congrArg _ (funext fun form => ?_)
              cases form with
              | literal value =>
                  cases value with
                  | bool known =>
                      cases known with
                      | true | false => exact CallTree.runWith_expr ..
                  | int | float | string => rfl
              | ident name =>
                  simp only [CallTree.runWith_bind, CallTree.runWith_expr, CallTree.runWith_pure,
                    answer]
              | closure | cond | tuple | structLit | tycon | arrow | app | member => rfl
      | member base selector span =>
          simp only [callTree, answer, evalAt, CallTree.runWith_bind, CallTree.runWith_expr,
            runWith_head, CallTree.runWith]
      | tuple elems span =>
          simp only [callTree, answer, evalAt, CallTree.runWith_bind, runWith_all,
            CallTree.runWith_pure]
      | structLit type values span =>
          simp only [callTree, answer, evalAt, CallTree.runWith_bind, runWith_fields,
            CallTree.runWith_pure]
      | tycon name args span =>
          simp only [callTree, answer, evalAt]
          cases scope.resolveType name with
          | some found =>
              simp only [CallTree.runWith_bind, runWith_all, CallTree.runWith_pure]
          | none => rfl
      | arrow params result span =>
          simp only [callTree, answer, evalAt, CallTree.runWith_bind, CallTree.runWith_expr,
            runWith_all, CallTree.runWith_pure]
      | block body span => simp only [callTree, answer, evalAt, CallTree.runWith_items]
  | items depth body =>
      cases body with
      | nil =>
          simp only [callTree, answer, evalItems, CallTree.runWith_pure]
          rfl
      | cons item rest =>
          cases item with
          | expr e =>
              cases rest with
              | nil => simp only [callTree, answer, evalItems, CallTree.runWith_expr]
              | cons next rest =>
                  simp only [callTree, answer, evalItems, CallTree.runWith_items]
          | binding b =>
              obtain ⟨name, modifiers, ascription, value, span⟩ := b
              cases value with
              | none => simp only [callTree, answer, evalItems, CallTree.runWith_items]
              | some value =>
                  simp only [callTree, answer, evalItems, CallTree.runWith_bind,
                    CallTree.runWith_expr, CallTree.runWith_items]

end Scope

/-! ## Smaller calls -/

namespace Expr

/-- The parts of an expression that are evaluated with it, apart from the items of a block. -/
def parts : Expr → List Expr
  | .literal _ _ | .ident _ _ | .closure _ _ _ | .block _ _ => []
  | .app fn args _ => fn :: args
  | .cond condition thenBranch none _ => [condition, thenBranch]
  | .cond condition thenBranch (some elseBranch) _ => [condition, thenBranch, elseBranch]
  | .member base _ _ => [base]
  | .tuple elems _ => elems
  | .structLit _ fields _ => fields.map Prod.snd
  | .tycon _ args _ => args
  | .arrow params result _ => result :: params

theorem weight_le_weightAll {e : Expr} {es : List Expr} (h : e ∈ es) :
    e.weight ≤ weightAll es := by
  induction es with
  | nil => cases h
  | cons head rest ih =>
      rw [weightAll]
      rcases List.mem_cons.1 h with rfl | h
      · exact Nat.le_add_right _ _
      · exact Nat.le_trans (ih h) (Nat.le_add_left _ _)

theorem weightFields_eq (fields : List (String × Expr)) :
    weightFields fields = weightAll (fields.map Prod.snd) := by
  induction fields with
  | nil => rfl
  | cons field rest ih =>
      obtain ⟨name, value⟩ := field
      rw [weightFields, List.map_cons, weightAll, ih]

theorem sizeOf_lt_of_mem_map_snd {e : Expr} {fields : List (String × Expr)}
    (h : e ∈ fields.map Prod.snd) :
    sizeOf e < sizeOf fields := by
  obtain ⟨⟨name, value⟩, hfield, rfl⟩ := List.mem_map.1 h
  have hpair : sizeOf value < sizeOf (name, value) := by
    rw [Prod.mk.sizeOf_spec]
    omega
  exact Nat.lt_trans hpair (List.sizeOf_lt_of_mem hfield)

/-- A part is no heavier than the whole. -/
theorem weight_le_of_mem_parts {part e : Expr} (h : part ∈ e.parts) :
    part.weight ≤ e.weight := by
  cases e with
  | literal | ident | closure | block => cases h
  | app fn args span =>
      rcases List.mem_cons.1 h with rfl | h
      · exact Nat.le_add_right _ _
      · exact Nat.le_trans (weight_le_weightAll h) (Nat.le_add_left _ _)
  | cond condition thenBranch elseBranch span =>
      cases elseBranch with
      | none =>
          simp only [parts, List.mem_cons, List.not_mem_nil, or_false] at h
          rcases h with rfl | rfl <;> simp only [weight] <;> omega
      | some elseBranch =>
          simp only [parts, List.mem_cons, List.not_mem_nil, or_false] at h
          rcases h with rfl | rfl | rfl <;> simp only [weight] <;> omega
  | member base selector span =>
      obtain rfl := List.mem_singleton.1 h
      exact Nat.le_refl _
  | tuple elems span => exact weight_le_weightAll h
  | structLit type fields span =>
      rw [weight, weightFields_eq]
      exact weight_le_weightAll h
  | tycon name args span => exact weight_le_weightAll h
  | arrow params result span =>
      rcases List.mem_cons.1 h with rfl | h
      · exact Nat.le_add_left _ _
      · exact Nat.le_trans (weight_le_weightAll h) (Nat.le_add_right _ _)

/-- A part is smaller than the whole. -/
theorem sizeOf_lt_of_mem_parts {part e : Expr} (h : part ∈ e.parts) :
    sizeOf part < sizeOf e := by
  cases e with
  | literal | ident | closure | block => cases h
  | app fn args span =>
      rw [app.sizeOf_spec]
      rcases List.mem_cons.1 h with rfl | h
      · omega
      · have := List.sizeOf_lt_of_mem h
        omega
  | cond condition thenBranch elseBranch span =>
      rw [cond.sizeOf_spec]
      cases elseBranch with
      | none =>
          simp only [parts, List.mem_cons, List.not_mem_nil, or_false] at h
          rcases h with rfl | rfl <;> omega
      | some elseBranch =>
          simp only [parts, List.mem_cons, List.not_mem_nil, or_false] at h
          rw [Option.some.sizeOf_spec]
          rcases h with rfl | rfl | rfl <;> omega
  | member base selector span =>
      rw [List.mem_singleton.1 h, member.sizeOf_spec]
      omega
  | tuple elems span =>
      have : sizeOf part < sizeOf elems := List.sizeOf_lt_of_mem h
      rw [tuple.sizeOf_spec]
      omega
  | structLit type fields span =>
      have := sizeOf_lt_of_mem_map_snd h
      rw [structLit.sizeOf_spec]
      omega
  | tycon name args span =>
      have : sizeOf part < sizeOf args := List.sizeOf_lt_of_mem h
      rw [tycon.sizeOf_spec]
      omega
  | arrow params result span =>
      rw [arrow.sizeOf_spec]
      rcases List.mem_cons.1 h with rfl | h
      · omega
      · have := List.sizeOf_lt_of_mem h
        omega

end Expr

namespace Call

/-- What gets smaller from a call to the calls that it makes: the depth that is left, the weight
or the size. -/
noncomputable def rank : Call → Nat × Nat × Nat
  | .expr depth e => (depth, e.weight, sizeOf e)
  | .items depth body => (depth, Expr.weightItems body, sizeOf body)

/-- A call is smaller than another one. -/
def Smaller (c other : Call) : Prop :=
  Prod.Lex (· < ·) (Prod.Lex (· < ·) (· < ·)) c.rank other.rank

theorem wellFounded_smaller : WellFounded Smaller :=
  InvImage.wf rank (Prod.lex Nat.lt_wfRel (Prod.lex Nat.lt_wfRel Nat.lt_wfRel)).wf

end Call

namespace CallTree

variable {α β : Type} {P : Call → Prop}

/-- Every call of a call tree has a property, whatever the forms that it gets back are. -/
def AllCalls (P : Call → Prop) : CallTree α → Prop
  | .done _ => True
  | .call c resume => P c ∧ ∀ form, (resume form).AllCalls P

theorem allCalls_pure (a : α) : (pure a : CallTree α).AllCalls P :=
  trivial

theorem allCalls_expr {depth : Nat} {e : Expr} (h : P (.expr depth e)) :
    (expr depth e).AllCalls P :=
  ⟨h, allCalls_pure⟩

theorem allCalls_items {depth : Nat} {body : List (Item Expr Expr)}
    (h : P (.items depth body)) :
    (items depth body).AllCalls P :=
  ⟨h, allCalls_pure⟩

theorem AllCalls.imp
    {Q : Call → Prop} {tree : CallTree α} (h : tree.AllCalls P) (himp : ∀ c, P c → Q c) :
    tree.AllCalls Q := by
  induction tree with
  | done outcome => exact trivial
  | call c resume ih => exact ⟨himp c h.1, fun form => ih form (h.2 form)⟩

theorem AllCalls.bind
    {tree : CallTree α} {f : α → CallTree β} (h : tree.AllCalls P)
    (hf : ∀ a, (f a).AllCalls P) :
    (tree >>= f).AllCalls P := by
  induction tree with
  | done outcome =>
      cases outcome with
      | ok a => exact hf a
      | error e => exact trivial
  | call c resume ih => exact ⟨h.1, fun form => ih form (h.2 form)⟩

theorem allCalls_all {depth : Nat} {es : List Expr} (h : ∀ e ∈ es, P (.expr depth e)) :
    (all depth es).AllCalls P := by
  induction es with
  | nil => exact allCalls_pure []
  | cons e es ih =>
      rw [List.forall_mem_cons] at h
      exact (allCalls_expr h.1).bind fun _ => (ih h.2).bind fun _ => allCalls_pure _

theorem allCalls_fields {depth : Nat} {values : List (String × Expr)}
    (h : ∀ e ∈ values.map Prod.snd, P (.expr depth e)) :
    (fields depth values).AllCalls P := by
  induction values with
  | nil => exact allCalls_pure []
  | cons field rest ih =>
      rw [List.map_cons, List.forall_mem_cons] at h
      exact (allCalls_expr h.1).bind fun _ => (ih h.2).bind fun _ => allCalls_pure _

theorem allCalls_head
    {depth : Nat} (h : ∀ less < depth, ∀ e, P (.expr less e)) (head : Head) :
    (CallTree.head depth head).AllCalls P := by
  cases head with
  | done form => exact allCalls_pure form
  | expand body symbolic =>
      cases depth with
      | zero => exact allCalls_pure symbolic
      | succ depth => exact allCalls_expr (h depth (Nat.lt_succ_self depth) body)

end CallTree

namespace Scope

open Call CallTree

variable {P : Call → Prop}

/-- What is called when an expression is evaluated: a definition one level deeper, a part of the
expression, or the items of a block. -/
theorem allCalls_callTree_expr
    (scope : Scope) {depth : Nat} {e : Expr}
    (hdepth : ∀ less < depth, ∀ body, P (.expr less body))
    (hpart : ∀ part ∈ e.parts, P (.expr depth part))
    (hblock : ∀ body span, e = .block body span → P (.items depth body)) :
    (scope.callTree (.expr depth e)).AllCalls P := by
  cases e with
  | literal value span => exact allCalls_pure _
  | ident name span => exact allCalls_head hdepth _
  | closure params body span => exact allCalls_pure _
  | app fn args span =>
      rw [Expr.parts, List.forall_mem_cons] at hpart
      exact (allCalls_expr hpart.1).bind fun _ => (allCalls_all hpart.2).bind fun _ =>
        allCalls_head hdepth _
  | cond condition thenBranch elseBranch span =>
      cases elseBranch with
      | none =>
          rw [Expr.parts, List.forall_mem_cons, List.forall_mem_singleton] at hpart
          refine (allCalls_expr hpart.1).bind fun form => ?_
          split
          · exact allCalls_expr hpart.2
          · exact allCalls_pure _
          · exact (allCalls_expr hpart.2).bind fun _ => allCalls_pure _
          · exact trivial
      | some elseBranch =>
          rw [Expr.parts, List.forall_mem_cons, List.forall_mem_cons,
            List.forall_mem_singleton] at hpart
          refine (allCalls_expr hpart.1).bind fun form => ?_
          split
          · exact allCalls_expr hpart.2.1
          · exact allCalls_expr hpart.2.2
          · exact (allCalls_expr hpart.2.1).bind fun _ =>
              (allCalls_expr hpart.2.2).bind fun _ => allCalls_pure _
          · exact trivial
  | member base selector span =>
      rw [Expr.parts, List.forall_mem_singleton] at hpart
      exact (allCalls_expr hpart).bind fun _ => AllCalls.bind trivial fun _ =>
        allCalls_head hdepth _
  | tuple elems span => exact (allCalls_all hpart).bind fun _ => allCalls_pure _
  | structLit type values span =>
      exact (allCalls_fields hpart).bind fun _ => allCalls_pure _
  | tycon name args span =>
      rw [callTree]
      cases scope.resolveType name with
      | none => exact allCalls_pure _
      | some found => exact (allCalls_all hpart).bind fun _ => allCalls_pure _
  | arrow params result span =>
      rw [Expr.parts, List.forall_mem_cons] at hpart
      exact (allCalls_all hpart.2).bind fun _ => (allCalls_expr hpart.1).bind fun _ =>
        allCalls_pure _
  | block body span => exact allCalls_items (hblock body span rfl)

/-- What is called when the items of a block are evaluated: an expression in them or lighter
items. -/
theorem allCalls_callTree_items
    (scope : Scope) {depth : Nat} {body : List (Item Expr Expr)}
    (hexpr : ∀ e : Expr, e.weight < Expr.weightItems body → P (.expr depth e))
    (hitems : ∀ rest, Expr.weightItems rest < Expr.weightItems body → P (.items depth rest)) :
    (scope.callTree (.items depth body)).AllCalls P := by
  cases body with
  | nil => exact allCalls_pure _
  | cons item rest =>
      cases item with
      | expr e =>
          cases rest with
          | nil => exact allCalls_expr (hexpr e (by simp only [Expr.weightItems]; omega))
          | cons next rest =>
              exact allCalls_items (hitems _ (by simp only [Expr.weightItems]; omega))
      | binding b =>
          obtain ⟨name, modifiers, ascription, value, span⟩ := b
          cases value with
          | none => exact allCalls_items (hitems rest (by simp only [Expr.weightItems]; omega))
          | some value =>
              have hvalue := hexpr value (by simp only [Expr.weightItems]; omega)
              refine (allCalls_expr hvalue).bind fun form => allCalls_items (hitems _ ?_)
              -- the value may make the items grow, but it weighs nothing
              rw [NormalForm.weightItems_substituteItems_quote]
              simp only [Expr.weightItems]
              omega

/-- Every call is smaller than the call that makes it. -/
theorem allCalls_callTree (scope : Scope) (c : Call) :
    (scope.callTree c).AllCalls fun made => Smaller made c := by
  cases c with
  | expr depth e =>
      refine allCalls_callTree_expr scope ?_ ?_ ?_
      · intro less hless body
        exact Eval.lex_depth hless
      · intro part hpart
        exact Eval.lex_size (Expr.weight_le_of_mem_parts hpart)
          (Expr.sizeOf_lt_of_mem_parts hpart)
      · rintro body span rfl
        refine Eval.lex_size (Nat.le_refl _) ?_
        rw [Expr.block.sizeOf_spec]
        omega
  | items depth body =>
      refine allCalls_callTree_items scope ?_ ?_
      · intro e hlighter
        exact Eval.lex_weight hlighter
      · intro rest hlighter
        exact Eval.lex_weight hlighter

/-! ## Evaluation ends -/

/-- A call tree ends when each of its calls does, in what the answers to its calls lead to. -/
theorem exists_ends_of_allCalls
    {scope : Scope} {answer : Call → Except TypeError NormalForm} {tree : CallTree NormalForm}
    (h : tree.AllCalls fun c => ∃ n, scope.Ends (scope.callTree c) n (answer c)) :
    ∃ n, scope.Ends tree n (tree.runWith answer) := by
  induction tree with
  | done outcome => exact ⟨0, .done outcome⟩
  | call c resume ih =>
      obtain ⟨⟨m, hcalled⟩, hresume⟩ := h
      rw [CallTree.runWith]
      cases hanswer : answer c with
      | error e => exact ⟨m + 1, .fail (hanswer ▸ hcalled)⟩
      | ok form =>
          obtain ⟨n, hresumed⟩ := ih form (hresume form)
          exact ⟨m + n + 1, .call (hanswer ▸ hcalled) hresumed⟩

theorem exists_ends (scope : Scope) (c : Call) :
    ∃ n, scope.Ends (scope.callTree c) n (scope.answer c) := by
  induction c using wellFounded_smaller.induction with
  | _ c ih =>
    rw [← runWith_callTree]
    exact exists_ends_of_allCalls ((allCalls_callTree scope c).imp ih)

/-- Evaluation ends, whatever the scope, the depth and the expression are.  There is a number of
calls after which it has come to a form or an error, and this is what evaluation gives. -/
theorem evalAt_ends (scope : Scope) (depth : Nat) (e : Expr) :
    ∃ calls, ∀ n outcome, scope.Ends (scope.callTree (.expr depth e)) n outcome ↔
      n = calls ∧ outcome = scope.evalAt depth e := by
  obtain ⟨calls, hends⟩ := exists_ends scope (.expr depth e)
  refine ⟨calls, fun n outcome => ⟨fun h => hends.unique h, ?_⟩⟩
  rintro ⟨rfl, rfl⟩
  exact hends

end Scope

/-! ## What evaluation keeps -/

namespace CallTree

variable {α β : Type} {Q : NormalForm → Prop} {R : α → Prop} {S : β → Prop}

/-- When the forms that a call tree gets back have one property, what it ends in has another
one. -/
def Yields (Q : NormalForm → Prop) (R : α → Prop) : CallTree α → Prop
  | .done (.ok a) => R a
  | .done (.error _) => True
  | .call _ resume => ∀ form, Q form → (resume form).Yields Q R

theorem yields_pure {a : α} (h : R a) : (pure a : CallTree α).Yields Q R :=
  h

theorem yields_expr (depth : Nat) (e : Expr) : (expr depth e).Yields Q Q :=
  fun _ h => h

theorem yields_items (depth : Nat) (body : List (Item Expr Expr)) :
    (items depth body).Yields Q Q :=
  fun _ h => h

theorem yields_done {x : Except TypeError α} (h : ∀ a, x = .ok a → R a) :
    (CallTree.done x).Yields Q R := by
  cases x with
  | ok a => exact h a rfl
  | error e => exact trivial

theorem Yields.bind
    {tree : CallTree α} {f : α → CallTree β} (h : tree.Yields Q R)
    (hf : ∀ a, R a → (f a).Yields Q S) :
    (tree >>= f).Yields Q S := by
  induction tree with
  | done outcome =>
      cases outcome with
      | ok a => exact hf a h
      | error e => exact trivial
  | call c resume ih => exact fun form hform => ih form (h form hform)

theorem yields_all (depth : Nat) (es : List Expr) :
    (all depth es).Yields Q fun forms => ∀ form ∈ forms, Q form := by
  induction es with
  | nil => exact yields_pure (by simp)
  | cons e es ih =>
      refine (yields_expr depth e).bind fun form hform => ih.bind fun forms hforms => ?_
      exact yields_pure (List.forall_mem_cons.2 ⟨hform, hforms⟩)

theorem yields_fields (depth : Nat) (values : List (String × Expr)) :
    (fields depth values).Yields Q fun forms => ∀ field ∈ forms, Q field.2 := by
  induction values with
  | nil => exact yields_pure (by simp)
  | cons field rest ih =>
      refine (yields_expr depth field.2).bind fun form hform => ih.bind fun forms hforms => ?_
      exact yields_pure (List.forall_mem_cons.2 ⟨hform, hforms⟩)

end CallTree

/-- The form that stands for a head when no depth is left. -/
def Head.symbolic : Head → NormalForm
  | .done form => form
  | .expand _ symbolic => symbolic

theorem Head.symbolic_ofApp (fn : NormalForm) (args : List NormalForm) :
    (Head.ofApp fn args).symbolic = .app fn args := by
  cases fn with
  | closure params body =>
      rw [Head.ofApp]
      split
      · rfl
      · rfl
  | literal | cond | tuple | structLit | tycon | arrow | ident | app | member => rfl

theorem CallTree.yields_head
    {Q : NormalForm → Prop} {head : Head} (depth : Nat) (h : Q head.symbolic) :
    (CallTree.head depth head).Yields Q Q := by
  cases head with
  | done form => exact yields_pure h
  | expand body symbolic =>
      cases depth with
      | zero => exact yields_pure h
      | succ depth => exact yields_expr depth body

namespace Scope

variable {scope : Scope} {Q : NormalForm → Prop}

theorem Ends.of_yields
    (hQ : ∀ c, (scope.callTree c).Yields Q Q) {tree : CallTree NormalForm} {n : Nat}
    {outcome : Except TypeError NormalForm} (h : scope.Ends tree n outcome)
    (hyields : tree.Yields Q Q) {form : NormalForm} (hform : outcome = .ok form) :
    Q form := by
  induction h generalizing form with
  | done outcome =>
      subst hform
      exact hyields
  | call called resumed ihCalled ihResumed =>
      exact ihResumed (hyields _ (ihCalled (hQ _) rfl)) hform
  | fail called ih => cases hform

/-- What passes through every call holds of all forms that evaluation gives. -/
theorem forall_of_yields
    (hQ : ∀ c, (scope.callTree c).Yields Q Q) {depth : Nat} {e : Expr} {form : NormalForm}
    (h : scope.evalAt depth e = .ok form) :
    Q form := by
  obtain ⟨n, hends⟩ := exists_ends scope (.expr depth e)
  exact hends.of_yields hQ (hQ _) h

/-- A property of forms that evaluation keeps: whatever form it makes of forms with the property,
or takes out of one of them, has the property too. -/
structure Keeps (scope : Scope) (Q : NormalForm → Prop) : Prop where
  literal (value : Literal) : Q (.literal value)
  closure (params : List String) (body : Expr) : Q (.closure params body)
  cond {name : String} {thenForm : NormalForm} {elseForm : Option NormalForm}
      (condition : Q (.ident name)) (thenBranch : Q thenForm)
      (elseBranch : ∀ form ∈ elseForm, Q form) :
    Q (.cond name thenForm elseForm)
  tuple {elems : List NormalForm} (parts : ∀ form ∈ elems, Q form) : Q (.tuple elems)
  elem {elems : List NormalForm} {form : NormalForm} (whole : Q (.tuple elems))
      (mem : form ∈ elems) :
    Q form
  structLit (type : String) {fields : List (String × NormalForm)}
      (parts : ∀ field ∈ fields, Q field.2) :
    Q (.structLit (((scope.resolveType type).map Prod.fst).getD type) fields)
  field {type name : String} {fields : List (String × NormalForm)} {form : NormalForm}
      (whole : Q (.structLit type fields)) (found : Table.find? fields name = some form) :
    Q form
  tycon {name : String} {found : String × Definition} {args : List NormalForm}
      (resolved : scope.resolveType name = some found) (parts : ∀ form ∈ args, Q form) :
    Q (.tycon found.1 args)
  nested {owner name : String} {d inner : Definition} (resolved : scope.lookupType owner = some d)
      (found : d.nested? name = some inner) :
    Q (.tycon (Name.qualified owner name) [])
  ident {name : String} (noType : scope.lookup name = none → scope.resolveType name = none) :
    Q (.ident name)
  arrow {params : List NormalForm} {result : NormalForm} (parts : ∀ form ∈ params, Q form)
      (last : Q result) :
    Q (.arrow params result)
  app {fn : NormalForm} {args : List NormalForm} (function : Q fn)
      (parts : ∀ form ∈ args, Q form) :
    Q (.app fn args)
  member {base : NormalForm} {selector : Selector} (whole : Q base)
      (stuck : ∀ span, scope.selectHead base selector span = .ok (.done (.member base selector))) :
    Q (.member base selector)
  memberOfType {owner : String} {d : Definition} (resolved : scope.lookupType owner = some d)
      (name : String) :
    Q (.member (.tycon owner []) (.named name))

theorem Keeps.symbolic_ofEntry
    (h : scope.Keeps Q) {symbolic : NormalForm} (hsymbolic : Q symbolic) (entry : Entry) :
    Q (Head.ofEntry symbolic entry).symbolic := by
  cases entry with
  | binding value scheme =>
      cases value with
      | none | some => exact hsymbolic
  | function params body scheme =>
      cases body with
      | none => exact hsymbolic
      | some body => exact h.closure params body

theorem Keeps.symbolic_nameHead (h : scope.Keeps Q) (name : String) :
    Q (scope.nameHead name).symbolic := by
  rw [nameHead]
  cases hlookup : scope.lookup name with
  | some entry =>
      refine h.symbolic_ofEntry (h.ident ?_) entry
      intro hnone
      rw [hlookup] at hnone
      cases hnone
  | none =>
      cases hresolve : scope.resolveType name with
      | none => exact h.ident fun _ => hresolve
      | some found => exact h.tycon hresolve (by simp)

theorem Keeps.symbolic_selectHead
    (h : scope.Keeps Q) {base : NormalForm} {selector : Selector} {span : Span} {head : Head}
    (hbase : Q base) (selected : scope.selectHead base selector span = .ok head) :
    Q head.symbolic := by
  cases base with
  | tuple elems =>
      cases selector with
      | named name => cases selected
      | index position =>
          rw [selectHead] at selected
          split at selected
          · rename_i form hform
            cases selected
            exact h.elem hbase (List.mem_of_getElem? hform)
          · cases selected
  | structLit type fields =>
      cases selector with
      | index position => cases selected
      | named name =>
          rw [selectHead] at selected
          split at selected
          · rename_i form hform
            cases selected
            exact h.field hbase hform
          · split at selected
            · rename_i entry hentry
              cases selected
              obtain ⟨d, hd, -⟩ := Option.bind_eq_some_iff.1 hentry
              exact h.symbolic_ofEntry (h.memberOfType hd name) entry
            · cases selected
  | tycon type args =>
      cases selector with
      | index position => cases selected
      | named name =>
          rw [selectHead] at selected
          split at selected
          · cases selected
          · rename_i d hd
            split at selected
            · rename_i hnested
              cases selected
              obtain ⟨inner, hinner⟩ := Option.isSome_iff_exists.1 hnested
              exact h.nested hd hinner
            · split at selected
              · rename_i entry hentry
                cases selected
                exact h.symbolic_ofEntry (h.memberOfType hd name) entry
              · cases selected
  | ident | app | member | cond =>
      cases selected
      exact h.member hbase fun _ => rfl
  | closure | literal | arrow => cases selected

open CallTree in
theorem Keeps.yields_callTree (h : scope.Keeps Q) (c : Call) : (scope.callTree c).Yields Q Q := by
  cases c with
  | expr depth e =>
      cases e with
      | literal value span => exact yields_pure (h.literal value)
      | ident name span => exact yields_head depth (h.symbolic_nameHead name)
      | closure params body span => exact yields_pure (h.closure _ body)
      | app fn args span =>
          refine (yields_expr depth fn).bind fun fn hfn => (yields_all depth args).bind
            fun args hargs => yields_head depth ?_
          rw [Head.symbolic_ofApp]
          exact h.app hfn hargs
      | cond condition thenBranch elseBranch span =>
          cases elseBranch with
          | none =>
              refine (yields_expr depth condition).bind fun form hform => ?_
              split
              · exact yields_expr depth thenBranch
              · exact yields_pure (h.tuple (by simp))
              · exact (yields_expr depth thenBranch).bind fun _ hthen =>
                  yields_pure (h.cond hform hthen (by simp))
              · exact trivial
          | some elseBranch =>
              refine (yields_expr depth condition).bind fun form hform => ?_
              split
              · exact yields_expr depth thenBranch
              · exact yields_expr depth elseBranch
              · exact (yields_expr depth thenBranch).bind fun _ hthen =>
                  (yields_expr depth elseBranch).bind fun _ helse =>
                    yields_pure (h.cond hform hthen (by simpa using helse))
              · exact trivial
      | member base selector span =>
          refine (yields_expr depth base).bind fun form hform => ?_
          exact (yields_done fun _ hselected => h.symbolic_selectHead hform hselected).bind
            fun _ hhead => yields_head depth hhead
      | tuple elems span =>
          exact (yields_all depth elems).bind fun _ hforms => yields_pure (h.tuple hforms)
      | structLit type values span =>
          exact (yields_fields depth values).bind fun _ hforms =>
            yields_pure (h.structLit type hforms)
      | tycon name args span =>
          rw [callTree]
          split
          · rename_i found hfound
            exact (yields_all depth args).bind fun _ hforms => yields_pure (h.tycon hfound hforms)
          · rename_i hnone
            exact yields_pure (h.ident fun _ => hnone)
      | arrow params result span =>
          exact (yields_all depth params).bind fun _ hforms =>
            (yields_expr depth result).bind fun _ hform => yields_pure (h.arrow hforms hform)
      | block body span => exact yields_items depth body
  | items depth body =>
      cases body with
      | nil => exact yields_pure (h.tuple (by simp))
      | cons item rest =>
          cases item with
          | expr e =>
              cases rest with
              | nil => exact yields_expr depth e
              | cons next rest => exact yields_items depth (next :: rest)
          | binding b =>
              obtain ⟨name, modifiers, ascription, value, span⟩ := b
              cases value with
              | none => exact yields_items depth rest
              | some value =>
                  -- the form of the value is evaluated again wherever it is put, so what is
                  -- known of it is not needed
                  exact (yields_expr depth value).bind fun form _ => yields_items depth _

end Scope

end Ascribe
