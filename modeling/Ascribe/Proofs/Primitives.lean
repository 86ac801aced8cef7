import Ascribe.Inference

/-!
# The primitive steps of inference

Inference is made of a few primitive steps: it looks something up that may not be there, fails,
collects a constraint, takes a fresh variable or takes a fresh instance of a scheme.  Only the
last two depend on where fresh variables come from.  So what relates two sources on the primitive
steps, and is kept by sequences, relates them on every expression (`Scope.respects_infer`).
-/

namespace Ascribe

namespace Infer

variable {σ τ : Type} [VarSource σ] [VarSource τ]

/-- A relation between steps with two sources of variables that holds of the primitive steps and
of sequences of related steps. -/
structure Respected (R : {α : Type} → Infer σ α → Infer τ α → Prop) : Prop where
  pure {α : Type} (a : α) : R (pure a) (pure a)
  lift {α : Type} (x : Except TypeError α) : R (lift x) (lift x)
  fail {α : Type} (cause : Cause) (span : Span) : R (α := α) (fail cause span) (fail cause span)
  constrain (c : Constraint) : R (constrain c) (constrain c)
  fresh : R fresh fresh
  instantiate (scheme : Scheme) : R (instantiate scheme) (instantiate scheme)
  bind {α β : Type} {x : Infer σ α} {y : Infer τ α} {f : α → Infer σ β} {g : α → Infer τ β}
    (first : R x y) (rest : ∀ a, R (f a) (g a)) : R (x >>= f) (y >>= g)

theorem Respected.guard
    {R : {α : Type} → Infer σ α → Infer τ α → Prop} (h : Respected R) {α : Type} {b : Bool}
    {cause : Cause} {span : Span} {f : Unit → Infer σ α} {g : Unit → Infer τ α}
    (rest : ∀ u, R (f u) (g u)) :
    R (if b = true then Infer.fail cause span >>= f else f ())
      (if b = true then Infer.fail cause span >>= g else g ()) := by
  cases b with
  | true => exact h.bind (h.fail cause span) rest
  | false => exact rest ()

end Infer

namespace Scope

open Infer

attribute [local simp] infer inferAll inferFields inferItems inferParams

variable {σ τ : Type} [VarSource σ] [VarSource τ] {scope : Scope}
  {R : {α : Type} → Infer σ α → Infer τ α → Prop}

theorem respects_inferParams (h : Respected R) (params : List (Param Expr)) (bound : Table Ty) :
    R (scope.inferParams bound params) (scope.inferParams bound params) := by
  induction params generalizing bound with
  | nil =>
      rw [inferParams, inferParams]
      exact h.pure bound
  | cons p rest ih =>
      rw [inferParams, inferParams]
      refine h.guard fun _ => ?_
      cases p.ascription with
      | some ascription => exact h.bind (h.lift _) fun t => ih (bound.add p.name t)
      | none => exact h.bind h.fresh fun t => ih (bound.add p.name t)

theorem respects_inferLocalTy
    (h : Respected R) (name : String) (ascription : Option Expr) (value : Option (Ty × Span))
    (span : Span) :
    R (scope.inferLocalTy name ascription value span)
      (scope.inferLocalTy name ascription value span) := by
  unfold inferLocalTy
  split
  · exact h.lift _
  · refine h.bind (h.lift _) fun annotated => ?_
    exact h.bind (h.constrain _) fun _ => h.pure annotated
  · exact h.pure _
  · exact h.fail _ _

mutual

/-- What is respected by the primitive steps is respected by inference on every expression. -/
theorem respects_infer (h : Respected R) :
    ∀ (e : Expr) (locals : Locals), R (scope.infer locals e) (scope.infer locals e)
  | .literal value span, locals => by
      rw [infer, infer]
      exact h.pure _
  | .ident name span, locals => by
      rw [infer, infer]
      refine h.bind (h.lift _) fun scheme => ?_
      exact h.bind (h.instantiate scheme) fun t => h.pure _
  | .closure params body span, locals => by
      rw [infer, infer]
      refine h.bind (respects_inferParams h params []) fun bound => ?_
      exact h.bind (respects_infer h body _) fun typedBody => h.pure _
  | .app fn args span, locals => by
      rw [infer, infer]
      refine h.bind (respects_infer h fn locals) fun typedFn => ?_
      refine h.bind (respects_inferAll h args locals) fun typedArgs => ?_
      refine h.bind h.fresh fun result => ?_
      exact h.bind (h.constrain _) fun _ => h.pure _
  | .cond condition thenBranch none span, locals => by
      rw [infer, infer]
      refine h.bind (respects_infer h condition locals) fun test => ?_
      refine h.bind (h.constrain _) fun _ => ?_
      refine h.bind (respects_infer h thenBranch locals) fun typedThen => ?_
      exact h.bind (h.constrain _) fun _ => h.pure _
  | .cond condition thenBranch (some elseBranch) span, locals => by
      rw [infer, infer]
      refine h.bind (respects_infer h condition locals) fun test => ?_
      refine h.bind (h.constrain _) fun _ => ?_
      refine h.bind (respects_infer h thenBranch locals) fun typedThen => ?_
      refine h.bind (respects_infer h elseBranch locals) fun typedElse => ?_
      exact h.bind (h.constrain _) fun _ => h.pure _
  | .member base selector span, locals => by
      rw [infer, infer]
      cases scope.typeName? locals base with
      | some owner =>
          refine h.bind (h.lift _) fun scheme => ?_
          exact h.bind (h.instantiate scheme) fun t => h.pure _
      | none =>
          refine h.bind (respects_infer h base locals) fun typedBase => ?_
          refine h.bind (h.lift _) fun found => ?_
          cases found with
          | some scheme => exact h.bind (h.instantiate scheme) fun t => h.pure _
          | none =>
              refine h.bind h.fresh fun t => ?_
              exact h.bind (h.constrain _) fun _ => h.pure _
  | .tuple elems span, locals => by
      rw [infer, infer]
      exact h.bind (respects_inferAll h elems locals) fun typedElems => h.pure _
  | .structLit type fields span, locals => by
      rw [infer, infer]
      cases scope.resolveType type with
      | none => exact h.fail _ _
      | some found =>
          exact h.bind (respects_inferFields h fields locals _ _) fun typed => h.pure _
  | .tycon name args span, locals => by
      rw [infer, infer]
      exact h.fail _ _
  | .arrow params result span, locals => by
      rw [infer, infer]
      exact h.fail _ _
  | .block items span, locals => by
      rw [infer, infer]
      exact h.bind (respects_inferItems h items locals [] .unit) fun typed => h.pure _
termination_by structural e => e

theorem respects_inferAll (h : Respected R) :
    ∀ (es : List Expr) (locals : Locals), R (scope.inferAll locals es) (scope.inferAll locals es)
  | [], locals => by
      rw [inferAll, inferAll]
      exact h.pure _
  | e :: es, locals => by
      rw [inferAll, inferAll]
      refine h.bind (respects_infer h e locals) fun typed => ?_
      exact h.bind (respects_inferAll h es locals) fun rest => h.pure _
termination_by structural es => es

theorem respects_inferFields (h : Respected R) :
    ∀ (fields : List (String × Expr)) (locals : Locals) (owner : Ty) (d : Definition),
      R (scope.inferFields locals owner d fields) (scope.inferFields locals owner d fields)
  | [], locals, owner, d => by
      rw [inferFields, inferFields]
      exact h.pure _
  | (name, value) :: fields, locals, owner, d => by
      rw [inferFields, inferFields]
      refine h.bind (respects_infer h value locals) fun typed => ?_
      refine h.bind (h.lift _) fun scheme => ?_
      refine h.bind (h.instantiate scheme) fun t => ?_
      refine h.bind (h.constrain _) fun _ => ?_
      exact h.bind (respects_inferFields h fields locals owner d) fun rest => h.pure _
termination_by structural fields => fields

theorem respects_inferItems (h : Respected R) :
    ∀ (items : List (Item Expr Expr)) (locals : Locals) (own : Table Scheme) (last : Ty),
      R (scope.inferItems locals own last items) (scope.inferItems locals own last items)
  | [], locals, own, last => by
      rw [inferItems, inferItems]
      exact h.pure _
  | .expr e :: items, locals, own, last => by
      rw [inferItems, inferItems]
      refine h.bind (respects_infer h e (own :: locals)) fun typed => ?_
      exact h.bind (respects_inferItems h items locals own typed.ty) fun rest => h.pure _
  | .binding ⟨name, modifiers, ascription, none, span⟩ :: items, locals, own, last => by
      rw [inferItems, inferItems]
      refine h.guard fun _ => ?_
      refine h.bind (respects_inferLocalTy h name ascription none span) fun bound => ?_
      exact h.bind (respects_inferItems h items locals _ .unit) fun rest => h.pure _
  | .binding ⟨name, modifiers, ascription, some value, span⟩ :: items, locals, own, last => by
      rw [inferItems, inferItems]
      refine h.guard fun _ => ?_
      refine h.bind (respects_infer h value (own :: locals)) fun typed => ?_
      refine h.bind (respects_inferLocalTy h name ascription _ span) fun bound => ?_
      exact h.bind (respects_inferItems h items locals _ .unit) fun rest => h.pure _
termination_by structural items => items

end

end Scope

end Ascribe
