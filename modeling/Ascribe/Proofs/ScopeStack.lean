import Ascribe.Proofs.Counting

/-!
# Inference on a stack of scopes

`Scope.infer` is given the names that the closures and blocks around a place bind.  Here they are
part of the state instead, as a stack with one frame for each closure and each block.  A frame is
pushed before a body is walked and popped after it, the frame of a block is filled while the
block is walked, and a step may fail anywhere in between.

Both ways give the same (`Scope.follows_inferOnStack`): inference on a stack does what `infer`
does with the frames that it finds there, and leaves them as they were, also when it fails.  Only
the items of a block change a frame, and it is the one that is popped at the end of the block.
-/

namespace Ascribe

/-- What inference has used and collected so far, with the names that are in reach. -/
structure StackState (σ : Type) extends InferState σ where
  locals : Locals

/-- Inference steps on a stack: they may fail and keep their state when they do. -/
abbrev OnStack (σ : Type) :=
  EStateM TypeError (StackState σ)

namespace OnStack

variable {σ α β : Type}

/-- The outcome of a step without a stack, with the given stack. -/
def resume (locals : Locals) :
    EStateM.Result TypeError (InferState σ) α → EStateM.Result TypeError (StackState σ) α
  | .ok a state => .ok a ⟨state, locals⟩
  | .error e state => .error e ⟨state, locals⟩

/-- A step that reads the stack. -/
def reading (x : Locals → Infer σ α) : OnStack σ α := fun state =>
  resume state.locals (x state.locals state.toInferState)

/-- A step that has nothing to do with the stack. -/
def step (x : Infer σ α) : OnStack σ α :=
  reading fun _ => x

/-- The state without the innermost frame. -/
def pop (state : StackState σ) : StackState σ :=
  { state with locals := state.locals.tail }

/-- Run a step with one more frame on the stack.  The innermost frame is popped at the end,
whether the step fails or not. -/
def withFrame (frame : Table Scheme) (x : OnStack σ α) : OnStack σ α := fun state =>
  match x { state with locals := frame :: state.locals } with
  | .ok a final => .ok a (pop final)
  | .error e final => .error e (pop final)

/-- Fail if the innermost frame has a name. -/
def refuseDeclared (name : String) (span : Span) : OnStack σ Unit :=
  reading fun locals =>
    if locals.head?.any fun own => own.contains name then Infer.fail (.redeclaration name) span
    else pure ()

/-- Put a name into the innermost frame. -/
def declare (name : String) (scheme : Scheme) : OnStack σ Unit := fun state =>
  match state.locals with
  | [] => .ok () state
  | own :: outer => .ok () { state with locals := own.add name scheme :: outer }

end OnStack

namespace Scope

open Infer OnStack

variable {σ : Type} [VarSource σ]

mutual

/-- `infer` with the local names on a stack. -/
def inferOnStack (scope : Scope) : Expr → OnStack σ TypedExpr
  | .literal value span => return .literal value span value.ty
  | .ident name span => do
      let scheme ← reading fun locals => lift (scope.valueScheme locals name span)
      return .ident name span (← step (instantiate scheme))
  | .closure params body span => do
      let bound ← step (scope.inferParams [] params)
      let body ← withFrame (bound.map fun p => (p.1, .mono p.2)) (inferOnStack scope body)
      return .closure params body span (.arrow (bound.map Prod.snd) body.ty)
  | .app fn args span => do
      let fn ← inferOnStack scope fn
      let args ← inferAllOnStack scope args
      let result ← step fresh
      step (constrain (.equal fn.ty (.arrow (args.map TypedExpr.ty) result) span))
      return .app fn args span result
  | .cond condition thenBranch none span => do
      let test ← inferOnStack scope condition
      step (constrain (.equal test.ty .bool condition.span))
      let thenBranch ← inferOnStack scope thenBranch
      step (constrain (.equal thenBranch.ty .unit span))
      return .cond test thenBranch none span thenBranch.ty
  | .cond condition thenBranch (some elseBranch) span => do
      let test ← inferOnStack scope condition
      step (constrain (.equal test.ty .bool condition.span))
      let thenBranch ← inferOnStack scope thenBranch
      let other ← inferOnStack scope elseBranch
      step (constrain (.equal thenBranch.ty other.ty elseBranch.span))
      return .cond test thenBranch (some other) span thenBranch.ty
  | .member base selector span => do
      match ← reading fun locals => pure (scope.typeName? locals base) with
      | some owner =>
          let scheme ← step (lift (scope.staticMember (.named owner) owner selector span))
          return .member (base.ascribe (.named owner)) selector span
            (← step (instantiate scheme))
      | none =>
          let base ← inferOnStack scope base
          match ← step (lift (scope.select base.ty selector span)) with
          | some scheme => return .member base selector span (← step (instantiate scheme))
          | none =>
              let t ← step fresh
              step (constrain (.member ⟨base.ty, selector, t, span⟩))
              return .member base selector span t
  | .tuple elems span => do
      let elems ← inferAllOnStack scope elems
      return .tuple elems span (.tuple (elems.map TypedExpr.ty))
  | .structLit type fields span =>
      match scope.resolveType type with
      | none => step (fail (.unknownType type) span)
      | some (owner, d) => do
          let fields ← inferFieldsOnStack scope (.named owner) d fields
          return .structLit type fields span (.named owner)
  | .tycon name args span =>
      step (fail (.notAValue (Expr.tycon name args span).render) span)
  | .arrow params result span =>
      step (fail (.notAValue (Expr.arrow params result span).render) span)
  | .block items span => do
      let (items, t) ← withFrame [] (inferItemsOnStack scope .unit items)
      return .block items span t
termination_by structural e => e

def inferAllOnStack (scope : Scope) : List Expr → OnStack σ (List TypedExpr)
  | [] => return []
  | e :: es => do
      let typed ← inferOnStack scope e
      let rest ← inferAllOnStack scope es
      return typed :: rest
termination_by structural es => es

def inferFieldsOnStack (scope : Scope) (owner : Ty) (d : Definition) :
    List (String × Expr) → OnStack σ (List (String × TypedExpr))
  | [] => return []
  | (name, value) :: rest => do
      let typed ← inferOnStack scope value
      let scheme ← step (lift (fieldScheme owner d name value.span))
      let t ← step (instantiate scheme)
      step (constrain (.equal t typed.ty value.span))
      let rest ← inferFieldsOnStack scope owner d rest
      return (name, typed) :: rest
termination_by structural fields => fields

/-- `inferItems` with the local names on a stack, the names that the block has bound being
innermost. -/
def inferItemsOnStack (scope : Scope) (last : Ty) :
    List (Item Expr Expr) → OnStack σ (List (Item Expr TypedExpr) × Ty)
  | [] => return ([], last)
  | .expr e :: rest => do
      let typed ← inferOnStack scope e
      let (items, t) ← inferItemsOnStack scope typed.ty rest
      return (.expr typed :: items, t)
  | .binding ⟨name, modifiers, ascription, none, span⟩ :: rest => do
      refuseDeclared name span
      let bound ← step (scope.inferLocalTy name ascription none span)
      declare name (.mono bound)
      let (items, t) ← inferItemsOnStack scope .unit rest
      return (.binding ⟨name, modifiers, ascription, none, span⟩ :: items, t)
  | .binding ⟨name, modifiers, ascription, some value, span⟩ :: rest => do
      refuseDeclared name span
      let typed ← inferOnStack scope value
      let bound ← step (scope.inferLocalTy name ascription (some (typed.ty, value.span)) span)
      declare name (.mono bound)
      let (items, t) ← inferItemsOnStack scope .unit rest
      return (.binding ⟨name, modifiers, ascription, some typed, span⟩ :: items, t)
termination_by structural items => items

end

end Scope

/-! ## Steps with and without a stack -/

namespace OnStack

open Infer

variable {σ α β : Type} {locals outer : Locals} {own : Table Scheme}

/-- On the given stack a step does what another one does without a stack, and leaves the stack as
it was. -/
def Follows (locals : Locals) (x : OnStack σ α) (y : Infer σ α) : Prop :=
  ∀ state, x ⟨state, locals⟩ = resume locals (y state)

/-- On the given stack, its innermost frame apart, a step does what another one does without a
stack.  It may change that frame but no other one. -/
def FollowsWithin (outer : Locals) (own : Table Scheme) (x : OnStack σ α) (y : Infer σ α) :
    Prop :=
  ∀ state, ∃ left, x ⟨state, own :: outer⟩ = resume (left :: outer) (y state)

theorem follows_pure (a : α) : Follows (σ := σ) locals (pure a) (pure a) :=
  fun _ => rfl

theorem follows_reading (x : Locals → Infer σ α) : Follows locals (reading x) (x locals) :=
  fun _ => rfl

theorem follows_step (x : Infer σ α) : Follows locals (step x) x :=
  fun _ => rfl

theorem Follows.bind
    {x : OnStack σ α} {y : Infer σ α} {f : α → OnStack σ β} {g : α → Infer σ β}
    (hx : Follows locals x y) (hf : ∀ a, Follows locals (f a) (g a)) :
    Follows locals (x >>= f) (y >>= g) := by
  intro state
  simp only [Bind.bind, EStateM.bind, hx state]
  cases y state with
  | ok a next => exact hf a next
  | error e next => rfl

/-- What is read off the stack can be used at once. -/
theorem Follows.reading_pure_bind
    {x : Locals → α} {f : α → OnStack σ β} {y : Infer σ β}
    (h : Follows locals (f (x locals)) y) :
    Follows locals (reading (fun locals => pure (x locals)) >>= f) y :=
  h

theorem Follows.within {x : OnStack σ α} {y : Infer σ α} (h : Follows (own :: outer) x y) :
    FollowsWithin outer own x y :=
  fun state => ⟨own, h state⟩

namespace FollowsWithin

theorem bind
    {x : OnStack σ α} {y : Infer σ α} {f : α → OnStack σ β} {g : α → Infer σ β}
    (hx : Follows (own :: outer) x y) (hf : ∀ a, FollowsWithin outer own (f a) (g a)) :
    FollowsWithin outer own (x >>= f) (y >>= g) := by
  intro state
  simp only [Bind.bind, EStateM.bind, hx state]
  cases y state with
  | ok a next => exact hf a next
  | error e next => exact ⟨own, rfl⟩

theorem bind_pure
    {x : OnStack σ α} {y : Infer σ α} (h : FollowsWithin outer own x y) (f : α → β) :
    FollowsWithin outer own (x >>= fun a => pure (f a)) (y >>= fun a => pure (f a)) := by
  intro state
  obtain ⟨left, hleft⟩ := h state
  refine ⟨left, ?_⟩
  simp only [Bind.bind, EStateM.bind, hleft]
  cases y state with
  | ok a next => rfl
  | error e next => rfl

theorem declare_bind
    {f : Unit → OnStack σ α} {y : Infer σ α} {name : String} {scheme : Scheme}
    (h : FollowsWithin outer (own.add name scheme) (f ()) y) :
    FollowsWithin outer own (declare name scheme >>= f) y :=
  h

theorem refuseDeclared_bind
    {f : Unit → OnStack σ α} {g : Unit → Infer σ α} {name : String} {span : Span}
    (h : ∀ u, FollowsWithin outer own (f u) (g u)) :
    FollowsWithin outer own (refuseDeclared name span >>= f)
      (if own.contains name = true then fail (.redeclaration name) span >>= g else g ()) := by
  have hrefuse : Follows (σ := σ) (own :: outer) (refuseDeclared name span)
      (if own.contains name = true then fail (.redeclaration name) span else pure ()) :=
    follows_reading _
  have hbind := FollowsWithin.bind hrefuse h
  split
  · rwa [if_pos ‹_›] at hbind
  · rwa [if_neg ‹_›] at hbind

/-- A frame that is pushed for a step is gone after it, whatever the step has made of it. -/
theorem withFrame {x : OnStack σ α} {y : Infer σ α} (h : FollowsWithin outer own x y) :
    Follows outer (withFrame own x) y := by
  intro state
  obtain ⟨left, hleft⟩ := h state
  simp only [OnStack.withFrame, hleft]
  cases y state with
  | ok a next => rfl
  | error e next => rfl

end FollowsWithin

end OnStack

/-! ## Inference with and without a stack -/

namespace Scope

open Infer OnStack

attribute [local simp] infer inferAll inferFields inferItems
attribute [local simp] inferOnStack inferAllOnStack inferFieldsOnStack inferItemsOnStack

variable {σ : Type} [VarSource σ] {scope : Scope}

mutual

/-- Inference on a stack is inference with the frames of the stack. -/
theorem follows_inferOnStack :
    ∀ (e : Expr) (locals : Locals),
      Follows (σ := σ) locals (scope.inferOnStack e) (scope.infer locals e)
  | .literal value span, locals => by
      rw [infer, inferOnStack]
      exact follows_pure _
  | .ident name span, locals => by
      rw [infer, inferOnStack]
      refine (follows_reading _).bind fun scheme => ?_
      exact (follows_step _).bind fun t => follows_pure _
  | .closure params body span, locals => by
      rw [infer, inferOnStack]
      refine (follows_step _).bind fun bound => ?_
      refine (follows_inferOnStack body _).within.withFrame.bind fun typedBody => ?_
      exact follows_pure _
  | .app fn args span, locals => by
      rw [infer, inferOnStack]
      refine (follows_inferOnStack fn locals).bind fun typedFn => ?_
      refine (follows_inferAllOnStack args locals).bind fun typedArgs => ?_
      refine (follows_step _).bind fun result => ?_
      exact (follows_step _).bind fun _ => follows_pure _
  | .cond condition thenBranch none span, locals => by
      rw [infer, inferOnStack]
      refine (follows_inferOnStack condition locals).bind fun test => ?_
      refine (follows_step _).bind fun _ => ?_
      refine (follows_inferOnStack thenBranch locals).bind fun typedThen => ?_
      exact (follows_step _).bind fun _ => follows_pure _
  | .cond condition thenBranch (some elseBranch) span, locals => by
      rw [infer, inferOnStack]
      refine (follows_inferOnStack condition locals).bind fun test => ?_
      refine (follows_step _).bind fun _ => ?_
      refine (follows_inferOnStack thenBranch locals).bind fun typedThen => ?_
      refine (follows_inferOnStack elseBranch locals).bind fun typedElse => ?_
      exact (follows_step _).bind fun _ => follows_pure _
  | .member base selector span, locals => by
      rw [infer, inferOnStack]
      refine Follows.reading_pure_bind ?_
      cases scope.typeName? locals base with
      | some owner =>
          refine (follows_step _).bind fun scheme => ?_
          exact (follows_step _).bind fun t => follows_pure _
      | none =>
          refine (follows_inferOnStack base locals).bind fun typedBase => ?_
          refine (follows_step _).bind fun found => ?_
          cases found with
          | some scheme => exact (follows_step _).bind fun t => follows_pure _
          | none =>
              refine (follows_step _).bind fun t => ?_
              exact (follows_step _).bind fun _ => follows_pure _
  | .tuple elems span, locals => by
      rw [infer, inferOnStack]
      exact (follows_inferAllOnStack elems locals).bind fun typedElems => follows_pure _
  | .structLit type fields span, locals => by
      rw [infer, inferOnStack]
      cases scope.resolveType type with
      | none => exact follows_step _
      | some found =>
          exact (follows_inferFieldsOnStack fields locals _ _).bind fun typed => follows_pure _
  | .tycon name args span, locals => by
      rw [infer, inferOnStack]
      exact follows_step _
  | .arrow params result span, locals => by
      rw [infer, inferOnStack]
      exact follows_step _
  | .block items span, locals => by
      rw [infer, inferOnStack]
      refine (followsWithin_inferItemsOnStack items locals [] .unit).withFrame.bind fun typed => ?_
      exact follows_pure _
termination_by structural e => e

theorem follows_inferAllOnStack :
    ∀ (es : List Expr) (locals : Locals),
      Follows (σ := σ) locals (scope.inferAllOnStack es) (scope.inferAll locals es)
  | [], locals => by
      rw [inferAll, inferAllOnStack]
      exact follows_pure _
  | e :: es, locals => by
      rw [inferAll, inferAllOnStack]
      refine (follows_inferOnStack e locals).bind fun typed => ?_
      exact (follows_inferAllOnStack es locals).bind fun rest => follows_pure _
termination_by structural es => es

theorem follows_inferFieldsOnStack :
    ∀ (fields : List (String × Expr)) (locals : Locals) (owner : Ty) (d : Definition),
      Follows (σ := σ) locals (scope.inferFieldsOnStack owner d fields)
        (scope.inferFields locals owner d fields)
  | [], locals, owner, d => by
      rw [inferFields, inferFieldsOnStack]
      exact follows_pure _
  | (name, value) :: fields, locals, owner, d => by
      rw [inferFields, inferFieldsOnStack]
      refine (follows_inferOnStack value locals).bind fun typed => ?_
      refine (follows_step _).bind fun scheme => ?_
      refine (follows_step _).bind fun t => ?_
      refine (follows_step _).bind fun _ => ?_
      exact (follows_inferFieldsOnStack fields locals owner d).bind fun rest => follows_pure _
termination_by structural fields => fields

/-- The items of a block are walked with the frame of the block innermost, and they only add
to it. -/
theorem followsWithin_inferItemsOnStack :
    ∀ (items : List (Item Expr Expr)) (locals : Locals) (own : Table Scheme) (last : Ty),
      FollowsWithin (σ := σ) locals own (scope.inferItemsOnStack last items)
        (scope.inferItems locals own last items)
  | [], locals, own, last => by
      rw [inferItems, inferItemsOnStack]
      exact (follows_pure _).within
  | .expr e :: items, locals, own, last => by
      rw [inferItems, inferItemsOnStack]
      refine .bind (follows_inferOnStack e (own :: locals)) fun typed => ?_
      exact (followsWithin_inferItemsOnStack items locals own typed.ty).bind_pure _
  | .binding ⟨name, modifiers, ascription, none, span⟩ :: items, locals, own, last => by
      rw [inferItems, inferItemsOnStack]
      refine .refuseDeclared_bind fun _ => ?_
      refine .bind (follows_step _) fun bound => ?_
      refine .declare_bind ?_
      exact (followsWithin_inferItemsOnStack items locals _ .unit).bind_pure _
  | .binding ⟨name, modifiers, ascription, some value, span⟩ :: items, locals, own, last => by
      rw [inferItems, inferItemsOnStack]
      refine .refuseDeclared_bind fun _ => ?_
      refine .bind (follows_inferOnStack value (own :: locals)) fun typed => ?_
      refine .bind (follows_step _) fun bound => ?_
      refine .declare_bind ?_
      exact (followsWithin_inferItemsOnStack items locals _ .unit).bind_pure _
termination_by structural items => items

end

end Scope

/-! ## What inference leaves behind -/

namespace Scope

end Scope

end Ascribe
