import Ascribe.Inference
import Ascribe.Proofs.TypedExpr

/-!
# What generation does on each form

One equivalence for each form of expression: what a successful run of `infer` on it did,
which runs on the parts it made, which fresh variables it took and which constraints it
added.  Everything else about generation is derived from these.
-/

namespace Ascribe

namespace InferState

/-- The state with one more constraint. -/
def emit (state : InferState Supply) (c : Constraint) : InferState Supply :=
  { state with constraints := state.constraints ++ [c] }

/-- The state after taking a fresh variable. -/
def skip (state : InferState Supply) : InferState Supply :=
  { state with supply := ⟨state.supply.next + 1⟩ }

/-- The type that a fresh variable of the state has. -/
def var (state : InferState Supply) : Ty :=
  .var state.supply.next

/-- A fresh instance of a scheme. -/
def inst (state : InferState Supply) (scheme : Scheme) : Ty :=
  (state.supply.instantiate scheme).1

/-- The state after taking a fresh instance of a scheme. -/
def skipInst (state : InferState Supply) (scheme : Scheme) : InferState Supply :=
  { state with supply := (state.supply.instantiate scheme).2 }

end InferState

/-! ## Steps -/

theorem bind_eq_ok
    {ε σ α β : Type} {x : EStateM ε σ α} {f : α → EStateM ε σ β} {state final : σ} {b : β} :
    (x >>= f) state = .ok b final ↔
      ∃ a middle, x state = .ok a middle ∧ f a middle = .ok b final := by
  simp only [bind, EStateM.bind]
  cases x state with
  | ok a middle =>
      constructor
      · intro h
        exact ⟨a, middle, rfl, h⟩
      · rintro ⟨a', middle', h, h'⟩
        cases h
        exact h'
  | error e middle => simp

theorem pure_eq_ok {ε σ α : Type} {state final : σ} {a b : α} :
    (pure a : EStateM ε σ α) state = .ok b final ↔ b = a ∧ final = state := by
  simp only [pure, EStateM.pure, EStateM.Result.ok.injEq]
  grind

theorem throw_ne_ok {ε σ α : Type} {e : ε} {state final : σ} {a : α} :
    (throw e : EStateM ε σ α) state ≠ .ok a final := by
  intro h
  cases h

namespace Infer

variable {α : Type} {state final : InferState Supply}

theorem lift_eq_ok {x : Except TypeError α} {a : α} :
    lift x state = .ok a final ↔ x = .ok a ∧ final = state := by
  cases x with
  | ok b => simp only [lift, EStateM.Result.ok.injEq, Except.ok.injEq]; grind
  | error e => simp [lift]

theorem fresh_eq_ok {t : Ty} :
    fresh state = .ok t final ↔ t = state.var ∧ final = state.skip := by
  simp only [fresh, Supply.varSource_fresh, Supply.fresh, EStateM.Result.ok.injEq, InferState.var,
    InferState.skip]
  grind

theorem instantiate_eq_ok {scheme : Scheme} {t : Ty} :
    instantiate scheme state = .ok t final ↔
      t = state.inst scheme ∧ final = state.skipInst scheme := by
  simp only [instantiate, Supply.varSource_instantiate, EStateM.Result.ok.injEq, InferState.inst,
    InferState.skipInst]
  grind

theorem constrain_eq_ok {c : Constraint} {u : Unit} :
    constrain c state = .ok u final ↔ final = state.emit c := by
  simp only [constrain, EStateM.Result.ok.injEq, InferState.emit]
  grind

theorem fail_ne_ok {cause : Cause} {span : Span} {a : α} :
    (fail cause span : Infer Supply α) state ≠ .ok a final :=
  throw_ne_ok

theorem guard_eq_ok
    {β : Type} {b : Bool} {cause : Cause} {span : Span} {k : β → Infer Supply α}
    {x : Infer Supply α} {a : α} :
    (if b then fail cause span >>= k else x) state = .ok a final ↔
      b = false ∧ x state = .ok a final := by
  cases b with
  | true => simp [bind_eq_ok, fail_ne_ok]
  | false => simp

end Infer

namespace Scope

open Infer

attribute [local simp] infer inferAll inferFields inferItems inferParams

variable {scope : Scope} {locals : Locals} {state final : InferState Supply}

/-! ## Expressions -/

theorem infer_literal_eq_ok {value : Literal} {span : Span} {typed : TypedExpr} :
    scope.infer locals (.literal value span) state = .ok typed final ↔
      typed = .literal value span value.ty ∧ final = state := by
  rw [infer, pure_eq_ok]

theorem infer_ident_eq_ok {name : String} {span : Span} {typed : TypedExpr} :
    scope.infer locals (.ident name span) state = .ok typed final ↔
      ∃ scheme, scope.valueScheme locals name span = .ok scheme ∧
        typed = .ident name span (state.inst scheme) ∧ final = state.skipInst scheme := by
  simp only [infer, bind_eq_ok, lift_eq_ok, instantiate_eq_ok, pure_eq_ok]
  grind

theorem infer_closure_eq_ok
    {params : List (Param Expr)} {body : Expr} {span : Span} {typed : TypedExpr} :
    scope.infer locals (.closure params body span) state = .ok typed final ↔
      ∃ bound middle typedBody, scope.inferParams [] params state = .ok bound middle ∧
        scope.infer (bound.map (fun p => (p.1, .mono p.2)) :: locals) body middle =
          .ok typedBody final ∧
        typed = .closure params typedBody span
          (.arrow (bound.map Prod.snd) typedBody.ty) := by
  simp only [infer, bind_eq_ok, pure_eq_ok]
  grind

theorem infer_app_eq_ok {fn : Expr} {args : List Expr} {span : Span} {typed : TypedExpr} :
    scope.infer locals (.app fn args span) state = .ok typed final ↔
      ∃ typedFn middle typedArgs last, scope.infer locals fn state = .ok typedFn middle ∧
        scope.inferAll locals args middle = .ok typedArgs last ∧
        typed = .app typedFn typedArgs span last.var ∧
        final = last.skip.emit
          (.equal typedFn.ty (.arrow (typedArgs.map TypedExpr.ty) last.var) span) := by
  simp only [infer, bind_eq_ok, fresh_eq_ok, constrain_eq_ok, pure_eq_ok]
  grind

theorem infer_condThen_eq_ok
    {condition thenBranch : Expr} {span : Span} {typed : TypedExpr} :
    scope.infer locals (.cond condition thenBranch none span) state = .ok typed final ↔
      ∃ test middle typedThen last, scope.infer locals condition state = .ok test middle ∧
        scope.infer locals thenBranch (middle.emit (.equal test.ty .bool condition.span)) =
          .ok typedThen last ∧
        typed = .cond test typedThen none span typedThen.ty ∧
        final = last.emit (.equal typedThen.ty .unit span) := by
  simp only [infer, bind_eq_ok, constrain_eq_ok, pure_eq_ok]
  grind

theorem infer_condElse_eq_ok
    {condition thenBranch elseBranch : Expr} {span : Span} {typed : TypedExpr} :
    scope.infer locals (.cond condition thenBranch (some elseBranch) span) state =
        .ok typed final ↔
      ∃ test first typedThen second typedElse last,
        scope.infer locals condition state = .ok test first ∧
        scope.infer locals thenBranch (first.emit (.equal test.ty .bool condition.span)) =
          .ok typedThen second ∧
        scope.infer locals elseBranch second = .ok typedElse last ∧
        typed = .cond test typedThen (some typedElse) span typedThen.ty ∧
        final = last.emit (.equal typedThen.ty typedElse.ty elseBranch.span) := by
  simp only [infer, bind_eq_ok, constrain_eq_ok, pure_eq_ok]
  grind

theorem infer_staticMember_eq_ok
    {base : Expr} {selector : Selector} {span : Span} {owner : String} {typed : TypedExpr}
    (names : scope.typeName? locals base = some owner) :
    scope.infer locals (.member base selector span) state = .ok typed final ↔
      ∃ scheme, scope.staticMember (.named owner) owner selector span = .ok scheme ∧
        typed = .member (base.ascribe (.named owner)) selector span (state.inst scheme) ∧
        final = state.skipInst scheme := by
  simp only [infer, names, bind_eq_ok, lift_eq_ok, instantiate_eq_ok, pure_eq_ok]
  grind

/-- A member of a receiver whose provisional type is known is looked up at once, and any
other member is left to the solver. -/
theorem infer_member_eq_ok
    {base : Expr} {selector : Selector} {span : Span} {typed : TypedExpr}
    (plain : scope.typeName? locals base = none) :
    scope.infer locals (.member base selector span) state = .ok typed final ↔
      ∃ typedBase middle, scope.infer locals base state = .ok typedBase middle ∧
        ((∃ scheme, scope.select typedBase.ty selector span = .ok (some scheme) ∧
            typed = .member typedBase selector span (middle.inst scheme) ∧
            final = middle.skipInst scheme) ∨
          (scope.select typedBase.ty selector span = .ok none ∧
            typed = .member typedBase selector span middle.var ∧
            final = middle.skip.emit
              (.member ⟨typedBase.ty, selector, middle.var, span⟩))) := by
  simp only [infer, plain, bind_eq_ok, lift_eq_ok]
  refine exists_congr fun typedBase => exists_congr fun middle => and_congr_right fun _ => ?_
  constructor
  · rintro ⟨found, middle', ⟨hselect, rfl⟩, h⟩
    cases found with
    | some scheme =>
        left
        simp only [bind_eq_ok, instantiate_eq_ok, pure_eq_ok] at h
        grind
    | none =>
        right
        simp only [bind_eq_ok, fresh_eq_ok, constrain_eq_ok, pure_eq_ok] at h
        grind
  · rintro (⟨scheme, hselect, rfl, rfl⟩ | ⟨hselect, rfl, rfl⟩)
    · refine ⟨some scheme, middle, ⟨hselect, rfl⟩, ?_⟩
      simp only [bind_eq_ok, instantiate_eq_ok, pure_eq_ok]
      exact ⟨_, _, ⟨rfl, rfl⟩, rfl, rfl⟩
    · refine ⟨none, middle, ⟨hselect, rfl⟩, ?_⟩
      simp only [bind_eq_ok, fresh_eq_ok, constrain_eq_ok, pure_eq_ok]
      exact ⟨_, _, ⟨rfl, rfl⟩, (), _, rfl, rfl, rfl⟩

theorem infer_tuple_eq_ok {elems : List Expr} {span : Span} {typed : TypedExpr} :
    scope.infer locals (.tuple elems span) state = .ok typed final ↔
      ∃ typedElems, scope.inferAll locals elems state = .ok typedElems final ∧
        typed = .tuple typedElems span (.tuple (typedElems.map TypedExpr.ty)) := by
  simp only [infer, bind_eq_ok, pure_eq_ok]
  grind

theorem infer_structLit_eq_ok
    {type : String} {fields : List (String × Expr)} {span : Span} {typed : TypedExpr} :
    scope.infer locals (.structLit type fields span) state = .ok typed final ↔
      ∃ owner d typedFields, scope.resolveType type = some (owner, d) ∧
        scope.inferFields locals (.named owner) d fields state = .ok typedFields final ∧
        typed = .structLit type typedFields span (.named owner) := by
  rw [infer]
  cases scope.resolveType type with
  | none => simp [fail_ne_ok]
  | some found =>
      obtain ⟨owner, d⟩ := found
      simp only [bind_eq_ok, pure_eq_ok]
      grind

theorem infer_block_eq_ok
    {items : List (Item Expr Expr)} {span : Span} {typed : TypedExpr} :
    scope.infer locals (.block items span) state = .ok typed final ↔
      ∃ typedItems t, scope.inferItems locals [] .unit items state =
          .ok (typedItems, t) final ∧
        typed = .block typedItems span t := by
  simp only [infer, bind_eq_ok, pure_eq_ok]
  grind

theorem infer_tycon_ne_ok
    {name : String} {args : List Expr} {span : Span} {typed : TypedExpr} :
    scope.infer locals (.tycon name args span) state ≠ .ok typed final := by
  rw [infer]
  exact fail_ne_ok

theorem infer_arrow_ne_ok
    {params : List Expr} {result : Expr} {span : Span} {typed : TypedExpr} :
    scope.infer locals (.arrow params result span) state ≠ .ok typed final := by
  rw [infer]
  exact fail_ne_ok

/-! ## Parts of expressions -/

theorem inferAll_nil_eq_ok {typed : List TypedExpr} :
    scope.inferAll locals [] state = .ok typed final ↔ typed = [] ∧ final = state := by
  rw [inferAll, pure_eq_ok]

theorem inferAll_cons_eq_ok {e : Expr} {es : List Expr} {typed : List TypedExpr} :
    scope.inferAll locals (e :: es) state = .ok typed final ↔
      ∃ first middle rest, scope.infer locals e state = .ok first middle ∧
        scope.inferAll locals es middle = .ok rest final ∧ typed = first :: rest := by
  simp only [inferAll, bind_eq_ok, pure_eq_ok]
  grind

theorem inferFields_nil_eq_ok
    {owner : Ty} {d : Definition} {typed : List (String × TypedExpr)} :
    scope.inferFields locals owner d [] state = .ok typed final ↔
      typed = [] ∧ final = state := by
  rw [inferFields, pure_eq_ok]

theorem inferFields_cons_eq_ok
    {owner : Ty} {d : Definition} {name : String} {value : Expr}
    {fields : List (String × Expr)} {typed : List (String × TypedExpr)} :
    scope.inferFields locals owner d ((name, value) :: fields) state = .ok typed final ↔
      ∃ first middle scheme rest, scope.infer locals value state = .ok first middle ∧
        fieldScheme owner d name value.span = .ok scheme ∧
        scope.inferFields locals owner d fields ((middle.skipInst scheme).emit
          (.equal (middle.inst scheme) first.ty value.span)) = .ok rest final ∧
        typed = (name, first) :: rest := by
  simp only [inferFields, bind_eq_ok, lift_eq_ok, instantiate_eq_ok, constrain_eq_ok,
    pure_eq_ok]
  grind

theorem inferParams_nil_eq_ok {bound typed : Table Ty} :
    scope.inferParams bound [] state = .ok typed final ↔ typed = bound ∧ final = state := by
  rw [inferParams, pure_eq_ok]

/-- The type of a parameter is what its annotation denotes, or a fresh variable. -/
theorem inferParams_cons_eq_ok
    {bound typed : Table Ty} {p : Param Expr} {params : List (Param Expr)} :
    scope.inferParams bound (p :: params) state = .ok typed final ↔
      bound.contains p.name = false ∧
        ((∃ ascription t, p.ascription = some ascription ∧
            scope.annotationTy ascription = .ok t ∧
            scope.inferParams (bound.add p.name t) params state = .ok typed final) ∨
          (p.ascription = none ∧
            scope.inferParams (bound.add p.name state.var) params state.skip =
              .ok typed final)) := by
  simp only [inferParams, guard_eq_ok]
  refine and_congr_right fun _ => ?_
  cases hascription : p.ascription with
  | some ascription =>
      simp only [bind_eq_ok, lift_eq_ok]
      grind
  | none =>
      simp only [bind_eq_ok, fresh_eq_ok]
      grind

theorem inferItems_nil_eq_ok
    {own : Table Scheme} {last t : Ty} {typed : List (Item Expr TypedExpr)} :
    scope.inferItems locals own last [] state = .ok (typed, t) final ↔
      typed = [] ∧ t = last ∧ final = state := by
  simp only [inferItems, pure_eq_ok]
  grind

theorem inferItems_expr_eq_ok
    {own : Table Scheme} {last t : Ty} {e : Expr} {items : List (Item Expr Expr)}
    {typed : List (Item Expr TypedExpr)} :
    scope.inferItems locals own last (.expr e :: items) state = .ok (typed, t) final ↔
      ∃ first middle rest, scope.infer (own :: locals) e state = .ok first middle ∧
        scope.inferItems locals own first.ty items middle = .ok (rest, t) final ∧
        typed = .expr first :: rest := by
  simp only [inferItems, bind_eq_ok, pure_eq_ok]
  grind

theorem inferItems_declared_eq_ok
    {own : Table Scheme} {last t : Ty} {name : String} {modifiers : List Modifier}
    {ascription : Option Expr} {span : Span} {items : List (Item Expr Expr)}
    {typed : List (Item Expr TypedExpr)} :
    scope.inferItems locals own last
        (.binding ⟨name, modifiers, ascription, none, span⟩ :: items) state =
        .ok (typed, t) final ↔
      own.contains name = false ∧ ∃ a u rest, ascription = some a ∧
        scope.annotationTy a = .ok u ∧
        scope.inferItems locals (own.add name (.mono u)) .unit items state =
          .ok (rest, t) final ∧
        typed = .binding ⟨name, modifiers, ascription, none, span⟩ :: rest := by
  simp only [inferItems, guard_eq_ok]
  refine and_congr_right fun _ => ?_
  cases ascription with
  | none =>
      simp only [inferLocalTy, bind_eq_ok, pure_eq_ok]
      grind [fail_ne_ok]
  | some a =>
      simp only [inferLocalTy, bind_eq_ok, lift_eq_ok, pure_eq_ok]
      grind

theorem inferItems_bound_eq_ok
    {own : Table Scheme} {last t : Ty} {name : String} {modifiers : List Modifier}
    {value : Expr} {span : Span} {items : List (Item Expr Expr)}
    {typed : List (Item Expr TypedExpr)} :
    scope.inferItems locals own last
        (.binding ⟨name, modifiers, none, some value, span⟩ :: items) state =
        .ok (typed, t) final ↔
      own.contains name = false ∧ ∃ first middle rest,
        scope.infer (own :: locals) value state = .ok first middle ∧
        scope.inferItems locals (own.add name (.mono first.ty)) .unit items middle =
          .ok (rest, t) final ∧
        typed = .binding ⟨name, modifiers, none, some first, span⟩ :: rest := by
  simp only [inferItems, guard_eq_ok]
  refine and_congr_right fun _ => ?_
  simp only [inferLocalTy, bind_eq_ok, pure_eq_ok]
  grind

theorem inferItems_annotated_eq_ok
    {own : Table Scheme} {last t : Ty} {name : String} {modifiers : List Modifier}
    {a value : Expr} {span : Span} {items : List (Item Expr Expr)}
    {typed : List (Item Expr TypedExpr)} :
    scope.inferItems locals own last
        (.binding ⟨name, modifiers, some a, some value, span⟩ :: items) state =
        .ok (typed, t) final ↔
      own.contains name = false ∧ ∃ first middle u rest,
        scope.infer (own :: locals) value state = .ok first middle ∧
        scope.annotationTy a = .ok u ∧
        scope.inferItems locals (own.add name (.mono u)) .unit items
          (middle.emit (.equal u first.ty value.span)) = .ok (rest, t) final ∧
        typed = .binding ⟨name, modifiers, some a, some first, span⟩ :: rest := by
  simp only [inferItems, guard_eq_ok]
  refine and_congr_right fun _ => ?_
  simp only [inferLocalTy, bind_eq_ok, lift_eq_ok, constrain_eq_ok, pure_eq_ok]
  grind

/-! ## Generation keeps the expression -/

mutual

theorem infer_erase :
    ∀ (e : Expr) {locals : Locals} {state final : InferState Supply} {typed : TypedExpr},
      scope.infer locals e state = .ok typed final → typed.erase = e
  | .literal value span, _, _, _, _, h => by
      obtain ⟨rfl, -⟩ := infer_literal_eq_ok.1 h
      rfl
  | .ident name span, _, _, _, _, h => by
      obtain ⟨scheme, -, rfl, -⟩ := infer_ident_eq_ok.1 h
      rfl
  | .closure params body span, _, _, _, _, h => by
      obtain ⟨bound, middle, typedBody, -, hbody, rfl⟩ := infer_closure_eq_ok.1 h
      rw [TypedExpr.erase, infer_erase body hbody]
  | .app fn args span, _, _, _, _, h => by
      obtain ⟨typedFn, middle, typedArgs, last, hfn, hargs, rfl, -⟩ := infer_app_eq_ok.1 h
      rw [TypedExpr.erase, infer_erase fn hfn, inferAll_erase args hargs]
  | .cond condition thenBranch none span, _, _, _, _, h => by
      obtain ⟨test, middle, typedThen, last, htest, hthen, rfl, -⟩ :=
        infer_condThen_eq_ok.1 h
      rw [TypedExpr.erase, infer_erase condition htest, infer_erase thenBranch hthen]
  | .cond condition thenBranch (some elseBranch) span, _, _, _, _, h => by
      obtain ⟨test, first, typedThen, second, typedElse, last, htest, hthen, helse, rfl, -⟩ :=
        infer_condElse_eq_ok.1 h
      rw [TypedExpr.erase, infer_erase condition htest, infer_erase thenBranch hthen,
        infer_erase elseBranch helse]
  | .member base selector span, locals, _, _, _, h => by
      cases hnames : scope.typeName? locals base with
      | some owner =>
          obtain ⟨scheme, -, rfl, -⟩ := (infer_staticMember_eq_ok hnames).1 h
          rw [TypedExpr.erase, Expr.erase_ascribe]
      | none =>
          obtain ⟨typedBase, middle, hbase, hcases⟩ := (infer_member_eq_ok hnames).1 h
          have hbase := infer_erase base hbase
          rcases hcases with ⟨scheme, -, rfl, -⟩ | ⟨-, rfl, -⟩
          · rw [TypedExpr.erase, hbase]
          · rw [TypedExpr.erase, hbase]
  | .tuple elems span, _, _, _, _, h => by
      obtain ⟨typedElems, helems, rfl⟩ := infer_tuple_eq_ok.1 h
      rw [TypedExpr.erase, inferAll_erase elems helems]
  | .structLit type fields span, _, _, _, _, h => by
      obtain ⟨owner, d, typedFields, -, hfields, rfl⟩ := infer_structLit_eq_ok.1 h
      rw [TypedExpr.erase, inferFields_erase fields hfields]
  | .tycon .., _, _, _, _, h => absurd h infer_tycon_ne_ok
  | .arrow .., _, _, _, _, h => absurd h infer_arrow_ne_ok
  | .block items span, _, _, _, _, h => by
      obtain ⟨typedItems, t, hitems, rfl⟩ := infer_block_eq_ok.1 h
      rw [TypedExpr.erase, inferItems_erase items hitems]

theorem inferAll_erase :
    ∀ (es : List Expr) {locals : Locals} {state final : InferState Supply}
      {typed : List TypedExpr},
      scope.inferAll locals es state = .ok typed final → TypedExpr.eraseAll typed = es
  | [], _, _, _, _, h => by
      obtain ⟨rfl, -⟩ := inferAll_nil_eq_ok.1 h
      rfl
  | e :: es, _, _, _, _, h => by
      obtain ⟨first, middle, rest, hfirst, hrest, rfl⟩ := inferAll_cons_eq_ok.1 h
      rw [TypedExpr.eraseAll, infer_erase e hfirst, inferAll_erase es hrest]

theorem inferFields_erase :
    ∀ (fields : List (String × Expr)) {locals : Locals} {owner : Ty} {d : Definition}
      {state final : InferState Supply} {typed : List (String × TypedExpr)},
      scope.inferFields locals owner d fields state = .ok typed final →
        TypedExpr.eraseFields typed = fields
  | [], _, _, _, _, _, _, h => by
      obtain ⟨rfl, -⟩ := inferFields_nil_eq_ok.1 h
      rfl
  | (name, value) :: fields, _, _, _, _, _, _, h => by
      obtain ⟨first, middle, scheme, rest, hfirst, -, hrest, rfl⟩ :=
        inferFields_cons_eq_ok.1 h
      rw [TypedExpr.eraseFields, infer_erase value hfirst, inferFields_erase fields hrest]

theorem inferItems_erase :
    ∀ (items : List (Item Expr Expr)) {locals : Locals} {own : Table Scheme} {last t : Ty}
      {state final : InferState Supply} {typed : List (Item Expr TypedExpr)},
      scope.inferItems locals own last items state = .ok (typed, t) final →
        TypedExpr.eraseItems typed = items
  | [], _, _, _, _, _, _, _, h => by
      obtain ⟨rfl, -⟩ := inferItems_nil_eq_ok.1 h
      rfl
  | .expr e :: items, _, _, _, _, _, _, _, h => by
      obtain ⟨first, middle, rest, hfirst, hrest, rfl⟩ := inferItems_expr_eq_ok.1 h
      rw [TypedExpr.eraseItems, infer_erase e hfirst, inferItems_erase items hrest]
  | .binding ⟨name, modifiers, ascription, none, span⟩ :: items, _, _, _, _, _, _, _, h => by
      obtain ⟨-, a, u, rest, -, -, hrest, rfl⟩ := inferItems_declared_eq_ok.1 h
      rw [TypedExpr.eraseItems, inferItems_erase items hrest]
  | .binding ⟨name, modifiers, none, some value, span⟩ :: items, _, _, _, _, _, _, _, h => by
      obtain ⟨-, first, middle, rest, hfirst, hrest, rfl⟩ := inferItems_bound_eq_ok.1 h
      rw [TypedExpr.eraseItems, infer_erase value hfirst, inferItems_erase items hrest]
  | .binding ⟨name, modifiers, some a, some value, span⟩ :: items, _, _, _, _, _, _, _, h => by
      obtain ⟨-, first, middle, u, rest, hfirst, -, hrest, rfl⟩ :=
        inferItems_annotated_eq_ok.1 h
      rw [TypedExpr.eraseItems, infer_erase value hfirst, inferItems_erase items hrest]

end

end Scope

end Ascribe
