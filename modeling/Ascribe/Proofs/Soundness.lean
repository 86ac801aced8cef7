import Ascribe.Proofs.Closed
import Ascribe.Proofs.Generation

/-!
# Inference is sound

A substitution that satisfies the constraints of a run turns the provisional types of the
run into a valid typing.  Each form adds the constraints that its rule needs and keeps those
that were there, so the rules apply from the leaves up, and the solution of all constraints
is the substitution in question.
-/

namespace Ascribe

/-- A substitution satisfies everything that was collected so far, under a policy. -/
def InferState.Satisfied (scope : Scope) (policy : MemberPolicy) (s : Subst)
    (state : InferState Supply) : Prop :=
  ∀ c ∈ state.constraints, c.Holds scope policy s

namespace InferState

variable {scope : Scope} {policy : MemberPolicy} {s : Subst} {state : InferState Supply}

@[simp]
theorem satisfied_emit {c : Constraint} :
    (state.emit c).Satisfied scope policy s ↔
      state.Satisfied scope policy s ∧ c.Holds scope policy s := by
  simp only [Satisfied, emit, List.forall_mem_append, List.forall_mem_singleton]

end InferState

/-- A fresh instance of a closed scheme is an instance after every substitution. -/
theorem Scheme.Closed.hasInstance_inst
    {scheme : Scheme} (h : scheme.Closed) (state : InferState Supply) (s : Subst) :
    scheme.HasInstance (s.apply (state.inst scheme)) :=
  h.instanceUnder_iff.1 (state.supply.instantiate_instanceUnder scheme s)

namespace Scope

variable {scope : Scope} {state final : InferState Supply}

theorem inferParams_sound
    {params : List (Param Expr)} {bound typed : Table Ty}
    (h : scope.inferParams bound params state = .ok typed final) :
    final.constraints = state.constraints ∧
      ∃ new, typed = bound ++ new ∧ (bound.names.Nodup → typed.names.Nodup) ∧
        ∀ s : Subst, List.Forall₂ scope.ParamTy params
          (new.map fun entry => (entry.1, s.apply entry.2)) := by
  induction params generalizing bound state with
  | nil =>
      obtain ⟨rfl, rfl⟩ := inferParams_nil_eq_ok.1 h
      exact ⟨rfl, [], by simp, id, fun s => .nil⟩
  | cons p params ih =>
      obtain ⟨hnew, hcases⟩ := inferParams_cons_eq_ok.1 h
      have hnodup : ∀ t, bound.names.Nodup → (bound.add p.name t).names.Nodup := fun t hbound =>
        Table.nodup_names_add t hbound (Table.contains_eq_false.1 hnew)
      rcases hcases with ⟨a, t, ha, ht, hrest⟩ | ⟨ha, hrest⟩
      · obtain ⟨hconstraints, new, rfl, hkeep, hnewTys⟩ := ih hrest
        refine ⟨hconstraints, (p.name, t) :: new, by simp [Table.add], ?_, ?_⟩
        · exact fun hbound => hkeep (hnodup t hbound)
        · intro s
          refine .cons ⟨rfl, ?_⟩ (hnewTys s)
          intro a' ha'
          rw [ha] at ha'
          cases ha'
          simpa only [Subst.apply_of_vars_eq_nil (annotationTy_vars ht)] using ht
      · obtain ⟨hconstraints, new, rfl, hkeep, hnewTys⟩ := ih hrest
        refine ⟨hconstraints, (p.name, state.var) :: new, by simp [Table.add], ?_, ?_⟩
        · exact fun hbound => hkeep (hnodup _ hbound)
        · intro s
          refine .cons ⟨rfl, ?_⟩ (hnewTys s)
          intro a' ha'
          rw [ha] at ha'
          cases ha'

/-- The types of a run form a valid typing under every substitution that satisfies its
constraints, whatever the policy. -/
def SoundRun (scope : Scope) (Γ : Context) (state final : InferState Supply) (typed : TypedExpr) :
    Prop :=
  ∀ ⦃policy : MemberPolicy⦄ (s : Subst), final.Satisfied scope policy s →
    state.Satisfied scope policy s ∧ Typed scope policy (Γ.apply s) (typed.apply s)

variable {Γ : Context}

theorem fieldScheme_eq_ok
    {owner : Ty} {d : Definition} {name : String} {span : Span} {scheme : Scheme} :
    fieldScheme owner d name span = .ok scheme ↔
      ∃ value, d.value? name = some (.binding value scheme) := by
  unfold fieldScheme
  split
  · rename_i value scheme' hvalue
    simp [hvalue]
  · rename_i hnot
    simp only [reduceCtorEq, false_iff, not_exists]
    exact fun value hvalue => hnot value scheme hvalue

theorem infer_ident_sound
    (closed : scope.Closed) {name : String} {span : Span} {typed : TypedExpr}
    (h : scope.infer Γ.locals (.ident name span) state = .ok typed final) :
    scope.SoundRun Γ state final typed := by
  obtain ⟨scheme, hscheme, rfl, rfl⟩ := infer_ident_eq_ok.1 h
  intro policy s hs
  refine ⟨hs, ?_⟩
  unfold valueScheme at hscheme
  rw [Context.find?_locals] at hscheme
  cases hfind : Γ.find? name with
  | some t =>
      rw [hfind] at hscheme
      cases hscheme
      refine .localName ?_
      rw [Context.find?_apply, hfind]
      rfl
  | none =>
      rw [hfind] at hscheme
      simp only [Option.map_none] at hscheme
      split at hscheme
      · rename_i entry hentry
        cases hscheme
        refine .globalName ?_ hentry ((closed.lookup hentry).hasInstance_inst state s)
        rw [Context.find?_apply, hfind]
        rfl
      · split at hscheme <;> cases hscheme

theorem infer_closure_sound
    {params : List (Param Expr)} {bound : Table Ty} {middle : InferState Supply} {body : TypedExpr}
    {span : Span} (hparams : scope.inferParams [] params state = .ok bound middle)
    (hbody : scope.SoundRun (bound :: Γ) middle final body) :
    scope.SoundRun Γ state final
      (.closure params body span (.arrow (bound.map Prod.snd) body.ty)) := by
  obtain ⟨hconstraints, new, rfl, hnodup, htys⟩ := inferParams_sound hparams
  intro policy s hs
  obtain ⟨hmiddle, htyped⟩ := hbody s hs
  refine ⟨?_, ?_⟩
  · intro c hc
    exact hmiddle c (hconstraints ▸ hc)
  · have hnames : (Table.names (bound.map fun entry => (entry.1, s.apply entry.2))).Nodup := by
      rw [Table.names_map]
      exact hnodup List.nodup_nil
    have hclosure : Typed scope policy (Γ.apply s)
        (.closure params (body.apply s) span _) :=
      .closure hnames (htys s) htyped
    rw [TypedExpr.apply_closure]
    simpa [Function.comp_def] using hclosure

/-- A member of a receiver that is not the name of a type: what is selected after the
substitution has the type of the node. -/
theorem typed_member
    (closed : scope.Closed) {base : TypedExpr} {selector : Selector} {span : Span} {t : Ty}
    {s : Subst} {policy : MemberPolicy} (plain : scope.typeName? Γ.locals base.erase = none)
    (typedBase : Typed scope policy Γ base)
    (holds : scope.Selects s base.ty selector t ∨
      (policy = .permissive ∧ base.ty.isVar = true)) :
    Typed scope policy Γ (.member base selector span t) := by
  rcases holds with hselects | ⟨hpolicy, hvar⟩
  · generalize hbase : base.ty = receiver at hselects
    cases hselects with
    | member found inst =>
        refine .instanceMember plain typedBase hbase (instanceMember_at found _ span) ?_
        exact (closed.instanceMember found).instanceUnder_iff.1 inst
    | component found => exact .component plain typedBase hbase found
  · exact .unknownMember hpolicy plain typedBase hvar

theorem infer_member_sound
    (closed : scope.Closed) {base : Expr} {selector : Selector} {span : Span}
    {typed : TypedExpr} (plain : scope.typeName? Γ.locals base = none)
    (hbase : ∀ {middle typedBase}, scope.infer Γ.locals base state = .ok typedBase middle →
      scope.SoundRun Γ state middle typedBase)
    (h : scope.infer Γ.locals (.member base selector span) state = .ok typed final) :
    scope.SoundRun Γ state final typed := by
  obtain ⟨typedBase, middle, hinfer, hcases⟩ := (infer_member_eq_ok plain).1 h
  have hplain : ∀ s, scope.typeName? (Γ.apply s).locals (typedBase.apply s).erase = none := by
    intro s
    rw [Context.typeName?_apply, TypedExpr.erase_apply, infer_erase base hinfer, plain]
  rcases hcases with ⟨scheme, hselect, rfl, rfl⟩ | ⟨hselect, rfl, rfl⟩
  · intro policy s hs
    obtain ⟨hstate, htyped⟩ := hbase hinfer s hs
    rw [TypedExpr.apply_member]
    refine ⟨hstate, typed_member (s := s) closed (hplain s) htyped (.inl ?_)⟩
    rw [TypedExpr.ty_apply]
    exact selects_of_select hselect (middle.supply.instantiate_instanceUnder scheme s)
  · intro policy s hs
    obtain ⟨hmiddle, hholds⟩ := InferState.satisfied_emit.1 hs
    obtain ⟨hstate, htyped⟩ := hbase hinfer s hmiddle
    rw [TypedExpr.apply_member]
    refine ⟨hstate, typed_member (s := s) closed (hplain s) htyped ?_⟩
    rw [TypedExpr.ty_apply]
    exact hholds

mutual

theorem infer_sound (closed : scope.Closed) :
    ∀ (e : Expr) {Γ : Context} {state final : InferState Supply} {typed : TypedExpr},
      scope.infer Γ.locals e state = .ok typed final → scope.SoundRun Γ state final typed
  | .literal value span, Γ, state, final, typed, h => by
      obtain ⟨rfl, rfl⟩ := infer_literal_eq_ok.1 h
      intro policy s hs
      refine ⟨hs, ?_⟩
      rw [TypedExpr.apply_literal]
      exact .literal
  | .ident name span, Γ, state, final, typed, h => infer_ident_sound closed h
  | .closure params body span, Γ, state, final, typed, h => by
      obtain ⟨bound, middle, typedBody, hparams, hbody, rfl⟩ := infer_closure_eq_ok.1 h
      exact infer_closure_sound hparams (infer_sound closed body (Γ := bound :: Γ) hbody)
  | .app fn args span, Γ, state, final, typed, h => by
      obtain ⟨typedFn, middle, typedArgs, last, hfn, hargs, rfl, rfl⟩ := infer_app_eq_ok.1 h
      intro policy s hs
      obtain ⟨hlast, hequal⟩ := InferState.satisfied_emit.1 hs
      obtain ⟨hmiddle, htypedArgs⟩ := inferAll_sound closed args hargs s hlast
      obtain ⟨hstate, htypedFn⟩ := infer_sound closed fn hfn s hmiddle
      refine ⟨hstate, ?_⟩
      rw [TypedExpr.apply_app]
      refine .app htypedFn (by simpa using htypedArgs) ?_
      simpa [Constraint.Holds, Function.comp_def] using hequal
  | .cond condition thenBranch none span, Γ, state, final, typed, h => by
      obtain ⟨test, middle, typedThen, last, htest, hthen, rfl, rfl⟩ :=
        infer_condThen_eq_ok.1 h
      intro policy s hs
      obtain ⟨hlast, hunit⟩ := InferState.satisfied_emit.1 hs
      obtain ⟨hemit, htypedThen⟩ := infer_sound closed thenBranch hthen s hlast
      obtain ⟨hmiddle, hbool⟩ := InferState.satisfied_emit.1 hemit
      obtain ⟨hstate, htypedTest⟩ := infer_sound closed condition htest s hmiddle
      refine ⟨hstate, ?_⟩
      rw [TypedExpr.apply_condThen, ← TypedExpr.ty_apply]
      refine .condThen htypedTest ?_ htypedThen ?_
      · rw [TypedExpr.ty_apply]
        exact hbool
      · rw [TypedExpr.ty_apply]
        exact hunit
  | .cond condition thenBranch (some elseBranch) span, Γ, state, final, typed, h => by
      obtain ⟨test, first, typedThen, second, typedElse, last, htest, hthen, helse, rfl, rfl⟩ :=
        infer_condElse_eq_ok.1 h
      intro policy s hs
      obtain ⟨hlast, hsame⟩ := InferState.satisfied_emit.1 hs
      obtain ⟨hsecond, htypedElse⟩ := infer_sound closed elseBranch helse s hlast
      obtain ⟨hemit, htypedThen⟩ := infer_sound closed thenBranch hthen s hsecond
      obtain ⟨hfirst, hbool⟩ := InferState.satisfied_emit.1 hemit
      obtain ⟨hstate, htypedTest⟩ := infer_sound closed condition htest s hfirst
      refine ⟨hstate, ?_⟩
      rw [TypedExpr.apply_condElse, ← TypedExpr.ty_apply]
      refine .condElse htypedTest ?_ htypedThen htypedElse ?_
      · rw [TypedExpr.ty_apply]
        exact hbool
      · rw [TypedExpr.ty_apply, TypedExpr.ty_apply]
        exact hsame
  | .member base selector span, Γ, state, final, typed, h => by
      cases hnames : scope.typeName? Γ.locals base with
      | some owner =>
          obtain ⟨scheme, hfound, rfl, rfl⟩ := (infer_staticMember_eq_ok hnames).1 h
          intro policy s hs
          refine ⟨hs, ?_⟩
          rw [TypedExpr.apply_member, TypedExpr.apply, Expr.mapTy_ascribe]
          refine .staticMember ?_ hfound ((closed.staticMember hfound).hasInstance_inst state s)
          rw [Context.typeName?_apply, hnames]
      | none =>
          exact infer_member_sound closed hnames (fun hbase => infer_sound closed base hbase) h
  | .tuple elems span, Γ, state, final, typed, h => by
      obtain ⟨typedElems, helems, rfl⟩ := infer_tuple_eq_ok.1 h
      intro policy s hs
      obtain ⟨hstate, htyped⟩ := inferAll_sound closed elems helems s hs
      refine ⟨hstate, ?_⟩
      have htuple : Typed scope policy (Γ.apply s)
          (.tuple (typedElems.map (TypedExpr.apply s)) span _) :=
        .tuple (by simpa using htyped)
      rw [TypedExpr.apply_tuple]
      simpa [Function.comp_def] using htuple
  | .structLit type fields span, Γ, state, final, typed, h => by
      obtain ⟨owner, d, typedFields, hresolve, hfields, rfl⟩ := infer_structLit_eq_ok.1 h
      intro policy s hs
      obtain ⟨hstate, htyped⟩ :=
        inferFields_sound closed fields (closed.resolveType hresolve) hfields s hs
      refine ⟨hstate, ?_⟩
      rw [TypedExpr.apply_structLit]
      refine .structLit hresolve ?_ ?_
      · intro field hfield
        obtain ⟨provisional, hmem, rfl⟩ := List.mem_map.1 hfield
        exact (htyped provisional hmem).1
      · intro field hfield
        obtain ⟨provisional, hmem, rfl⟩ := List.mem_map.1 hfield
        rw [TypedExpr.ty_apply]
        exact (htyped provisional hmem).2
  | .tycon .., _, _, _, _, h => absurd h infer_tycon_ne_ok
  | .arrow .., _, _, _, _, h => absurd h infer_arrow_ne_ok
  | .block items span, Γ, state, final, typed, h => by
      obtain ⟨typedItems, t, hitems, rfl⟩ := infer_block_eq_ok.1 h
      intro policy s hs
      obtain ⟨hstate, htyped⟩ :=
        @inferItems_sound closed items Γ [] .unit t state final typedItems hitems policy s hs
      exact ⟨hstate, .block htyped⟩

theorem inferAll_sound (closed : scope.Closed) :
    ∀ (es : List Expr) {Γ : Context} {state final : InferState Supply} {typed : List TypedExpr},
      scope.inferAll Γ.locals es state = .ok typed final →
        ∀ ⦃policy : MemberPolicy⦄ (s : Subst), final.Satisfied scope policy s →
          state.Satisfied scope policy s ∧
          ∀ e ∈ typed, Typed scope policy (Γ.apply s) (e.apply s)
  | [], Γ, state, final, typed, h => by
      obtain ⟨rfl, rfl⟩ := inferAll_nil_eq_ok.1 h
      exact fun _ s hs => ⟨hs, fun e he => absurd he List.not_mem_nil⟩
  | e :: es, Γ, state, final, typed, h => by
      obtain ⟨first, middle, rest, hfirst, hrest, rfl⟩ := inferAll_cons_eq_ok.1 h
      intro policy s hs
      obtain ⟨hmiddle, htypedRest⟩ := inferAll_sound closed es hrest s hs
      obtain ⟨hstate, htypedFirst⟩ := infer_sound closed e hfirst s hmiddle
      exact ⟨hstate, List.forall_mem_cons.2 ⟨htypedFirst, htypedRest⟩⟩

theorem inferFields_sound (closed : scope.Closed) :
    ∀ (fields : List (String × Expr)) {Γ : Context} {owner : Ty} {d : Definition}
      {state final : InferState Supply} {typed : List (String × TypedExpr)}, d.Closed →
      scope.inferFields Γ.locals owner d fields state = .ok typed final →
        ∀ ⦃policy : MemberPolicy⦄ (s : Subst), final.Satisfied scope policy s →
          state.Satisfied scope policy s ∧
          ∀ field ∈ typed, Typed scope policy (Γ.apply s) (field.2.apply s) ∧
            ∃ value scheme, d.value? field.1 = some (.binding value scheme) ∧
              scheme.HasInstance (s.apply field.2.ty)
  | [], Γ, owner, d, state, final, typed, hd, h => by
      obtain ⟨rfl, rfl⟩ := inferFields_nil_eq_ok.1 h
      exact fun _ s hs => ⟨hs, fun field hfield => absurd hfield List.not_mem_nil⟩
  | (name, value) :: fields, Γ, owner, d, state, final, typed, hd, h => by
      obtain ⟨first, middle, scheme, rest, hfirst, hscheme, hrest, rfl⟩ :=
        inferFields_cons_eq_ok.1 h
      intro policy s hs
      obtain ⟨hemit, htypedRest⟩ := inferFields_sound closed fields hd hrest s hs
      obtain ⟨hmiddle, hequal⟩ := InferState.satisfied_emit.1 hemit
      obtain ⟨hstate, htypedFirst⟩ := infer_sound closed value hfirst s hmiddle
      refine ⟨hstate, List.forall_mem_cons.2 ⟨⟨htypedFirst, ?_⟩, htypedRest⟩⟩
      obtain ⟨content, hvalue⟩ := fieldScheme_eq_ok.1 hscheme
      refine ⟨content, scheme, hvalue, ?_⟩
      rw [← show s.apply (middle.inst scheme) = s.apply first.ty from hequal]
      exact (hd.value? hvalue).hasInstance_inst middle s

theorem inferItems_sound (closed : scope.Closed) :
    ∀ (items : List (Item Expr Expr)) {Γ : Context} {own : Table Ty} {last t : Ty}
      {state final : InferState Supply} {typed : List (Item Expr TypedExpr)},
      scope.inferItems Γ.locals (own.map fun entry => (entry.1, .mono entry.2)) last items
          state = .ok (typed, t) final →
        ∀ ⦃policy : MemberPolicy⦄ (s : Subst), final.Satisfied scope policy s →
          state.Satisfied scope policy s ∧
          TypedItems scope policy (Γ.apply s)
            (own.map fun entry => (entry.1, s.apply entry.2)) (s.apply last)
            (TypedExpr.mapTyItems s.apply typed) (s.apply t)
  | [], Γ, own, last, t, state, final, typed, h => by
      obtain ⟨rfl, rfl, rfl⟩ := inferItems_nil_eq_ok.1 h
      exact fun _ s hs => ⟨hs, .nil⟩
  | .expr e :: items, Γ, own, last, t, state, final, typed, h => by
      obtain ⟨first, middle, rest, hfirst, hrest, rfl⟩ := inferItems_expr_eq_ok.1 h
      intro policy s hs
      obtain ⟨hmiddle, htypedRest⟩ := inferItems_sound closed items hrest s hs
      obtain ⟨hstate, htypedFirst⟩ := infer_sound closed e (Γ := own :: Γ) hfirst s hmiddle
      refine ⟨hstate, .expr htypedFirst ?_⟩
      rw [TypedExpr.ty_mapTy]
      exact htypedRest
  | .binding ⟨name, modifiers, ascription, none, span⟩ :: items, Γ, own, last, t, state,
      final, typed, h => by
      obtain ⟨hnew, a, u, rest, rfl, hu, hrest, rfl⟩ := inferItems_declared_eq_ok.1 h
      rw [Table.contains_eq_false, Table.names_map] at hnew
      rw [← Table.map_add Scheme.mono] at hrest
      intro policy s hs
      obtain ⟨hstate, htypedRest⟩ := inferItems_sound closed items hrest s hs
      refine ⟨hstate, .declared (by rwa [Table.names_map]) hu ?_⟩
      rw [Table.map_add, Subst.apply_of_vars_eq_nil (annotationTy_vars hu)] at htypedRest
      exact htypedRest
  | .binding ⟨name, modifiers, none, some value, span⟩ :: items, Γ, own, last, t, state,
      final, typed, h => by
      obtain ⟨hnew, first, middle, rest, hfirst, hrest, rfl⟩ := inferItems_bound_eq_ok.1 h
      rw [Table.contains_eq_false, Table.names_map] at hnew
      rw [← Table.map_add Scheme.mono] at hrest
      intro policy s hs
      obtain ⟨hmiddle, htypedRest⟩ := inferItems_sound closed items hrest s hs
      obtain ⟨hstate, htypedFirst⟩ :=
        infer_sound closed value (Γ := own :: Γ) hfirst s hmiddle
      refine ⟨hstate, .bound (by rwa [Table.names_map]) htypedFirst ?_ ?_⟩
      · intro a ha
        cases ha
      · rw [TypedExpr.ty_mapTy, ← Table.map_add]
        exact htypedRest
  | .binding ⟨name, modifiers, some a, some value, span⟩ :: items, Γ, own, last, t, state,
      final, typed, h => by
      obtain ⟨hnew, first, middle, u, rest, hfirst, hu, hrest, rfl⟩ :=
        inferItems_annotated_eq_ok.1 h
      rw [Table.contains_eq_false, Table.names_map] at hnew
      rw [← Table.map_add Scheme.mono] at hrest
      intro policy s hs
      obtain ⟨hemit, htypedRest⟩ := inferItems_sound closed items hrest s hs
      obtain ⟨hmiddle, hequal⟩ := InferState.satisfied_emit.1 hemit
      obtain ⟨hstate, htypedFirst⟩ :=
        infer_sound closed value (Γ := own :: Γ) hfirst s hmiddle
      -- An annotation has no variables, so the substitution makes the value have its type.
      have hty : s.apply first.ty = u := by
        rw [← Subst.apply_of_vars_eq_nil (annotationTy_vars hu) s]
        exact Eq.symm hequal
      refine ⟨hstate, .bound (by rwa [Table.names_map]) htypedFirst ?_ ?_⟩
      · intro a' ha'
        cases ha'
        rw [TypedExpr.ty_mapTy, hty, hu]
      · rw [Table.map_add, Subst.apply_of_vars_eq_nil (annotationTy_vars hu)] at htypedRest
        rw [TypedExpr.ty_mapTy, hty]
        exact htypedRest

end

/-! ## Whole expressions -/

theorem complete_eq_ok {run : Infer Supply TypedExpr} {typed : TypedExpr} :
    scope.complete run = .ok typed ↔
      ∃ provisional final s, run (Infer.start scope) = .ok provisional final ∧
        scope.solveInferred final = .ok s ∧ typed = provisional.apply s := by
  unfold complete completeFrom
  constructor
  · intro h
    split at h
    · cases h
    · rename_i provisional final hrun
      split at h
      · cases h
      · rename_i s hs
        cases h
        exact ⟨provisional, final, s, hrun, hs, rfl⟩
  · rintro ⟨provisional, final, s, hrun, hs, rfl⟩
    simp only [hrun, hs]

theorem satisfied_of_solveInferred {s : Subst} (h : scope.solveInferred state = .ok s) :
    state.Satisfied scope scope.options.policy s :=
  (Solver.solution_of_solve_start h).2

theorem typed_of_annotate
    (closed : scope.Closed) {e : Expr} {typed : TypedExpr}
    (h : scope.annotate e = .ok typed) :
    typed.erase = e ∧ Typed scope scope.options.policy [] typed := by
  obtain ⟨provisional, final, s, hrun, hs, rfl⟩ := complete_eq_ok.1 h
  refine ⟨?_, ?_⟩
  · rw [TypedExpr.erase_apply]
    exact infer_erase e hrun
  · exact (infer_sound closed e (Γ := []) hrun s (satisfied_of_solveInferred hs)).2

/-- The result of a run, if solving takes at most the given number of steps. -/
def completeWithin (scope : Scope) (n : Nat) (run : Infer Supply TypedExpr) : Option TypedExpr :=
  match run (Infer.start scope) with
  | .error _ _ => none
  | .ok typed final =>
      match (Solver.start final.constraints final.supply).advance scope scope.options.policy n with
      | .ok (.done s) => some (typed.apply s)
      | _ => none

theorem complete_of_completeWithin
    {n : Nat} {run : Infer Supply TypedExpr} {typed : TypedExpr}
    (h : scope.completeWithin n run = some typed) :
    scope.complete run = .ok typed := by
  unfold completeWithin at h
  split at h
  · cases h
  · rename_i provisional final hrun
    split at h
    · rename_i s hs
      cases h
      exact complete_eq_ok.2 ⟨provisional, final, s, hrun, Solver.solve_of_advance hs, rfl⟩
    · cases h

/-- In the scope of a module or of the body of a type in it, the types that strict inference
puts on the nodes of an expression form a valid typing of this expression. -/
theorem annotate_sound
    {options : Options} (strict : options.policy = .strict)
    (reached : scope.InModule options) {e : Expr} {typed : TypedExpr}
    (h : scope.annotate e = .ok typed) :
    typed.erase = e ∧ Typed scope .strict [] typed := by
  have htyped := typed_of_annotate reached.closed h
  rw [reached.options_eq, strict] at htyped
  exact htyped

/-- A module with a struct that has one field. -/
def pointModule : List (Declaration Expr) :=
  [.type .struct "Point" []
    [.binding ⟨"x", [], some (.ident "Int32" default), none, default⟩] default]

def pointScope : Scope :=
  ⟨⟨none, [], [("Point", .struct ⟨[("x", .binding none (.mono .int))], [], []⟩)]⟩,
    [.prelude], .standard⟩

/-- A closure that selects the field of its parameter, applied to a point. -/
def selectX : Expr :=
  .app (.closure [⟨"p", none, default⟩]
      (.member (.ident "p" default) (.named "x") default) default)
    [.structLit "Point" [("x", .literal (.int 1) default)] default] default

theorem annotate_sound_selectX :
    build .standard pointModule = .ok pointScope ∧
      ∃ typed, pointScope.annotate selectX = .ok typed ∧ typed.ty = .int ∧
        typed.erase = selectX ∧ Typed pointScope .strict [] typed := by
  have hbuild : build .standard pointModule = .ok pointScope := by cbv
  have hwithin : pointScope.completeWithin 9 (pointScope.infer [] selectX) = some
      (.app (.closure [⟨"p", none, default⟩]
          (.member (.ident "p" default (.named "Point")) (.named "x") default .int) default
          (.arrow [.named "Point"] .int))
        [.structLit "Point" [("x", .literal (.int 1) default .int)] default (.named "Point")]
        default .int) := by cbv
  have hok := complete_of_completeWithin hwithin
  exact ⟨hbuild, _, hok, rfl, annotate_sound rfl (.build hbuild) hok⟩

/-- The receiver of a component is a tuple, and no named type. -/
theorem annotate_component_receiver :
    build .standard [] = .ok (.empty .standard) ∧
      ∃ base, (empty .standard).annotate
          (.member (.tuple [.literal (.int 1) default, .literal (.bool true) default] default)
            (.index 0) default) = .ok (.member base (.index 0) default .int) ∧
        ∀ name args, base.ty ≠ .con name args := by
  refine ⟨rfl, .tuple [.literal (.int 1) default .int, .literal (.bool true) default .bool]
    default (.tuple [.int, .bool]), ?_, ?_⟩
  · exact complete_of_completeWithin (n := 1) (by cbv)
  · intro name args h
    cases h

end Scope

end Ascribe
