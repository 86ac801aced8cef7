import Ascribe.Proofs.Completeness
import Ascribe.Proofs.Principality
import Ascribe.Proofs.Renaming

/-!
# Members selected at once and members left to the solver

A member of a receiver whose provisional type is known is looked up at once.  The member of
a parameter without an annotation is left to the solver, which looks it up when the argument
has made the type of the receiver known.  The two ways agree: `e.x` and `{ p in p.x }(e)`
have the same typings, and whether inference succeeds can be read off the typings alone.

Under the strict policy inference succeeds when there are typings and none of them leaves a
receiver unknown.  A run that is stuck leads to one that does.
-/

namespace Ascribe

/-! ## Members in typings -/

namespace Scope

variable {scope : Scope} {policy : MemberPolicy}

/-- A receiver of the first type may have a member of the second: it has one, or the policy
lets its type stay unknown. -/
def Permits (scope : Scope) (policy : MemberPolicy) (receiver : Ty) (selector : Selector)
    (t : Ty) : Prop :=
  scope.Selects .empty receiver selector t ∨ (policy = .permissive ∧ receiver.isVar = true)

/-- The rules for a member of a receiver that is not the name of a type, in one. -/
theorem typed_member_iff
    (closed : scope.Closed) {Γ : Context} {base : TypedExpr} {selector : Selector}
    {span : Span} {t : Ty} (plain : scope.typeName? Γ.locals base.erase = none) :
    Typed scope policy Γ (.member base selector span t) ↔
      Typed scope policy Γ base ∧ scope.Permits policy base.ty selector t := by
  constructor
  · intro h
    cases h with
    | staticMember names =>
        rw [Expr.erase_ascribe, names] at plain
        cases plain
    | instanceMember _ typedBase baseTy found inst =>
        refine ⟨typedBase, .inl ?_⟩
        rw [baseTy]
        exact .member found ((closed.instanceMember found).instanceUnder_iff.2 inst)
    | component _ typedBase baseTy found =>
        refine ⟨typedBase, .inl ?_⟩
        rw [baseTy]
        exact .component found
    | unknownMember permissive _ typedBase unknown =>
        exact ⟨typedBase, .inr ⟨permissive, unknown⟩⟩
  · rintro ⟨typedBase, holds⟩
    exact typed_member closed plain typedBase holds

/-- Under the strict policy the type of a receiver is known. -/
theorem Permits.isVar_eq_false
    {receiver t : Ty} {selector : Selector}
    (h : scope.Permits .strict receiver selector t) :
    receiver.isVar = false := by
  rcases h with hselects | ⟨hpolicy, -⟩
  · exact hselects.isVar_eq_false
  · cases hpolicy

end Scope

/-! ## Known receivers -/

/-- The receivers of all collected members are known under a substitution. -/
def InferState.Known (s : Subst) (state : InferState Supply) : Prop :=
  ∀ m, .member m ∈ state.constraints → (s.apply m.receiver).isVar = false

namespace InferState

variable {s : Subst} {state : InferState Supply}

theorem Known.emit_equal
    (h : state.Known s) (left right : Ty) (span : Span) :
    (state.emit (.equal left right span)).Known s := by
  intro m hm
  rcases List.mem_append.1 hm with hm | hm
  · exact h m hm
  · cases List.mem_singleton.1 hm

theorem Known.emit_member
    (h : state.Known s) {m : MemberConstraint} (hm : (s.apply m.receiver).isVar = false) :
    (state.emit (.member m)).Known s := by
  intro m' hm'
  rcases List.mem_append.1 hm' with hm' | hm'
  · exact h m' hm'
  · cases List.mem_singleton.1 hm'
    exact hm

theorem Known.of_constraints_eq
    {final : InferState Supply} (h : state.Known s) (heq : final.constraints = state.constraints) :
    final.Known s := by
  intro m hm
  rw [heq] at hm
  exact h m hm

end InferState

namespace Scope

variable {scope : Scope} {policy : MemberPolicy}

/-- The parameters of a closure and their types determine the names and types bound. -/
theorem ParamTy.eq_of_map_snd_eq
    {params : List (Param Expr)} {bound other : Table Ty}
    (h : List.Forall₂ scope.ParamTy params bound)
    (h' : List.Forall₂ scope.ParamTy params other)
    (hty : bound.map Prod.snd = other.map Prod.snd) :
    bound = other := by
  induction h generalizing other with
  | nil =>
      cases h'
      rfl
  | @cons param entry params bound hentry hbound ih =>
      cases h' with
      | @cons _ entry' _ other hentry' hother =>
          simp only [List.map_cons, List.cons.injEq] at hty
          have hname : entry.1 = entry'.1 := hentry.1.trans hentry'.1.symm
          rw [ih hother hty.2, Prod.ext hname hty.1]

mutual

/-- When the provisional types of a run become a strict typing, the receivers of all members
that the run left to the solver become known. -/
theorem infer_known (closed : scope.Closed) :
    ∀ (e : Expr) {Γ : Context} {state final : InferState Supply} {typed : TypedExpr} {s : Subst},
      scope.infer Γ.locals e state = .ok typed final → state.Known s →
        Typed scope .strict (Γ.apply s) (typed.apply s) → final.Known s
  | .literal value span, Γ, state, final, typed, s, h, hs, valid => by
      obtain ⟨rfl, rfl⟩ := infer_literal_eq_ok.1 h
      exact hs
  | .ident name span, Γ, state, final, typed, s, h, hs, valid => by
      obtain ⟨scheme, -, -, rfl⟩ := infer_ident_eq_ok.1 h
      exact hs
  | .closure params body span, Γ, state, final, typed, s, h, hs, valid => by
      obtain ⟨bound, middle, typedBody, hparams, hbody, rfl⟩ := infer_closure_eq_ok.1 h
      obtain ⟨hconstraints, new, rfl, -, htys⟩ := inferParams_sound hparams
      rw [TypedExpr.apply_closure] at valid
      generalize ht : s.apply (.arrow (bound.map Prod.snd) typedBody.ty) = t at valid
      cases valid with
      | @closure _ _ target _ _ distinct annotated validBody =>
          rw [Subst.apply_arrow] at ht
          injection ht with hbound _
          obtain rfl : bound.map (fun entry => (entry.1, s.apply entry.2)) = target := by
            apply ParamTy.eq_of_map_snd_eq (htys s) annotated
            simpa [Function.comp_def] using hbound
          exact infer_known closed body (Γ := bound :: Γ) hbody (hs.of_constraints_eq hconstraints)
            validBody
  | .app fn args span, Γ, state, final, typed, s, h, hs, valid => by
      obtain ⟨typedFn, middle, typedArgs, last, hfn, hargs, rfl, rfl⟩ := infer_app_eq_ok.1 h
      rw [TypedExpr.apply_app] at valid
      cases valid with
      | app validFn validArgs fnTy =>
          have hmiddle := infer_known closed fn hfn hs validFn
          have hlast := inferAll_known closed args hargs hmiddle (List.forall_mem_map.1 validArgs)
          have hskip : last.skip.Known s := hlast
          exact hskip.emit_equal _ _ span
  | .cond condition thenBranch none span, Γ, state, final, typed, s, h, hs, valid => by
      obtain ⟨test, middle, typedThen, last, htest, hthen, rfl, rfl⟩ :=
        infer_condThen_eq_ok.1 h
      rw [TypedExpr.apply_condThen, ← TypedExpr.ty_apply] at valid
      cases valid with
      | condThen validTest _ validThen _ =>
          have hmiddle := infer_known closed condition htest hs validTest
          have hlast := infer_known closed thenBranch hthen (hmiddle.emit_equal _ _ _) validThen
          exact hlast.emit_equal _ _ _
  | .cond condition thenBranch (some elseBranch) span, Γ, state, final, typed, s, h, hs,
      valid => by
      obtain ⟨test, first, typedThen, second, typedElse, last, htest, hthen, helse, rfl, rfl⟩ :=
        infer_condElse_eq_ok.1 h
      rw [TypedExpr.apply_condElse, ← TypedExpr.ty_apply] at valid
      cases valid with
      | condElse validTest _ validThen validElse _ =>
          have hfirst := infer_known closed condition htest hs validTest
          have hsecond := infer_known closed thenBranch hthen (hfirst.emit_equal _ _ _) validThen
          have hlast := infer_known closed elseBranch helse hsecond validElse
          exact hlast.emit_equal _ _ _
  | .member base selector span, Γ, state, final, typed, s, h, hs, valid => by
      cases hnames : scope.typeName? Γ.locals base with
      | some owner =>
          obtain ⟨scheme, -, -, rfl⟩ := (infer_staticMember_eq_ok hnames).1 h
          exact hs
      | none =>
          obtain ⟨typedBase, middle, hbase, hcases⟩ := (infer_member_eq_ok hnames).1 h
          have hplain : scope.typeName? (Γ.apply s).locals (typedBase.apply s).erase = none := by
            rw [Context.typeName?_apply, TypedExpr.erase_apply, infer_erase base hbase, hnames]
          rcases hcases with ⟨scheme, -, rfl, rfl⟩ | ⟨-, rfl, rfl⟩
          · rw [TypedExpr.apply_member] at valid
            obtain ⟨validBase, -⟩ := (typed_member_iff closed hplain).1 valid
            have hmiddle := infer_known closed base hbase hs validBase
            exact hmiddle
          · rw [TypedExpr.apply_member] at valid
            obtain ⟨validBase, permits⟩ := (typed_member_iff closed hplain).1 valid
            have hmiddle := infer_known closed base hbase hs validBase
            have hknown := permits.isVar_eq_false
            rw [TypedExpr.ty_apply] at hknown
            have hskip : middle.skip.Known s := hmiddle
            exact hskip.emit_member hknown
  | .tuple elems span, Γ, state, final, typed, s, h, hs, valid => by
      obtain ⟨typedElems, helems, rfl⟩ := infer_tuple_eq_ok.1 h
      rw [TypedExpr.apply_tuple] at valid
      generalize s.apply (.tuple (typedElems.map TypedExpr.ty)) = t at valid
      cases valid with
      | tuple validElems =>
          exact inferAll_known closed elems helems hs (List.forall_mem_map.1 validElems)
  | .structLit type fields span, Γ, state, final, typed, s, h, hs, valid => by
      obtain ⟨owner, d, typedFields, -, hfields, rfl⟩ := infer_structLit_eq_ok.1 h
      rw [TypedExpr.apply_structLit] at valid
      generalize s.apply (.named owner) = t at valid
      cases valid with
      | structLit _ validFields _ =>
          refine inferFields_known closed fields hfields hs ?_
          intro field hfield
          exact validFields _ (List.mem_map_of_mem hfield)
  | .tycon .., _, _, _, _, _, h, _, _ => absurd h infer_tycon_ne_ok
  | .arrow .., _, _, _, _, _, h, _, _ => absurd h infer_arrow_ne_ok
  | .block items span, Γ, state, final, typed, s, h, hs, valid => by
      obtain ⟨typedItems, t, hitems, rfl⟩ := infer_block_eq_ok.1 h
      rw [TypedExpr.apply, TypedExpr.mapTy] at valid
      cases valid with
      | block validItems =>
          exact @inferItems_known closed items Γ [] .unit t state final typedItems s .unit _
            hitems hs validItems

theorem inferAll_known (closed : scope.Closed) :
    ∀ (es : List Expr) {Γ : Context} {state final : InferState Supply} {typed : List TypedExpr}
      {s : Subst}, scope.inferAll Γ.locals es state = .ok typed final → state.Known s →
        (∀ e ∈ typed, Typed scope .strict (Γ.apply s) (e.apply s)) → final.Known s
  | [], Γ, state, final, typed, s, h, hs, valid => by
      obtain ⟨rfl, rfl⟩ := inferAll_nil_eq_ok.1 h
      exact hs
  | e :: es, Γ, state, final, typed, s, h, hs, valid => by
      obtain ⟨first, middle, rest, hfirst, hrest, rfl⟩ := inferAll_cons_eq_ok.1 h
      obtain ⟨validFirst, validRest⟩ := List.forall_mem_cons.1 valid
      have hmiddle := infer_known closed e hfirst hs validFirst
      exact inferAll_known closed es hrest hmiddle validRest

theorem inferFields_known (closed : scope.Closed) :
    ∀ (fields : List (String × Expr)) {Γ : Context} {owner : Ty} {d : Definition}
      {state final : InferState Supply} {typed : List (String × TypedExpr)} {s : Subst},
      scope.inferFields Γ.locals owner d fields state = .ok typed final → state.Known s →
        (∀ field ∈ typed, Typed scope .strict (Γ.apply s) (field.2.apply s)) → final.Known s
  | [], Γ, owner, d, state, final, typed, s, h, hs, valid => by
      obtain ⟨rfl, rfl⟩ := inferFields_nil_eq_ok.1 h
      exact hs
  | (name, value) :: fields, Γ, owner, d, state, final, typed, s, h, hs, valid => by
      obtain ⟨first, middle, scheme, rest, hfirst, -, hrest, rfl⟩ :=
        inferFields_cons_eq_ok.1 h
      obtain ⟨validFirst, validRest⟩ := List.forall_mem_cons.1 valid
      have hmiddle := infer_known closed value hfirst hs validFirst
      have hskip : (middle.skipInst scheme).Known s := hmiddle
      exact inferFields_known closed fields hrest (hskip.emit_equal _ _ _) validRest

theorem inferItems_known (closed : scope.Closed) :
    ∀ (items : List (Item Expr Expr)) {Γ : Context} {own : Table Ty} {last t : Ty}
      {state final : InferState Supply} {typed : List (Item Expr TypedExpr)} {s : Subst}
      {last' t' : Ty},
      scope.inferItems Γ.locals (own.map fun entry => (entry.1, .mono entry.2)) last items
          state = .ok (typed, t) final → state.Known s →
        TypedItems scope .strict (Γ.apply s) (own.map fun entry => (entry.1, s.apply entry.2))
          last' (TypedExpr.mapTyItems s.apply typed) t' → final.Known s
  | [], Γ, own, last, t, state, final, typed, s, last', t', h, hs, valid => by
      obtain ⟨-, -, rfl⟩ := inferItems_nil_eq_ok.1 h
      exact hs
  | .expr e :: items, Γ, own, last, t, state, final, typed, s, last', t', h, hs, valid => by
      obtain ⟨first, middle, rest, hfirst, hrest, rfl⟩ := inferItems_expr_eq_ok.1 h
      cases valid with
      | expr validFirst validRest =>
          have hmiddle := infer_known closed e (Γ := own :: Γ) hfirst hs validFirst
          exact inferItems_known closed items hrest hmiddle validRest
  | .binding ⟨name, modifiers, ascription, none, span⟩ :: items, Γ, own, last, t, state,
      final, typed, s, last', t', h, hs, valid => by
      obtain ⟨-, a, u, rest, rfl, hu, hrest, rfl⟩ := inferItems_declared_eq_ok.1 h
      cases valid with
      | declared _ annotated validRest =>
          rw [hu] at annotated
          cases annotated
          rw [← Subst.apply_of_vars_eq_nil (annotationTy_vars hu) s, ← Table.map_add] at validRest
          rw [← Table.map_add Scheme.mono] at hrest
          exact inferItems_known closed items hrest hs validRest
  | .binding ⟨name, modifiers, none, some value, span⟩ :: items, Γ, own, last, t, state,
      final, typed, s, last', t', h, hs, valid => by
      obtain ⟨-, first, middle, rest, hfirst, hrest, rfl⟩ := inferItems_bound_eq_ok.1 h
      cases valid with
      | bound _ validFirst _ validRest =>
          have hmiddle := infer_known closed value (Γ := own :: Γ) hfirst hs validFirst
          rw [TypedExpr.ty_mapTy, ← Table.map_add] at validRest
          rw [← Table.map_add Scheme.mono] at hrest
          exact inferItems_known closed items hrest hmiddle validRest
  | .binding ⟨name, modifiers, some a, some value, span⟩ :: items, Γ, own, last, t, state,
      final, typed, s, last', t', h, hs, valid => by
      obtain ⟨-, first, middle, u, rest, hfirst, hu, hrest, rfl⟩ :=
        inferItems_annotated_eq_ok.1 h
      cases valid with
      | bound _ validFirst annotated validRest =>
          have hmiddle := infer_known closed value (Γ := own :: Γ) hfirst hs validFirst
          have hty := annotated a rfl
          rw [hu] at hty
          rw [← Except.ok.inj hty, ← Subst.apply_of_vars_eq_nil (annotationTy_vars hu) s,
            ← Table.map_add] at validRest
          rw [← Table.map_add Scheme.mono] at hrest
          exact inferItems_known closed items hrest (hmiddle.emit_equal _ _ _) validRest

end

/-! ## When inference succeeds -/

/-- Where strict inference succeeds, no typing leaves a receiver unknown. -/
theorem strict_of_annotate
    (closed : scope.Closed) (strict : scope.options.policy = .strict)
    {typed target : TypedExpr} (h : scope.annotate target.erase = .ok typed)
    (valid : Typed scope .permissive [] target) :
    Typed scope .strict [] target := by
  have htyped := (typed_of_annotate closed h).2
  rw [strict] at htyped
  rcases annotate_of_typed closed valid with ⟨typed', s, hok, hs⟩ | ⟨-, selector, span, herr⟩
  · rw [h] at hok
    cases hok
    -- The typing is an instance of the result, whose receivers are all known.
    have hinstance : Typed scope .strict (Context.apply s []) (typed.apply s) :=
      htyped.apply closed fun hpolicy => absurd hpolicy (by decide)
    rwa [hs] at hinstance
  · rw [h] at herr
    cases herr

/-- Where there is a typing and, for strict inference, none that leaves a receiver unknown,
inference succeeds. -/
theorem exists_annotate_of_typed
    (closed : scope.Closed) {target : TypedExpr} (valid : Typed scope policy [] target)
    (known : scope.options.policy = .strict → ∀ other : TypedExpr,
      other.erase = target.erase → Typed scope .permissive [] other →
        Typed scope .strict [] other) :
    ∃ typed s, scope.annotate target.erase = .ok typed ∧ typed.apply s = target := by
  rcases annotate_of_typed closed valid with hok | ⟨strict, selector, span, herr⟩
  · exact hok
  exfalso
  obtain ⟨provisional, final, -, hrun, -⟩ := infer_start_reaches closed valid
  have hstuck : (Solver.start final.constraints final.supply).solve scope
      scope.options.policy = .error ⟨.unresolvedMember selector, span⟩ := by
    simp only [annotate, complete, completeFrom, hrun, solveInferred] at herr
    split at herr
    · rename_i e he
      rw [he, Except.error.inj herr]
    · cases herr
  rw [strict] at hstuck
  obtain ⟨u, hsolve, m, hm, hvar⟩ :=
    Solver.exists_solve_permissive_of_unresolved hstuck Subst.solved_empty
  obtain ⟨-, hholds⟩ := Solver.solution_of_solve_start hsolve
  have hm : .member m ∈ final.constraints := by
    rcases hm with hm | hm
    · exact hm
    · cases hm
  -- The permissive run leaves a typing, and the assumption makes it a strict one.
  have hother := (infer_sound closed _ (Γ := []) hrun u hholds).2
  have herase : (provisional.apply u).erase = target.erase := by
    rw [TypedExpr.erase_apply, infer_erase _ hrun]
  have hstrict := known strict _ herase hother
  have hnone : (Infer.start scope).Known u := fun m hm => absurd hm List.not_mem_nil
  have hknown := infer_known closed _ (Γ := []) hrun hnone hstrict m hm
  rw [hvar] at hknown
  cases hknown

/-- Every typing of the first expression gives one of the second with the same type, valid
under the same policies. -/
def TypingsInto (scope : Scope) (e e' : Expr) : Prop :=
  ∀ policy (target : TypedExpr), target.erase = e → Typed scope policy [] target →
    ∃ target' : TypedExpr, target'.erase = e' ∧ target'.ty = target.ty ∧
      ∀ granted, Typed scope granted [] target ↔ Typed scope granted [] target'

/-- Inference succeeds on an expression if it does on another one with the same typings, and
finds a type at least as general. -/
theorem TypingsInto.exists_annotate
    (closed : scope.Closed) {e e' : Expr} (h : scope.TypingsInto e e')
    (h' : scope.TypingsInto e' e) {typed : TypedExpr} (hok : scope.annotate e = .ok typed) :
    ∃ (typed' : TypedExpr) (s : Subst), scope.annotate e' = .ok typed' ∧
      s.apply typed'.ty = typed.ty := by
  obtain ⟨herase, valid⟩ := typed_of_annotate closed hok
  obtain ⟨target, rfl, hty, hsame⟩ := h _ typed herase valid
  have known : scope.options.policy = .strict → ∀ other : TypedExpr,
      other.erase = target.erase → Typed scope .permissive [] other →
        Typed scope .strict [] other := by
    intro strict other hother validOther
    obtain ⟨back, rfl, -, hback⟩ := h' _ other hother validOther
    have validBack := (hback .permissive).1 validOther
    exact (hback .strict).2 (strict_of_annotate closed strict hok validBack)
  obtain ⟨typed', s, hok', hs⟩ :=
    exists_annotate_of_typed closed ((hsame _).1 valid) known
  refine ⟨typed', s, hok', ?_⟩
  rw [← TypedExpr.ty_apply, hs, hty]

/-- Inference treats expressions with the same typings alike, up to the names of type
variables. -/
theorem annotate_ok_iff_of_typingsInto
    (closed : scope.Closed) {e e' : Expr} (h : scope.TypingsInto e e')
    (h' : scope.TypingsInto e' e) :
    ((∃ typed, scope.annotate e = .ok typed) ↔ ∃ typed, scope.annotate e' = .ok typed) ∧
      ∀ typed typed', scope.annotate e = .ok typed → scope.annotate e' = .ok typed' →
        typed.ty.Variant typed'.ty := by
  refine ⟨⟨?_, ?_⟩, ?_⟩
  · rintro ⟨typed, hok⟩
    obtain ⟨typed', -, hok', -⟩ := h.exists_annotate closed h' hok
    exact ⟨typed', hok'⟩
  · rintro ⟨typed', hok'⟩
    obtain ⟨typed, -, hok, -⟩ := h'.exists_annotate closed h hok'
    exact ⟨typed, hok⟩
  · intro typed typed' hok hok'
    obtain ⟨_, s, hfound, hs⟩ := h.exists_annotate closed h' hok
    obtain ⟨_, s', hfound', hs'⟩ := h'.exists_annotate closed h hok'
    rw [hok'] at hfound
    rw [hok] at hfound'
    cases hfound
    cases hfound'
    exact Ty.variant_iff.2 ⟨⟨s', hs'⟩, s, hs⟩

end Scope

/-! ## Selecting later -/

namespace TypedExpr

theorem erase_eq_member
    {target : TypedExpr} {e : Expr} {selector : Selector} {span : Span}
    (h : target.erase = .member e selector span) :
    ∃ base t, target = .member base selector span t ∧ base.erase = e := by
  cases target with
  | member base selector' span' t =>
      cases h
      exact ⟨base, t, rfl, rfl⟩
  | cond condition thenBranch elseBranch span' t => cases elseBranch <;> cases h
  | _ => cases h

theorem erase_eq_app
    {target : TypedExpr} {fn : Expr} {args : List Expr} {span : Span}
    (h : target.erase = .app fn args span) :
    ∃ fn' args' t, target = .app fn' args' span t ∧ fn'.erase = fn ∧ eraseAll args' = args := by
  cases target with
  | app fn' args' span' t =>
      cases h
      exact ⟨fn', args', t, rfl, rfl, rfl⟩
  | cond condition thenBranch elseBranch span' t => cases elseBranch <;> cases h
  | _ => cases h

theorem erase_eq_closure
    {target : TypedExpr} {params : List (Param Expr)} {body : Expr} {span : Span}
    (h : target.erase = .closure params body span) :
    ∃ body' t, target = .closure params body' span t ∧ body'.erase = body := by
  cases target with
  | closure params' body' span' t =>
      cases h
      exact ⟨body', t, rfl, rfl⟩
  | cond condition thenBranch elseBranch span' t => cases elseBranch <;> cases h
  | _ => cases h

theorem erase_eq_ident
    {target : TypedExpr} {name : String} {span : Span}
    (h : target.erase = .ident name span) :
    ∃ t, target = .ident name span t := by
  cases target with
  | ident name' span' t =>
      cases h
      exact ⟨t, rfl⟩
  | cond condition thenBranch elseBranch span' t => cases elseBranch <;> cases h
  | _ => cases h

end TypedExpr

/-- A closure that selects a member of its one parameter, with the places of its parts. -/
structure Projection where
  param : String
  selector : Selector
  paramSpan : Span
  nameSpan : Span
  bodySpan : Span
  span : Span

namespace Projection

/-- The closure `{ p in p.selector }`. -/
def expr (c : Projection) : Expr :=
  .closure [⟨c.param, none, c.paramSpan⟩]
    (.member (.ident c.param c.nameSpan) c.selector c.bodySpan) c.span

/-- The closure with its types, given those of the receiver and of the member. -/
def typed (c : Projection) (receiver t : Ty) : TypedExpr :=
  .closure [⟨c.param, none, c.paramSpan⟩]
    (.member (.ident c.param c.nameSpan receiver) c.selector c.bodySpan t) c.span
    (.arrow [receiver] t)

variable {scope : Scope} {policy : MemberPolicy} {Γ : Context} {c : Projection}

/-- In the body the receiver has the type of the parameter. -/
theorem typed_body_iff (closed : scope.Closed) {u receiver t : Ty} :
    Typed scope policy ([(c.param, u)] :: Γ)
        (.member (.ident c.param c.nameSpan receiver) c.selector c.bodySpan t) ↔
      receiver = u ∧ scope.Permits policy receiver c.selector t := by
  have hfind : Context.find? ([(c.param, u)] :: Γ) c.param = some u := by
    simp [Context.find?, Table.find?]
  have hplain : scope.typeName? (Context.locals ([(c.param, u)] :: Γ))
      (.ident c.param c.nameSpan) = none := by
    simp [Scope.typeName?, Scope.isValueName, Context.find?_locals, hfind]
  rw [Scope.typed_member_iff closed hplain]
  refine and_congr_left fun _ => ⟨?_, ?_⟩
  · intro h
    cases h with
    | localName found =>
        rw [hfind] at found
        exact (Option.some.inj found).symm
    | globalName free =>
        rw [hfind] at free
        cases free
  · rintro rfl
    exact .localName hfind

/-- The typings of the closure are those with a receiver that may have the member. -/
theorem typed_iff (closed : scope.Closed) {fn : TypedExpr} (herase : fn.erase = c.expr) :
    Typed scope policy Γ fn ↔
      ∃ receiver t, fn = c.typed receiver t ∧ scope.Permits policy receiver c.selector t := by
  obtain ⟨body, arrow, rfl, hbody⟩ := TypedExpr.erase_eq_closure herase
  obtain ⟨base, t, rfl, hbase⟩ := TypedExpr.erase_eq_member hbody
  obtain ⟨receiver, rfl⟩ := TypedExpr.erase_eq_ident hbase
  constructor
  · intro h
    cases h with
    | closure distinct annotated typedBody =>
        cases annotated with
        | @cons _ entry _ _ hentry hrest =>
            cases hrest
            obtain ⟨name, u⟩ := entry
            obtain ⟨rfl, -⟩ := hentry
            obtain ⟨rfl, permits⟩ := (typed_body_iff closed).1 typedBody
            exact ⟨receiver, t, rfl, permits⟩
  · rintro ⟨receiver', t', heq, permits⟩
    cases heq
    refine @Typed.closure _ _ _ _ [(c.param, receiver)] _ _ (by simp [Table.names]) ?_ ?_
    · refine .cons ⟨rfl, ?_⟩ .nil
      rintro a ⟨⟩
    · exact (typed_body_iff closed).2 ⟨rfl, permits⟩

theorem typed_call_iff
    (closed : scope.Closed) {base : TypedExpr} {span : Span} {t : Ty} :
    Typed scope policy Γ (.app (c.typed base.ty t) [base] span t) ↔
      Typed scope policy Γ base ∧ scope.Permits policy base.ty c.selector t := by
  constructor
  · intro h
    cases h with
    | app typedFn typedArgs fnTy =>
        obtain ⟨receiver, u, heq, permits⟩ := (typed_iff closed rfl).1 typedFn
        cases heq
        exact ⟨typedArgs base (List.mem_singleton_self base), permits⟩
  · rintro ⟨typedBase, permits⟩
    have typedFn : Typed scope policy Γ (c.typed base.ty t) :=
      (typed_iff closed rfl).2 ⟨_, _, rfl, permits⟩
    exact .app typedFn (List.forall_mem_singleton.2 typedBase) rfl

/-- A typing of the call has the type of the receiver on the parameter and the type of the
member on the call. -/
theorem exists_eq_call
    (closed : scope.Closed) {e : Expr} {span : Span} {target : TypedExpr}
    (herase : target.erase = .app c.expr [e] span) (h : Typed scope policy Γ target) :
    ∃ base t, base.erase = e ∧ target = .app (c.typed base.ty t) [base] span t := by
  obtain ⟨fn, args, t, rfl, hfn, hargs⟩ := TypedExpr.erase_eq_app herase
  rw [TypedExpr.eraseAll_eq_map] at hargs
  obtain ⟨base, rfl, hbase⟩ := List.map_eq_singleton_iff.1 hargs
  cases h with
  | app typedFn typedArgs fnTy =>
      obtain ⟨receiver, u, rfl, -⟩ := (typed_iff closed hfn).1 typedFn
      cases fnTy
      exact ⟨base, t, hbase, rfl⟩

end Projection

namespace Scope

variable {scope : Scope}

theorem typed_member_iff_call
    (closed : scope.Closed) {policy : MemberPolicy} {Γ : Context} {base : TypedExpr}
    (plain : scope.typeName? Γ.locals base.erase = none) {c : Projection}
    {span callSpan : Span} {t : Ty} :
    Typed scope policy Γ (.member base c.selector span t) ↔
      Typed scope policy Γ (.app (c.typed base.ty t) [base] callSpan t) := by
  rw [typed_member_iff closed plain, Projection.typed_call_iff closed]

theorem typingsInto_call
    (closed : scope.Closed) {e : Expr} (plain : scope.typeName? [] e = none)
    (c : Projection) (span callSpan : Span) :
    scope.TypingsInto (.member e c.selector span) (.app c.expr [e] callSpan) := by
  intro policy target herase valid
  obtain ⟨base, t, rfl, rfl⟩ := TypedExpr.erase_eq_member herase
  refine ⟨.app (c.typed base.ty t) [base] callSpan t, rfl, rfl, ?_⟩
  exact fun granted => typed_member_iff_call (Γ := []) closed plain

theorem call_typingsInto
    (closed : scope.Closed) {e : Expr} (plain : scope.typeName? [] e = none)
    (c : Projection) (span callSpan : Span) :
    scope.TypingsInto (.app c.expr [e] callSpan) (.member e c.selector span) := by
  intro policy target herase valid
  obtain ⟨base, t, rfl, rfl⟩ := Projection.exists_eq_call closed herase valid
  refine ⟨.member base c.selector span t, rfl, rfl, ?_⟩
  exact fun granted => (typed_member_iff_call (Γ := []) closed plain).symm

/-- In the scope of a module or of the body of a type in it, under either policy, and for an
expression that does not name a type: selecting a member of it succeeds exactly when passing
it to a closure that selects the member of its parameter does, and the types found are the
same up to the names of type variables. -/
theorem annotate_member_iff_call
    {options : Options} (reached : scope.InModule options) {e : Expr}
    (plain : scope.typeName? [] e = none) (c : Projection) (span callSpan : Span) :
    ((∃ typed, scope.annotate (.member e c.selector span) = .ok typed) ↔
        ∃ typed, scope.annotate (.app c.expr [e] callSpan) = .ok typed) ∧
      ∀ typed called, scope.annotate (.member e c.selector span) = .ok typed →
        scope.annotate (.app c.expr [e] callSpan) = .ok called →
          typed.ty.Variant called.ty :=
  annotate_ok_iff_of_typingsInto reached.closed
    (typingsInto_call reached.closed plain c span callSpan)
    (call_typingsInto reached.closed plain c span callSpan)

/-- A pair of the identity and a number. -/
def identityPair : Expr :=
  .tuple [.closure [⟨"y", none, default⟩] (.ident "y" default) default,
    .literal (.int 1) default] default

/-- The closure that selects the first component. -/
def firstOf : Projection :=
  ⟨"p", .index 0, default, default, default, default⟩

/-- The two ways to select the identity from the pair name its type variable differently. -/
theorem annotate_member_iff_call_identityPair :
    build .standard [] = .ok (.empty .standard) ∧
      (empty .standard).typeName? [] identityPair = none ∧
      ∃ typed called,
        (empty .standard).annotate (.member identityPair firstOf.selector default) = .ok typed ∧
        (empty .standard).annotate (.app firstOf.expr [identityPair] default) = .ok called ∧
        typed.ty = .arrow [.var 0] (.var 0) ∧ called.ty = .arrow [.var 2] (.var 2) ∧
        typed.ty.Variant called.ty := by
  have hbuild : build .standard [] = .ok (.empty .standard) := rfl
  have hplain : (empty .standard).typeName? [] identityPair = none := rfl
  have htyped : ((empty .standard).completeWithin 8 ((empty .standard).infer []
      (.member identityPair firstOf.selector default))).map TypedExpr.ty =
        some (.arrow [.var 0] (.var 0)) := by cbv
  have hcalled : ((empty .standard).completeWithin 8 ((empty .standard).infer []
      (.app firstOf.expr [identityPair] default))).map TypedExpr.ty =
        some (.arrow [.var 2] (.var 2)) := by cbv
  obtain ⟨typed, hwithin, hty⟩ := Option.map_eq_some_iff.1 htyped
  obtain ⟨called, hwithin', hty'⟩ := Option.map_eq_some_iff.1 hcalled
  have hok := complete_of_completeWithin hwithin
  have hok' := complete_of_completeWithin hwithin'
  obtain ⟨-, hvariant⟩ :=
    annotate_member_iff_call (.build hbuild) hplain firstOf default default
  exact ⟨hbuild, hplain, typed, called, hok, hok', hty, hty', hvariant typed called hok hok'⟩

end Scope

end Ascribe
