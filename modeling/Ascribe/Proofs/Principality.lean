import Ascribe.Proofs.Soundness

/-!
# Inference is principal

Given a valid typing of an expression, generation succeeds on the expression, and some
substitution turns the provisional types into the typing and satisfies all constraints.
The substitution is built along the run.  A fresh variable is bound when it is taken, to
what the typing has in its place, and nothing below the supply changes after that.  Solving
is most general, so the typing is an instance of what inference returns.
-/

namespace Ascribe

/-! ## Growing substitutions -/

/-- A substitution satisfies the constraints of a state, and these only mention variables
that the supply has given out. -/
def InferState.Fits (scope : Scope) (policy : MemberPolicy) (s : Subst)
    (state : InferState Supply) : Prop :=
  ∀ c ∈ state.constraints, c.Below state.supply.next ∧ c.Holds scope policy s

theorem InferState.var_below (state : InferState Supply) :
    state.var.Below state.skip.supply.next :=
  Ty.below_var.2 (Nat.lt_succ_self _)

theorem InferState.inst_below
    {state : InferState Supply} {scheme : Scheme}
    (hfree : ∀ v ∈ scheme.freeVars, v < state.supply.next) :
    (state.inst scheme).Below (state.skipInst scheme).supply.next :=
  Supply.instantiate_below hfree

/-- A state that a substitution fits grows to one that another substitution fits.  They
agree on the variables that were given out before. -/
structure Grows (scope : Scope) (policy : MemberPolicy) (s : Subst) (state : InferState Supply)
    (s' : Subst) (final : InferState Supply) : Prop where
  le : state.supply.next ≤ final.supply.next
  agrees : Subst.AgreesBelow state.supply.next s s'
  fits : final.Fits scope policy s'

/-- However a substitution is changed above the supply, it turns a provisional tree into
the given one. -/
def Realizes (s : Subst) (state : InferState Supply) (typed target : TypedExpr) : Prop :=
  ∀ s', Subst.AgreesBelow state.supply.next s s' → typed.apply s' = target

theorem Realizes.ty_eq
    {s : Subst} {state : InferState Supply} {typed target : TypedExpr}
    (h : Realizes s state typed target) :
    s.apply typed.ty = target.ty := by
  rw [← TypedExpr.ty_apply, h s (.refl _ _)]

/-- A substitution fits a state and turns a provisional context into the given one. -/
structure Ready (scope : Scope) (policy : MemberPolicy) (s : Subst) (state : InferState Supply)
    (Γ Δ : Context) : Prop where
  context : Γ.apply s = Δ
  below : Γ.Below state.supply.next
  fits : state.Fits scope policy s

theorem Ready.add
    {scope : Scope} {policy : MemberPolicy} {s : Subst} {state : InferState Supply}
    {frame frame' : Table Ty} {Γ Δ : Context}
    (h : Ready scope policy s state (frame :: Γ) (frame' :: Δ)) (name : String) {t : Ty}
    (ht : t.Below state.supply.next) :
    Ready scope policy s state (frame.add name t :: Γ) (frame'.add name (s.apply t) :: Δ) :=
  ⟨Context.apply_add h.context name t, h.below.add ht name, h.fits⟩

/-- A name is new in a provisional frame when it is new in the given one. -/
theorem Ready.contains_eq_false
    {scope : Scope} {policy : MemberPolicy} {s : Subst} {state : InferState Supply}
    {frame frame' : Table Ty} {Γ Δ : Context}
    (h : Ready scope policy s state (frame :: Γ) (frame' :: Δ)) {name : String}
    (new : name ∉ frame'.names) :
    Table.contains (frame.map fun entry => (entry.1, Scheme.mono entry.2)) name = false := by
  obtain ⟨rfl, rfl⟩ := List.cons.inj h.context
  rw [Table.contains_eq_false, Table.names_map]
  rwa [Table.names_map] at new

namespace Grows

variable {scope : Scope} {policy : MemberPolicy} {s s' s'' : Subst}
  {state middle final : InferState Supply}

theorem refl (h : state.Fits scope policy s) :
    Grows scope policy s state s state :=
  ⟨Nat.le_refl _, .refl _ _, h⟩

theorem trans
    (h : Grows scope policy s state s' middle) (h' : Grows scope policy s' middle s'' final) :
    Grows scope policy s state s'' final :=
  ⟨Nat.le_trans h.le h'.le, h.agrees.trans h.le h'.agrees, h'.fits⟩

theorem apply_eq
    (h : Grows scope policy s state s' final) {t : Ty} (ht : t.Below state.supply.next) :
    s'.apply t = s.apply t :=
  (h.agrees.apply ht).symm

theorem agreesBelow
    (h : Grows scope policy s state s' final)
    (hagree : Subst.AgreesBelow final.supply.next s' s'') :
    Subst.AgreesBelow state.supply.next s s'' :=
  h.agrees.trans h.le hagree

theorem realizes
    (h : Grows scope policy s state s' final) {typed target : TypedExpr}
    (hr : Realizes s state typed target) :
    Realizes s' final typed target :=
  fun _ hagree => hr _ (h.agreesBelow hagree)

theorem ready
    (h : Grows scope policy s state s' final) {Γ Δ : Context}
    (hr : Ready scope policy s state Γ Δ) :
    Ready scope policy s' final Γ Δ := by
  refine ⟨?_, hr.below.mono h.le, h.fits⟩
  rw [← hr.below.apply_congr h.agrees, hr.context]

theorem emit
    (h : Grows scope policy s state s' final) {c : Constraint} (hc : c.Below final.supply.next)
    (holds : c.Holds scope policy s') :
    Grows scope policy s state s' (final.emit c) := by
  refine ⟨h.le, h.agrees, ?_⟩
  intro c' hc'
  rcases List.mem_append.1 hc' with hc' | hc'
  · exact h.fits c' hc'
  · obtain rfl := List.mem_singleton.1 hc'
    exact ⟨hc, holds⟩

/-- A constraint that equates a provisional type with a type without variables. -/
theorem emit_equates
    (h : Grows scope policy s state s' final) {c : Constraint} {t u : Ty}
    (ht : t.Below final.supply.next) (hu : u.vars = []) (heq : s'.apply t = u)
    (hc : c.Equates t u ∨ c.Equates u t) :
    Grows scope policy s state s' (final.emit c) := by
  have hsame : s'.apply t = s'.apply u := by
    rw [heq, Subst.apply_of_vars_eq_nil hu]
  have hbelow : u.Below final.supply.next := Ty.below_of_vars_eq_nil hu
  rcases hc with hc | hc
  · exact h.emit (hc.below_iff.2 ⟨ht, hbelow⟩) (hc.holds_iff.2 hsame)
  · exact h.emit (hc.below_iff.2 ⟨hbelow, ht⟩) (hc.holds_iff.2 hsame.symm)

/-- Taking variables from the supply, after a change above it. -/
theorem of_agreesBelow
    (closed : scope.Closed) (hfits : state.Fits scope policy s) {supply : Supply}
    (hle : state.supply.next ≤ supply.next)
    (hagree : Subst.AgreesBelow state.supply.next s s') :
    Grows scope policy s state s' ⟨supply, state.constraints⟩ := by
  refine ⟨hle, hagree, ?_⟩
  intro c hc
  obtain ⟨hbelow, hholds⟩ := hfits c hc
  exact ⟨hbelow.mono hle,
    hholds.of_agreesBelow (closed.membersBelow _) hbelow hagree⟩

/-- A fresh variable may stand for any type. -/
theorem exists_skip
    (closed : scope.Closed) (hfits : state.Fits scope policy s) (t : Ty) :
    ∃ s', Grows scope policy s state s' state.skip ∧ s'.apply state.var = t := by
  refine ⟨s.extend (fun _ => t) [state.supply.next], ?_, ?_⟩
  · refine of_agreesBelow closed hfits (Nat.le_succ _) ?_
    intro v hv
    rw [Subst.apply_extend_of_not_mem]
    simp only [List.mem_singleton]
    omega
  · exact Subst.apply_extend_of_mem (List.mem_singleton_self _)

/-- A fresh instance of a scheme may stand for any instance of it. -/
theorem exists_skipInst
    (closed : scope.Closed) (hfits : state.Fits scope policy s) {scheme : Scheme} {t : Ty}
    (inst : scheme.InstanceUnder s t) (hfree : ∀ v ∈ scheme.freeVars, v < state.supply.next) :
    ∃ s', Grows scope policy s state s' (state.skipInst scheme) ∧
      s'.apply (state.inst scheme) = t := by
  obtain ⟨s', hagree, heq⟩ := Supply.exists_instantiate inst hfree
  refine ⟨s', of_agreesBelow closed hfits ?_ hagree, heq⟩
  exact state.supply.next_le_instantiate scheme

end Grows

namespace Scope

variable {scope : Scope} {policy : MemberPolicy} {s : Subst} {state : InferState Supply}
  {Γ Δ : Context}

/-! ## Names and parameters -/

/-- A run succeeds and reaches a given tree under some growth of a substitution. -/
def Reaches (scope : Scope) (policy : MemberPolicy) (s : Subst) (state : InferState Supply)
    (run : Infer Supply TypedExpr) (target : TypedExpr) : Prop :=
  ∃ typed final s', run state = .ok typed final ∧ Grows scope policy s state s' final ∧
    typed.ty.Below final.supply.next ∧ Realizes s' final typed target

def ReachesAll (scope : Scope) (policy : MemberPolicy) (s : Subst) (state : InferState Supply)
    (run : Infer Supply (List TypedExpr)) (targets : List TypedExpr) : Prop :=
  ∃ typed final s', run state = .ok typed final ∧ Grows scope policy s state s' final ∧
    (∀ e ∈ typed, e.ty.Below final.supply.next) ∧
    ∀ s'', Subst.AgreesBelow final.supply.next s' s'' → typed.map (TypedExpr.apply s'') = targets

theorem infer_ident_reaches
    (closed : scope.Closed) {name : String} {span : Span} {t : Ty}
    (ready : Ready scope policy s state Γ Δ)
    (h : Typed scope policy Δ (.ident name span t)) :
    scope.Reaches policy s state (scope.infer Γ.locals (.ident name span))
      (.ident name span t) := by
  obtain ⟨rfl, hbelow, hfits⟩ := ready
  cases h with
  | localName found =>
      rw [Context.find?_apply] at found
      obtain ⟨u, hu, rfl⟩ := Option.map_eq_some_iff.1 found
      have hscheme : scope.valueScheme Γ.locals name span = .ok (.mono u) := by
        simp only [valueScheme, Context.find?_locals, hu, Option.map_some]
      refine ⟨.ident name span u, state, s, ?_, .refl hfits, hbelow.find? hu, ?_⟩
      · exact infer_ident_eq_ok.2 ⟨.mono u, hscheme, rfl, rfl⟩
      · intro s' hagree
        rw [hagree.apply (hbelow.find? hu)]
        rfl
  | @globalName _ _ _ entry _ free found inst =>
      rw [Context.find?_apply, Option.map_eq_none_iff] at free
      have hscheme : scope.valueScheme Γ.locals name span = .ok entry.scheme := by
        simp only [valueScheme, Context.find?_locals, free, Option.map_none, found]
      have hclosed := closed.lookup found
      have hfree := hclosed.freeVars_lt state.supply.next
      obtain ⟨s', hgrows, heq⟩ :=
        Grows.exists_skipInst closed hfits (hclosed.instanceUnder_iff.2 inst) hfree
      have hinst := InferState.inst_below hfree
      refine ⟨_, _, s', infer_ident_eq_ok.2 ⟨_, hscheme, rfl, rfl⟩, hgrows, hinst, ?_⟩
      intro s'' hagree
      rw [← heq, hagree.apply hinst]
      rfl

theorem inferParams_reaches
    (closed : scope.Closed) {params : List (Param Expr)} {bound target : Table Ty}
    (hfits : state.Fits scope policy s) (hnodup : (bound.names ++ target.names).Nodup)
    (htarget : List.Forall₂ scope.ParamTy params target) :
    ∃ new final s', scope.inferParams bound params state = .ok (bound ++ new) final ∧
      Grows scope policy s state s' final ∧ (∀ entry ∈ new, entry.2.Below final.supply.next) ∧
      new.map (fun entry => (entry.1, s'.apply entry.2)) = target := by
  induction htarget generalizing bound state s with
  | nil =>
      refine ⟨[], state, s, ?_, .refl hfits, by simp, rfl⟩
      exact inferParams_nil_eq_ok.2 ⟨by simp, rfl⟩
  | @cons p entry params target hp hrest ih =>
      obtain ⟨name, t⟩ := entry
      obtain ⟨rfl, hascription⟩ := hp
      have hnew : bound.contains p.name = false := by
        rw [Table.contains_eq_false]
        intro hmem
        exact (List.nodup_append.1 hnodup).2.2 _ hmem _ List.mem_cons_self rfl
      have hnodup' : ∀ u, ((bound.add p.name u).names ++ Table.names target).Nodup := by
        intro u
        rw [Table.names_add, List.append_assoc]
        exact hnodup
      cases ha : p.ascription with
      | some a =>
          have ht := hascription a ha
          obtain ⟨new, final, s', hrun, hgrows, hbelow, hmap⟩ := ih hfits (hnodup' t)
          have hvars := annotationTy_vars ht
          refine ⟨(p.name, t) :: new, final, s', ?_, hgrows, ?_, ?_⟩
          · refine inferParams_cons_eq_ok.2 ⟨hnew, .inl ⟨a, t, ha, ht, ?_⟩⟩
            simpa [Table.add] using hrun
          · exact List.forall_mem_cons.2 ⟨Ty.below_of_vars_eq_nil hvars, hbelow⟩
          · rw [List.map_cons, hmap, Subst.apply_of_vars_eq_nil hvars]
      | none =>
          obtain ⟨s₁, hgrows₁, hvar⟩ := Grows.exists_skip closed hfits t
          obtain ⟨new, final, s', hrun, hgrows, hbelow, hmap⟩ :=
            ih hgrows₁.fits (hnodup' state.var)
          have hfresh := state.var_below
          refine ⟨(p.name, state.var) :: new, final, s', ?_, hgrows₁.trans hgrows, ?_, ?_⟩
          · refine inferParams_cons_eq_ok.2 ⟨hnew, .inr ⟨ha, ?_⟩⟩
            simpa [Table.add] using hrun
          · exact List.forall_mem_cons.2 ⟨hfresh.mono hgrows.le, hbelow⟩
          · rw [List.map_cons, hmap, hgrows.apply_eq hfresh, hvar]

/-! ## Members -/

theorem infer_staticMember_reaches
    (closed : scope.Closed) {base : Expr} {owner : String} {selector : Selector} {span : Span}
    {scheme : Scheme} {t : Ty} (hfits : state.Fits scope policy s)
    (names : scope.typeName? Γ.locals base = some owner)
    (found : scope.staticMember (.named owner) owner selector span = .ok scheme)
    (inst : scheme.HasInstance t) :
    scope.Reaches policy s state (scope.infer Γ.locals (.member base selector span))
      (.member (base.ascribe (.named owner)) selector span t) := by
  have hclosed := closed.staticMember found
  have hfree := hclosed.freeVars_lt state.supply.next
  obtain ⟨s', hgrows, heq⟩ :=
    Grows.exists_skipInst closed hfits (hclosed.instanceUnder_iff.2 inst) hfree
  have hinst := InferState.inst_below hfree
  refine ⟨_, _, s', (infer_staticMember_eq_ok names).2 ⟨_, found, rfl, rfl⟩, hgrows, hinst, ?_⟩
  intro s'' hagree
  rw [TypedExpr.apply_member, TypedExpr.apply, Expr.mapTy_ascribe, ← hagree.apply hinst, heq]
  rfl

/-- A member of a receiver that is not the name of a type.  It is looked up at once or left
to the solver; either way its type may become the one of the typing. -/
theorem infer_member_reaches
    (closed : scope.Closed) {base : Expr} {target : TypedExpr} {selector : Selector}
    {span : Span} {t : Ty} (plain : scope.typeName? Γ.locals base = none)
    (hbase : scope.Reaches policy s state (scope.infer Γ.locals base) target)
    (hholds : ∀ s, scope.Selects s target.ty selector t ∨
      (policy = .permissive ∧ target.ty.isVar = true)) :
    scope.Reaches policy s state (scope.infer Γ.locals (.member base selector span))
      (.member target selector span t) := by
  obtain ⟨typed, middle, s₁, hrun, hgrows₁, hbelow, hreal⟩ := hbase
  have hty := Realizes.ty_eq hreal
  have hknown : typed.ty.isVar = true ∨
      ∃ scheme, scope.select typed.ty selector span = .ok (some scheme) ∧
        scheme.InstanceUnder s₁ t := by
    rcases hholds s₁ with hselects | ⟨-, hvar⟩
    · rw [← hty] at hselects
      exact select_of_selects hselects span
    · rw [← hty] at hvar
      exact .inl (Solver.isVar_of_isVar_apply hvar)
  rcases hknown with hvar | ⟨scheme, hselect, inst⟩
  · have hselect : scope.select typed.ty selector span = .ok none :=
      select_of_isVar hvar selector span
    obtain ⟨s₂, hgrows₂, heq⟩ := Grows.exists_skip closed hgrows₁.fits t
    have hfresh := middle.var_below
    have hmember :
        (Constraint.member ⟨typed.ty, selector, middle.var, span⟩).Holds scope policy s₂ := by
      simp only [Constraint.Holds, heq, hgrows₂.apply_eq hbelow, hty]
      exact hholds s₂
    refine ⟨_, _, s₂, (infer_member_eq_ok plain).2 ⟨typed, middle, hrun, .inr
      ⟨hselect, rfl, rfl⟩⟩, ?_, hfresh, ?_⟩
    · exact (hgrows₁.trans hgrows₂).emit ⟨hbelow.mono hgrows₂.le, hfresh⟩ hmember
    · intro s' hagree
      rw [TypedExpr.apply_member, hgrows₂.realizes hreal s' hagree, ← hagree.apply hfresh, heq]
  · have hfree := Solver.freeVars_lt_of_select hselect (closed.membersBelow _) hbelow
    obtain ⟨s₂, hgrows₂, heq⟩ := Grows.exists_skipInst closed hgrows₁.fits inst hfree
    have hinst := InferState.inst_below hfree
    refine ⟨_, _, s₂, (infer_member_eq_ok plain).2 ⟨typed, middle, hrun, .inl
      ⟨scheme, hselect, rfl, rfl⟩⟩, hgrows₁.trans hgrows₂, hinst, ?_⟩
    intro s' hagree
    rw [TypedExpr.apply_member, hgrows₂.realizes hreal s' hagree, ← hagree.apply hinst, heq]

/-! ## Composite expressions -/

theorem infer_literal_reaches
    {value : Literal} {span : Span} (hfits : state.Fits scope policy s) :
    scope.Reaches policy s state (scope.infer Γ.locals (.literal value span))
      (.literal value span value.ty) := by
  refine ⟨_, state, s, infer_literal_eq_ok.2 ⟨rfl, rfl⟩, .refl hfits,
    Ty.below_of_vars_eq_nil value.vars_ty, ?_⟩
  exact fun s' _ => TypedExpr.apply_literal s' value span

theorem infer_closure_reaches
    (closed : scope.Closed) {params : List (Param Expr)} {target : Table Ty}
    {body : TypedExpr} {span : Span} (ready : Ready scope policy s state Γ Δ)
    (distinct : target.names.Nodup) (annotated : List.Forall₂ scope.ParamTy params target)
    (hbody : ∀ {bound : Table Ty} {s₁ : Subst} {middle : InferState Supply},
      Ready scope policy s₁ middle (bound :: Γ) (target :: Δ) →
        scope.Reaches policy s₁ middle (scope.infer (Context.locals (bound :: Γ)) body.erase)
          body) :
    scope.Reaches policy s state (scope.infer Γ.locals (.closure params body.erase span))
      (.closure params body span (.arrow (target.map Prod.snd) body.ty)) := by
  obtain ⟨bound, middle, s₁, hparams, hgrows₁, hbound, rfl⟩ :=
    @inferParams_reaches scope policy s state closed params [] _ ready.fits distinct annotated
  have ready₁ := hgrows₁.ready ready
  have hinner : Context.Below middle.supply.next (bound :: Γ) :=
    List.forall_mem_cons.2 ⟨hbound, ready₁.below⟩
  obtain ⟨typed, final, s₂, hrun, hgrows₂, hty, hreal⟩ :=
    hbody ⟨congrArg (List.cons _) ready₁.context, hinner, hgrows₁.fits⟩
  refine ⟨_, final, s₂, infer_closure_eq_ok.2 ⟨bound, middle, typed, hparams, hrun, rfl⟩,
    hgrows₁.trans hgrows₂, ?_, ?_⟩
  · refine Ty.below_arrow.2 ⟨List.forall_mem_map.2 ?_, hty⟩
    intro entry hentry
    exact (hbound entry hentry).mono hgrows₂.le
  · intro s' hagree
    have hreal' := hreal s' hagree
    have hsame : bound.map (fun entry => s'.apply entry.2) =
        bound.map fun entry => s₁.apply entry.2 := by
      refine List.map_congr_left fun entry hentry => ?_
      exact ((hgrows₂.agreesBelow hagree).apply (hbound entry hentry)).symm
    rw [TypedExpr.apply_closure, hreal']
    simp only [Subst.apply_arrow, List.map_map, Function.comp_def, hsame,
      ← TypedExpr.ty_apply, hreal']

theorem infer_app_reaches
    (closed : scope.Closed) {fn : TypedExpr} {args : List TypedExpr} {span : Span} {t : Ty}
    (hfn : scope.Reaches policy s state (scope.infer Γ.locals fn.erase) fn)
    (hargs : ∀ {s₁ : Subst} {middle : InferState Supply}, Grows scope policy s state s₁ middle →
      scope.ReachesAll policy s₁ middle (scope.inferAll Γ.locals (TypedExpr.eraseAll args))
        args)
    (fnTy : fn.ty = .arrow (args.map TypedExpr.ty) t) :
    scope.Reaches policy s state
      (scope.infer Γ.locals (.app fn.erase (TypedExpr.eraseAll args) span))
      (.app fn args span t) := by
  obtain ⟨fn', middle, s₁, hfn, hgrows₁, hfnTy, hfnReal⟩ := hfn
  obtain ⟨args', last, s₂, hargs, hgrows₂, hargsTy, hargsReal⟩ := hargs hgrows₁
  obtain ⟨s₃, hgrows₃, hvar⟩ := Grows.exists_skip closed hgrows₂.fits t
  have hfresh := last.var_below
  have hgrows₂₃ := hgrows₂.trans hgrows₃
  have hfnReal' := hgrows₂₃.realizes hfnReal
  have hargsEq : args'.map (TypedExpr.apply s₃) = args := hargsReal s₃ hgrows₃.agrees
  have hequal : s₃.apply fn'.ty = s₃.apply (.arrow (args'.map TypedExpr.ty) last.var) := by
    rw [Realizes.ty_eq hfnReal', fnTy, Subst.apply_arrow, hvar, ← hargsEq]
    simp [Function.comp_def]
  have harrow : (Ty.arrow (args'.map TypedExpr.ty) last.var).Below last.skip.supply.next := by
    refine Ty.below_arrow.2 ⟨List.forall_mem_map.2 ?_, hfresh⟩
    intro arg harg
    exact (hargsTy arg harg).mono hgrows₃.le
  refine ⟨_, _, s₃, infer_app_eq_ok.2 ⟨_, _, _, _, hfn, hargs, rfl, rfl⟩,
    (hgrows₁.trans hgrows₂₃).emit ⟨hfnTy.mono hgrows₂₃.le, harrow⟩ hequal, hfresh, ?_⟩
  intro s' hagree
  rw [TypedExpr.apply_app, hfnReal' s' hagree, hargsReal s' (hgrows₃.agreesBelow hagree),
    ← hagree.apply hfresh, hvar]

/-- A condition is inferred and its type equated with the booleans. -/
theorem infer_condition_reaches
    {condition : TypedExpr} (conditionTy : condition.ty = .bool)
    (hcondition : scope.Reaches policy s state (scope.infer Γ.locals condition.erase) condition) :
    ∃ test middle s₁, scope.infer Γ.locals condition.erase state = .ok test middle ∧
      Grows scope policy s state s₁
        (middle.emit (.equal test.ty .bool condition.erase.span)) ∧
      Realizes s₁ (middle.emit (.equal test.ty .bool condition.erase.span)) test
        condition := by
  obtain ⟨test, middle, s₁, htest, hgrows, hty, hreal⟩ := hcondition
  refine ⟨test, middle, s₁, htest, ?_, hreal⟩
  exact hgrows.emit_equates hty rfl (hreal.ty_eq.trans conditionTy) (.inl ⟨_, .inl rfl⟩)

theorem infer_condThen_reaches
    {condition thenBranch : TypedExpr} {span : Span}
    (conditionTy : condition.ty = .bool) (thenTy : thenBranch.ty = .unit)
    (hcondition : scope.Reaches policy s state (scope.infer Γ.locals condition.erase) condition)
    (hthen : ∀ {s₁ : Subst} {middle : InferState Supply}, Grows scope policy s state s₁ middle →
      scope.Reaches policy s₁ middle (scope.infer Γ.locals thenBranch.erase) thenBranch) :
    scope.Reaches policy s state
      (scope.infer Γ.locals (.cond condition.erase thenBranch.erase none span))
      (.cond condition thenBranch none span thenBranch.ty) := by
  obtain ⟨test, middle, s₁, htest, hgrows₁, htestReal⟩ :=
    infer_condition_reaches conditionTy hcondition
  obtain ⟨then', last, s₂, hthen, hgrows₂, hthenTy, hthenReal⟩ := hthen hgrows₁
  refine ⟨_, _, s₂, infer_condThen_eq_ok.2 ⟨_, _, _, _, htest, hthen, rfl, rfl⟩,
    (hgrows₁.trans hgrows₂).emit_equates hthenTy rfl (hthenReal.ty_eq.trans thenTy)
      (.inl ⟨span, .inl rfl⟩), hthenTy, ?_⟩
  intro s' hagree
  have hthenEq := hthenReal s' hagree
  rw [TypedExpr.apply_condThen, hgrows₂.realizes htestReal s' hagree, hthenEq,
    ← TypedExpr.ty_apply, hthenEq]

theorem infer_condElse_reaches
    {condition thenBranch elseBranch : TypedExpr} {span : Span}
    (conditionTy : condition.ty = .bool) (sameTy : thenBranch.ty = elseBranch.ty)
    (hcondition : scope.Reaches policy s state (scope.infer Γ.locals condition.erase) condition)
    (hthen : ∀ {s₁ : Subst} {middle : InferState Supply}, Grows scope policy s state s₁ middle →
      scope.Reaches policy s₁ middle (scope.infer Γ.locals thenBranch.erase) thenBranch)
    (helse : ∀ {s₁ : Subst} {middle : InferState Supply}, Grows scope policy s state s₁ middle →
      scope.Reaches policy s₁ middle (scope.infer Γ.locals elseBranch.erase) elseBranch) :
    scope.Reaches policy s state
      (scope.infer Γ.locals
        (.cond condition.erase thenBranch.erase (some elseBranch.erase) span))
      (.cond condition thenBranch (some elseBranch) span thenBranch.ty) := by
  obtain ⟨test, first, s₁, htest, hgrows₁, htestReal⟩ :=
    infer_condition_reaches conditionTy hcondition
  obtain ⟨then', second, s₂, hthen, hgrows₂, hthenTy, hthenReal⟩ := hthen hgrows₁
  have hgrows₁₂ := hgrows₁.trans hgrows₂
  obtain ⟨else', last, s₃, helse, hgrows₃, helseTy, helseReal⟩ := helse hgrows₁₂
  have hthenReal' := hgrows₃.realizes hthenReal
  have hthenTy' := hthenTy.mono hgrows₃.le
  have hsame : s₃.apply then'.ty = s₃.apply else'.ty := by
    rw [hthenReal'.ty_eq, helseReal.ty_eq, sameTy]
  refine ⟨_, _, s₃, infer_condElse_eq_ok.2 ⟨_, _, _, _, _, _, htest, hthen, helse, rfl, rfl⟩,
    (hgrows₁₂.trans hgrows₃).emit ⟨hthenTy', helseTy⟩ hsame, hthenTy', ?_⟩
  intro s' hagree
  have htestReal' := (hgrows₂.trans hgrows₃).realizes htestReal
  rw [TypedExpr.apply_condElse, htestReal' s' hagree, hthenReal' s' hagree,
    helseReal s' hagree, ← TypedExpr.ty_apply, hthenReal' s' hagree]

theorem infer_tuple_reaches
    {elems : List TypedExpr} {span : Span}
    (helems : scope.ReachesAll policy s state
      (scope.inferAll Γ.locals (TypedExpr.eraseAll elems)) elems) :
    scope.Reaches policy s state (scope.infer Γ.locals (.tuple (TypedExpr.eraseAll elems) span))
      (.tuple elems span (.tuple (elems.map TypedExpr.ty))) := by
  obtain ⟨elems', final, s', hrun, hgrows, htys, hreal⟩ := helems
  refine ⟨_, final, s', infer_tuple_eq_ok.2 ⟨elems', hrun, rfl⟩, hgrows,
    Ty.below_tuple.2 (List.forall_mem_map.2 htys), ?_⟩
  intro s'' hagree
  rw [TypedExpr.apply_tuple, ← hreal s'' hagree]
  simp [Function.comp_def]

/-! ## Expressions -/

mutual

theorem infer_reaches (closed : scope.Closed) :
    ∀ (target : TypedExpr) {Γ Δ : Context} {s : Subst} {state : InferState Supply},
      Ready scope policy s state Γ Δ → Typed scope policy Δ target →
        scope.Reaches policy s state (scope.infer Γ.locals target.erase) target
  | .literal value span ty, Γ, Δ, s, state, ready, h => by
      cases h
      exact infer_literal_reaches ready.fits
  | .ident name span ty, Γ, Δ, s, state, ready, h =>
      infer_ident_reaches closed ready h
  | .closure params body span ty, Γ, Δ, s, state, ready, h => by
      cases h with
      | closure distinct annotated typedBody =>
          exact infer_closure_reaches closed ready distinct annotated
            fun inner => infer_reaches closed body inner typedBody
  | .app fn args span ty, Γ, Δ, s, state, ready, h => by
      cases h with
      | app typedFn typedArgs fnTy =>
          exact infer_app_reaches closed (infer_reaches closed fn ready typedFn)
            (fun grows => inferAll_reaches closed args (grows.ready ready) typedArgs) fnTy
  | .cond condition thenBranch none span ty, Γ, Δ, s, state, ready, h => by
      cases h with
      | condThen typedCondition conditionTy typedThen thenTy =>
          exact infer_condThen_reaches conditionTy thenTy
            (infer_reaches closed condition ready typedCondition)
            fun grows => infer_reaches closed thenBranch (grows.ready ready) typedThen
  | .cond condition thenBranch (some elseBranch) span ty, Γ, Δ, s, state, ready, h => by
      cases h with
      | condElse typedCondition conditionTy typedThen typedElse sameTy =>
          exact infer_condElse_reaches conditionTy sameTy
            (infer_reaches closed condition ready typedCondition)
            (fun grows => infer_reaches closed thenBranch (grows.ready ready) typedThen)
            fun grows => infer_reaches closed elseBranch (grows.ready ready) typedElse
  | .member base selector span ty, Γ, Δ, s, state, ready, h => by
      obtain rfl := ready.context
      cases h with
      | staticMember names found inst =>
          rw [Context.typeName?_apply] at names
          rw [TypedExpr.erase, Expr.erase_ascribe]
          exact infer_staticMember_reaches closed ready.fits names found inst
      | instanceMember plain typedBase baseTy found inst =>
          rw [Context.typeName?_apply] at plain
          refine infer_member_reaches closed plain
            (infer_reaches closed base ready typedBase) fun u => .inl ?_
          rw [baseTy]
          exact .member found ((closed.instanceMember found).instanceUnder_iff.2 inst)
      | component plain typedBase baseTy found =>
          rw [Context.typeName?_apply] at plain
          refine infer_member_reaches closed plain
            (infer_reaches closed base ready typedBase) fun u => .inl ?_
          rw [baseTy]
          exact .component found
      | unknownMember permissive plain typedBase unknown =>
          rw [Context.typeName?_apply] at plain
          exact infer_member_reaches closed plain
            (infer_reaches closed base ready typedBase) fun u => .inr ⟨permissive, unknown⟩
  | .tuple elems span ty, Γ, Δ, s, state, ready, h => by
      cases h with
      | tuple typedElems =>
          exact infer_tuple_reaches (inferAll_reaches closed elems ready typedElems)
  | .structLit type fields span ty, Γ, Δ, s, state, ready, h => by
      cases h with
      | structLit resolved typedFields declared =>
          obtain ⟨fields', final, s', hrun, hgrows, hreal⟩ :=
            inferFields_reaches closed fields (closed.resolveType resolved) ready typedFields
              declared
          refine ⟨_, final, s', infer_structLit_eq_ok.2 ⟨_, _, fields', resolved, hrun, rfl⟩,
            hgrows, Ty.below_of_vars_eq_nil rfl, ?_⟩
          intro s'' hagree
          rw [TypedExpr.apply_structLit, hreal s'' hagree, Subst.apply_of_vars_eq_nil rfl]
  | .tycon .., _, _, _, _, _, h => by cases h
  | .arrow .., _, _, _, _, _, h => by cases h
  | .block items span ty, Γ, Δ, s, state, ready, h => by
      cases h with
      | block typedItems =>
          have inner : Ready scope policy s state ([] :: Γ) ([] :: Δ) :=
            ⟨congrArg _ ready.context, List.forall_mem_cons.2 ⟨by simp, ready.below⟩,
              ready.fits⟩
          obtain ⟨items', t, final, s', hrun, hgrows, hty, hreal⟩ :=
            @inferItems_reaches closed items Γ Δ [] [] s state .unit _ inner
              (Ty.below_of_vars_eq_nil rfl) typedItems
          refine ⟨_, final, s', infer_block_eq_ok.2 ⟨items', t, hrun, rfl⟩, hgrows, hty, ?_⟩
          intro s'' hagree
          obtain ⟨hitems, heq⟩ := hreal s'' hagree
          rw [TypedExpr.apply, TypedExpr.mapTy, hitems, heq]

theorem inferAll_reaches (closed : scope.Closed) :
    ∀ (targets : List TypedExpr) {Γ Δ : Context} {s : Subst} {state : InferState Supply},
      Ready scope policy s state Γ Δ →
        (∀ target ∈ targets, Typed scope policy Δ target) →
          scope.ReachesAll policy s state (scope.inferAll Γ.locals (TypedExpr.eraseAll targets))
            targets
  | [], Γ, Δ, s, state, ready, h =>
      ⟨[], state, s, inferAll_nil_eq_ok.2 ⟨rfl, rfl⟩, .refl ready.fits, by simp, by simp⟩
  | target :: targets, Γ, Δ, s, state, ready, h => by
      obtain ⟨hfirst, hrest⟩ := List.forall_mem_cons.1 h
      obtain ⟨first, middle, s₁, hrun₁, hgrows₁, hty, hreal⟩ :=
        infer_reaches closed target ready hfirst
      obtain ⟨rest, final, s₂, hrun₂, hgrows₂, htys, hreals⟩ :=
        inferAll_reaches closed targets (hgrows₁.ready ready) hrest
      refine ⟨first :: rest, final, s₂, inferAll_cons_eq_ok.2 ⟨_, _, _, hrun₁, hrun₂, rfl⟩,
        hgrows₁.trans hgrows₂, List.forall_mem_cons.2 ⟨hty.mono hgrows₂.le, htys⟩, ?_⟩
      intro s' hagree
      rw [List.map_cons, hreals s' hagree, hgrows₂.realizes hreal s' hagree]

theorem inferFields_reaches (closed : scope.Closed) :
    ∀ (targets : List (String × TypedExpr)) {Γ Δ : Context} {s : Subst} {state : InferState Supply}
      {owner : Ty} {d : Definition}, d.Closed → Ready scope policy s state Γ Δ →
        (∀ field ∈ targets, Typed scope policy Δ field.2) →
        (∀ field ∈ targets, ∃ value scheme,
          d.value? field.1 = some (.binding value scheme) ∧ scheme.HasInstance field.2.ty) →
          ∃ typed final s', scope.inferFields Γ.locals owner d
              (TypedExpr.eraseFields targets) state = .ok typed final ∧
            Grows scope policy s state s' final ∧
            ∀ s'', Subst.AgreesBelow final.supply.next s' s'' →
              typed.map (fun field => (field.1, field.2.apply s'')) = targets
  | [], Γ, Δ, s, state, owner, d, hd, ready, h, hdecl =>
      ⟨[], state, s, inferFields_nil_eq_ok.2 ⟨rfl, rfl⟩, .refl ready.fits, by simp⟩
  | (name, target) :: targets, Γ, Δ, s, state, owner, d, hd, ready, h, hdecl => by
      obtain ⟨hfirst, hrest⟩ := List.forall_mem_cons.1 h
      obtain ⟨⟨content, scheme, hvalue, inst⟩, hdeclRest⟩ := List.forall_mem_cons.1 hdecl
      obtain ⟨first, middle, s₁, hrun₁, hgrows₁, hty, hreal⟩ :=
        infer_reaches closed target ready hfirst
      have hclosed : scheme.Closed := hd.value? hvalue
      have hfree := hclosed.freeVars_lt middle.supply.next
      obtain ⟨s₂, hgrows₂, heq⟩ := Grows.exists_skipInst closed hgrows₁.fits
        (hclosed.instanceUnder_iff.2 inst) hfree
      have hequal : s₂.apply (middle.inst scheme) = s₂.apply first.ty := by
        rw [heq, (hgrows₂.realizes hreal).ty_eq]
      have hgrows₂' := hgrows₂.emit
        (c := .equal (middle.inst scheme) first.ty target.erase.span)
        ⟨InferState.inst_below hfree, hty.mono hgrows₂.le⟩ hequal
      have hgrows₁₂ := hgrows₁.trans hgrows₂'
      obtain ⟨rest, final, s₃, hrun₃, hgrows₃, hreals⟩ :=
        inferFields_reaches closed targets hd (hgrows₁₂.ready ready) hrest hdeclRest
      refine ⟨(name, first) :: rest, final, s₃, inferFields_cons_eq_ok.2
        ⟨_, _, _, _, hrun₁, fieldScheme_eq_ok.2 ⟨content, hvalue⟩, hrun₃, rfl⟩,
        hgrows₁₂.trans hgrows₃, ?_⟩
      intro s' hagree
      have hfirstReal := (hgrows₂'.trans hgrows₃).realizes hreal s' hagree
      rw [List.map_cons, hreals s' hagree, hfirstReal]

theorem inferItems_reaches (closed : scope.Closed) :
    ∀ (targets : List (Item Expr TypedExpr)) {Γ Δ : Context} {own own' : Table Ty}
      {s : Subst} {state : InferState Supply} {last u : Ty},
      Ready scope policy s state (own :: Γ) (own' :: Δ) → last.Below state.supply.next →
        TypedItems scope policy Δ own' (s.apply last) targets u →
          ∃ typed t final s', scope.inferItems Γ.locals
              (own.map fun entry => (entry.1, .mono entry.2)) last
              (TypedExpr.eraseItems targets) state = .ok (typed, t) final ∧
            Grows scope policy s state s' final ∧ t.Below final.supply.next ∧
            ∀ s'', Subst.AgreesBelow final.supply.next s' s'' →
              TypedExpr.mapTyItems s''.apply typed = targets ∧ s''.apply t = u
  | [], Γ, Δ, own, own', s, state, last, u, ready, hlast, h => by
      cases h
      refine ⟨[], last, state, s, inferItems_nil_eq_ok.2 ⟨rfl, rfl, rfl⟩, .refl ready.fits,
        hlast, ?_⟩
      exact fun s' hagree => ⟨rfl, (hagree.apply hlast).symm⟩
  | .expr target :: targets, Γ, Δ, own, own', s, state, last, u, ready, hlast, h => by
      cases h with
      | expr typedExpr typedRest =>
          obtain ⟨first, middle, s₁, hfirst, hgrows₁, hty, hreal⟩ :=
            infer_reaches closed target ready typedExpr
          rw [← hreal.ty_eq] at typedRest
          obtain ⟨rest, t, final, s₂, hrest, hgrows₂, ht, hreals⟩ :=
            inferItems_reaches closed targets (hgrows₁.ready ready) hty typedRest
          refine ⟨_, t, final, s₂, inferItems_expr_eq_ok.2 ⟨_, _, _, hfirst, hrest, rfl⟩,
            hgrows₁.trans hgrows₂, ht, ?_⟩
          intro s' hagree
          obtain ⟨hitems, heq⟩ := hreals s' hagree
          have hfirstReal : first.mapTy s'.apply = target := hgrows₂.realizes hreal s' hagree
          rw [TypedExpr.mapTyItems, hitems, hfirstReal]
          exact ⟨rfl, heq⟩
  | .binding ⟨name, modifiers, ascription, none, span⟩ :: targets, Γ, Δ, own, own', s, state,
      last, u, ready, hlast, h => by
      cases h with
      | @declared _ _ _ _ t _ _ a _ _ new annotated typedRest =>
          have hvars := annotationTy_vars annotated
          have ready' := ready.add name (Ty.below_of_vars_eq_nil hvars)
          rw [Subst.apply_of_vars_eq_nil hvars] at ready'
          obtain ⟨rest, t', final, s', hrest, hgrows, ht', hreals⟩ :=
            @inferItems_reaches closed targets Γ Δ (own.add name t) _ s state .unit u ready'
              (Ty.below_of_vars_eq_nil rfl) typedRest
          rw [Table.map_add Scheme.mono] at hrest
          refine ⟨_, t', final, s', inferItems_declared_eq_ok.2
            ⟨ready.contains_eq_false new, a, t, rest, rfl, annotated, hrest, rfl⟩,
            hgrows, ht', ?_⟩
          intro s'' hagree
          obtain ⟨hitems, heq⟩ := hreals s'' hagree
          rw [TypedExpr.mapTyItems, hitems]
          exact ⟨rfl, heq⟩
  | .binding ⟨name, modifiers, none, some target, span⟩ :: targets, Γ, Δ, own, own', s,
      state, last, u, ready, hlast, h => by
      cases h with
      | bound new typedValue annotated typedRest =>
          obtain ⟨first, middle, s₁, hfirst, hgrows₁, hty, hreal⟩ :=
            infer_reaches closed target ready typedValue
          have ready' := (hgrows₁.ready ready).add name hty
          rw [hreal.ty_eq] at ready'
          obtain ⟨rest, t, final, s₂, hrest, hgrows₂, ht, hreals⟩ :=
            @inferItems_reaches closed targets Γ Δ (own.add name first.ty) _ s₁ middle .unit u
              ready' (Ty.below_of_vars_eq_nil rfl) typedRest
          rw [Table.map_add Scheme.mono] at hrest
          refine ⟨_, t, final, s₂, inferItems_bound_eq_ok.2
            ⟨ready.contains_eq_false new, first, middle, rest, hfirst, hrest, rfl⟩,
            hgrows₁.trans hgrows₂, ht, ?_⟩
          intro s' hagree
          obtain ⟨hitems, heq⟩ := hreals s' hagree
          have hfirstReal : first.mapTy s'.apply = target := hgrows₂.realizes hreal s' hagree
          rw [TypedExpr.mapTyItems, hitems, hfirstReal]
          exact ⟨rfl, heq⟩
  | .binding ⟨name, modifiers, some a, some target, span⟩ :: targets, Γ, Δ, own, own', s,
      state, last, u, ready, hlast, h => by
      cases h with
      | bound new typedValue annotated typedRest =>
          have hvars := annotationTy_vars (annotated a rfl)
          obtain ⟨first, middle, s₁, hfirst, hgrows₁, hty, hreal⟩ :=
            infer_reaches closed target ready typedValue
          have hgrows₁' := hgrows₁.emit_equates
            (c := .equal target.ty first.ty target.erase.span) hty hvars hreal.ty_eq
            (.inr ⟨_, .inl rfl⟩)
          have ready' := (hgrows₁'.ready ready).add name (Ty.below_of_vars_eq_nil hvars)
          rw [Subst.apply_of_vars_eq_nil hvars] at ready'
          obtain ⟨rest, t, final, s₂, hrest, hgrows₂, ht, hreals⟩ :=
            @inferItems_reaches closed targets Γ Δ (own.add name target.ty) _ s₁ _ .unit u
              ready' (Ty.below_of_vars_eq_nil rfl) typedRest
          rw [Table.map_add Scheme.mono] at hrest
          refine ⟨_, t, final, s₂, inferItems_annotated_eq_ok.2
            ⟨ready.contains_eq_false new, first, middle, _, rest, hfirst, annotated a rfl,
              hrest, rfl⟩, hgrows₁'.trans hgrows₂, ht, ?_⟩
          intro s' hagree
          obtain ⟨hitems, heq⟩ := hreals s' hagree
          have hfirstReal : first.mapTy s'.apply = target := hgrows₂.realizes hreal s' hagree
          rw [TypedExpr.mapTyItems, hitems, hfirstReal]
          exact ⟨rfl, heq⟩

end

/-! ## Whole expressions -/

/-- Generation on a whole expression reaches every typing of it. -/
theorem infer_start_reaches
    (closed : scope.Closed) {target : TypedExpr} (h : Typed scope policy [] target) :
    scope.Reaches policy .empty (Infer.start scope) (scope.infer [] target.erase) target := by
  have ready : Ready scope policy .empty (Infer.start scope) [] [] := by
    refine ⟨rfl, ?_, ?_⟩
    · intro frame hframe
      cases hframe
    · intro c hc
      cases hc
  exact infer_reaches closed target ready h

/-- Inference finds every typing up to a substitution, unless the strict policy meets a
member of a receiver that stays unknown.  The typing may leave receivers unknown even when
inference is strict. -/
theorem annotate_of_typed
    (closed : scope.Closed) {target : TypedExpr} (h : Typed scope policy [] target) :
    (∃ typed s, scope.annotate target.erase = .ok typed ∧ typed.apply s = target) ∨
      (scope.options.policy = .strict ∧ ∃ selector span,
        scope.annotate target.erase = .error ⟨.unresolvedMember selector, span⟩) := by
  obtain ⟨provisional, final, s, hrun, hgrows, -, hreal⟩ := infer_start_reaches closed h
  have sol := Solver.solution_start (fun c hc => (hgrows.fits c hc).2) final.supply
  have hb := Solver.bounded_start fun c hc => (hgrows.fits c hc).1
  rcases Solver.solve_of_solution sol hb (closed.membersBelow _) with
    ⟨u, s', hsolve, hagree, habsorbs⟩ | ⟨hpolicy, selector, span, hsolve⟩
  · refine .inl ⟨provisional.apply u, s', complete_eq_ok.2 ⟨_, _, u, hrun, hsolve, rfl⟩, ?_⟩
    rw [TypedExpr.apply_apply_of_absorbs habsorbs]
    exact hreal s' hagree
  · refine .inr ⟨hpolicy, selector, span, ?_⟩
    simp only [annotate, complete, completeFrom, hrun, solveInferred, hsolve]

/-- In the scope of a module or of the body of a type in it, every valid typing of an
expression is an instance of what strict inference returns.  Where there is such a typing,
the only other outcome is a member of a receiver whose type stays unknown. -/
theorem annotate_principal
    {options : Options} (strict : options.policy = .strict)
    (reached : scope.InModule options) {e : Expr} {target : TypedExpr}
    (same : target.erase = e) (valid : Typed scope .strict [] target) :
    (∃ typed s, scope.annotate e = .ok typed ∧ typed.apply s = target) ∨
      ∃ selector span, scope.annotate e = .error ⟨.unresolvedMember selector, span⟩ := by
  subst same
  rw [← strict, ← reached.options_eq] at valid
  rcases annotate_of_typed reached.closed valid with hok | ⟨-, hunresolved⟩
  · exact .inl hok
  · exact .inr hunresolved

/-- A closure that keeps its first parameter and selects a field of the second, with the
first parameter at a type that the body does not ask for. -/
def keepAndSelectX : TypedExpr :=
  .closure [⟨"y", none, default⟩, ⟨"p", some (.ident "Point" default), default⟩]
    (.tuple [.ident "y" default .bool,
      .member (.ident "p" default (.named "Point")) (.named "x") default .int] default
      (.tuple [.bool, .int])) default
    (.arrow [.bool, .named "Point"] (.tuple [.bool, .int]))

theorem typed_keepAndSelectX :
    Typed pointScope .strict [] keepAndSelectX := by
  have hbase : Typed pointScope .strict [[("y", .bool), ("p", .named "Point")]]
      (.ident "p" default (.named "Point")) := .localName rfl
  have hinst : (Scheme.mono .int).HasInstance .int := Scheme.hasInstance_mono.2 rfl
  have hmember : Typed pointScope .strict [[("y", .bool), ("p", .named "Point")]]
      (.member (.ident "p" default (.named "Point")) (.named "x") default .int) :=
    .instanceMember rfl hbase rfl rfl hinst
  refine @Typed.closure _ _ _ _ [("y", .bool), ("p", .named "Point")] _ _ (by decide) ?_ ?_
  · refine .cons ⟨rfl, ?_⟩ (.cons ⟨rfl, ?_⟩ .nil)
    · rintro a ⟨⟩
    · rintro a ⟨⟩
      cbv
  · refine .tuple (List.forall_mem_cons.2 ⟨.localName rfl, ?_⟩)
    exact List.forall_mem_singleton.2 hmember

theorem annotate_principal_keepAndSelectX :
    build .standard pointModule = .ok pointScope ∧
      Typed pointScope .strict [] keepAndSelectX ∧
      ((∃ typed s, pointScope.annotate keepAndSelectX.erase = .ok typed ∧
          typed.apply s = keepAndSelectX) ∨
        ∃ selector span, pointScope.annotate keepAndSelectX.erase =
          .error ⟨.unresolvedMember selector, span⟩) := by
  have hbuild : build .standard pointModule = .ok pointScope := by cbv
  exact ⟨hbuild, typed_keepAndSelectX,
    annotate_principal rfl (.build hbuild) rfl typed_keepAndSelectX⟩

end Scope

end Ascribe
