import Ascribe.Proofs.Closed

/-!
# Renaming type variables

Two types are variants when distinct variables of one stand for distinct variables of the
other.  This is so exactly when each is an instance of the other.

A valid typing stays valid under a substitution.  Under the permissive policy a receiver
of unknown type has to stay unknown, so the substitution must be a renaming there.
-/

namespace Ascribe

/-! ## Variants -/

/-- Distinct variables of a list are replaced by distinct variables. -/
structure Subst.Renames (s : Subst) (vs : List Nat) : Prop where
  isVar : ∀ v ∈ vs, (s.apply (.var v)).isVar = true
  injective : ∀ v ∈ vs, ∀ w ∈ vs, s.apply (.var v) = s.apply (.var w) → v = w

/-- Two types are the same up to a renaming of their variables. -/
def Ty.Variant (t u : Ty) : Prop :=
  ∃ s : Subst, s.Renames t.vars ∧ s.apply t = u

/-- A renaming can be undone, one variable after the other. -/
theorem Subst.Renames.exists_inverse
    {s : Subst} {vs : List Nat} (h : s.Renames vs) :
    ∃ u : Subst, ∀ v ∈ vs, u.apply (s.apply (.var v)) = .var v := by
  induction vs with
  | nil => exact ⟨.empty, fun v hv => absurd hv List.not_mem_nil⟩
  | cons v vs ih =>
      have hrest : s.Renames vs := by
        refine ⟨fun x hx => h.isVar x (List.mem_cons_of_mem v hx), ?_⟩
        intro x hx y hy
        exact h.injective x (List.mem_cons_of_mem v hx) y (List.mem_cons_of_mem v hy)
      obtain ⟨u, hu⟩ := ih hrest
      obtain ⟨w, hw⟩ := Ty.exists_eq_var (h.isVar v List.mem_cons_self)
      refine ⟨u.extend (fun _ => .var v) [w], ?_⟩
      intro x hx
      obtain ⟨y, hy⟩ := Ty.exists_eq_var (h.isVar x hx)
      by_cases hyw : y = w
      · subst hyw
        have hxv := h.injective x hx v List.mem_cons_self (hy.trans hw.symm)
        rw [hy, apply_extend_of_mem (List.mem_singleton_self y), hxv]
      · have hxvs : x ∈ vs := by
          refine List.mem_of_ne_of_mem ?_ hx
          rintro rfl
          exact hyw (Ty.var.inj (hy.symm.trans hw))
        rw [hy, apply_extend_of_not_mem (by simpa using hyw), ← hy]
        exact hu x hxvs

/-- What can be undone on a type is a renaming of its variables. -/
theorem Subst.renames_of_inverse
    {s u : Subst} {t : Ty} (h : u.apply (s.apply t) = t) :
    s.Renames t.vars := by
  let both : Subst := Subst.empty.extend (fun v => u.apply (s.apply (.var v))) t.vars
  have hboth : both.apply t = Subst.empty.apply t := by
    rw [Subst.apply_empty, ← apply_apply_eq (s := u) (u := s) (w := both), h]
    intro v hv
    rw [apply_extend_of_mem hv]
  have hvar : ∀ v ∈ t.vars, u.apply (s.apply (.var v)) = .var v := by
    intro v hv
    have heq := apply_var_eq_of_apply_eq hboth v hv
    rwa [apply_extend_of_mem hv, Subst.apply_empty] at heq
  constructor
  · intro v hv
    refine Solver.isVar_of_isVar_apply (s := u) ?_
    rw [hvar v hv]
    rfl
  · intro v hv w hw heq
    have hsame : Ty.var v = .var w := by
      rw [← hvar v hv, heq, hvar w hw]
    cases hsame
    rfl

namespace Ty

theorem variant_iff {t u : Ty} :
    t.Variant u ↔ (∃ s : Subst, s.apply t = u) ∧ ∃ s : Subst, s.apply u = t := by
  constructor
  · rintro ⟨s, hs, rfl⟩
    obtain ⟨u, hu⟩ := hs.exists_inverse
    refine ⟨⟨s, rfl⟩, u, ?_⟩
    have hboth : u.apply (s.apply t) = Subst.empty.apply t := by
      apply Subst.apply_apply_eq
      intro v hv
      rw [hu v hv, Subst.apply_empty]
    rwa [Subst.apply_empty] at hboth
  · rintro ⟨⟨s, rfl⟩, u, hu⟩
    exact ⟨s, Subst.renames_of_inverse hu, rfl⟩

theorem Variant.symm {t u : Ty} (h : t.Variant u) :
    u.Variant t :=
  variant_iff.2 (variant_iff.1 h).symm

/-- A type without variables has no variant but itself. -/
theorem variant_iff_eq {t u : Ty} (ht : t.vars = []) :
    t.Variant u ↔ t = u := by
  constructor
  · rintro ⟨s, -, rfl⟩
    exact (Subst.apply_of_vars_eq_nil ht s).symm
  · rintro rfl
    exact variant_iff.2 ⟨⟨.empty, Subst.apply_empty t⟩, .empty, Subst.apply_empty t⟩

/-- A variant is reached by a substitution that replaces variables by variables, those
that are not in the type included. -/
theorem Variant.exists_total {t u : Ty} (h : t.Variant u) :
    ∃ s : Subst, (∀ v, (s.apply (.var v)).isVar = true) ∧ s.apply t = u := by
  obtain ⟨s, hs, rfl⟩ := h
  refine ⟨Subst.empty.extend (fun v => s.apply (.var v)) t.vars, ?_, ?_⟩
  · intro v
    by_cases hv : v ∈ t.vars
    · rw [Subst.apply_extend_of_mem hv]
      exact hs.isVar v hv
    · rw [Subst.apply_extend_of_not_mem hv, Subst.apply_empty]
      rfl
  · apply Subst.apply_congr
    intro v hv
    exact Subst.apply_extend_of_mem hv

end Ty

/-! ## Typings under a substitution -/

section Substitution

variable {scope : Scope} {policy : MemberPolicy} {s : Subst}

theorem Scope.ParamTy.apply
    {params : List (Param Expr)} {bound : Table Ty}
    (h : List.Forall₂ scope.ParamTy params bound) :
    List.Forall₂ scope.ParamTy params
      (bound.map fun entry => (entry.1, s.apply entry.2)) := by
  induction h with
  | nil => exact .nil
  | @cons param entry params bound hhead htail ih =>
      refine .cons ⟨hhead.1, ?_⟩ ih
      intro a ha
      have hty := hhead.2 a ha
      have hsame := Subst.apply_of_vars_eq_nil (Scope.annotationTy_vars hty) s
      exact hty.trans (congrArg Except.ok hsame.symm)

mutual

theorem Typed.apply
    (closed : scope.Closed)
    (hs : policy = .permissive → ∀ v, (s.apply (.var v)).isVar = true) :
    ∀ {Γ : Context} {e : TypedExpr}, Typed scope policy Γ e →
      Typed scope policy (Γ.apply s) (e.apply s)
  | Γ, _, @Typed.literal _ _ _ value span => by
      rw [TypedExpr.apply_literal]
      exact .literal
  | Γ, _, .localName found => by
      refine .localName ?_
      rw [Context.find?_apply, found, Option.map_some]
  | Γ, _, .globalName free found inst => by
      refine .globalName ?_ found (inst.apply (closed.lookup found) s)
      rw [Context.find?_apply, free, Option.map_none]
  | Γ, _, @Typed.closure _ _ _ params bound body span distinct annotated typedBody => by
      have hdistinct :
          (Table.names (bound.map fun entry => (entry.1, s.apply entry.2))).Nodup := by
        rwa [Table.names_map]
      have hclosure := @Typed.closure _ _ _ _ _ _ span hdistinct
        (Scope.ParamTy.apply annotated) (typedBody.apply closed hs)
      rw [TypedExpr.apply_closure, Subst.apply_arrow, List.map_map]
      rw [TypedExpr.ty_apply, List.map_map] at hclosure
      exact hclosure
  | Γ, _, @Typed.app _ _ _ fn args span t typedFn typedArgs fnTy => by
      rw [TypedExpr.apply_app]
      refine .app (typedFn.apply closed hs) ?_ ?_
      · intro arg harg
        obtain ⟨before, hbefore, rfl⟩ := List.mem_map.1 harg
        exact (typedArgs before hbefore).apply closed hs
      · simp [fnTy, Function.comp_def]
  | Γ, _, .condThen typedCondition conditionTy typedThen thenTy => by
      rw [TypedExpr.apply_condThen, ← TypedExpr.ty_apply]
      refine .condThen (typedCondition.apply closed hs) ?_ (typedThen.apply closed hs) ?_
      · rw [TypedExpr.ty_apply, conditionTy]
        rfl
      · rw [TypedExpr.ty_apply, thenTy]
        rfl
  | Γ, _, .condElse typedCondition conditionTy typedThen typedElse sameTy => by
      rw [TypedExpr.apply_condElse, ← TypedExpr.ty_apply]
      refine .condElse (typedCondition.apply closed hs) ?_ (typedThen.apply closed hs)
        (typedElse.apply closed hs) ?_
      · rw [TypedExpr.ty_apply, conditionTy]
        rfl
      · rw [TypedExpr.ty_apply, TypedExpr.ty_apply, sameTy]
  | Γ, _, @Typed.staticMember _ _ _ base owner selector span scheme t names found inst => by
      have hbase : (base.ascribe (.named owner)).apply s = base.ascribe (.named owner) := by
        rw [TypedExpr.apply, Expr.mapTy_ascribe, Subst.apply_of_vars_eq_nil rfl]
      rw [TypedExpr.apply_member, hbase]
      refine .staticMember ?_ found (inst.apply (closed.staticMember found) s)
      rw [Context.typeName?_apply, names]
  | Γ, _, @Typed.instanceMember _ _ _ base name args selector span scheme t plain typedBase
      baseTy found inst => by
      rw [TypedExpr.apply_member]
      have hbase : (base.apply s).ty = .con name (args.map s.apply) := by
        rw [TypedExpr.ty_apply, baseTy, Subst.apply_con]
      have hplain : scope.typeName? (Γ.apply s).locals (base.apply s).erase = none := by
        rw [TypedExpr.erase_apply, Context.typeName?_apply, plain]
      exact .instanceMember hplain (typedBase.apply closed hs) hbase
        (Scope.instanceMember_at found _ span) (inst.apply (closed.instanceMember found) s)
  | Γ, _, @Typed.component _ _ _ base elems position span t plain typedBase baseTy found => by
      rw [TypedExpr.apply_member]
      have hbase : (base.apply s).ty = .tuple (elems.map s.apply) := by
        rw [TypedExpr.ty_apply, baseTy, Subst.apply_tuple]
      have hplain : scope.typeName? (Γ.apply s).locals (base.apply s).erase = none := by
        rw [TypedExpr.erase_apply, Context.typeName?_apply, plain]
      refine .component hplain (typedBase.apply closed hs) hbase ?_
      rw [List.getElem?_map, found, Option.map_some]
  | Γ, _, .unknownMember permissive plain typedBase unknown => by
      rw [TypedExpr.apply_member]
      refine .unknownMember permissive ?_ (typedBase.apply closed hs) ?_
      · rw [TypedExpr.erase_apply, Context.typeName?_apply, plain]
      · obtain ⟨v, hv⟩ := Ty.exists_eq_var unknown
        rw [TypedExpr.ty_apply, hv]
        exact hs permissive v
  | Γ, _, @Typed.tuple _ _ _ elems span typedElems => by
      have helems : ∀ elem ∈ elems.map (TypedExpr.apply s),
          Typed scope policy (Γ.apply s) elem := by
        intro elem helem
        obtain ⟨before, hbefore, rfl⟩ := List.mem_map.1 helem
        exact (typedElems before hbefore).apply closed hs
      have htuple := @Typed.tuple _ _ _ _ span helems
      rw [TypedExpr.apply_tuple, Subst.apply_tuple]
      simpa [Function.comp_def] using htuple
  | Γ, _, @Typed.structLit _ _ _ type owner d fields span resolved typedFields declared => by
      rw [TypedExpr.apply_structLit, Subst.apply_of_vars_eq_nil rfl]
      refine .structLit resolved ?_ ?_
      · intro field hfield
        obtain ⟨before, hbefore, rfl⟩ := List.mem_map.1 hfield
        exact (typedFields before hbefore).apply closed hs
      · intro field hfield
        obtain ⟨before, hbefore, rfl⟩ := List.mem_map.1 hfield
        obtain ⟨value, scheme, hvalue, inst⟩ := declared before hbefore
        have hclosed : scheme.Closed := (closed.resolveType resolved).value? hvalue
        refine ⟨value, scheme, hvalue, ?_⟩
        rw [TypedExpr.ty_apply]
        exact inst.apply hclosed s
  | Γ, _, .block typedItems => by
      exact .block (typedItems.apply closed hs)

theorem TypedItems.apply
    (closed : scope.Closed)
    (hs : policy = .permissive → ∀ v, (s.apply (.var v)).isVar = true) :
    ∀ {Γ : Context} {own : Table Ty} {last t : Ty} {items : List (Item Expr TypedExpr)},
      TypedItems scope policy Γ own last items t →
        TypedItems scope policy (Γ.apply s) (own.map fun entry => (entry.1, s.apply entry.2))
          (s.apply last) (TypedExpr.mapTyItems s.apply items) (s.apply t)
  | Γ, own, _, _, _, .nil => .nil
  | Γ, own, _, _, _, .expr typedExpr typedRest => by
      have hrest := typedRest.apply closed hs
      rw [← TypedExpr.ty_apply] at hrest
      exact .expr (typedExpr.apply closed hs) hrest
  | Γ, own, _, _, _, .declared new annotated typedRest => by
      have hrest := typedRest.apply closed hs
      rw [Table.map_add, Subst.apply_of_vars_eq_nil (Scope.annotationTy_vars annotated)] at hrest
      exact .declared (by rwa [Table.names_map]) annotated hrest
  | Γ, own, _, _, _, .bound new typedValue annotated typedRest => by
      have hrest := typedRest.apply closed hs
      rw [Table.map_add, ← TypedExpr.ty_apply] at hrest
      refine .bound (by rwa [Table.names_map]) (typedValue.apply closed hs) ?_ hrest
      intro a ha
      have hty := annotated a ha
      rw [TypedExpr.ty_mapTy, Subst.apply_of_vars_eq_nil (Scope.annotationTy_vars hty), hty]

end

end Substitution

end Ascribe
