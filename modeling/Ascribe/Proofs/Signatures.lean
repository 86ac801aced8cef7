import Ascribe.Module
import Ascribe.Proofs.Principality
import Ascribe.Proofs.Renaming

/-!
# Recorded and checked signatures

The signature of a declaration is recorded when it is declared, in the scope of the
declarations before it.  Its value or body is checked in the scope of the whole module, and
there its annotations are read once more.  What is recorded agrees with what is checked
exactly when the later declarations do not change what the declaration means.
-/

namespace Ascribe

namespace Scope

/-! ## Declaring keeps what is recorded -/

theorem insertAll_append_eq_ok
    {before after : List (Declaration Expr)} {scope final : Scope} :
    insertAll (before ++ after) scope = .ok () final ↔
      ∃ middle, insertAll before scope = .ok () middle ∧
        insertAll after middle = .ok () final := by
  induction before generalizing scope with
  | nil => simp [insertAll, pure_eq_ok]
  | cons d before ih =>
      simp only [List.cons_append, insertAll, bind_eq_ok, ih]
      constructor
      · rintro ⟨⟨⟩, first, hd, middle, hbefore, hafter⟩
        exact ⟨middle, ⟨(), first, hd, hbefore⟩, hafter⟩
      · rintro ⟨middle, ⟨⟨⟩, first, hd, hbefore⟩, hafter⟩
        exact ⟨(), first, hd, middle, hbefore, hafter⟩

theorem find?_values_of_insert
    {d : Declaration Expr} {scope final : Scope} (h : insert d scope = .ok () final)
    {name : String} {entry : Entry} (found : scope.frame.values.find? name = some entry) :
    final.frame.values.find? name = some entry := by
  cases d with
  | binding b =>
      obtain ⟨added, -, -, rfl⟩ := insert_binding_eq_ok.1 h
      rw [Table.find?_add, found, Option.some_or]
  | function f =>
      obtain ⟨added, -, -, rfl⟩ := insert_function_eq_ok.1 h
      rw [Table.find?_add, found, Option.some_or]
  | type kind name modifiers members span =>
      obtain ⟨middle, d, -, rfl, -, rfl⟩ := insert_type_eq_ok.1 h
      exact found
  | enumCase name modifiers values span =>
      exact absurd h insert_enumCase_ne_ok
  | trait name modifiers span =>
      simp only [insert, pure_eq_ok] at h
      rw [h.2, found]

theorem find?_values_of_insertAll
    {ds : List (Declaration Expr)} {scope final : Scope}
    (h : insertAll ds scope = .ok () final) {name : String} {entry : Entry}
    (found : scope.frame.values.find? name = some entry) :
    final.frame.values.find? name = some entry := by
  induction ds generalizing scope with
  | nil =>
      simp only [insertAll, pure_eq_ok] at h
      rw [h.2, found]
  | cons d ds ih =>
      simp only [insertAll, bind_eq_ok] at h
      obtain ⟨⟨⟩, middle, hd, hrest⟩ := h
      exact ih hrest (find?_values_of_insert hd found)

theorem lookup_of_find?_values
    {scope : Scope} {name : String} {entry : Entry}
    (found : scope.frame.values.find? name = some entry) :
    scope.lookup name = some entry := by
  rw [lookup, frames, List.findSome?_cons, found]

theorem lookup_of_declared_binding
    {b : Binding Expr Expr} {after : List (Declaration Expr)} {earlier scope : Scope}
    (h : insertAll (.binding b :: after) earlier = .ok () scope) :
    ∃ entry, earlier.bindingEntry b = .ok entry ∧ scope.lookup b.name = some entry := by
  simp only [insertAll, bind_eq_ok] at h
  obtain ⟨⟨⟩, middle, hb, hafter⟩ := h
  obtain ⟨entry, hentry, hnew, rfl⟩ := insert_binding_eq_ok.1 hb
  exact ⟨entry, hentry,
    lookup_of_find?_values (find?_values_of_insertAll hafter (Table.find?_add_self entry hnew))⟩

theorem lookup_of_declared_function
    {f : Function Expr} {after : List (Declaration Expr)} {earlier scope : Scope}
    (h : insertAll (.function f :: after) earlier = .ok () scope) :
    ∃ entry, earlier.functionEntry f = .ok entry ∧ scope.lookup f.name = some entry := by
  simp only [insertAll, bind_eq_ok] at h
  obtain ⟨⟨⟩, middle, hf, hafter⟩ := h
  obtain ⟨entry, hentry, hnew, rfl⟩ := insert_function_eq_ok.1 hf
  exact ⟨entry, hentry,
    lookup_of_find?_values (find?_values_of_insertAll hafter (Table.find?_add_self entry hnew))⟩

/-! ## Checking goes declaration by declaration -/

theorem checkAll_append
    {scope : Scope} {owner : Option Ty} {before after : List (Declaration Expr)}
    {d : Declaration Expr} {typed : List (Declaration TypedExpr)}
    (h : scope.checkAll owner (before ++ d :: after) = (typed, [])) :
    ∃ checked, scope.checkDeclaration owner d = (checked, []) ∧
      typed[before.length]? = some checked := by
  induction before generalizing typed with
  | nil =>
      simp only [List.nil_append, checkAll, Prod.mk.injEq, List.append_eq_nil_iff] at h
      obtain ⟨rfl, herrors, -⟩ := h
      exact ⟨_, Prod.ext rfl herrors, rfl⟩
  | cons first before ih =>
      simp only [List.cons_append, checkAll, Prod.mk.injEq, List.append_eq_nil_iff] at h
      obtain ⟨rfl, -, herrors⟩ := h
      exact ih (Prod.ext rfl herrors)

end Scope

theorem checkModule_eq_ok
    {options : Options} {ds : List (Declaration Expr)} {m : TypedModule} :
    checkModule options ds = .ok m ↔
      Scope.build options ds = .ok m.scope ∧
        m.scope.checkAll none ds = (m.declarations, []) := by
  constructor
  · intro h
    unfold checkModule at h
    split at h
    · cases h
    · rename_i scope hscope
      split at h
      · rename_i typed hcheck
        cases h
        exact ⟨hscope, hcheck⟩
      · cases h
  · rintro ⟨hscope, hcheck⟩
    simp only [checkModule, hscope, hcheck]

namespace Scope

variable {scope : Scope}

/-! ## Parameters -/

/-- The annotations of a list denote the same types in two scopes exactly when the lists
of these types are equal. -/
theorem annotationTys_eq_iff
    {earlier : Scope} {as : List Expr} {ts us : List Ty}
    (hts : earlier.annotationTys as = .ok ts) (hus : scope.annotationTys as = .ok us) :
    ts = us ↔ ∀ a ∈ as, earlier.annotationTy a = scope.annotationTy a := by
  induction as generalizing ts us with
  | nil =>
      cases hts
      cases hus
      simp
  | cons a as ih =>
      simp only [annotationTys, except_bind_eq_ok] at hts hus
      obtain ⟨t, ht, ts, hts, h⟩ := hts
      cases h
      obtain ⟨u, hu, us, hus, h⟩ := hus
      cases h
      rw [List.forall_mem_cons, ← ih hts hus, List.cons.injEq, ht, hu, Except.ok.injEq]

/-- The body of a function sees its parameters at the types that their annotations
denote. -/
theorem annotationTys_of_bindParams
    {bound : Table Ty} {params : List Parameter} {names : Table Scheme}
    (hbound : ∀ entry ∈ bound, entry.2.vars = [])
    (h : scope.bindParams (bound.map fun entry => (entry.1, .mono entry.2)) params = .ok names) :
    ∃ (final : Table Ty) (ts : List Ty),
      names = final.map (fun entry => (entry.1, .mono entry.2)) ∧
        (∀ entry ∈ final, entry.2.vars = []) ∧
        scope.annotationTys (params.map Parameter.ascription) = .ok ts ∧
        final.map Prod.snd = bound.map Prod.snd ++ ts := by
  induction params generalizing bound with
  | nil =>
      cases h
      exact ⟨bound, [], rfl, hbound, rfl, (List.append_nil _).symm⟩
  | cons p params ih =>
      rw [bindParams] at h
      split at h
      · cases h
      · rw [except_bind_eq_ok] at h
        obtain ⟨t, ht, hrest⟩ := h
        rw [← Table.map_add Scheme.mono] at hrest
        have hbound' : ∀ entry ∈ bound.add p.name t, entry.2.vars = [] := by
          intro entry hentry
          rcases List.mem_append.1 hentry with hentry | hentry
          · exact hbound entry hentry
          · obtain rfl := List.mem_singleton.1 hentry
            exact annotationTy_vars ht
        obtain ⟨final, ts, hnames, hfinal, hts, hsnd⟩ := ih hbound' hrest
        refine ⟨final, t :: ts, hnames, hfinal, ?_, ?_⟩
        · rw [List.map_cons, annotationTys, except_bind_eq_ok]
          exact ⟨t, ht, except_bind_eq_ok.2 ⟨ts, hts, rfl⟩⟩
        · rw [hsnd, Table.add, List.map_append, List.append_assoc]
          rfl

/-! ## Checked values and bodies -/

/-- A run that infers an expression and equates its type with an expected type without
variables keeps the expression and gives it exactly this type. -/
theorem erase_and_ty_of_complete_expecting
    {locals : Locals} {e : Expr} {expected : Ty} {c : TypedExpr → Constraint}
    {typed : TypedExpr} (hvars : expected.vars = [])
    (hc : ∀ t, (c t).Equates expected t.ty)
    (h : scope.complete (do
      let typed ← scope.infer locals e
      Infer.constrain (c typed)
      return typed) = .ok typed) :
    typed.erase = e ∧ typed.ty = expected := by
  obtain ⟨provisional, final, s, hrun, hs, rfl⟩ := complete_eq_ok.1 h
  simp only [bind_eq_ok, Infer.constrain_eq_ok, pure_eq_ok] at hrun
  obtain ⟨first, middle, hinfer, ⟨⟩, last, rfl, rfl, rfl⟩ := hrun
  obtain ⟨-, hequal⟩ := InferState.satisfied_emit.1 (satisfied_of_solveInferred hs)
  have heq := (hc _).holds_iff.1 hequal
  rw [Subst.apply_of_vars_eq_nil hvars] at heq
  refine ⟨?_, ?_⟩
  · rw [TypedExpr.erase_apply]
    exact infer_erase e hinfer
  · rw [TypedExpr.ty_apply, ← heq]

/-- Such a run gives a valid typing when the names around the expression have types without
variables. -/
theorem typed_of_complete_expecting
    (closed : scope.Closed) {Γ : Context} {e : Expr} {expected : Ty}
    {c : TypedExpr → Constraint} {typed : TypedExpr}
    (hΓ : ∀ frame ∈ Γ, ∀ entry ∈ frame, entry.2.vars = []) (hvars : expected.vars = [])
    (hc : ∀ t, (c t).Equates expected t.ty)
    (h : scope.complete (do
      let typed ← scope.infer Γ.locals e
      Infer.constrain (c typed)
      return typed) = .ok typed) :
    Typed scope scope.options.policy Γ typed ∧ typed.ty = expected := by
  obtain ⟨provisional, final, s, hrun, hs, rfl⟩ := complete_eq_ok.1 h
  simp only [bind_eq_ok, Infer.constrain_eq_ok, pure_eq_ok] at hrun
  obtain ⟨first, middle, hinfer, ⟨⟩, last, rfl, rfl, rfl⟩ := hrun
  have hsatisfied := satisfied_of_solveInferred hs
  obtain ⟨hmiddle, -⟩ := InferState.satisfied_emit.1 hsatisfied
  have htyped := (infer_sound closed e hinfer s hmiddle).2
  rw [Context.apply_eq_self hΓ] at htyped
  exact ⟨htyped, (erase_and_ty_of_complete_expecting hvars hc h).2⟩

theorem checkFunction_eq_ok
    {receiver : Option Ty} {f : Function Expr} {body : Expr} (hbody : f.body = some body)
    {checked : Function TypedExpr} :
    scope.checkFunction receiver f = .ok checked ↔
      ∃ bound declared typed, scope.bindParams (selfBinding receiver) f.params = .ok bound ∧
        scope.resultTy f = .ok declared ∧
        scope.complete (do
          let typed ← scope.infer [bound] body
          Infer.constrain (.result declared typed.ty (resultSpan f body))
          return typed) = .ok typed ∧
        checked = ⟨f.name, f.modifiers, f.params, f.result, some typed, f.span⟩ := by
  simp only [checkFunction, hbody, except_bind_eq_ok]
  constructor
  · rintro ⟨bound, hbound, declared, hdeclared, typed, htyped, h⟩
    cases h
    exact ⟨bound, declared, typed, hbound, hdeclared, htyped, rfl⟩
  · rintro ⟨bound, declared, typed, hbound, hdeclared, htyped, rfl⟩
    exact ⟨bound, hbound, declared, hdeclared, typed, htyped, rfl⟩

theorem checkBinding_inferred_eq_ok
    {name : String} {modifiers : List Modifier} {value : Expr} {span : Span}
    {checked : Binding Expr TypedExpr} :
    scope.checkBinding ⟨name, modifiers, none, some value, span⟩ = .ok checked ↔
      ∃ typed, scope.annotate value = .ok typed ∧
        checked = ⟨name, modifiers, none, some typed, span⟩ := by
  have hrun : scope.complete (scope.infer [] value >>= pure) = scope.annotate value := by
    rw [bind_pure, annotate]
  simp only [checkBinding, except_bind_eq_ok]
  constructor
  · rintro ⟨typed, htyped, h⟩
    cases h
    exact ⟨typed, hrun.symm.trans htyped, rfl⟩
  · rintro ⟨typed, htyped, rfl⟩
    exact ⟨typed, hrun.trans htyped, rfl⟩

theorem complete_of_checkBinding_annotated
    {name : String} {modifiers : List Modifier} {a value : Expr} {span : Span}
    {checked : Binding Expr TypedExpr}
    (h : scope.checkBinding ⟨name, modifiers, some a, some value, span⟩ = .ok checked) :
    ∃ t typed, scope.annotationTy a = .ok t ∧
      scope.complete (do
        let typed ← scope.infer [] value
        Infer.constrain (.equal t typed.ty value.span)
        return typed) = .ok typed ∧
      checked = ⟨name, modifiers, some a, some typed, span⟩ := by
  simp only [checkBinding, except_bind_eq_ok] at h
  obtain ⟨typed, hcomplete, h⟩ := h
  cases h
  have hread : ∃ t, scope.annotationTy a = .ok t := by
    obtain ⟨provisional, final, s, hrun, -, -⟩ := complete_eq_ok.1 hcomplete
    simp only [bind_eq_ok, Infer.lift_eq_ok] at hrun
    obtain ⟨first, middle, -, t, last, ⟨ht, -⟩, -⟩ := hrun
    exact ⟨t, ht⟩
  obtain ⟨t, ht⟩ := hread
  simp only [ht] at hcomplete
  exact ⟨t, typed, ht, hcomplete, rfl⟩

theorem typed_of_checkBinding_annotated
    (closed : scope.Closed) {name : String} {modifiers : List Modifier} {a value : Expr}
    {span : Span} {checked : Binding Expr TypedExpr}
    (h : scope.checkBinding ⟨name, modifiers, some a, some value, span⟩ = .ok checked) :
    ∃ typed, Typed scope scope.options.policy [] typed ∧
      scope.annotationTy a = .ok typed.ty ∧
      checked = ⟨name, modifiers, some a, some typed, span⟩ := by
  obtain ⟨t, typed, ht, hcomplete, rfl⟩ := complete_of_checkBinding_annotated h
  obtain ⟨htyped, hty⟩ := typed_of_complete_expecting closed (Γ := []) (e := value)
    (c := fun typed => .equal t typed.ty value.span) (by simp) (annotationTy_vars ht)
    (fun typed => ⟨value.span, .inl rfl⟩) hcomplete
  exact ⟨typed, htyped, by rw [ht, hty], rfl⟩

/-! ## Types in two scopes -/

/-- An expression has a type in a scope. -/
def HasType (scope : Scope) (e : Expr) (t : Ty) : Prop :=
  ∃ typed : TypedExpr, typed.erase = e ∧ typed.ty = t ∧
    Typed scope scope.options.policy [] typed

theorem HasType.exists_apply
    (closed : scope.Closed) {e : Expr} {t : Ty} (h : scope.HasType e t) {typed : TypedExpr}
    (hannotate : scope.annotate e = .ok typed) :
    ∃ s : Subst, s.apply typed.ty = t := by
  obtain ⟨target, rfl, rfl, htarget⟩ := h
  rcases annotate_of_typed closed htarget with ⟨found, s, hfound, rfl⟩ | ⟨-, selector, span, herr⟩
  · rw [hfound] at hannotate
    cases hannotate
    exact ⟨s, (TypedExpr.ty_apply s typed).symm⟩
  · rw [herr] at hannotate
    cases hannotate

theorem hasType_of_variant
    (closed : scope.Closed) {e : Expr} {t : Ty} {typed : TypedExpr}
    (h : scope.annotate e = .ok typed) (hvariant : typed.ty.Variant t) :
    scope.HasType e t := by
  obtain ⟨s, hvars, rfl⟩ := hvariant.exists_total
  obtain ⟨herase, htyped⟩ := typed_of_annotate closed h
  refine ⟨typed.apply s, ?_, TypedExpr.ty_apply s typed, ?_⟩
  · rw [TypedExpr.erase_apply, herase]
  · exact htyped.apply closed fun _ => hvars

/-- What inference gives in two scopes is the same up to a renaming exactly when each
scope allows the type that inference gives in the other. -/
theorem variant_iff_hasType
    {earlier later : Scope} (hearlier : earlier.Closed) (hlater : later.Closed) {e : Expr}
    {first last : TypedExpr} (hfirst : earlier.annotate e = .ok first)
    (hlast : later.annotate e = .ok last) :
    last.ty.Variant first.ty ↔ later.HasType e first.ty ∧ earlier.HasType e last.ty := by
  constructor
  · intro h
    exact ⟨hasType_of_variant hlater hlast h, hasType_of_variant hearlier hfirst h.symm⟩
  · rintro ⟨hinLater, hinEarlier⟩
    exact Ty.variant_iff.2
      ⟨hinLater.exists_apply hlater hlast, hinEarlier.exists_apply hearlier hfirst⟩

/-! ## Agreement -/

/-- The scheme under which the name of a checked declaration is recorded agrees with the
types on its body or value.  For a function these are the types of the parameters that the
body sees and the type of the body. -/
def Agrees (scope : Scope) : Declaration TypedExpr → Prop
  | .function ⟨name, _, params, _, some body, _⟩ =>
      ∃ (entry : Entry) (bound : Table Ty), scope.lookup name = some entry ∧
        scope.bindParams [] params = .ok (bound.map fun p => (p.1, .mono p.2)) ∧
        Typed scope scope.options.policy [bound] body ∧
        entry.scheme = .mono (.arrow (bound.map Prod.snd) body.ty)
  | .binding ⟨name, _, _, some value, _⟩ =>
      ∃ entry, scope.lookup name = some entry ∧ value.ty.Variant entry.scheme.ty
  | _ => True

/-- A declaration means the same in two scopes: its annotations denote the same types.
Where the type of a value is inferred, each scope allows the type that is inferred in the
other. -/
def SameMeaning (earlier later : Scope) : Declaration Expr → Prop
  | .function ⟨_, _, params, result, some _, _⟩ =>
      ∀ a ∈ params.map Parameter.ascription ++ result.toList,
        earlier.annotationTy a = later.annotationTy a
  | .binding ⟨_, _, some a, some _, _⟩ =>
      earlier.annotationTy a = later.annotationTy a
  | .binding ⟨_, _, none, some value, _⟩ =>
      ∀ first last, earlier.annotate value = .ok first → later.annotate value = .ok last →
        later.HasType value first.ty ∧ earlier.HasType value last.ty
  | _ => True

theorem resultTy_eq_iff
    {earlier later : Scope} {f : Function Expr} {t u : Ty}
    (ht : earlier.resultTy f = .ok t) (hu : later.resultTy f = .ok u) :
    t = u ↔ ∀ a ∈ f.result.toList, earlier.annotationTy a = later.annotationTy a := by
  unfold resultTy at ht hu
  cases hresult : f.result with
  | none =>
      rw [hresult] at ht hu
      cases ht
      cases hu
      simp
  | some a =>
      simp only [hresult] at ht hu
      rw [Option.toList_some, List.forall_mem_singleton, ht, hu, Except.ok.injEq]

theorem agrees_function_iff_eq
    {name : String} {modifiers : List Modifier} {params : List Parameter}
    {result : Option Expr} {span : Span} {body : TypedExpr} {entry : Entry} {bound : Table Ty}
    {ts : List Ty} {t : Ty} (hlookup : scope.lookup name = some entry)
    (hbound : scope.bindParams [] params = .ok (bound.map fun p => (p.1, .mono p.2)))
    (htyped : Typed scope scope.options.policy [bound] body)
    (hscheme : entry.scheme = .mono (.arrow ts t)) :
    scope.Agrees (.function ⟨name, modifiers, params, result, some body, span⟩) ↔
      ts = bound.map Prod.snd ∧ t = body.ty := by
  constructor
  · rintro ⟨entry', bound', hlookup', hbound', -, hscheme'⟩
    cases hlookup.symm.trans hlookup'
    have hnames := Except.ok.inj (hbound.symm.trans hbound')
    have hsnd : bound.map Prod.snd = bound'.map Prod.snd := by
      simpa [Function.comp_def, Scheme.mono] using
        congrArg (List.map fun p : String × Scheme => p.2.ty) hnames
    have harrow := congrArg Scheme.ty (hscheme.symm.trans hscheme')
    cases harrow
    exact ⟨hsnd.symm, rfl⟩
  · rintro ⟨rfl, rfl⟩
    exact ⟨entry, bound, hlookup, hbound, htyped, hscheme⟩

theorem agrees_function_iff
    {earlier later : Scope} (closed : later.Closed) {f : Function Expr} {entry : Entry}
    {checked : Function TypedExpr} (hentry : earlier.functionEntry f = .ok entry)
    (hlookup : later.lookup f.name = some entry)
    (hcheck : later.checkFunction none f = .ok checked) :
    later.Agrees (.function checked) ↔ SameMeaning earlier later (.function f) := by
  obtain ⟨name, modifiers, params, result, body, span⟩ := f
  cases body with
  | none =>
      cases hcheck
      exact Iff.rfl
  | some body =>
      simp only [functionEntry, except_bind_eq_ok] at hentry
      obtain ⟨ts, hts, t, ht, h⟩ := hentry
      cases h
      obtain ⟨names, u, typed, hnames, hu, hcomplete, rfl⟩ := (checkFunction_eq_ok rfl).1 hcheck
      obtain ⟨bound, us, rfl, hbound, hus, hsnd⟩ :=
        @annotationTys_of_bindParams later [] params _ (by simp) hnames
      obtain ⟨htyped, rfl⟩ := typed_of_complete_expecting closed (Γ := [bound])
        (List.forall_mem_singleton.2 hbound) (resultTy_vars hu) (fun _ => ⟨_, .inr rfl⟩)
        hcomplete
      change bound.map Prod.snd = us at hsnd
      subst hsnd
      rw [agrees_function_iff_eq hlookup hnames htyped rfl, annotationTys_eq_iff hts hus,
        resultTy_eq_iff ht hu, ← List.forall_mem_append]
      exact Iff.rfl

theorem agrees_binding_iff
    {earlier later : Scope} (hearlier : earlier.Closed) (hlater : later.Closed)
    {b : Binding Expr Expr} {entry : Entry} {checked : Binding Expr TypedExpr}
    (hentry : earlier.bindingEntry b = .ok entry)
    (hlookup : later.lookup b.name = some entry)
    (hcheck : later.checkBinding b = .ok checked) :
    later.Agrees (.binding checked) ↔ SameMeaning earlier later (.binding b) := by
  obtain ⟨name, modifiers, ascription, value, span⟩ := b
  have hagrees : ∀ typed : TypedExpr, later.Agrees
      (.binding ⟨name, modifiers, ascription, some typed, span⟩) ↔
        typed.ty.Variant entry.scheme.ty := by
    intro typed
    simp [Agrees, hlookup]
  match ascription, value with
  | _, none =>
      cases hcheck
      simp [Agrees, SameMeaning]
  | some a, some value =>
      simp only [bindingEntry, except_bind_eq_ok] at hentry
      obtain ⟨t, ht, h⟩ := hentry
      cases h
      obtain ⟨typed, -, hty, rfl⟩ := typed_of_checkBinding_annotated hlater hcheck
      rw [hagrees, Ty.variant_iff_eq (annotationTy_vars hty)]
      simp only [SameMeaning, ht, hty, Except.ok.injEq, Entry.scheme, Scheme.mono]
      exact eq_comm
  | none, some value =>
      simp only [bindingEntry, except_bind_eq_ok] at hentry
      obtain ⟨first, hfirst, h⟩ := hentry
      cases h
      obtain ⟨last, hlast, rfl⟩ := checkBinding_inferred_eq_ok.1 hcheck
      have hvariant := variant_iff_hasType hearlier hlater hfirst hlast
      rw [hagrees]
      constructor
      · intro h first' last' hfirst' hlast'
        cases hfirst.symm.trans hfirst'
        cases hlast.symm.trans hlast'
        exact hvariant.1 h
      · intro h
        exact hvariant.2 (h first last hfirst hlast)

theorem agrees_checkDeclaration_iff
    {d : Declaration Expr} {after : List (Declaration Expr)} {earlier later : Scope}
    {checked : Declaration TypedExpr} (hearlier : earlier.Closed) (hlater : later.Closed)
    (hinsert : insertAll (d :: after) earlier = .ok () later)
    (hcheck : later.checkDeclaration none d = (checked, [])) :
    later.Agrees checked ↔ earlier.SameMeaning later d := by
  cases d with
  | binding b =>
      obtain ⟨entry, hentry, hlookup⟩ := lookup_of_declared_binding hinsert
      rw [checkDeclaration] at hcheck
      split at hcheck
      · rename_i typed htyped
        cases hcheck
        exact agrees_binding_iff hearlier hlater hentry hlookup htyped
      · cases hcheck
  | function f =>
      obtain ⟨entry, hentry, hlookup⟩ := lookup_of_declared_function hinsert
      simp only [checkDeclaration, ite_self] at hcheck
      split at hcheck
      · rename_i typed htyped
        cases hcheck
        exact agrees_function_iff hlater hentry hlookup htyped
      · cases hcheck
  | type kind name modifiers members span =>
      simp only [checkDeclaration] at hcheck
      split at hcheck
      · obtain ⟨rfl, -⟩ := Prod.mk.inj hcheck
        exact Iff.rfl
      · cases hcheck
  | enumCase | trait =>
      cases hcheck
      exact Iff.rfl

end Scope

/-- In a module that passes its check, what is recorded for a declaration agrees with the
types on its checked body or value exactly when the declaration means the same before the
later declarations are made and in the whole module. -/
theorem checkModule_agrees_iff
    {options : Options} {before after : List (Declaration Expr)} {d : Declaration Expr}
    {m : TypedModule} (h : checkModule options (before ++ d :: after) = .ok m) :
    ∃ earlier checked, Scope.build options before = .ok earlier ∧
      m.scope.checkDeclaration none d = (checked, []) ∧
      m.declarations[before.length]? = some checked ∧
      (m.scope.Agrees checked ↔ earlier.SameMeaning m.scope d) := by
  obtain ⟨hbuild, hcheckAll⟩ := checkModule_eq_ok.1 h
  obtain ⟨checked, hcheck, hat⟩ := Scope.checkAll_append hcheckAll
  have hinsert := Scope.build_eq_ok.1 hbuild
  obtain ⟨earlier, hbefore, hrest⟩ := Scope.insertAll_append_eq_ok.1 hinsert
  have hbuildBefore := Scope.build_eq_ok.2 hbefore
  have hearlier : earlier.Closed := (Scope.InModule.build hbuildBefore).closed
  have hlater : m.scope.Closed := (Scope.InModule.build hbuild).closed
  exact ⟨earlier, checked, hbuildBefore, hcheck, hat,
    Scope.agrees_checkDeclaration_iff hearlier hlater hrest hcheck⟩

/-! ## A type name that becomes the name of a value -/

/-- A function from a type to itself. -/
def identityOnT : Function Expr :=
  ⟨"f", [], [⟨none, "x", .ident "T" default, default⟩], some (.ident "T" default),
    some (.block [.expr (.ident "x" default)] default), default⟩

/-- After the function, the name of the type is given to a value. -/
def shadowingModule : List (Declaration Expr) :=
  [.type .struct "T" [] [] default, .function identityOnT,
    .binding ⟨"T", [], none, some (.tuple [] default), default⟩]

def shadowingScope : Scope :=
  ⟨⟨none,
    [("f", .function ["x"] identityOnT.body (.mono (.arrow [.named "T"] (.named "T")))),
      ("T", .binding (some (.tuple [] default)) (.generalize .unit))],
    [("T", .struct ⟨[], [], []⟩)]⟩, [.prelude], .standard⟩

/-- The declarations of the module, with the body of the function at the unit type. -/
def shadowingChecked : List (Declaration TypedExpr) :=
  [.type .struct "T" [] [] default,
    .function ⟨"f", [], identityOnT.params, identityOnT.result,
      some (.block [.expr (.ident "x" default .unit)] default .unit), default⟩,
    .binding ⟨"T", [], none, some (.tuple [] default .unit), default⟩]

theorem checkModule_shadowingModule :
    checkModule .standard shadowingModule = .ok ⟨shadowingChecked, shadowingScope⟩ := by
  have hbound : shadowingScope.bindParams [] identityOnT.params =
      .ok [("x", .mono .unit)] := by cbv
  have hresult : shadowingScope.resultTy identityOnT = .ok .unit := by cbv
  have hf : shadowingScope.checkFunction none identityOnT =
      .ok ⟨"f", [], identityOnT.params, identityOnT.result,
        some (.block [.expr (.ident "x" default .unit)] default .unit), default⟩ := by
    refine (Scope.checkFunction_eq_ok rfl).2 ⟨_, _, _, hbound, hresult, ?_, rfl⟩
    exact Scope.complete_of_completeWithin (n := 2) (by cbv)
  have hvalue : shadowingScope.annotate (.tuple [] default) = .ok (.tuple [] default .unit) :=
    Scope.complete_of_completeWithin (n := 1) (by cbv)
  have hT : shadowingScope.checkBinding ⟨"T", [], none, some (.tuple [] default), default⟩ =
      .ok ⟨"T", [], none, some (.tuple [] default .unit), default⟩ :=
    Scope.checkBinding_inferred_eq_ok.2 ⟨_, hvalue, rfl⟩
  have hstruct : shadowingScope.checkDeclaration none (.type .struct "T" [] [] default) =
      (.type .struct "T" [] [] default, []) := by cbv
  refine checkModule_eq_ok.2 ⟨by cbv, ?_⟩
  simp only [shadowingModule, Scope.checkAll, hstruct]
  simp only [Scope.checkDeclaration, ite_self, hf, hT, List.append_nil, shadowingChecked]

/-- The recorded signature need not agree with the checked body: the function is recorded
from the type to itself, and its body is checked from unit to unit. -/
theorem not_agrees_shadowingModule :
    checkModule .standard shadowingModule = .ok ⟨shadowingChecked, shadowingScope⟩ ∧
      ∃ body span, shadowingChecked[1]? = some (.function
          ⟨"f", [], identityOnT.params, identityOnT.result, some body, span⟩) ∧
        body.ty = .unit ∧
        shadowingScope.bindParams [] identityOnT.params = .ok [("x", .mono .unit)] ∧
        (∃ entry, shadowingScope.lookup "f" = some entry ∧
          entry.scheme = .mono (.arrow [.named "T"] (.named "T"))) ∧
        ¬ shadowingScope.Agrees (.function
          ⟨"f", [], identityOnT.params, identityOnT.result, some body, span⟩) := by
  refine ⟨checkModule_shadowingModule, _, _, rfl, rfl, by cbv, ⟨_, rfl, rfl⟩, ?_⟩
  rintro ⟨entry, bound, hlookup, -, -, hscheme⟩
  cases hlookup
  have harrow := congrArg Scheme.ty hscheme
  injection harrow with hparams hresult
  cases hresult

/-- At the function of this module the two sides of the equivalence are both false. -/
theorem checkModule_agrees_iff_shadowingModule :
    checkModule .standard shadowingModule = .ok ⟨shadowingChecked, shadowingScope⟩ ∧
      ∃ earlier checked,
        Scope.build .standard [.type .struct "T" [] [] default] = .ok earlier ∧
        shadowingScope.checkDeclaration none (.function identityOnT) = (checked, []) ∧
        shadowingChecked[1]? = some checked ∧
        (shadowingScope.Agrees checked ↔
          earlier.SameMeaning shadowingScope (.function identityOnT)) :=
  ⟨checkModule_shadowingModule,
    @checkModule_agrees_iff .standard [.type .struct "T" [] [] default] _ _ _
      checkModule_shadowingModule⟩

end Ascribe
