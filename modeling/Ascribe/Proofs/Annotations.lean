import Ascribe.Proofs.Calls
import Ascribe.Proofs.QualifiedNames
import Ascribe.Ty.Quote

/-!
# Annotations and the types that they denote

An annotation may be any expression.  It denotes a type when its normal form is built from type
names, function types and tuples.  Evaluation looks up every type name that it puts into a form,
so in a module the names in a denoted type all lead to themselves.  The one way around the
look-up is the selection of a nested type, which puts two names together.  What comes out leads
to the nested type as long as the name of the nested type has no dot of its own
(`Scope.resolveType_nested`).

In the other direction, a type without variables is written as an annotation.  A dotted name
becomes a chain of selections, which leads through the same tables as the name itself
(`Scope.evalAt_quoteName`), so the annotation denotes the type again when no value captures the
names in it.
-/

namespace Ascribe

/-! ## Names in types and forms -/

namespace Ty

mutual

/-- The type names in a type. -/
def names : Ty → List String
  | .con name args => name :: namesAll args
  | .var _ => []
  | .arrow params result => namesAll params ++ result.names
  | .tuple elems => namesAll elems

def namesAll : List Ty → List String
  | [] => []
  | t :: ts => t.names ++ namesAll ts

end

theorem forall_mem_namesAll {P : String → Prop} {ts : List Ty} :
    (∀ name ∈ namesAll ts, P name) ↔ ∀ t ∈ ts, ∀ name ∈ t.names, P name := by
  induction ts with
  | nil => simp [namesAll]
  | cons t ts ih => rw [namesAll, List.forall_mem_append, ih, List.forall_mem_cons]

theorem varsAll_eq_nil_iff {ts : List Ty} : varsAll ts = [] ↔ ∀ t ∈ ts, t.vars = [] := by
  induction ts with
  | nil => simp [varsAll]
  | cons t ts ih => rw [varsAll, List.append_eq_nil_iff, ih, List.forall_mem_cons]

end Ty

namespace NormalForm

mutual

/-- The type names in a form, as far as it is built from types, tuples and fields. -/
def names : NormalForm → List String
  | .tycon name args => name :: namesAll args
  | .arrow params result => namesAll params ++ result.names
  | .tuple elems => namesAll elems
  | .structLit _ fields => namesFields fields
  | .closure _ _ | .literal _ | .cond _ _ _ | .ident _ | .app _ _ | .member _ _ => []

def namesAll : List NormalForm → List String
  | [] => []
  | form :: forms => form.names ++ namesAll forms

def namesFields : List (String × NormalForm) → List String
  | [] => []
  | (_, value) :: rest => value.names ++ namesFields rest

end

theorem forall_mem_namesAll {P : String → Prop} {forms : List NormalForm} :
    (∀ name ∈ namesAll forms, P name) ↔ ∀ form ∈ forms, ∀ name ∈ form.names, P name := by
  induction forms with
  | nil => simp [namesAll]
  | cons form forms ih => rw [namesAll, List.forall_mem_append, ih, List.forall_mem_cons]

theorem forall_mem_namesFields {P : String → Prop} {fields : List (String × NormalForm)} :
    (∀ name ∈ namesFields fields, P name) ↔
      ∀ field ∈ fields, ∀ name ∈ field.2.names, P name := by
  induction fields with
  | nil => simp [namesFields]
  | cons field rest ih =>
      obtain ⟨key, value⟩ := field
      rw [namesFields, List.forall_mem_append, ih, List.forall_mem_cons]

mutual

/-- A form has the type names of the type that it denotes. -/
theorem names_of_toTy? :
    ∀ (form : NormalForm) {t : Ty}, form.toTy? = some t → t.names = form.names
  | .tycon name args, t, h => by
      rw [toTy?, Option.map_eq_some_iff] at h
      obtain ⟨ts, hts, rfl⟩ := h
      rw [Ty.names, names, namesAll_of_toTys? args hts]
  | .arrow params result, t, h => by
      rw [toTy?] at h
      split at h
      · rename_i ts u hts hu
        cases h
        rw [Ty.names, names, namesAll_of_toTys? params hts, names_of_toTy? result hu]
      · cases h
  | .tuple elems, t, h => by
      rw [toTy?, Option.map_eq_some_iff] at h
      obtain ⟨ts, hts, rfl⟩ := h
      rw [Ty.names, names, namesAll_of_toTys? elems hts]
  | .closure .., _, h | .literal .., _, h | .cond .., _, h | .structLit .., _, h
  | .ident .., _, h | .app .., _, h | .member .., _, h => by
      simp [toTy?] at h

theorem namesAll_of_toTys? :
    ∀ (forms : List NormalForm) {ts : List Ty}, toTys? forms = some ts →
      Ty.namesAll ts = namesAll forms
  | [], ts, h => by
      cases h
      rfl
  | form :: forms, ts, h => by
      rw [toTys?] at h
      split at h
      · rename_i t us ht hus
        cases h
        rw [Ty.namesAll, namesAll, names_of_toTy? form ht, namesAll_of_toTys? forms hus]
      · cases h

end

end NormalForm

/-! ## Type names without dots -/

namespace Declaration

variable {ε : Type}

mutual

/-- The names of the types that a declaration declares, at every depth. -/
def typeNames : Declaration ε → List String
  | .type _ name _ members _ => name :: typeNamesAll members
  | .binding _ | .function _ | .enumCase _ _ _ _ | .trait _ _ _ => []

/-- The names of the types that a list of declarations declares, at every depth. -/
def typeNamesAll : List (Declaration ε) → List String
  | [] => []
  | d :: ds => d.typeNames ++ typeNamesAll ds

end

theorem typeNames_subset {d : Declaration ε} {ds : List (Declaration ε)} (h : d ∈ ds) :
    d.typeNames ⊆ typeNamesAll ds := by
  induction ds with
  | nil => cases h
  | cons head rest ih =>
      rw [typeNamesAll]
      rcases List.mem_cons.1 h with rfl | h
      · exact List.subset_append_left _ _
      · exact List.subset_append_of_subset_right _ (ih h)

theorem exists_type_of_mem_typeName? {name : String} {ds : List (Declaration ε)}
    (h : name ∈ ds.filterMap typeName?) :
    ∃ kind modifiers members span, .type kind name modifiers members span ∈ ds := by
  obtain ⟨d, hmem, hname⟩ := List.mem_filterMap.1 h
  cases d with
  | type kind name' modifiers members span =>
      cases hname
      exact ⟨kind, modifiers, members, span, hmem⟩
  | binding | function | enumCase | trait => cases hname

end Declaration

/-- The types in the table of a type have names without dots, at every depth. -/
inductive Definition.Undotted : Definition → Prop where
  | mk {d : Definition}
      (names : ∀ name inner, d.nested? name = some inner → '.' ∉ name.toList)
      (tables : ∀ name inner, d.nested? name = some inner → inner.Undotted) :
      d.Undotted

theorem Definition.undotted_empty (kind : TypeKind) : (empty kind).Undotted := by
  have hnone : ∀ name inner, (empty kind).nested? name ≠ some inner := by
    intro name inner
    cases kind with
    | struct | enum => exact Option.some_ne_none _ ∘ Eq.symm
  exact ⟨fun name inner h => absurd h (hnone name inner),
    fun name inner h => absurd h (hnone name inner)⟩

theorem Definition.Undotted.at?
    {d inner : Definition} (h : d.Undotted) {path : List String}
    (found : d.at? path = some inner) :
    inner.Undotted := by
  induction path generalizing d with
  | nil =>
      cases found
      exact h
  | cons name path ih =>
      obtain ⟨next, hnext, hrest⟩ := Option.bind_eq_some_iff.1 found
      cases h with
      | mk names tables => exact ih (tables name next hnext) hrest

/-- Where the declared type names have no dots, neither have the names in the table of the
type. -/
theorem Definition.Lists.undotted
    {owner : String} {kind : TypeKind} {body : List (Declaration Expr)} {d : Definition}
    (h : d.Lists owner kind body)
    (hbody : ∀ name ∈ Declaration.typeNamesAll body, '.' ∉ name.toList) :
    d.Undotted := by
  induction h with
  | @mk owner kind body d kind_eq values statics types cases members_nodup types_nodup
      static_case nested ih =>
    have hdeclared : ∀ name inner, d.nested? name = some inner →
        ∃ kind modifiers members span, .type kind name modifiers members span ∈ body := by
      intro name inner hfound
      refine Declaration.exists_type_of_mem_typeName? ?_
      rw [← types]
      exact List.mem_map_of_mem (Table.mem_of_find? hfound)
    refine ⟨?_, ?_⟩
    · intro name inner hfound
      obtain ⟨kind, modifiers, members, span, hmem⟩ := hdeclared name inner hfound
      exact hbody name (Declaration.typeNames_subset hmem List.mem_cons_self)
    · intro name inner hfound
      obtain ⟨kind, modifiers, members, span, hmem⟩ := hdeclared name inner hfound
      refine ih kind name modifiers members span inner hmem hfound ?_
      intro name' hname'
      exact hbody name' (Declaration.typeNames_subset hmem (List.mem_cons_of_mem _ hname'))

theorem Frame.Lists.undotted
    {frame : Frame} {ds : List (Declaration Expr)} (h : frame.Lists ds)
    (hds : ∀ name ∈ Declaration.typeNamesAll ds, '.' ∉ name.toList) {name : String}
    {d : Definition} (found : frame.types.find? name = some d) :
    d.Undotted := by
  have hname : name ∈ ds.filterMap Declaration.typeName? := by
    rw [← h.types]
    exact List.mem_map_of_mem (Table.mem_of_find? found)
  obtain ⟨kind, modifiers, members, span, hmem⟩ :=
    Declaration.exists_type_of_mem_typeName? hname
  obtain ⟨d', hfound, hlists⟩ := h.table kind name modifiers members span hmem
  obtain rfl := Option.some.inj (hfound.symm.trans found)
  refine hlists.undotted ?_
  intro name' hname'
  exact hds name' (Declaration.typeNames_subset hmem (List.mem_cons_of_mem _ hname'))

theorem Frame.undotted_prelude
    {name : String} {d : Definition} (found : Frame.prelude.types.find? name = some d) :
    d.Undotted := by
  obtain ⟨other, -, hentry⟩ := List.mem_map.1 (Table.mem_of_find? found)
  cases hentry
  exact Definition.undotted_empty .struct

namespace Scope

/-! ## Names that lead to themselves -/

/-- A type name stands for a type when it leads to it under the same name. -/
def Stands (scope : Scope) (name : String) : Prop :=
  ∃ d, scope.resolveType name = some (name, d)

/-- As in a module, no name is put behind a qualifier, and the names of nested types have no
dots. -/
structure Plain (scope : Scope) : Prop where
  base : ∀ frame ∈ scope.frames, frame.qualifier = none
  undotted : ∀ {name q d}, scope.resolveType name = some (q, d) → d.Undotted

theorem plain_of_build
    {options : Options} {ds : List (Declaration Expr)} {scope : Scope}
    (undotted : ∀ name ∈ Declaration.typeNamesAll ds, '.' ∉ name.toList)
    (built : build options ds = .ok scope) :
    scope.Plain where
  base := build_base built
  undotted := by
    intro name q d found
    have hlists := (Frame.lists_nil none).insertAll (build_eq_ok.1 built)
    obtain ⟨frame, hframe, -, hat⟩ := resolveType_eq_some.1 found
    obtain ⟨top, htop, hrest⟩ := Option.bind_eq_some_iff.1 hat
    have hmem : frame ∈ [scope.frame, .prelude] := by
      have hmem := List.mem_of_find?_eq_some hframe
      rwa [frames, (build_frames built).2] at hmem
    refine Definition.Undotted.at? ?_ hrest
    simp only [List.mem_cons, List.not_mem_nil, or_false] at hmem
    rcases hmem with rfl | rfl
    · exact hlists.undotted undotted htop
    · exact Frame.undotted_prelude htop

/-- Where no name is put behind a qualifier, a name that leads anywhere stands for itself. -/
theorem fst_eq_of_resolveType
    {scope : Scope} (hbase : ∀ frame ∈ scope.frames, frame.qualifier = none)
    {name q : String} {d : Definition} (found : scope.resolveType name = some (q, d)) :
    q = name := by
  obtain ⟨frame, hframe, rfl, -⟩ := resolveType_eq_some.1 found
  exact Frame.qualify_eq_self_iff.2 (hbase frame (List.mem_of_find?_eq_some hframe))

theorem Plain.stands
    {scope : Scope} (h : scope.Plain) {name : String} {found : String × Definition}
    (hfound : scope.resolveType name = some found) :
    scope.Stands found.1 := by
  obtain ⟨q, d⟩ := found
  obtain rfl := fst_eq_of_resolveType h.base hfound
  exact ⟨d, hfound⟩

theorem Plain.resolveType_of_lookupType
    {scope : Scope} (h : scope.Plain) {name : String} {d : Definition}
    (hd : scope.lookupType name = some d) :
    scope.resolveType name = some (name, d) := by
  obtain ⟨⟨q, d⟩, hfound, rfl⟩ := Option.map_eq_some_iff.1 hd
  obtain rfl := fst_eq_of_resolveType h.base hfound
  exact hfound

/-- A name without dots leads from a type to the type of that name in its body. -/
theorem resolveType_nested
    {scope : Scope} {owner q name : String} {d inner : Definition}
    (howner : scope.resolveType owner = some (q, d)) (hinner : d.nested? name = some inner)
    (hdot : '.' ∉ name.toList) :
    scope.resolveType (Name.qualified owner name) = some (Name.qualified q name, inner) := by
  have hpath : Name.path name = [name] := by rw [Name.path, Name.segments_of_not_mem hdot]
  rw [resolveType_qualified howner, hpath, Definition.at?, hinner]
  rfl

theorem Plain.stands_nested
    {scope : Scope} (h : scope.Plain) {owner name : String} {d inner : Definition}
    (hd : scope.lookupType owner = some d) (hinner : d.nested? name = some inner) :
    scope.Stands (Name.qualified owner name) := by
  have howner := h.resolveType_of_lookupType hd
  cases h.undotted howner with
  | mk names tables =>
      exact ⟨inner, resolveType_nested howner hinner (names name inner hinner)⟩

/-! ## Annotations denote types that exist -/

/-- All type names in a form stand for types. -/
def Sound (scope : Scope) (form : NormalForm) : Prop :=
  ∀ name ∈ form.names, scope.Stands name

variable {scope : Scope}

theorem sound_of_names_eq_nil {form : NormalForm} (h : form.names = []) : scope.Sound form := by
  simp [Sound, h]

theorem sound_tuple_iff {elems : List NormalForm} :
    scope.Sound (.tuple elems) ↔ ∀ form ∈ elems, scope.Sound form :=
  NormalForm.forall_mem_namesAll

theorem sound_structLit_iff {type : String} {fields : List (String × NormalForm)} :
    scope.Sound (.structLit type fields) ↔ ∀ field ∈ fields, scope.Sound field.2 :=
  NormalForm.forall_mem_namesFields

theorem sound_tycon_iff {name : String} {args : List NormalForm} :
    scope.Sound (.tycon name args) ↔
      scope.Stands name ∧ ∀ form ∈ args, scope.Sound form := by
  rw [Sound, NormalForm.names, List.forall_mem_cons, NormalForm.forall_mem_namesAll]
  exact Iff.rfl

theorem sound_arrow_iff {params : List NormalForm} {result : NormalForm} :
    scope.Sound (.arrow params result) ↔
      (∀ form ∈ params, scope.Sound form) ∧ scope.Sound result := by
  rw [Sound, NormalForm.names, List.forall_mem_append, NormalForm.forall_mem_namesAll]
  exact Iff.rfl

/-- Evaluation keeps the type names in forms sound. -/
theorem Plain.keeps_sound (h : scope.Plain) : scope.Keeps scope.Sound where
  literal _ := sound_of_names_eq_nil rfl
  closure _ _ := sound_of_names_eq_nil rfl
  cond _ _ _ := sound_of_names_eq_nil rfl
  tuple := sound_tuple_iff.2
  elem hwhole hmem := sound_tuple_iff.1 hwhole _ hmem
  structLit _ _ := sound_structLit_iff.2
  field hwhole hform := sound_structLit_iff.1 hwhole _ (Table.mem_of_find? hform)
  tycon hfound hparts := sound_tycon_iff.2 ⟨h.stands hfound, hparts⟩
  nested hd hinner := sound_tycon_iff.2 ⟨h.stands_nested hd hinner, by simp⟩
  ident _ := sound_of_names_eq_nil rfl
  arrow hparts hlast := sound_arrow_iff.2 ⟨hparts, hlast⟩
  app _ _ := sound_of_names_eq_nil rfl
  member _ _ := sound_of_names_eq_nil rfl
  memberOfType _ _ := sound_of_names_eq_nil rfl

/-- A call whose calls give forms with sound type names ends in such a form. -/
theorem Plain.yields_callTree (h : scope.Plain) (c : Call) :
    (scope.callTree c).Yields scope.Sound scope.Sound :=
  h.keeps_sound.yields_callTree c

/-- The scope with another limit on the depth of evaluation. -/
def withDepth (scope : Scope) (depth : Nat) : Scope :=
  { scope with options := { scope.options with depth := depth } }

theorem annotationTy_eq_ok {a : Expr} {t : Ty} :
    scope.annotationTy a = .ok t ↔
      ∃ form, scope.evalAt scope.options.depth a = .ok form ∧ form.toTy? = some t := by
  rw [annotationTy, eval_eq_evalAt, except_bind_eq_ok]
  refine exists_congr fun form => and_congr_right fun _ => ?_
  cases form.toTy? with
  | none => simp
  | some u => simp [pure, Except.pure]

/-- In a module whose type names have no dots, an annotation denotes a type without variables,
and every name in it stands for a type. -/
theorem annotationTy_stands
    {options : Options} {ds : List (Declaration Expr)}
    (undotted : ∀ name ∈ Declaration.typeNamesAll ds, '.' ∉ name.toList)
    (built : build options ds = .ok scope) (depth : Nat) {a : Expr} {t : Ty}
    (denotes : (scope.withDepth depth).annotationTy a = .ok t) :
    t.vars = [] ∧ ∀ name ∈ t.names, ∃ d, scope.resolveType name = some (name, d) := by
  have hplain : (scope.withDepth depth).Plain :=
    ⟨(plain_of_build undotted built).base, (plain_of_build undotted built).undotted⟩
  refine ⟨annotationTy_vars denotes, ?_⟩
  obtain ⟨form, hform, ht⟩ := annotationTy_eq_ok.1 denotes
  rw [form.names_of_toTy? ht]
  exact forall_of_yields hplain.yields_callTree hform

/-- A function on types, applied: the functions from a type to the arrays of its steps. -/
def stepsOfCounter : Expr :=
  .app
    (.closure [⟨"t", none, default⟩]
      (.arrow [.ident "t" default]
        (.tycon "Array" [.member (.ident "t" default) (.named "Step") default] default) default)
      default)
    [.ident "Counter" default] default

theorem annotationTy_stands_counterModule :
    (counterScope.withDepth 1).annotationTy stepsOfCounter =
        .ok (.arrow [.named "Counter"] (.con "Array" [.named "Counter.Step"])) ∧
      ∃ d, counterScope.resolveType "Counter.Step" = some ("Counter.Step", d) := by
  have hundotted : ∀ name ∈ Declaration.typeNamesAll counterModule, '.' ∉ name.toList := by
    decide
  have hdenotes : (counterScope.withDepth 1).annotationTy stepsOfCounter =
      .ok (.arrow [.named "Counter"] (.con "Array" [.named "Counter.Step"])) := by
    cbv
  obtain ⟨-, hnames⟩ := annotationTy_stands hundotted build_counterModule 1 hdenotes
  exact ⟨hdenotes, hnames "Counter.Step" (by decide)⟩

end Scope

/-! ## Types as annotations -/

namespace Name

theorem not_mem_splitDots (cs : List Char) :
    '.' ∉ (splitDots cs).1 ∧ ∀ part ∈ (splitDots cs).2, '.' ∉ part := by
  induction cs with
  | nil => simp [splitDots]
  | cons c cs ih =>
      rw [splitDots_cons]
      split
      · exact ⟨List.not_mem_nil, List.forall_mem_cons.2 ih⟩
      · rename_i hc
        refine ⟨?_, ih.2⟩
        rw [List.mem_cons, not_or]
        exact ⟨fun h => hc h.symm, ih.1⟩

/-- The segments of a name have no dots. -/
theorem not_mem_of_mem_path {name segment : String} (h : segment ∈ path name) :
    '.' ∉ segment.toList := by
  obtain ⟨hfirst, hothers⟩ := not_mem_splitDots name.toList
  rcases List.mem_cons.1 h with rfl | h
  · simpa [segments] using hfirst
  · obtain ⟨part, hpart, rfl⟩ := List.mem_map.1 h
    simpa using hothers part hpart

end Name

namespace Ty

theorem varsAll_of_toExprs?
    {ts : List Ty} (h : ∀ t ∈ ts, ∀ a, t.toExpr? = some a → t.vars = []) {as : List Expr}
    (has : toExprs? ts = some as) :
    varsAll ts = [] := by
  induction ts generalizing as with
  | nil => rfl
  | cons t ts ih =>
      rw [toExprs?] at has
      rw [List.forall_mem_cons] at h
      split at has
      · rename_i a as' ha has'
        rw [varsAll, h.1 a ha, ih h.2 has']
        rfl
      · cases has

/-- Only types without variables are written as annotations. -/
theorem vars_of_toExpr? {t : Ty} {a : Expr} (h : t.toExpr? = some a) : t.vars = [] := by
  induction t generalizing a with
  | var id => cases h
  | con name args ih =>
      rw [toExpr?] at h
      split at h
      · rename_i hempty
        rw [List.isEmpty_iff.1 hempty]
        rfl
      · obtain ⟨as, has, -⟩ := Option.map_eq_some_iff.1 h
        exact varsAll_of_toExprs? (fun t ht a => ih t ht) has
  | arrow params result ih ihResult =>
      rw [toExpr?] at h
      split at h
      · rename_i as b has hb
        rw [vars, varsAll_of_toExprs? (fun t ht a => ih t ht) has, ihResult hb]
        rfl
      · cases h
  | tuple elems ih =>
      obtain ⟨as, has, -⟩ := Option.map_eq_some_iff.1 h
      exact varsAll_of_toExprs? (fun t ht a => ih t ht) has

end Ty

namespace Scope

variable {scope : Scope}

/-- The selection of a nested type gives the nested type under its qualified name. -/
theorem evalAt_member_nested
    {depth : Nat} {base : Expr} {owner name : String} {d inner : Definition} (span : Span)
    (hbase : scope.evalAt depth base = .ok (.tycon owner []))
    (howner : scope.lookupType owner = some d) (hinner : d.nested? name = some inner) :
    scope.evalAt depth (.member base (.named name) span) =
      .ok (.tycon (Name.qualified owner name) []) := by
  have hselect : scope.selectHead (.tycon owner []) (.named name) span =
      .ok (.done (.tycon (Name.qualified owner name) [])) := by
    simp [selectHead, howner, hinner]
  rw [evalAt, hbase]
  simp only [bind, Except.bind, hselect, finish]

/-- A chain of selections follows a path through nested types. -/
theorem evalAt_foldl_member
    {depth : Nat} {base : Expr} {owner : String} {d final : Definition} {segments : List String}
    (hbase : scope.evalAt depth base = .ok (.tycon owner []))
    (howner : scope.resolveType owner = some (owner, d))
    (hfinal : d.at? segments = some final)
    (hdots : ∀ segment ∈ segments, '.' ∉ segment.toList) :
    scope.evalAt depth
        (segments.foldl (fun base segment => .member base (.named segment) .blank) base) =
      .ok (.tycon (segments.foldl Name.qualified owner) []) := by
  induction segments generalizing base owner d with
  | nil => exact hbase
  | cons segment rest ih =>
      rw [List.forall_mem_cons] at hdots
      obtain ⟨inner, hinner, hrest⟩ := Option.bind_eq_some_iff.1 hfinal
      have htable : scope.lookupType owner = some d := by rw [lookupType, howner, Option.map_some]
      exact ih (evalAt_member_nested .blank hbase htable hinner)
        (resolveType_nested howner hinner hdots.1) hrest hdots.2

/-- The annotation for a type name evaluates to the name when it stands for a type and no value
captures its first segment. -/
theorem evalAt_quoteName
    {name : String} (depth : Nat) (hstands : scope.Stands name)
    (hfree : scope.lookup (Name.segments name).1 = none) :
    scope.evalAt depth (quoteName name) = .ok (.tycon name []) := by
  obtain ⟨d, hd⟩ := hstands
  obtain ⟨frame, hframe, hqualifier, hat⟩ := resolveType_self_iff.1 hd
  obtain ⟨top, htop, hrest⟩ := Option.bind_eq_some_iff.1 hat
  have hdots : ∀ segment ∈ Name.path name, '.' ∉ segment.toList :=
    fun segment h => Name.not_mem_of_mem_path h
  rw [Name.path, List.forall_mem_cons] at hdots
  -- the first segment is looked up in the frame in which the whole name is
  have hfirst : scope.resolveType (Name.segments name).1 =
      some ((Name.segments name).1, top) := by
    have hsegments := Name.segments_of_not_mem hdots.1
    refine resolveType_self_iff.2 ⟨frame, ?_, hqualifier, ?_⟩
    · rw [← hframe]
      simp only [frameOf?, Frame.begins, hsegments]
    · rw [Frame.at?, hsegments, htop]
      rfl
  have hident : scope.evalAt depth (.ident (Name.segments name).1 .blank) =
      .ok (.tycon (Name.segments name).1 []) := by
    rw [evalAt, nameHead, hfree]
    simp only [hfirst, finish]
  have hchain := evalAt_foldl_member hident hfirst hrest hdots.2
  rwa [Name.foldl_qualified_segments] at hchain

theorem exists_evalAll_toExprs?
    {depth : Nat} {ts : List Ty}
    (h : ∀ t ∈ ts, ∃ a form, t.toExpr? = some a ∧ scope.evalAt depth a = .ok form ∧
      form.toTy? = some t) :
    ∃ as forms, Ty.toExprs? ts = some as ∧ scope.evalAll depth as = .ok forms ∧
      NormalForm.toTys? forms = some ts := by
  induction ts with
  | nil => exact ⟨[], [], rfl, by rw [evalAll], rfl⟩
  | cons t ts ih =>
      rw [List.forall_mem_cons] at h
      obtain ⟨a, form, ha, hform, ht⟩ := h.1
      obtain ⟨as, forms, has, hforms, hts⟩ := ih h.2
      refine ⟨a :: as, form :: forms, ?_, ?_, ?_⟩
      · rw [Ty.toExprs?, ha, has]
      · rw [evalAll, hform, hforms]
        rfl
      · rw [NormalForm.toTys?, ht, hts]

/-- A type without variables is written as an annotation that evaluates to a form that denotes
it. -/
theorem exists_evalAt_toExpr?
    (depth : Nat) {t : Ty} (hvars : t.vars = [])
    (hnames : ∀ name ∈ t.names, scope.Stands name ∧
      scope.lookup (Name.segments name).1 = none) :
    ∃ a form, t.toExpr? = some a ∧ scope.evalAt depth a = .ok form ∧ form.toTy? = some t := by
  induction t with
  | var id => cases hvars
  | con name args ih =>
      rw [Ty.names, List.forall_mem_cons, Ty.forall_mem_namesAll] at hnames
      rw [Ty.vars, Ty.varsAll_eq_nil_iff] at hvars
      obtain ⟨⟨⟨d, hd⟩, hfree⟩, hargs⟩ := hnames
      cases args with
      | nil => exact ⟨_, _, rfl, evalAt_quoteName depth ⟨d, hd⟩ hfree, rfl⟩
      | cons t ts =>
          obtain ⟨as, forms, has, hforms, hts⟩ :=
            exists_evalAll_toExprs? fun u hu => ih u hu (hvars u hu) (hargs u hu)
          refine ⟨.tycon name as .blank, .tycon name forms, ?_, ?_, ?_⟩
          · rw [Ty.toExpr?, has]
            rfl
          · rw [evalAt]
            simp only [hd, hforms]
            rfl
          · rw [NormalForm.toTy?, hts]
            rfl
  | arrow params result ih ihResult =>
      rw [Ty.names, List.forall_mem_append, Ty.forall_mem_namesAll] at hnames
      rw [Ty.vars, List.append_eq_nil_iff, Ty.varsAll_eq_nil_iff] at hvars
      obtain ⟨as, forms, has, hforms, hts⟩ :=
        exists_evalAll_toExprs? fun u hu => ih u hu (hvars.1 u hu) (hnames.1 u hu)
      obtain ⟨b, form, hb, hform, ht⟩ := ihResult hvars.2 hnames.2
      refine ⟨.arrow as b .blank, .arrow forms form, ?_, ?_, ?_⟩
      · rw [Ty.toExpr?, has, hb]
      · rw [evalAt, hforms]
        simp only [bind, Except.bind, hform]
        rfl
      · rw [NormalForm.toTy?, hts, ht]
  | tuple elems ih =>
      rw [Ty.names, Ty.forall_mem_namesAll] at hnames
      rw [Ty.vars, Ty.varsAll_eq_nil_iff] at hvars
      obtain ⟨as, forms, has, hforms, hts⟩ :=
        exists_evalAll_toExprs? fun u hu => ih u hu (hvars u hu) (hnames u hu)
      refine ⟨.tuple as .blank, .tuple forms, ?_, ?_, ?_⟩
      · rw [Ty.toExpr?, has]
        rfl
      · rw [evalAt, hforms]
        rfl
      · rw [NormalForm.toTy?, hts]
        rfl

/-- In a module, a type without variables whose names stand for types that no value captures is
written as an annotation that denotes it, at every depth of evaluation.  A type with variables is
not written as an annotation. -/
theorem annotationTy_toExpr?
    {options : Options} {ds : List (Declaration Expr)} (built : build options ds = .ok scope)
    (depth : Nat) (t : Ty) :
    (t.vars = [] →
      (∀ name ∈ t.names, (scope.resolveType name).isSome = true ∧
        scope.lookup (Name.segments name).1 = none) →
      ∃ a, t.toExpr? = some a ∧ (scope.withDepth depth).annotationTy a = .ok t) ∧
    (t.vars ≠ [] → t.toExpr? = none) := by
  constructor
  · intro hvars hnames
    have hstands : ∀ name ∈ t.names, (scope.withDepth depth).Stands name ∧
        (scope.withDepth depth).lookup (Name.segments name).1 = none := by
      intro name hname
      obtain ⟨hsome, hfree⟩ := hnames name hname
      obtain ⟨⟨q, d⟩, hfound⟩ := Option.isSome_iff_exists.1 hsome
      obtain rfl := fst_eq_of_resolveType (build_base built) hfound
      exact ⟨⟨d, hfound⟩, hfree⟩
    obtain ⟨a, form, ha, hform, ht⟩ := exists_evalAt_toExpr? depth hvars hstands
    exact ⟨a, ha, annotationTy_eq_ok.2 ⟨form, hform, ht⟩⟩
  · intro hvars
    cases h : t.toExpr? with
    | none => rfl
    | some a => exact absurd (Ty.vars_of_toExpr? h) hvars

theorem annotationTy_toExpr?_counterModule :
    (∃ a, (Ty.arrow [.con "Array" [.named "Counter.Step"]] (.tuple [.named "Counter"])).toExpr? =
        some a ∧
      (counterScope.withDepth 0).annotationTy a =
        .ok (.arrow [.con "Array" [.named "Counter.Step"]] (.tuple [.named "Counter"]))) ∧
      (Ty.arrow [.var 0] (.named "Counter")).toExpr? = none := by
  refine ⟨(annotationTy_toExpr? build_counterModule 0 _).1 rfl ?_,
    (annotationTy_toExpr? build_counterModule 0 _).2 (by decide)⟩
  decide

end Scope

end Ascribe
