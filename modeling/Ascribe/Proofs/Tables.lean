import Ascribe.Proofs.Insertion
import Mathlib.Data.List.Nodup

/-!
# What the tables of a module list

The tables of a module and of every type in it list exactly what was declared: the frame of
the module its values and types, the table of a type its instance members, its static members
and its types, and the table of an enum its cases too.  A case is also a static member, whose
type is made from the associated values of the case and the enum.

Names are listed in the order of declaration and no name twice.  The members of the values of
a type and the members of the type itself share their names, but a type may have the name of a
member.
-/

namespace Ascribe

/-! ## Declared names -/

namespace Declaration

variable {ε : Type}

/-- The declared name of a binding or a function. -/
def valueName? : Declaration ε → Option String
  | .binding b => some b.name
  | .function f => some f.name
  | _ => none

/-- The declared name of a case. -/
def caseName? : Declaration ε → Option String
  | .enumCase name _ _ _ => some name
  | _ => none

/-- The declared name of a type. -/
def typeName? : Declaration ε → Option String
  | .type _ name _ _ _ => some name
  | _ => none

/-- The name that a declaration in the body of a type gives to a member of the values of the
type. -/
def instanceName? (d : Declaration ε) : Option String :=
  if d.isStatic then none else d.valueName?

/-- The name that a declaration in the body of a type gives to a member of the type itself. -/
def staticName? : Declaration ε → Option String
  | .enumCase name _ _ _ => some name
  | d => if d.isStatic then d.valueName? else none

theorem filterMap_typeName?_filter (ds : List (Declaration ε)) :
    (ds.filter isType).filterMap typeName? = ds.filterMap typeName? := by
  rw [List.filterMap_filter]
  refine List.filterMap_congr fun d _ => ?_
  cases d with
  | type kind name modifiers members span => rfl
  | binding | function | enumCase | trait => rfl

end Declaration

/-! ## Tables that list a body -/

namespace Definition

/-- Whether the table is that of a struct or of an enum. -/
def kind : Definition → TypeKind
  | .struct _ => .struct
  | .enum _ _ => .enum

/-- The cases of the type with the types of their associated values. -/
def cases : Definition → Table (List Ty)
  | .struct _ => []
  | .enum _ cases => cases

theorem case?_eq (d : Definition) (name : String) :
    d.case? name = d.cases.find? name := by
  cases d with
  | struct members => rfl
  | enum members cases => rfl

end Definition

/-- The type of a case of an enum, given the types of its associated values. -/
def caseTy (self : Ty) : List Ty → Ty
  | [] => self
  | values => .arrow values self

/-- The table of the type with the given qualified name lists the declarations of its body,
and so do the tables of the types declared there, at every depth. -/
inductive Definition.Lists : String → TypeKind → List (Declaration Expr) → Definition → Prop where
  | mk {owner : String} {kind : TypeKind} {body : List (Declaration Expr)} {d : Definition}
      (kind_eq : d.kind = kind)
      (values : d.members.values.names = body.filterMap Declaration.instanceName?)
      (statics : d.members.statics.names = body.filterMap Declaration.staticName?)
      (types : Table.names d.members.types = body.filterMap Declaration.typeName?)
      (cases : d.cases.names = body.filterMap Declaration.caseName?)
      (members_nodup : (d.members.values.names ++ d.members.statics.names).Nodup)
      (types_nodup : (Table.names d.members.types).Nodup)
      (static_case : ∀ name associated, d.case? name = some associated →
        d.static? name = some (.signature (.mono (caseTy (.named owner) associated))))
      (nested : ∀ kind name modifiers members span inner,
        .type kind name modifiers members span ∈ body → d.nested? name = some inner →
          Lists (Name.qualified owner name) kind members inner) :
      Lists owner kind body d

/-- A frame lists declarations: its values are the bindings and functions among them and its
types are the types among them, each with a table that lists its body. -/
structure Frame.Lists (frame : Frame) (ds : List (Declaration Expr)) : Prop where
  values : frame.values.names = ds.filterMap Declaration.valueName?
  types : frame.types.names = ds.filterMap Declaration.typeName?
  values_nodup : frame.values.names.Nodup
  types_nodup : frame.types.names.Nodup
  table : ∀ kind name modifiers members span,
    .type kind name modifiers members span ∈ ds →
      ∃ d, frame.types.find? name = some d ∧ d.Lists (frame.qualify name) kind members

/-! ## Members that are not types -/

theorem Members.declare_eq_ok
    {members final : Members Definition} {name : String} {entry : Entry} {static : Bool}
    {span : Span} :
    members.declare name entry static span = .ok final ↔
      name ∉ members.values.names ++ members.statics.names ∧
        final = if static then { members with statics := members.statics.add name entry }
          else { members with values := members.values.add name entry } := by
  rw [declare, List.mem_append, ← Table.contains_iff, ← Table.contains_iff, ← Bool.or_eq_true]
  cases members.values.contains name || members.statics.contains name with
  | true => simp
  | false => cases static <;> simp [eq_comm]

/-- A new member has a name that no member has, of either sort. -/
theorem Members.nodup_of_declare
    {members final : Members Definition} {name : String} {entry : Entry} {static : Bool}
    {span : Span} (hdeclare : members.declare name entry static span = .ok final)
    (h : (members.values.names ++ members.statics.names).Nodup) :
    (final.values.names ++ final.statics.names).Nodup := by
  obtain ⟨hnew, rfl⟩ := declare_eq_ok.1 hdeclare
  have hnodup : (name :: (members.values.names ++ members.statics.names)).Nodup :=
    List.nodup_cons.2 ⟨hnew, h⟩
  cases static with
  | true =>
      rw [if_pos rfl, Table.names_add, ← List.append_assoc]
      exact List.nodup_middle.2 (by rwa [List.append_nil])
  | false =>
      rw [if_neg Bool.false_ne_true, Table.names_add, List.append_assoc]
      exact List.nodup_middle.2 hnodup

namespace Scope

/-- A table under construction lists the declarations that have been read. -/
structure Draft.Lists (owner : String) (kind : TypeKind) (done : List (Declaration Expr))
    (draft : Draft) : Prop where
  values : draft.members.values.names = done.filterMap Declaration.instanceName?
  statics : draft.members.statics.names = done.filterMap Declaration.staticName?
  cases : draft.cases.names = done.filterMap Declaration.caseName?
  nodup : (draft.members.values.names ++ draft.members.statics.names).Nodup
  struct_cases : kind = .struct → draft.cases = []
  static_case : ∀ name associated, draft.cases.find? name = some associated →
    draft.members.statics.find? name = some (.signature (.mono (caseTy (.named owner) associated)))

namespace Draft

variable {owner : String} {kind : TypeKind} {done : List (Declaration Expr)} {draft : Draft}

theorem lists_empty (owner : String) (kind : TypeKind) :
    Draft.Lists owner kind [] ⟨.empty, []⟩ where
  values := rfl
  statics := rfl
  cases := rfl
  nodup := List.nodup_nil
  struct_cases := fun _ => rfl
  static_case := fun _ _ h => by cases h

/-- Adding a member under its declared name. -/
theorem Lists.declare
    (h : draft.Lists owner kind done) {d : Declaration Expr} {name : String} {entry : Entry}
    {span : Span} {members : Members Definition} (hname : d.valueName? = some name)
    (hdeclare : draft.members.declare name entry d.isStatic span = .ok members) :
    Draft.Lists owner kind (done ++ [d]) { draft with members := members } := by
  have hcase : d.caseName? = none ∧
      d.staticName? = if d.isStatic then some name else none := by
    cases d with
    | binding b => exact ⟨rfl, by rw [← hname]; rfl⟩
    | function f => exact ⟨rfl, by rw [← hname]; rfl⟩
    | type | enumCase | trait => cases hname
  have hnodup := Members.nodup_of_declare hdeclare h.nodup
  obtain ⟨-, rfl⟩ := Members.declare_eq_ok.1 hdeclare
  cases hstatic : d.isStatic with
  | true =>
      refine ⟨?_, ?_, ?_, ?_, h.struct_cases, ?_⟩
      · simp [h.values, Declaration.instanceName?, hstatic]
      · simp [Table.names_add, h.statics, hcase, hstatic]
      · simp [h.cases, hcase]
      · rwa [hstatic] at hnodup
      · intro other associated hfound
        rw [if_pos rfl, Table.find?_add, h.static_case other associated hfound,
          Option.some_or]
  | false =>
      refine ⟨?_, ?_, ?_, ?_, h.struct_cases, ?_⟩
      · simp [Table.names_add, h.values, Declaration.instanceName?, hstatic, hname]
      · simp [h.statics, hcase, hstatic]
      · simp [h.cases, hcase]
      · rwa [hstatic] at hnodup
      · exact h.static_case

/-- Adding a case under its name, to the cases and to the members of the type itself. -/
theorem Lists.draftCase
    {scope : Scope} {name : String} {modifiers : List Modifier} {values : List Expr}
    {span : Span} {final : Draft} (h : draft.Lists owner .enum done)
    (hcase : draftCase scope (.named owner) draft name values span = .ok final) :
    final.Lists owner .enum (done ++ [.enumCase name modifiers values span]) := by
  simp only [Scope.draftCase, except_bind_eq_ok] at hcase
  obtain ⟨associated, -, members, hmembers, hfinal⟩ := hcase
  cases hfinal
  have hnodup := Members.nodup_of_declare hmembers h.nodup
  obtain ⟨hnew, rfl⟩ := Members.declare_eq_ok.1 hmembers
  have hnewStatic : draft.members.statics.contains name = false :=
    Table.contains_eq_false.2 fun hmem => hnew (List.mem_append_right _ hmem)
  have hty : (if associated.isEmpty then .named owner else .arrow associated (.named owner)) =
      caseTy (.named owner) associated := by
    cases associated with
    | nil => rfl
    | cons t ts => rfl
  refine ⟨?_, ?_, ?_, hnodup, fun hkind => TypeKind.noConfusion hkind, ?_⟩
  · simp [h.values, Declaration.instanceName?, Declaration.valueName?]
  · simp [Table.names_add, h.statics, Declaration.staticName?]
  · simp [Table.names_add, h.cases, Declaration.caseName?]
  · intro other found hfound
    rw [Table.find?_add] at hfound
    cases hold : draft.cases.find? other with
    | some old =>
        rw [hold, Option.some_or] at hfound
        cases hfound
        rw [if_pos rfl, Table.find?_add, h.static_case other _ hold, Option.some_or]
    | none =>
        rw [hold, Option.none_or] at hfound
        split at hfound
        · rename_i heq
          cases hfound
          rw [if_pos rfl, ← heq, Table.find?_add_self _ hnewStatic, hty]
        · cases hfound

theorem Lists.draftMember
    {scope : Scope} {d : Declaration Expr} {final : Draft} (h : draft.Lists owner kind done)
    (hdraft : draftMember scope kind (.named owner) draft d = .ok final) :
    final.Lists owner kind (done ++ [d]) := by
  cases d with
  | binding b =>
      simp only [Scope.draftMember, except_bind_eq_ok] at hdraft
      obtain ⟨entry, -, members, hmembers, hfinal⟩ := hdraft
      cases hfinal
      exact h.declare rfl hmembers
  | function f =>
      simp only [Scope.draftMember, except_bind_eq_ok] at hdraft
      obtain ⟨entry, -, members, hmembers, hfinal⟩ := hdraft
      cases hfinal
      exact h.declare rfl hmembers
  | enumCase name modifiers values span =>
      cases kind with
      | struct => cases hdraft
      | enum =>
          simp only [Scope.draftMember] at hdraft
          split at hdraft
          · exact h.draftCase hdraft
          · cases hdraft
  | type | trait =>
      cases hdraft
      refine ⟨?_, ?_, ?_, h.nodup, h.struct_cases, h.static_case⟩
      · simp [h.values, Declaration.instanceName?, Declaration.valueName?]
      · simp [h.statics, Declaration.staticName?, Declaration.valueName?]
      · simp [h.cases, Declaration.caseName?]

theorem Lists.draftMembers
    {scope : Scope} {ds : List (Declaration Expr)} {final : Draft}
    (h : draft.Lists owner kind done)
    (hdraft : draftMembers scope kind (.named owner) draft ds = .ok final) :
    final.Lists owner kind (done ++ ds) := by
  induction ds generalizing draft done with
  | nil =>
      cases hdraft
      rwa [List.append_nil]
  | cons d ds ih =>
      simp only [Scope.draftMembers, except_bind_eq_ok] at hdraft
      obtain ⟨next, hnext, hrest⟩ := hdraft
      rw [List.append_cons]
      exact ih (h.draftMember hnext) hrest

/-- The finished table lists the body when the frame of the body lists its types. -/
theorem Lists.finish
    {body : List (Declaration Expr)} {frame : Frame} (h : draft.Lists owner kind body)
    (hqualifier : frame.qualifier = some owner)
    (hframe : frame.Lists (body.filter Declaration.isType)) :
    (draft.finish kind frame.types).Lists owner kind body := by
  have hmembers : (draft.finish kind frame.types).members =
      { draft.members with types := frame.types } := by
    cases kind with
    | struct | enum => rfl
  have hcases : (draft.finish kind frame.types).cases = draft.cases := by
    cases kind with
    | struct => exact (h.struct_cases rfl).symm
    | enum => rfl
  have hkind : (draft.finish kind frame.types).kind = kind := by
    cases kind with
    | struct | enum => rfl
  refine ⟨hkind, ?_, ?_, ?_, ?_, ?_, ?_, ?_, ?_⟩
  · rw [hmembers, h.values]
  · rw [hmembers, h.statics]
  · rw [hmembers, hframe.types, Declaration.filterMap_typeName?_filter]
  · rw [hcases, h.cases]
  · rw [hmembers]
    exact h.nodup
  · rw [hmembers]
    exact hframe.types_nodup
  · intro name associated hfound
    rw [Definition.case?_eq, hcases] at hfound
    rw [Definition.static?, hmembers]
    exact h.static_case name associated hfound
  · intro kind' name modifiers members span inner hmem hfound
    obtain ⟨d, hd, hlists⟩ := hframe.table kind' name modifiers members span
      (List.mem_filter.2 ⟨hmem, rfl⟩)
    rw [Definition.nested?, hmembers] at hfound
    obtain rfl := Option.some.inj (hd.symm.trans hfound)
    rwa [Frame.qualify, hqualifier] at hlists

end Draft

/-! ## Frames -/

/-- A declared type is in the frame with the table of its body. -/
theorem insert_type_adds
    {scope final : Scope} {kind : TypeKind} {name : String} {modifiers : List Modifier}
    {members : List (Declaration Expr)} {span : Span}
    (h : insert (.type kind name modifiers members span) scope = .ok () final) :
    ∃ body draft, scope.frame.types.contains name = false ∧
      insertTypes members ((scope.announce kind name).enter (some (scope.qualify name))) =
        .ok () body ∧
      draftMembers body kind (.named (scope.qualify name)) ⟨.empty, []⟩ members = .ok draft ∧
      final = { scope with frame := { scope.frame with
        types := scope.frame.types.add name (draft.finish kind body.frame.types) } } := by
  obtain ⟨middle, d, hfree, rfl, hdefine, rfl⟩ := insert_type_eq_ok.1 h
  obtain ⟨body, draft, hbody, hdraft, rfl⟩ := define_eq_ok.1 hdefine
  refine ⟨body, draft, hfree, hbody, hdraft, ?_⟩
  simp only [Table.set_add_self _ _ hfree]

end Scope

namespace Frame

open Scope

theorem lists_nil (qualifier : Option String) :
    Frame.Lists ⟨qualifier, [], []⟩ [] where
  values := rfl
  types := rfl
  values_nodup := List.nodup_nil
  types_nodup := List.nodup_nil
  table := fun _ _ _ _ _ h => absurd h List.not_mem_nil

variable {frame : Frame} {done : List (Declaration Expr)} {d : Declaration Expr}

/-- Adding a value under its declared name. -/
theorem Lists.addValue
    (h : frame.Lists done) {name : String} (entry : Entry) (hname : d.valueName? = some name)
    (hnew : frame.values.contains name = false) :
    Frame.Lists { frame with values := frame.values.add name entry } (done ++ [d]) := by
  have htype : d.typeName? = none := by
    cases d with
    | binding | function => rfl
    | type | enumCase | trait => cases hname
  refine ⟨?_, ?_, ?_, h.types_nodup, ?_⟩
  · simp [Table.names_add, h.values, hname]
  · simp [h.types, htype]
  · exact Table.nodup_names_add _ h.values_nodup (Table.contains_eq_false.1 hnew)
  · intro kind name modifiers members span hmem
    rcases List.mem_append.1 hmem with hmem | hmem
    · exact h.table kind name modifiers members span hmem
    · obtain rfl := List.mem_singleton.1 hmem
      cases hname

/-- Adding the table of a declared type. -/
theorem Lists.addType
    (h : frame.Lists done) {kind : TypeKind} {name : String} {modifiers : List Modifier}
    {members : List (Declaration Expr)} {span : Span} {table : Definition}
    (hnew : frame.types.contains name = false)
    (htable : table.Lists (frame.qualify name) kind members) :
    Frame.Lists { frame with types := frame.types.add name table }
      (done ++ [.type kind name modifiers members span]) := by
  refine ⟨?_, ?_, h.values_nodup, ?_, ?_⟩
  · simp [h.values, Declaration.valueName?]
  · simp [Table.names_add, h.types, Declaration.typeName?]
  · exact Table.nodup_names_add _ h.types_nodup (Table.contains_eq_false.1 hnew)
  · intro kind' name' modifiers' members' span' hmem
    rcases List.mem_append.1 hmem with hmem | hmem
    · obtain ⟨d, hfound, hlists⟩ := h.table kind' name' modifiers' members' span' hmem
      exact ⟨d, by rw [Table.find?_add, hfound, Option.some_or], hlists⟩
    · cases List.mem_singleton.1 hmem
      exact ⟨table, Table.find?_add_self _ hnew, htable⟩

mutual

theorem Lists.insert :
    ∀ (d : Declaration Expr) {done : List (Declaration Expr)} {scope final : Scope},
      scope.frame.Lists done → insert d scope = .ok () final →
        final.frame.Lists (done ++ [d])
  | .binding b, done, scope, final, h, hinsert => by
      obtain ⟨entry, -, hnew, rfl⟩ := insert_binding_eq_ok.1 hinsert
      exact h.addValue entry rfl hnew
  | .function f, done, scope, final, h, hinsert => by
      obtain ⟨entry, -, hnew, rfl⟩ := insert_function_eq_ok.1 hinsert
      exact h.addValue entry rfl hnew
  | .type kind name modifiers members span, done, scope, final, h, hinsert => by
      obtain ⟨body, draft, hnew, hbody, hdraft, rfl⟩ := insert_type_adds hinsert
      -- the body starts in a frame of its own, which lists nothing yet
      have hframe := Lists.insertTypes members (lists_nil _) hbody
      have hlists := (Draft.lists_empty (scope.qualify name) kind).draftMembers hdraft
      have hqualifier := (samePlace_of_insertTypes hbody).qualifier
      exact h.addType hnew (hlists.finish hqualifier hframe)
  | .enumCase name modifiers values span, done, scope, final, h, hinsert => by
      exact absurd hinsert insert_enumCase_ne_ok
  | .trait name modifiers span, done, scope, final, h, hinsert => by
      simp only [Scope.insert, pure_eq_ok] at hinsert
      rw [hinsert.2]
      refine ⟨?_, ?_, h.values_nodup, h.types_nodup, ?_⟩
      · simp [h.values, Declaration.valueName?]
      · simp [h.types, Declaration.typeName?]
      · intro kind name modifiers members span hmem
        rcases List.mem_append.1 hmem with hmem | hmem
        · exact h.table kind name modifiers members span hmem
        · cases List.mem_singleton.1 hmem

theorem Lists.insertTypes :
    ∀ (ds : List (Declaration Expr)) {done : List (Declaration Expr)} {scope final : Scope},
      scope.frame.Lists done → insertTypes ds scope = .ok () final →
        final.frame.Lists (done ++ ds.filter Declaration.isType)
  | [], done, scope, final, h, hinsert => by
      simp only [Scope.insertTypes, pure_eq_ok] at hinsert
      rw [hinsert.2, List.filter_nil, List.append_nil]
      exact h
  | d :: ds, done, scope, final, h, hinsert => by
      rcases insertTypes_cons_eq_ok.1 hinsert with ⟨htype, middle, hd, hrest⟩ | ⟨htype, hrest⟩
      · rw [List.filter_cons_of_pos htype, List.append_cons]
        exact Lists.insertTypes ds (Lists.insert d h hd) hrest
      · rw [List.filter_cons_of_neg (by simp [htype])]
        exact Lists.insertTypes ds h hrest

end

theorem Lists.insertAll
    {ds : List (Declaration Expr)} {scope final : Scope} (h : scope.frame.Lists done)
    (hinsert : insertAll ds scope = .ok () final) :
    final.frame.Lists (done ++ ds) := by
  induction ds generalizing scope done with
  | nil =>
      simp only [Scope.insertAll, pure_eq_ok] at hinsert
      rw [hinsert.2, List.append_nil]
      exact h
  | cons d ds ih =>
      simp only [Scope.insertAll, bind_eq_ok] at hinsert
      obtain ⟨⟨⟩, middle, hd, hrest⟩ := hinsert
      rw [List.append_cons]
      exact ih (Lists.insert d h hd) hrest

end Frame

namespace Scope

/-- The tables of a module list exactly what was declared, at every depth, and no scheme in them
has a free variable. -/
theorem build_lists
    {options : Options} {ds : List (Declaration Expr)} {scope : Scope}
    (h : build options ds = .ok scope) :
    scope.frame.qualifier = none ∧ scope.outer = [.prelude] ∧ scope.frame.Lists ds ∧
      scope.Closed := by
  obtain ⟨hqualifier, houter⟩ := build_frames h
  have hlists := (Frame.lists_nil none).insertAll (build_eq_ok.1 h)
  exact ⟨hqualifier, houter, hlists, build_closed h⟩

def counterStep {ε : Type} : Declaration ε :=
  .type .enum "Step" []
    [.enumCase "one" [] [] default, .enumCase "many" [] [.ident "Int32" default] default] default

def counterStart {ε : Type} (value : ε) : Binding Expr ε :=
  ⟨"start", [.static], some (.ident "Int32" default), some value, default⟩

def counterNext {ε : Type} (body : ε) : Function ε :=
  ⟨"next", [], [⟨none, "step", .ident "Step" default, default⟩],
    some (.ident "Int32" default), some body, default⟩

/-- A struct with a field, an enum, a static value and a function that is not static. -/
def counter {ε : Type} (value body : ε) : List (Declaration ε) :=
  [.type .struct "Counter" []
    [.binding ⟨"count", [], some (.ident "Int32" default), none, default⟩, counterStep,
      .binding (counterStart value), .function (counterNext body)] default]

/-- A body that reads the field. -/
def readCount : Expr :=
  .block [.expr (.member (.ident "self" default) (.named "count") default)] default

def counterModule : List (Declaration Expr) :=
  counter (.literal (.int 0) default) readCount

def stepTable : Definition :=
  .enum ⟨[], [("one", .signature (.mono (.named "Counter.Step"))),
      ("many", .signature (.mono (.arrow [.int] (.named "Counter.Step"))))], []⟩
    [("one", []), ("many", [.int])]

def counterTable : Definition :=
  .struct ⟨[("count", .binding none (.mono .int)),
      ("next", .function ["step"] (some readCount)
        (.mono (.arrow [.named "Counter.Step"] .int)))],
    [("start", .binding (some (.literal (.int 0) default)) (.mono .int))],
    [("Step", stepTable)]⟩

def counterScope : Scope :=
  ⟨⟨none, [], [("Counter", counterTable)]⟩, [.prelude], .standard⟩

theorem build_counterModule :
    build .standard counterModule = .ok counterScope := by
  cbv

theorem build_lists_counterModule :
    build .standard counterModule = .ok counterScope ∧
      counterScope.frame.Lists counterModule ∧ counterScope.Closed := by
  obtain ⟨-, -, hlists, hclosed⟩ := build_lists build_counterModule
  exact ⟨build_counterModule, hlists, hclosed⟩

/-- The scope in which the members of the counter are checked. -/
def counterBody : Scope :=
  ⟨⟨some "Counter", [], [("Step", stepTable)]⟩, counterScope.frames, .standard⟩

theorem typeScope_counterScope :
    counterScope.typeScope "Counter" = some counterBody := by
  cbv

end Scope

end Ascribe
