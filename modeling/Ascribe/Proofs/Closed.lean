import Ascribe.Scope.Insert
import Ascribe.Proofs.Generation
import Ascribe.Proofs.Reach

/-!
# Built scopes are closed

An annotation denotes a type without variables, and the type of a value is generalized
before it is recorded.  So no scheme that a declaration records has a free variable, at
the module level or in the table of a type at any depth, and neither has any scheme that
is found in the scope of the body of a type.
-/

namespace Ascribe

theorem except_bind_eq_ok
    {ε α β : Type} {x : Except ε α} {f : α → Except ε β} {b : β} :
    (x >>= f) = .ok b ↔ ∃ a, x = .ok a ∧ f a = .ok b := by
  cases x with
  | ok a => simp [bind, Except.bind]
  | error e => simp [bind, Except.bind]

/-! ## Annotations -/

namespace NormalForm

mutual

theorem vars_of_toTy? : ∀ (form : NormalForm) {t : Ty}, form.toTy? = some t → t.vars = []
  | .tycon name args, t, h => by
      rw [toTy?, Option.map_eq_some_iff] at h
      obtain ⟨ts, hts, rfl⟩ := h
      exact varsAll_of_toTys? args hts
  | .arrow params result, t, h => by
      rw [toTy?] at h
      split at h
      · rename_i ts u hts hu
        cases h
        rw [Ty.vars, varsAll_of_toTys? params hts, vars_of_toTy? result hu]
        rfl
      · cases h
  | .tuple elems, t, h => by
      rw [toTy?, Option.map_eq_some_iff] at h
      obtain ⟨ts, hts, rfl⟩ := h
      exact varsAll_of_toTys? elems hts
  | .closure .., _, h | .literal .., _, h | .cond .., _, h | .structLit .., _, h
  | .ident .., _, h | .app .., _, h | .member .., _, h => by
      simp [toTy?] at h

theorem varsAll_of_toTys? :
    ∀ (forms : List NormalForm) {ts : List Ty}, toTys? forms = some ts → Ty.varsAll ts = []
  | [], ts, h => by
      cases h
      rfl
  | form :: forms, ts, h => by
      rw [toTys?] at h
      split at h
      · rename_i t us ht hus
        cases h
        rw [Ty.varsAll, vars_of_toTy? form ht, varsAll_of_toTys? forms hus]
        rfl
      · cases h

end

end NormalForm

namespace Scope

/-- An annotation denotes a type without variables. -/
theorem annotationTy_vars
    {scope : Scope} {a : Expr} {t : Ty} (h : scope.annotationTy a = .ok t) :
    t.vars = [] := by
  rw [annotationTy, except_bind_eq_ok] at h
  obtain ⟨form, -, h⟩ := h
  split at h
  · rename_i u hu
    cases h
    exact form.vars_of_toTy? hu
  · cases h

theorem annotationTys_vars
    {scope : Scope} {as : List Expr} {ts : List Ty} (h : scope.annotationTys as = .ok ts) :
    Ty.varsAll ts = [] := by
  induction as generalizing ts with
  | nil =>
      cases h
      rfl
  | cons a as ih =>
      simp only [annotationTys, except_bind_eq_ok] at h
      obtain ⟨t, ht, us, hus, h⟩ := h
      cases h
      rw [Ty.varsAll, annotationTy_vars ht, ih hus]
      rfl

theorem resultTy_vars
    {scope : Scope} {f : Function Expr} {t : Ty} (h : scope.resultTy f = .ok t) :
    t.vars = [] := by
  unfold resultTy at h
  split at h
  · exact annotationTy_vars h
  · cases h
    rfl

end Scope

/-! ## Closed tables -/

/-- No scheme in the table of a type has a free variable, at any depth. -/
inductive Definition.Closed : Definition → Prop where
  | mk {d : Definition}
      (values : ∀ p ∈ d.members.values, p.2.scheme.Closed)
      (statics : ∀ p ∈ d.members.statics, p.2.scheme.Closed)
      (types : ∀ p ∈ d.members.types, p.2.Closed) :
      d.Closed

/-- No scheme of a frame has a free variable. -/
structure Frame.Closed (frame : Frame) : Prop where
  values : ∀ p ∈ frame.values, p.2.scheme.Closed
  types : ∀ p ∈ frame.types, p.2.Closed

/-- No scheme of a scope has a free variable. -/
def Scope.Closed (scope : Scope) : Prop :=
  ∀ frame ∈ scope.frames, frame.Closed

theorem Definition.closed_empty (kind : TypeKind) :
    (empty kind).Closed := by
  cases kind with
  | struct | enum => exact ⟨by simp [empty, members], by simp [empty, members],
      by simp [empty, members]⟩

theorem Definition.Closed.value?
    {d : Definition} (h : d.Closed) {name : String} {entry : Entry}
    (found : d.value? name = some entry) :
    entry.scheme.Closed := by
  cases h with
  | mk values statics types => exact values _ (Table.mem_of_find? found)

theorem Definition.Closed.static?
    {d : Definition} (h : d.Closed) {name : String} {entry : Entry}
    (found : d.static? name = some entry) :
    entry.scheme.Closed := by
  cases h with
  | mk values statics types => exact statics _ (Table.mem_of_find? found)

namespace Scope

theorem Closed.lookup
    {scope : Scope} (h : scope.Closed) {name : String} {entry : Entry}
    (found : scope.lookup name = some entry) :
    entry.scheme.Closed := by
  obtain ⟨frame, hframe, hfind⟩ := List.exists_of_findSome?_eq_some found
  exact (h frame hframe).values _ (Table.mem_of_find? hfind)

theorem Closed.resolveType
    {scope : Scope} (h : scope.Closed) {name owner : String} {d : Definition}
    (found : scope.resolveType name = some (owner, d)) :
    d.Closed := by
  refine forall_of_resolveType (P := Definition.Closed) ?_ ?_ found
  · intro d inner name hd hnested
    cases hd with
    | mk values statics types => exact types _ (Table.mem_of_find? hnested)
  · intro frame hframe
    exact (h frame hframe).types

theorem Closed.lookupType
    {scope : Scope} (h : scope.Closed) {name : String} {d : Definition}
    (found : scope.lookupType name = some d) :
    d.Closed := by
  obtain ⟨⟨owner, d'⟩, hresolve, rfl⟩ := Option.map_eq_some_iff.1 found
  exact h.resolveType hresolve

theorem Closed.instanceMember
    {scope : Scope} (h : scope.Closed) {owner : Ty} {name : String} {selector : Selector}
    {span : Span} {scheme : Scheme}
    (found : scope.instanceMember owner name selector span = .ok scheme) :
    scheme.Closed := by
  obtain ⟨d, member, entry, hd, -, hentry, rfl⟩ := memberOf_eq_ok.1 found
  exact (h.lookupType hd).value? hentry

theorem Closed.staticMember
    {scope : Scope} (h : scope.Closed) {owner : Ty} {name : String} {selector : Selector}
    {span : Span} {scheme : Scheme}
    (found : scope.staticMember owner name selector span = .ok scheme) :
    scheme.Closed := by
  obtain ⟨d, member, entry, hd, -, hentry, rfl⟩ := memberOf_eq_ok.1 found
  exact (h.lookupType hd).static? hentry

theorem Closed.membersBelow {scope : Scope} (h : scope.Closed) (n : Nat) :
    scope.MembersBelow n := by
  intro owner name selector span scheme found
  exact (h.instanceMember found).freeVars_lt n

theorem Closed.typeScope
    {scope inner : Scope} (h : scope.Closed) {name : String}
    (found : scope.typeScope name = some inner) :
    inner.Closed := by
  obtain ⟨⟨owner, d⟩, hresolve, rfl⟩ := Option.map_eq_some_iff.1 found
  have hd := h.resolveType hresolve
  intro frame hframe
  rcases List.mem_cons.1 hframe with rfl | hframe
  · refine ⟨fun p hp => absurd hp List.not_mem_nil, ?_⟩
    cases hd with
    | mk values statics types => exact types
  · exact h frame hframe

/-! ## Declaring keeps a scope closed -/

theorem bindingEntry_closed
    {scope : Scope} {b : Binding Expr Expr} {entry : Entry}
    (h : scope.bindingEntry b = .ok entry) :
    entry.scheme.Closed := by
  unfold bindingEntry at h
  split at h
  · rw [except_bind_eq_ok] at h
    obtain ⟨t, ht, h⟩ := h
    cases h
    exact Scheme.closed_mono (annotationTy_vars ht)
  · rw [except_bind_eq_ok] at h
    obtain ⟨typed, -, h⟩ := h
    cases h
    exact Scheme.closed_generalize typed.ty
  · cases h

theorem functionEntry_closed
    {scope : Scope} {f : Function Expr} {entry : Entry}
    (h : scope.functionEntry f = .ok entry) :
    entry.scheme.Closed := by
  simp only [functionEntry, except_bind_eq_ok] at h
  obtain ⟨params, hparams, result, hresult, h⟩ := h
  cases h
  refine Scheme.closed_mono ?_
  rw [Ty.vars, annotationTys_vars hparams, resultTy_vars hresult]
  rfl

/-- No scheme of a table under construction has a free variable. -/
structure Draft.Closed (draft : Draft) : Prop where
  values : ∀ p ∈ draft.members.values, p.2.scheme.Closed
  statics : ∀ p ∈ draft.members.statics, p.2.scheme.Closed

private theorem forall_mem_add
    {α : Type} {table : Table α} {name : String} {value : α} {P : α → Prop}
    (h : ∀ p ∈ table, P p.2) (hvalue : P value) :
    ∀ p ∈ table.add name value, P p.2 := by
  intro p hp
  rcases List.mem_append.1 hp with hp | hp
  · exact h p hp
  · obtain rfl := List.mem_singleton.1 hp
    exact hvalue

private theorem forall_mem_set
    {α : Type} {table : Table α} {name : String} {value : α} {P : α → Prop}
    (h : ∀ p ∈ table, P p.2) (hvalue : P value) :
    ∀ p ∈ table.set name value, P p.2 := by
  induction table with
  | nil => exact h
  | cons entry rest ih =>
      obtain ⟨key, old⟩ := entry
      rw [List.forall_mem_cons] at h
      rw [Table.set]
      split
      · rw [List.forall_mem_cons]
        exact ⟨hvalue, h.2⟩
      · rw [List.forall_mem_cons]
        exact ⟨h.1, ih h.2⟩

theorem Draft.Closed.declare
    {draft : Draft} (h : draft.Closed) {members : Members Definition} {name : String}
    {entry : Entry} {static : Bool} {span : Span}
    (hdeclare : draft.members.declare name entry static span = .ok members)
    (hentry : entry.scheme.Closed) (cases : Table (List Ty)) :
    Draft.Closed ⟨members, cases⟩ := by
  unfold Members.declare at hdeclare
  split at hdeclare
  · cases hdeclare
  · split at hdeclare
    · cases hdeclare
      exact ⟨h.values, forall_mem_add (P := fun e : Entry => e.scheme.Closed) h.statics hentry⟩
    · cases hdeclare
      exact ⟨forall_mem_add (P := fun e : Entry => e.scheme.Closed) h.values hentry, h.statics⟩

theorem Draft.Closed.draftMember
    {scope : Scope} {kind : TypeKind} {self : Ty} {draft final : Draft}
    {d : Declaration Expr} (h : draft.Closed) (hself : self.vars = [])
    (hdraft : draftMember scope kind self draft d = .ok final) :
    final.Closed := by
  cases d with
  | binding b =>
      simp only [Scope.draftMember, except_bind_eq_ok] at hdraft
      obtain ⟨entry, hentry, members, hmembers, hdraft⟩ := hdraft
      cases hdraft
      exact h.declare hmembers (bindingEntry_closed hentry) _
  | function f =>
      simp only [Scope.draftMember, except_bind_eq_ok] at hdraft
      obtain ⟨entry, hentry, members, hmembers, hdraft⟩ := hdraft
      cases hdraft
      exact h.declare hmembers (functionEntry_closed hentry) _
  | enumCase name modifiers values span =>
      cases kind with
      | struct => cases hdraft
      | enum =>
          simp only [Scope.draftMember] at hdraft
          split at hdraft
          · simp only [draftCase, except_bind_eq_ok] at hdraft
            obtain ⟨associated, hassociated, members, hmembers, hdraft⟩ := hdraft
            cases hdraft
            refine h.declare hmembers (Scheme.closed_mono ?_) _
            split
            · exact hself
            · rw [Ty.vars, annotationTys_vars hassociated, hself]
              rfl
          · cases hdraft
  | type | trait =>
      cases hdraft
      exact h

theorem Draft.Closed.draftMembers
    {scope : Scope} {kind : TypeKind} {self : Ty} {draft final : Draft}
    {ds : List (Declaration Expr)} (h : draft.Closed) (hself : self.vars = [])
    (hdraft : draftMembers scope kind self draft ds = .ok final) :
    final.Closed := by
  induction ds generalizing draft with
  | nil =>
      cases hdraft
      exact h
  | cons d ds ih =>
      simp only [Scope.draftMembers, except_bind_eq_ok] at hdraft
      obtain ⟨next, hnext, hrest⟩ := hdraft
      exact ih (h.draftMember hself hnext) hrest

theorem Draft.Closed.finish
    {draft : Draft} (h : draft.Closed) (kind : TypeKind) {types : Table Definition}
    (htypes : ∀ p ∈ types, p.2.Closed) :
    (draft.finish kind types).Closed := by
  cases kind with
  | struct => exact ⟨h.values, h.statics, htypes⟩
  | enum => exact ⟨h.values, h.statics, htypes⟩

/-- The types of a body are declared first, and in the scope that they leave the other members
are read. -/
theorem define_eq_ok
    {scope : Scope} {kind : TypeKind} {name : String} {members : List (Declaration Expr)}
    {declareTypes : Declare Unit} {d : Definition} :
    scope.define kind name members declareTypes = .ok d ↔
      ∃ body draft, declareTypes (scope.enter (some (scope.qualify name))) = .ok () body ∧
        draftMembers body kind (.named (scope.qualify name)) ⟨.empty, []⟩ members = .ok draft ∧
        d = draft.finish kind body.frame.types := by
  simp only [define]
  cases declareTypes (scope.enter (some (scope.qualify name))) with
  | error e final => simp
  | ok u body =>
      simp only [except_bind_eq_ok]
      constructor
      · rintro ⟨draft, hdraft, h⟩
        cases h
        exact ⟨body, draft, rfl, hdraft, rfl⟩
      · rintro ⟨body', draft, hbody, hdraft, rfl⟩
        cases hbody
        exact ⟨draft, hdraft, rfl⟩

/-- The table of a type is closed when declaring the types of its body keeps scopes
closed. -/
theorem Closed.define
    {scope : Scope} (h : scope.Closed) {kind : TypeKind} {name : String}
    {members : List (Declaration Expr)} {declareTypes : Declare Unit} {d : Definition}
    (hkeep : ∀ {before after : Scope}, before.Closed →
      declareTypes before = .ok () after → after.Closed)
    (hdefine : scope.define kind name members declareTypes = .ok d) :
    d.Closed := by
  obtain ⟨body, draft, hbody, hdraft, rfl⟩ := define_eq_ok.1 hdefine
  have hentered : (scope.enter (some (scope.qualify name))).Closed := by
    intro frame hframe
    rcases List.mem_cons.1 hframe with rfl | hframe
    · exact ⟨fun p hp => absurd hp List.not_mem_nil, fun p hp => absurd hp List.not_mem_nil⟩
    · exact h frame hframe
  have hbodyClosed := hkeep hentered hbody
  have hstart : Draft.Closed ⟨.empty, []⟩ :=
    ⟨fun p hp => absurd hp List.not_mem_nil, fun p hp => absurd hp List.not_mem_nil⟩
  refine (hstart.draftMembers rfl hdraft).finish kind ?_
  exact (hbodyClosed body.frame List.mem_cons_self).types

theorem addValue_eq_ok
    {scope final : Scope} {name : String} {entry : Entry} {span : Span} {u : Unit} :
    addValue name entry span scope = .ok u final ↔
      scope.frame.values.contains name = false ∧
        final = { scope with frame :=
          { scope.frame with values := scope.frame.values.add name entry } } := by
  unfold addValue Table.declare
  cases scope.frame.values.contains name with
  | true => simp
  | false => simp [eq_comm]

theorem addType_eq_ok
    {scope final : Scope} {name : String} {d : Definition} {span : Span} {u : Unit} :
    addType name d span scope = .ok u final ↔
      scope.frame.types.contains name = false ∧
        final = { scope with frame :=
          { scope.frame with types := scope.frame.types.add name d } } := by
  unfold addType Table.declare
  cases scope.frame.types.contains name with
  | true => simp
  | false => simp [eq_comm]

theorem setType_eq_ok
    {scope final : Scope} {name : String} {d : Definition} {u : Unit} :
    setType name d scope = .ok u final ↔
      final = { scope with frame :=
        { scope.frame with types := scope.frame.types.set name d } } := by
  simp [setType, eq_comm]

theorem asks_eq_ok
    {α : Type} {scope final : Scope} {f : Scope → Except TypeError α} {a : α} :
    asks f scope = .ok a final ↔ f scope = .ok a ∧ final = scope := by
  unfold asks
  cases f scope with
  | ok b => simp [eq_comm]
  | error e => simp

theorem insert_binding_eq_ok
    {scope final : Scope} {b : Binding Expr Expr} {u : Unit} :
    insert (.binding b) scope = .ok u final ↔
      ∃ entry, scope.bindingEntry b = .ok entry ∧
        scope.frame.values.contains b.name = false ∧
        final = { scope with frame :=
          { scope.frame with values := scope.frame.values.add b.name entry } } := by
  simp only [insert, bind_eq_ok, asks_eq_ok, addValue_eq_ok]
  grind

theorem insert_function_eq_ok
    {scope final : Scope} {f : Function Expr} {u : Unit} :
    insert (.function f) scope = .ok u final ↔
      ∃ entry, scope.functionEntry f = .ok entry ∧
        scope.frame.values.contains f.name = false ∧
        final = { scope with frame :=
          { scope.frame with values := scope.frame.values.add f.name entry } } := by
  simp only [insert, bind_eq_ok, asks_eq_ok, addValue_eq_ok]
  grind

theorem insert_enumCase_ne_ok
    {scope final : Scope} {name : String} {modifiers : List Modifier} {values : List Expr}
    {span : Span} {u : Unit} :
    insert (.enumCase name modifiers values span) scope ≠ .ok u final := by
  rw [insert]
  exact throw_ne_ok

/-- A type is in the scope without members while its body is read. -/
theorem insert_type_eq_ok
    {scope final : Scope} {kind : TypeKind} {name : String} {modifiers : List Modifier}
    {members : List (Declaration Expr)} {span : Span} {u : Unit} :
    insert (.type kind name modifiers members span) scope = .ok u final ↔
      ∃ middle d, scope.frame.types.contains name = false ∧
        middle = { scope with frame :=
          { scope.frame with types := scope.frame.types.add name (.empty kind) } } ∧
        middle.define kind name members (insertTypes members) = .ok d ∧
        final = { middle with frame :=
          { middle.frame with types := middle.frame.types.set name d } } := by
  simp only [insert, bind_eq_ok, asks_eq_ok, addType_eq_ok, setType_eq_ok]
  grind

theorem insertTypes_cons_eq_ok
    {scope final : Scope} {d : Declaration Expr} {ds : List (Declaration Expr)} {u : Unit} :
    insertTypes (d :: ds) scope = .ok u final ↔
      (d.isType = true ∧ ∃ middle, insert d scope = .ok () middle ∧
          insertTypes ds middle = .ok u final) ∨
        (d.isType = false ∧ insertTypes ds scope = .ok u final) := by
  rw [insertTypes]
  cases d.isType with
  | true =>
      simp only [if_true, bind_eq_ok, true_and, Bool.true_eq_false, false_and, or_false]
      constructor
      · rintro ⟨⟨⟩, middle, hinsert, hrest⟩
        exact ⟨middle, hinsert, hrest⟩
      · rintro ⟨middle, hinsert, hrest⟩
        exact ⟨(), middle, hinsert, hrest⟩
  | false => simp

theorem Closed.withFrame
    {scope : Scope} (h : scope.Closed) {frame : Frame} (hframe : frame.Closed) :
    Closed { scope with frame := frame } := by
  intro frame' hmem
  rcases List.mem_cons.1 hmem with rfl | hmem
  · exact hframe
  · exact h frame' (List.mem_cons_of_mem _ hmem)

mutual

theorem Closed.insert :
    ∀ (d : Declaration Expr) {scope final : Scope}, scope.Closed →
      insert d scope = .ok () final → final.Closed
  | .binding b, scope, final, h, hinsert => by
      obtain ⟨entry, hentry, -, rfl⟩ := insert_binding_eq_ok.1 hinsert
      have hframe := h scope.frame List.mem_cons_self
      exact h.withFrame ⟨forall_mem_add (P := fun e : Entry => e.scheme.Closed)
        hframe.values (bindingEntry_closed hentry), hframe.types⟩
  | .function f, scope, final, h, hinsert => by
      obtain ⟨entry, hentry, -, rfl⟩ := insert_function_eq_ok.1 hinsert
      have hframe := h scope.frame List.mem_cons_self
      exact h.withFrame ⟨forall_mem_add (P := fun e : Entry => e.scheme.Closed)
        hframe.values (functionEntry_closed hentry), hframe.types⟩
  | .type kind name modifiers members span, scope, final, h, hinsert => by
      obtain ⟨middle, d, -, hmiddle, hdefine, rfl⟩ := insert_type_eq_ok.1 hinsert
      have hframe := h scope.frame List.mem_cons_self
      have htypes : ∀ p ∈ scope.frame.types.add name (.empty kind), p.2.Closed :=
        forall_mem_add (P := Definition.Closed) hframe.types (Definition.closed_empty kind)
      have hclosed : middle.Closed := by
        rw [hmiddle]
        exact h.withFrame ⟨hframe.values, htypes⟩
      have hd : d.Closed := hclosed.define (Closed.insertTypes members) hdefine
      have hframe' := hclosed middle.frame List.mem_cons_self
      exact hclosed.withFrame ⟨hframe'.values,
        forall_mem_set (P := Definition.Closed) hframe'.types hd⟩
  | .enumCase name modifiers values span, scope, final, h, hinsert => by
      exact absurd hinsert insert_enumCase_ne_ok
  | .trait name modifiers span, scope, final, h, hinsert => by
      simp only [Scope.insert, pure_eq_ok] at hinsert
      rw [hinsert.2]
      exact h

theorem Closed.insertTypes :
    ∀ (ds : List (Declaration Expr)) {scope final : Scope}, scope.Closed →
      insertTypes ds scope = .ok () final → final.Closed
  | [], scope, final, h, hinsert => by
      simp only [Scope.insertTypes, pure_eq_ok] at hinsert
      rw [hinsert.2]
      exact h
  | d :: ds, scope, final, h, hinsert => by
      rcases insertTypes_cons_eq_ok.1 hinsert with ⟨-, middle, hd, hrest⟩ | ⟨-, hrest⟩
      · exact Closed.insertTypes ds (Closed.insert d h hd) hrest
      · exact Closed.insertTypes ds h hrest

end

theorem Closed.insertAll
    {ds : List (Declaration Expr)} {scope final : Scope} (h : scope.Closed)
    (hinsert : insertAll ds scope = .ok () final) :
    final.Closed := by
  induction ds generalizing scope with
  | nil =>
      simp only [Scope.insertAll, pure_eq_ok] at hinsert
      rw [hinsert.2]
      exact h
  | cons d ds ih =>
      simp only [Scope.insertAll, bind_eq_ok] at hinsert
      obtain ⟨⟨⟩, middle, hd, hrest⟩ := hinsert
      exact ih (h.insert d hd) hrest

theorem closed_empty (options : Options) :
    (empty options).Closed := by
  intro frame hframe
  rcases List.mem_cons.1 hframe with rfl | hframe
  · exact ⟨fun p hp => absurd hp List.not_mem_nil, fun p hp => absurd hp List.not_mem_nil⟩
  · obtain rfl := List.mem_singleton.1 hframe
    refine ⟨fun p hp => absurd hp List.not_mem_nil, ?_⟩
    intro p hp
    obtain ⟨name, -, rfl⟩ := List.mem_map.1 hp
    exact Definition.closed_empty .struct

theorem build_eq_ok {options : Options} {ds : List (Declaration Expr)} {scope : Scope} :
    build options ds = .ok scope ↔ insertAll ds (.empty options) = .ok () scope := by
  unfold build
  split
  · rename_i final h
    rw [h, Except.ok.injEq, EStateM.Result.ok.injEq]
    simp
  · rename_i e final h
    rw [h]
    simp

/-- The scope of a module has no scheme with a free variable. -/
theorem build_closed
    {options : Options} {ds : List (Declaration Expr)} {scope : Scope}
    (h : build options ds = .ok scope) :
    scope.Closed :=
  (closed_empty options).insertAll (build_eq_ok.1 h)

/-! ## The scopes of a module -/

/-- Two scopes are the same but for the tables of their innermost frames. -/
structure SamePlace (scope final : Scope) : Prop where
  qualifier : final.frame.qualifier = scope.frame.qualifier
  outer : final.outer = scope.outer
  options : final.options = scope.options

theorem SamePlace.refl (scope : Scope) : SamePlace scope scope :=
  ⟨rfl, rfl, rfl⟩

theorem SamePlace.trans
    {first middle last : Scope} (h : SamePlace first middle) (h' : SamePlace middle last) :
    SamePlace first last :=
  ⟨h'.qualifier.trans h.qualifier, h'.outer.trans h.outer, h'.options.trans h.options⟩

/-- Declaring changes nothing but the tables of the innermost frame. -/
theorem samePlace_of_insert
    {d : Declaration Expr} {scope final : Scope} (h : insert d scope = .ok () final) :
    SamePlace scope final := by
  cases d with
  | binding b =>
      obtain ⟨entry, -, -, rfl⟩ := insert_binding_eq_ok.1 h
      exact ⟨rfl, rfl, rfl⟩
  | function f =>
      obtain ⟨entry, -, -, rfl⟩ := insert_function_eq_ok.1 h
      exact ⟨rfl, rfl, rfl⟩
  | type kind name modifiers members span =>
      obtain ⟨middle, d, -, rfl, -, rfl⟩ := insert_type_eq_ok.1 h
      exact ⟨rfl, rfl, rfl⟩
  | enumCase name modifiers values span =>
      exact absurd h insert_enumCase_ne_ok
  | trait name modifiers span =>
      simp only [insert, pure_eq_ok] at h
      rw [h.2]
      exact .refl scope

theorem samePlace_of_insertTypes
    {ds : List (Declaration Expr)} {scope final : Scope}
    (h : insertTypes ds scope = .ok () final) :
    SamePlace scope final := by
  induction ds generalizing scope with
  | nil =>
      simp only [insertTypes, pure_eq_ok] at h
      rw [h.2]
      exact .refl scope
  | cons d ds ih =>
      rcases insertTypes_cons_eq_ok.1 h with ⟨-, middle, hd, hrest⟩ | ⟨-, hrest⟩
      · exact (samePlace_of_insert hd).trans (ih hrest)
      · exact ih hrest

theorem samePlace_of_insertAll
    {ds : List (Declaration Expr)} {scope final : Scope}
    (h : insertAll ds scope = .ok () final) :
    SamePlace scope final := by
  induction ds generalizing scope with
  | nil =>
      simp only [insertAll, pure_eq_ok] at h
      rw [h.2]
      exact .refl scope
  | cons d ds ih =>
      simp only [insertAll, bind_eq_ok] at h
      obtain ⟨⟨⟩, middle, hd, hrest⟩ := h
      exact (samePlace_of_insert hd).trans (ih hrest)

/-- A module has one frame of its own, around which there is the prelude. -/
theorem build_frames
    {options : Options} {ds : List (Declaration Expr)} {scope : Scope}
    (h : build options ds = .ok scope) :
    scope.frame.qualifier = none ∧ scope.outer = [.prelude] := by
  have hplace := samePlace_of_insertAll (build_eq_ok.1 h)
  exact ⟨hplace.qualifier, hplace.outer⟩

/-- The scope of a module or of the body of a type in it. -/
inductive InModule (options : Options) : Scope → Prop where
  | build {ds : List (Declaration Expr)} {scope : Scope}
      (built : build options ds = .ok scope) :
      InModule options scope
  | body {scope inner : Scope} {name : String}
      (around : InModule options scope) (entered : scope.typeScope name = some inner) :
      InModule options inner

theorem InModule.closed
    {options : Options} {scope : Scope} (h : InModule options scope) :
    scope.Closed := by
  induction h with
  | build built => exact build_closed built
  | body around entered ih => exact ih.typeScope entered

theorem InModule.options_eq
    {options : Options} {scope : Scope} (h : InModule options scope) :
    scope.options = options := by
  induction h with
  | build built => exact (samePlace_of_insertAll (build_eq_ok.1 built)).options
  | body around entered ih =>
      obtain ⟨found, -, rfl⟩ := Option.map_eq_some_iff.1 entered
      exact ih

end Scope

end Ascribe
