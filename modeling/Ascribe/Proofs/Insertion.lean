import Ascribe.Proofs.Closed

/-!
# What a failed declaration leaves behind

A declaration that fails leaves the scope as it was, with one exception.  A type is announced
without members before its body is read, and when the body fails the announcement is not
taken back.  So a failed type declaration leaves an empty type in the innermost frame, unless
it failed because the name was taken, and the type cannot be declared again.

Nothing else of the body is left, at whatever depth it failed: the body is read in frames of
its own, which are dropped.
-/

namespace Ascribe

/-! ## Failing steps -/

theorem bind_eq_error
    {ε σ α β : Type} {x : EStateM ε σ α} {f : α → EStateM ε σ β} {state final : σ} {e : ε} :
    (x >>= f) state = .error e final ↔
      x state = .error e final ∨
        ∃ a middle, x state = .ok a middle ∧ f a middle = .error e final := by
  simp only [bind, EStateM.bind]
  cases x state with
  | ok a middle =>
      constructor
      · intro h
        exact .inr ⟨a, middle, rfl, h⟩
      · rintro (h | ⟨a', middle', h, h'⟩)
        · cases h
        · cases h
          exact h'
  | error e' middle => simp

namespace Scope

variable {scope final : Scope} {e : TypeError}

theorem asks_eq_error {α : Type} {f : Scope → Except TypeError α} :
    asks f scope = .error e final ↔ f scope = .error e ∧ final = scope := by
  unfold asks
  cases f scope with
  | ok a => simp
  | error e' => simp [eq_comm]

theorem addValue_eq_error {name : String} {entry : Entry} {span : Span} :
    addValue name entry span scope = .error e final ↔
      scope.frame.values.contains name = true ∧ e = ⟨.redeclaration name, span⟩ ∧
        final = scope := by
  unfold addValue Table.declare
  cases scope.frame.values.contains name with
  | true => simp [eq_comm]
  | false => simp

theorem addType_eq_error {name : String} {d : Definition} {span : Span} :
    addType name d span scope = .error e final ↔
      scope.frame.types.contains name = true ∧ e = ⟨.redeclaration name, span⟩ ∧
        final = scope := by
  unfold addType Table.declare
  cases scope.frame.types.contains name with
  | true => simp [eq_comm]
  | false => simp

theorem setType_ne_error {name : String} {d : Definition} :
    setType name d scope ≠ .error e final := by
  intro h
  cases h

/-! ## Failing declarations -/

/-- What is not a type is declared in one go: the scope is asked first and changed last. -/
theorem eq_of_insert_error
    {d : Declaration Expr} (hd : d.isType = false) (h : insert d scope = .error e final) :
    final = scope := by
  cases d with
  | binding b =>
      simp only [insert, bind_eq_error, asks_eq_error, asks_eq_ok, addValue_eq_error] at h
      obtain ⟨-, rfl⟩ | ⟨entry, middle, ⟨-, rfl⟩, -, -, rfl⟩ := h
      · rfl
      · rfl
  | function f =>
      simp only [insert, bind_eq_error, asks_eq_error, asks_eq_ok, addValue_eq_error] at h
      obtain ⟨-, rfl⟩ | ⟨entry, middle, ⟨-, rfl⟩, -, -, rfl⟩ := h
      · rfl
      · rfl
  | type => cases hd
  | enumCase name modifiers values span =>
      rw [insert] at h
      cases h
      rfl
  | trait name modifiers span =>
      rw [insert] at h
      cases h

/-- The scope in which the body of a type is read: the type is there, without members. -/
def announce (scope : Scope) (kind : TypeKind) (name : String) : Scope :=
  { scope with frame := { scope.frame with types := scope.frame.types.add name (.empty kind) } }

theorem announce_ne (scope : Scope) (kind : TypeKind) (name : String) :
    scope.announce kind name ≠ scope := by
  intro h
  have hlength : (scope.frame.types.add name (.empty kind)).length =
      scope.frame.types.length :=
    congrArg (fun s : Scope => s.frame.types.length) h
  rw [Table.add, List.length_append, List.length_singleton] at hlength
  omega

theorem contains_announce (scope : Scope) (kind : TypeKind) (name : String) :
    (scope.announce kind name).frame.types.contains name = true := by
  rw [Table.contains_iff, announce, Table.add, Table.names, List.map_append]
  exact List.mem_append_right _ List.mem_cons_self

/-- A type declaration fails because its name is taken or, after the type has been announced,
because of its body. -/
theorem insert_type_eq_error
    {kind : TypeKind} {name : String} {modifiers : List Modifier}
    {members : List (Declaration Expr)} {span : Span} :
    insert (.type kind name modifiers members span) scope = .error e final ↔
      (scope.frame.types.contains name = true ∧ e = ⟨.redeclaration name, span⟩ ∧
        final = scope) ∨
      (scope.frame.types.contains name = false ∧ final = scope.announce kind name ∧
        final.define kind name members (insertTypes members) = .error e) := by
  simp only [insert, bind_eq_error, addType_eq_error, addType_eq_ok, asks_eq_error,
    setType_ne_error, and_false, exists_false, or_false]
  refine or_congr_right ?_
  constructor
  · rintro ⟨-, middle, ⟨hname, rfl⟩, hdefine, rfl⟩
    exact ⟨hname, rfl, hdefine⟩
  · rintro ⟨hname, rfl, hdefine⟩
    exact ⟨(), _, ⟨hname, rfl⟩, hdefine, rfl⟩

/-- A type that has been announced cannot be declared again. -/
theorem insert_announce
    {again : Declaration Expr} (hagain : again.isType = true) (scope : Scope)
    (kind : TypeKind) :
    insert again (scope.announce kind again.name) =
      .error ⟨.redeclaration again.name, again.span⟩ (scope.announce kind again.name) := by
  cases again with
  | type other name modifiers members span =>
      exact insert_type_eq_error.2 (.inl ⟨scope.contains_announce kind name, rfl, rfl⟩)
  | binding | function | enumCase | trait => cases hagain

/-- A declaration announces a type when it declares one whose name is not taken. -/
inductive Announces (scope : Scope) : Declaration Expr → TypeKind → String → Prop where
  | type {kind : TypeKind} {name : String} {modifiers : List Modifier}
      {members : List (Declaration Expr)} {span : Span}
      (free : scope.frame.types.contains name = false) :
      Announces scope (.type kind name modifiers members span) kind name

theorem eq_announce_of_insert_error
    {d : Declaration Expr} {kind : TypeKind} {name : String}
    (hd : scope.Announces d kind name) (h : insert d scope = .error e final) :
    final = scope.announce kind name := by
  cases hd with
  | type free =>
      rcases insert_type_eq_error.1 h with ⟨taken, -, -⟩ | ⟨-, hfinal, -⟩
      · rw [free] at taken
        cases taken
      · exact hfinal

/-- A struct with a field of an unknown type. -/
def danglingField : Declaration Expr :=
  .type .struct "T" []
    [.binding ⟨"x", [], some (.ident "Missing" default), none, default⟩] default

theorem insert_danglingField :
    insert danglingField (.empty .standard) =
      .error ⟨.unknownType "Missing", default⟩
        (announce (.empty .standard) .struct "T") := by
  cbv

/-- A failed declaration leaves the scope as it was exactly when it has announced no type.
When it has, it leaves that type without members and nothing else, and every further
declaration of the type fails. -/
theorem insert_error_eq_self_iff
    {d : Declaration Expr} (h : insert d scope = .error e final) :
    (final = scope ↔ ∀ kind name, ¬ scope.Announces d kind name) ∧
      ∀ kind name, scope.Announces d kind name →
        final = scope.announce kind name ∧
          ∀ again : Declaration Expr, again.isType = true → again.name = name →
            insert again final = .error ⟨.redeclaration name, again.span⟩ final := by
  refine ⟨⟨?_, ?_⟩, ?_⟩
  · rintro rfl kind name hannounces
    exact announce_ne _ kind name (eq_announce_of_insert_error hannounces h).symm
  · intro hnone
    by_cases hd : d.isType = true
    · cases d with
      | type kind name modifiers members span =>
          rcases insert_type_eq_error.1 h with ⟨-, -, hfinal⟩ | ⟨free, -, -⟩
          · exact hfinal
          · exact absurd (.type free) (hnone kind name)
      | binding | function | enumCase | trait => cases hd
    · exact eq_of_insert_error (Bool.eq_false_of_not_eq_true hd) h
  · intro kind name hannounces
    have hfinal := eq_announce_of_insert_error hannounces h
    refine ⟨hfinal, ?_⟩
    rintro again hagain rfl
    rw [hfinal]
    exact insert_announce hagain scope kind

theorem insert_error_eq_self_iff_danglingField :
    Announces (.empty .standard) danglingField .struct "T" ∧
      announce (.empty .standard) .struct "T" ≠ .empty .standard ∧
      insert danglingField (announce (.empty .standard) .struct "T") =
        .error ⟨.redeclaration "T", default⟩ (announce (.empty .standard) .struct "T") := by
  have hannounces : Announces (.empty .standard) danglingField .struct "T" := .type rfl
  obtain ⟨hsame, hleft⟩ := insert_error_eq_self_iff insert_danglingField
  refine ⟨hannounces, ?_, (hleft .struct "T" hannounces).2 danglingField rfl rfl⟩
  intro heq
  exact hsame.1 heq .struct "T" hannounces

/-- The declaration fails and the table of types is not what it was. -/
theorem insert_danglingField_types_ne :
    ∃ e final, insert danglingField (.empty .standard) = .error e final ∧
      final.frame.types ≠ (Scope.empty .standard).frame.types :=
  ⟨_, _, insert_danglingField, List.cons_ne_nil _ _⟩

end Scope

end Ascribe
