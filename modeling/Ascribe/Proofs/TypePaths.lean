import Ascribe.Inference
import Ascribe.Proofs.Annotations

/-!
# Paths that name types

A type is named by a path: its name, or selections by name that lead from a type through the
types declared in its body.  Inference looks at a path when a member is selected from it, and
takes the path for a type unless its first name stands for a value (`Scope.typeName?`).
Evaluation looks at the same path in an annotation.  The two go their own ways through the
tables.

They agree, whatever depth evaluation has.  Conversely a path whose first name is not local and
that evaluates to a type at every depth is a type for inference too.  Depth matters here because
a path may also lead to a value that is a type, such as a binding of `Int32`: with some depth left
it evaluates to that type, but inference keeps values and types apart, and without depth so does
evaluation (`Scope.form_of_path`).
-/

namespace Ascribe

/-- Whether an expression is a path: selections by name from a type name without arguments, or
from a name that is not one of the given locals. -/
def Locals.isPath (locals : Locals) : Expr → Bool
  | .ident name _ => (locals.find? name).isNone
  | .tycon _ args _ => args.isEmpty
  | .member base (.named _) _ => locals.isPath base
  | _ => false

/-- Whether a form stands for a value that evaluation has not put in place. -/
def NormalForm.isSymbolic : NormalForm → Bool
  | .ident _ | .closure _ _ | .member _ _ => true
  | _ => false

namespace Scope

variable {scope : Scope} {locals : Locals}

/-- What inference follows when it takes an expression for a type. -/
inductive NamesType (scope : Scope) (locals : Locals) : Expr → String → Prop where
  | name {name : String} {span : Span} {found : String × Definition}
      (plain : scope.isValueName locals name = false)
      (resolved : scope.resolveType name = some found) :
      NamesType scope locals (.ident name span) found.1
  | tycon {name : String} {span : Span} {found : String × Definition}
      (resolved : scope.resolveType name = some found) :
      NamesType scope locals (.tycon name [] span) found.1
  | nested {base : Expr} {owner name : String} {span : Span} {d inner : Definition}
      (owned : NamesType scope locals base owner) (table : scope.lookupType owner = some d)
      (found : d.nested? name = some inner) :
      NamesType scope locals (.member base (.named name) span) (Name.qualified owner name)

theorem namesType_of_typeName? :
    ∀ {e : Expr} {q : String}, scope.typeName? locals e = some q → scope.NamesType locals e q
  | .ident name span, q, h => by
      simp only [typeName?] at h
      split at h
      · cases h
      · rename_i hvalue
        obtain ⟨found, hfound, rfl⟩ := Option.map_eq_some_iff.1 h
        exact .name (Bool.eq_false_iff.2 hvalue) hfound
  | .tycon name [] span, q, h => by
      obtain ⟨found, hfound, rfl⟩ := Option.map_eq_some_iff.1 h
      exact .tycon hfound
  | .member base (.named name) span, q, h => by
      simp only [typeName?] at h
      split at h
      · cases h
      · rename_i owner howner
        split at h
        · cases h
        · rename_i d htable
          split at h
          · rename_i hnested
            cases h
            obtain ⟨inner, hinner⟩ := Option.isSome_iff_exists.1 hnested
            exact .nested (namesType_of_typeName? howner) htable hinner
          · cases h
  | .member _ (.index _) _, q, h | .tycon _ (_ :: _) _, q, h => by simp [typeName?] at h
  | .literal _ _, q, h | .closure _ _ _, q, h | .app _ _ _, q, h | .cond _ _ _ _, q, h
  | .tuple _ _, q, h | .structLit _ _ _, q, h | .arrow _ _ _, q, h | .block _ _, q, h => by
      simp [typeName?] at h

theorem NamesType.isPath
    {e : Expr} {q : String} (h : scope.NamesType locals e q) :
    locals.isPath e = true := by
  induction h with
  | name plain resolved =>
      rw [isValueName, Bool.or_eq_false_iff] at plain
      simpa [Locals.isPath] using plain.1
  | tycon resolved => rfl
  | nested owned table found ih =>
      rw [Locals.isPath]
      exact ih

/-- What inference takes for a type evaluates to that type, at every depth. -/
theorem NamesType.evalAt
    {e : Expr} {q : String} (h : scope.NamesType locals e q) (depth : Nat) :
    scope.evalAt depth e = .ok (.tycon q []) := by
  induction h with
  | @name name span found plain resolved =>
      have hlookup : scope.lookup name = none := by
        rw [isValueName, Bool.or_eq_false_iff] at plain
        simpa using plain.2
      rw [Scope.evalAt, nameHead, hlookup]
      simp only [resolved, finish]
  | tycon resolved =>
      rw [Scope.evalAt, resolved]
      simp only [evalAll]
      rfl
  | nested owned table found ih => exact evalAt_member_nested _ ih table found

/-- Without depth an entry evaluates to a symbolic form. -/
theorem isSymbolic_of_finish
    {symbolic form : NormalForm} {entry : Entry} (hsymbolic : symbolic.isSymbolic = true)
    (h : scope.finish 0 (.ofEntry symbolic entry) = .ok form) :
    form.isSymbolic = true := by
  cases entry with
  | binding value scheme =>
      cases value with
      | none | some value =>
          rw [Head.ofEntry, finish] at h
          cases h
          exact hsymbolic
  | function params body scheme =>
      cases body with
      | none =>
          rw [Head.ofEntry, finish] at h
          cases h
          exact hsymbolic
      | some body =>
          rw [Head.ofEntry, finish] at h
          cases h
          rfl

/-- Without depth a path evaluates to the type that inference takes it for, or to a symbolic
form. -/
theorem form_of_path :
    ∀ {e : Expr} {form : NormalForm}, locals.isPath e = true → scope.evalAt 0 e = .ok form →
      (∃ q, scope.typeName? locals e = some q ∧ form = .tycon q []) ∨ form.isSymbolic = true
  | .ident name span, form, hpath, h => by
      rw [evalAt, nameHead] at h
      cases hlookup : scope.lookup name with
      | some entry =>
          simp only [hlookup] at h
          exact .inr (isSymbolic_of_finish rfl h)
      | none =>
          simp only [hlookup] at h
          cases hfound : scope.resolveType name with
          | none =>
              simp only [hfound, finish] at h
              cases h
              exact .inr rfl
          | some found =>
              simp only [hfound, finish] at h
              cases h
              refine .inl ⟨found.1, ?_, rfl⟩
              have hlocal : locals.find? name = none := by simpa [Locals.isPath] using hpath
              simp [typeName?, isValueName, hlocal, hlookup, hfound]
  | .tycon name [] span, form, hpath, h => by
      rw [evalAt] at h
      cases hfound : scope.resolveType name with
      | none =>
          simp only [hfound] at h
          cases h
          exact .inr rfl
      | some found =>
          simp only [hfound, evalAll] at h
          cases h
          exact .inl ⟨found.1, by simp [typeName?, hfound], rfl⟩
  | .member base (.named name) span, form, hpath, h => by
      rw [evalAt] at h
      obtain ⟨baseForm, hbase, h⟩ := except_bind_eq_ok.1 h
      obtain ⟨head, hhead, h⟩ := except_bind_eq_ok.1 h
      rcases form_of_path (e := base) (by rwa [Locals.isPath] at hpath) hbase with
        ⟨owner, howner, rfl⟩ | hsymbolic
      · rw [selectHead] at hhead
        cases htable : scope.lookupType owner with
        | none =>
            simp only [htable] at hhead
            cases hhead
        | some d =>
            simp only [htable] at hhead
            split at hhead
            · rename_i hnested
              cases hhead
              rw [finish] at h
              cases h
              exact .inl ⟨_, by simp [typeName?, howner, htable, hnested], rfl⟩
            · split at hhead
              · cases hhead
                exact .inr (isSymbolic_of_finish rfl h)
              · cases hhead
      · cases baseForm with
        | ident | member =>
            cases hhead
            rw [finish] at h
            cases h
            exact .inr rfl
        | closure => cases hhead
        | literal | cond | tuple | structLit | tycon | arrow | app => cases hsymbolic

/-- Inference takes an expression for a type exactly when the expression is a path whose first
name is not local and evaluates to that type at every depth. -/
theorem typeName?_eq_some_iff_evalAt
    (scope : Scope) (locals : Locals) (e : Expr) (q : String) :
    scope.typeName? locals e = some q ↔
      locals.isPath e = true ∧ ∀ depth, scope.evalAt depth e = .ok (.tycon q []) := by
  constructor
  · intro h
    have hnames := namesType_of_typeName? h
    exact ⟨hnames.isPath, hnames.evalAt⟩
  · rintro ⟨hpath, heval⟩
    rcases form_of_path hpath (heval 0) with ⟨q', hq', hform⟩ | hsymbolic
    · cases hform
      exact hq'
    · cases hsymbolic

end Scope

end Ascribe
