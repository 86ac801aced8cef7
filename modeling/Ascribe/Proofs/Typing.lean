import Ascribe.Inference
import Ascribe.Proofs.TypedExpr
import Mathlib.Data.List.Forall2

/-!
# Typing

When the types on the nodes of an expression fit together, said rule by rule and without
constraints, fresh variables or a solver.  Local names have types and names of the scope
have schemes.  A closure extends the context by its parameters.  The items of a block see
the names that the block has bound before them.

The rule for a receiver of unknown type is there under the permissive policy only.
-/

namespace Ascribe

/-! ## Contexts -/

/-- The types of the names bound by the closures and blocks around a place, innermost
first. -/
abbrev Context :=
  List (Table Ty)

namespace Context

def find? (Γ : Context) (name : String) : Option Ty :=
  Γ.findSome? fun frame => frame.find? name

/-- The context with every type as a scheme without quantified variables. -/
def locals (Γ : Context) : Locals :=
  Γ.map fun frame => frame.map fun entry => (entry.1, .mono entry.2)

def apply (s : Subst) (Γ : Context) : Context :=
  Γ.map fun frame => frame.map fun entry => (entry.1, s.apply entry.2)

/-- The variables of the types of a context lie below a bound. -/
def Below (n : Nat) (Γ : Context) : Prop :=
  ∀ frame ∈ Γ, ∀ entry ∈ frame, entry.2.Below n

theorem find?_locals (Γ : Context) (name : String) :
    Γ.locals.find? name = (Γ.find? name).map .mono := by
  induction Γ with
  | nil => rfl
  | cons frame Γ ih =>
      simp only [Locals.find?, locals, find?, List.map_cons, List.findSome?_cons,
        Table.find?_map] at ih ⊢
      cases frame.find? name with
      | none => exact ih
      | some t => rfl

theorem find?_apply (s : Subst) (Γ : Context) (name : String) :
    (Γ.apply s).find? name = (Γ.find? name).map s.apply := by
  induction Γ with
  | nil => rfl
  | cons frame Γ ih =>
      simp only [apply, find?, List.map_cons, List.findSome?_cons, Table.find?_map] at ih ⊢
      cases frame.find? name with
      | none => exact ih
      | some t => rfl

theorem Below.mono
    {n m : Nat} {Γ : Context} (h : Γ.Below n) (hnm : n ≤ m) :
    Γ.Below m := by
  intro frame hframe entry hentry
  exact (h frame hframe entry hentry).mono hnm

theorem Below.find?
    {n : Nat} {Γ : Context} (h : Γ.Below n) {name : String} {t : Ty}
    (found : Γ.find? name = some t) :
    t.Below n := by
  obtain ⟨frame, hframe, hfind⟩ := List.exists_of_findSome?_eq_some found
  exact h frame hframe _ (Table.mem_of_find? hfind)

theorem Below.apply_congr
    {n : Nat} {Γ : Context} (h : Γ.Below n) {s u : Subst}
    (hagree : Subst.AgreesBelow n s u) :
    Γ.apply s = Γ.apply u := by
  refine List.map_congr_left fun frame hframe => List.map_congr_left fun entry hentry => ?_
  rw [hagree.apply (h frame hframe entry hentry)]

theorem apply_eq_self
    {Γ : Context} (h : ∀ frame ∈ Γ, ∀ entry ∈ frame, entry.2.vars = []) (s : Subst) :
    Γ.apply s = Γ := by
  refine (List.map_congr_left fun frame hframe => ?_).trans (List.map_id Γ)
  refine (List.map_congr_left fun entry hentry => ?_).trans (List.map_id frame)
  rw [Subst.apply_of_vars_eq_nil (h frame hframe entry hentry)]
  rfl

theorem Below.add
    {n : Nat} {frame : Table Ty} {Γ : Context} (h : Below n (frame :: Γ)) {t : Ty}
    (ht : t.Below n) (name : String) :
    Below n (frame.add name t :: Γ) := by
  obtain ⟨hframe, hΓ⟩ := List.forall_mem_cons.1 h
  refine List.forall_mem_cons.2 ⟨?_, hΓ⟩
  intro entry hentry
  rcases List.mem_append.1 hentry with hentry | hentry
  · exact hframe entry hentry
  · obtain rfl := List.mem_singleton.1 hentry
    exact ht

theorem apply_add
    {s : Subst} {frame frame' : Table Ty} {Γ Γ' : Context}
    (h : apply s (frame :: Γ) = frame' :: Γ') (name : String) (t : Ty) :
    apply s (frame.add name t :: Γ) = frame'.add name (s.apply t) :: Γ' := by
  obtain ⟨rfl, rfl⟩ := List.cons.inj h
  rw [apply, List.map_cons, Table.map_add]

/-- Which names are bound decides what a path names, and their types do not matter. -/
theorem typeName?_apply (scope : Scope) (s : Subst) (Γ : Context) (e : Expr) :
    scope.typeName? (Γ.apply s).locals e = scope.typeName? Γ.locals e := by
  have hvalue : ∀ name, scope.isValueName (Γ.apply s).locals name =
      scope.isValueName Γ.locals name := by
    intro name
    simp only [Scope.isValueName, find?_locals, find?_apply, Option.isSome_map]
  fun_induction Scope.typeName? scope Γ.locals e with
  | _ => simp_all [Scope.typeName?]

end Context

/-! ## The rules -/

/-- A parameter has a type: the one that its annotation denotes, if it has one. -/
def Scope.ParamTy (scope : Scope) (param : Param Expr) (entry : String × Ty) : Prop :=
  entry.1 = param.name ∧ ∀ a, param.ascription = some a → scope.annotationTy a = .ok entry.2

mutual

/-- The types on the nodes of an expression form a valid typing. -/
inductive Typed (scope : Scope) (policy : MemberPolicy) : Context → TypedExpr → Prop where
  | literal {Γ : Context} {value : Literal} {span : Span} :
      Typed scope policy Γ (.literal value span value.ty)
  | localName {Γ : Context} {name : String} {span : Span} {t : Ty}
      (found : Γ.find? name = some t) :
      Typed scope policy Γ (.ident name span t)
  | globalName {Γ : Context} {name : String} {span : Span} {entry : Entry} {t : Ty}
      (free : Γ.find? name = none) (found : scope.lookup name = some entry)
      (inst : entry.scheme.HasInstance t) :
      Typed scope policy Γ (.ident name span t)
  | closure {Γ : Context} {params : List (Param Expr)} {bound : Table Ty} {body : TypedExpr}
      {span : Span}
      (distinct : bound.names.Nodup) (annotated : List.Forall₂ scope.ParamTy params bound)
      (typedBody : Typed scope policy (bound :: Γ) body) :
      Typed scope policy Γ (.closure params body span (.arrow (bound.map Prod.snd) body.ty))
  | app {Γ : Context} {fn : TypedExpr} {args : List TypedExpr} {span : Span} {t : Ty}
      (typedFn : Typed scope policy Γ fn) (typedArgs : ∀ arg ∈ args, Typed scope policy Γ arg)
      (fnTy : fn.ty = .arrow (args.map TypedExpr.ty) t) :
      Typed scope policy Γ (.app fn args span t)
  | condThen {Γ : Context} {condition thenBranch : TypedExpr} {span : Span}
      (typedCondition : Typed scope policy Γ condition) (conditionTy : condition.ty = .bool)
      (typedThen : Typed scope policy Γ thenBranch) (thenTy : thenBranch.ty = .unit) :
      Typed scope policy Γ (.cond condition thenBranch none span thenBranch.ty)
  | condElse {Γ : Context} {condition thenBranch elseBranch : TypedExpr} {span : Span}
      (typedCondition : Typed scope policy Γ condition) (conditionTy : condition.ty = .bool)
      (typedThen : Typed scope policy Γ thenBranch) (typedElse : Typed scope policy Γ elseBranch)
      (sameTy : thenBranch.ty = elseBranch.ty) :
      Typed scope policy Γ (.cond condition thenBranch (some elseBranch) span thenBranch.ty)
  | staticMember {Γ : Context} {base : Expr} {owner : String} {selector : Selector}
      {span : Span} {scheme : Scheme} {t : Ty}
      (names : scope.typeName? Γ.locals base = some owner)
      (found : scope.staticMember (.named owner) owner selector span = .ok scheme)
      (inst : scheme.HasInstance t) :
      Typed scope policy Γ (.member (base.ascribe (.named owner)) selector span t)
  | instanceMember {Γ : Context} {base : TypedExpr} {name : String} {args : List Ty}
      {selector : Selector} {span : Span} {scheme : Scheme} {t : Ty}
      (plain : scope.typeName? Γ.locals base.erase = none)
      (typedBase : Typed scope policy Γ base) (baseTy : base.ty = .con name args)
      (found : scope.instanceMember (.con name args) name selector span = .ok scheme)
      (inst : scheme.HasInstance t) :
      Typed scope policy Γ (.member base selector span t)
  | component {Γ : Context} {base : TypedExpr} {elems : List Ty} {position : Nat}
      {span : Span} {t : Ty}
      (plain : scope.typeName? Γ.locals base.erase = none)
      (typedBase : Typed scope policy Γ base) (baseTy : base.ty = .tuple elems)
      (found : elems[position]? = some t) :
      Typed scope policy Γ (.member base (.index position) span t)
  | unknownMember {Γ : Context} {base : TypedExpr} {selector : Selector} {span : Span}
      {t : Ty}
      (permissive : policy = .permissive)
      (plain : scope.typeName? Γ.locals base.erase = none)
      (typedBase : Typed scope policy Γ base) (unknown : base.ty.isVar = true) :
      Typed scope policy Γ (.member base selector span t)
  | tuple {Γ : Context} {elems : List TypedExpr} {span : Span}
      (typedElems : ∀ elem ∈ elems, Typed scope policy Γ elem) :
      Typed scope policy Γ (.tuple elems span (.tuple (elems.map TypedExpr.ty)))
  | structLit {Γ : Context} {type owner : String} {d : Definition}
      {fields : List (String × TypedExpr)} {span : Span}
      (resolved : scope.resolveType type = some (owner, d))
      (typedFields : ∀ field ∈ fields, Typed scope policy Γ field.2)
      (declared : ∀ field ∈ fields, ∃ value scheme,
        d.value? field.1 = some (.binding value scheme) ∧ scheme.HasInstance field.2.ty) :
      Typed scope policy Γ (.structLit type fields span (.named owner))
  | block {Γ : Context} {items : List (Item Expr TypedExpr)} {span : Span} {t : Ty}
      (typedItems : TypedItems scope policy Γ [] .unit items t) :
      Typed scope policy Γ (.block items span t)

/-- The types on the items of a block form a valid typing, given the names that the block
has bound and the type of what came before.  The last type is the type of the block. -/
inductive TypedItems (scope : Scope) (policy : MemberPolicy) :
    Context → Table Ty → Ty → List (Item Expr TypedExpr) → Ty → Prop where
  | nil {Γ : Context} {own : Table Ty} {last : Ty} :
      TypedItems scope policy Γ own last [] last
  | expr {Γ : Context} {own : Table Ty} {last t : Ty} {e : TypedExpr}
      {rest : List (Item Expr TypedExpr)}
      (typedExpr : Typed scope policy (own :: Γ) e)
      (typedRest : TypedItems scope policy Γ own e.ty rest t) :
      TypedItems scope policy Γ own last (.expr e :: rest) t
  | declared {Γ : Context} {own : Table Ty} {last t u : Ty} {name : String}
      {modifiers : List Modifier} {ascription : Expr} {span : Span}
      {rest : List (Item Expr TypedExpr)}
      (new : name ∉ own.names) (annotated : scope.annotationTy ascription = .ok u)
      (typedRest : TypedItems scope policy Γ (own.add name u) .unit rest t) :
      TypedItems scope policy Γ own last
        (.binding ⟨name, modifiers, some ascription, none, span⟩ :: rest) t
  | bound {Γ : Context} {own : Table Ty} {last t : Ty} {name : String}
      {modifiers : List Modifier} {ascription : Option Expr} {value : TypedExpr} {span : Span}
      {rest : List (Item Expr TypedExpr)}
      (new : name ∉ own.names) (typedValue : Typed scope policy (own :: Γ) value)
      (annotated : ∀ a, ascription = some a → scope.annotationTy a = .ok value.ty)
      (typedRest : TypedItems scope policy Γ (own.add name value.ty) .unit rest t) :
      TypedItems scope policy Γ own last
        (.binding ⟨name, modifiers, ascription, some value, span⟩ :: rest) t

end

end Ascribe
