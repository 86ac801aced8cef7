import Ascribe.Proofs.Places
import Ascribe.Proofs.Soundness

/-!
# The names of parameters

Renaming a parameter of a closure to a name that does not occur in the body changes nothing
but names.  Generation on the closure and on the renamed one goes the same way: the two runs
take the same variables, put the same types on corresponding nodes and collect the same
constraints, up to the places that the renamed identifiers have.

While the body is walked, `Locals.Renamed` says how the names in reach on both sides belong
together.  It is kept by whatever the body binds itself, as the new name is not among that.
-/

namespace Ascribe

/-! ## Corresponding nodes -/

namespace TypedExpr

/-- The node of a block item, if the item has one. -/
def itemNode? : Item Expr TypedExpr → Option TypedExpr
  | .binding b => b.value
  | .expr e => some e

/-- The nodes right below the outermost one, from left to right. -/
def children : TypedExpr → List TypedExpr
  | .literal _ _ _ => []
  | .ident _ _ _ => []
  | .closure _ body _ _ => [body]
  | .app fn args _ _ => fn :: args
  | .cond condition thenBranch elseBranch _ _ => condition :: thenBranch :: elseBranch.toList
  | .member base _ _ _ => [base]
  | .tuple elems _ _ => elems
  | .structLit _ fields _ _ => fields.map Prod.snd
  | .tycon _ args _ _ => args
  | .arrow params result _ _ => params ++ [result]
  | .block items _ _ => items.filterMap itemNode?

/-- The type of the node at a position, which says below which child to go on at each step
from the outermost node. -/
def tyAt? : TypedExpr → List Nat → Option Ty
  | e, [] => some e.ty
  | e, i :: position =>
      match e.children[i]? with
      | some child => child.tyAt? position
      | none => none

/-- Two trees have the same positions, and nodes at the same position have the same type. -/
def SameTypes (e other : TypedExpr) : Prop :=
  ∀ position, e.tyAt? position = other.tyAt? position

theorem SameTypes.ty_eq {e other : TypedExpr} (h : e.SameTypes other) :
    e.ty = other.ty :=
  Option.some.inj (h [])

theorem sameTypes_of_children
    {e other : TypedExpr} (hty : e.ty = other.ty)
    (h : List.Forall₂ SameTypes e.children other.children) :
    e.SameTypes other := by
  intro position
  cases position with
  | nil => exact congrArg some hty
  | cons i position =>
      simp only [tyAt?]
      generalize e.children = nodes at h
      generalize other.children = others at h
      induction h generalizing i with
      | nil => rfl
      | cons hhead htail ih =>
          cases i with
          | zero => exact hhead position
          | succ i => exact ih i

theorem map_ty_eq
    {nodes others : List TypedExpr} (h : List.Forall₂ SameTypes nodes others) :
    nodes.map ty = others.map ty := by
  induction h with
  | nil => rfl
  | cons hhead htail ih => rw [List.map_cons, List.map_cons, hhead.ty_eq, ih]

theorem filterMap_itemNode?_mapTyItems (f : Ty → Ty) (items : List (Item Expr TypedExpr)) :
    (mapTyItems f items).filterMap itemNode? = (items.filterMap itemNode?).map (mapTy f) := by
  induction items with
  | nil => rfl
  | cons item items ih =>
      cases item with
      | expr e => simp [mapTyItems, itemNode?, ih]
      | binding b =>
          obtain ⟨name, modifiers, ascription, value, span⟩ := b
          cases value with
          | none => exact ih
          | some value => simp [mapTyItems, itemNode?, ih]

theorem children_mapTy (f : Ty → Ty) (e : TypedExpr) :
    (e.mapTy f).children = e.children.map (mapTy f) := by
  cases e with
  | cond condition thenBranch elseBranch span t => cases elseBranch <;> rfl
  | block items span t => exact filterMap_itemNode?_mapTyItems f items
  | _ => simp [mapTy, children, mapTyAll_eq_map, mapTyFields_eq_map, Function.comp_def]

theorem tyAt?_mapTy (f : Ty → Ty) (e : TypedExpr) (position : List Nat) :
    (e.mapTy f).tyAt? position = (e.tyAt? position).map f := by
  induction position generalizing e with
  | nil => simp [tyAt?]
  | cons i position ih =>
      simp only [tyAt?, children_mapTy, List.getElem?_map]
      cases e.children[i]? with
      | none => rfl
      | some child => exact ih child

theorem SameTypes.apply {e other : TypedExpr} (h : e.SameTypes other) (s : Subst) :
    (e.apply s).SameTypes (other.apply s) := by
  intro position
  rw [TypedExpr.apply, TypedExpr.apply, tyAt?_mapTy, tyAt?_mapTy, h position]

end TypedExpr

/-! ## Names in expressions -/

namespace Expr

mutual

/-- The names that occur in an expression as an identifier, as a parameter or as a local
binding.  Those in annotations do not count. -/
def names : Expr → List String
  | .literal _ _ => []
  | .ident name _ => [name]
  | .closure params body _ => params.map Param.name ++ body.names
  | .app fn args _ => fn.names ++ namesAll args
  | .cond condition thenBranch none _ => condition.names ++ thenBranch.names
  | .cond condition thenBranch (some elseBranch) _ =>
      condition.names ++ thenBranch.names ++ elseBranch.names
  | .member base _ _ => base.names
  | .tuple elems _ => namesAll elems
  | .structLit _ fields _ => namesFields fields
  | .tycon _ args _ => namesAll args
  | .arrow params result _ => namesAll params ++ result.names
  | .block items _ => namesItems items
termination_by structural e => e

def namesAll : List Expr → List String
  | [] => []
  | e :: es => e.names ++ namesAll es
termination_by structural es => es

def namesFields : List (String × Expr) → List String
  | [] => []
  | (_, value) :: rest => value.names ++ namesFields rest
termination_by structural fields => fields

def namesItems : List (Item Expr Expr) → List String
  | [] => []
  | .binding ⟨name, _, _, none, _⟩ :: rest => name :: namesItems rest
  | .binding ⟨name, _, _, some value, _⟩ :: rest => name :: (value.names ++ namesItems rest)
  | .expr e :: rest => e.names ++ namesItems rest
termination_by structural items => items

end

end Expr

/-! ## Names in reach -/

namespace Locals

theorem find?_cons (frame : Table Scheme) (locals : Locals) (name : String) :
    find? (frame :: locals) name = (frame.find? name).or (locals.find? name) := by
  simp only [find?, List.findSome?_cons]
  cases frame.find? name <;> rfl

/-- The names in reach before and after some of them were renamed to a new one.  The
replacements have the renamed names; all others, apart from the new one, mean the same. -/
structure Renamed (new : String) (r : Replacements) (locals locals' : Locals) : Prop where
  kept : ∀ name, name ≠ new → r.find? name = none → locals'.find? name = locals.find? name
  moved : ∀ name e, r.find? name = some e → ∃ place scheme, e = .ident new place ∧
    locals.find? name = some scheme ∧ locals'.find? new = some scheme

variable {new : String} {r : Replacements} {locals locals' : Locals}

/-- Names that are bound on both sides alike are not renamed any more. -/
theorem Renamed.shadow
    {names : List String} {inner inner' : Locals} (h : Renamed new r locals locals')
    (fresh : new ∉ names) (own : ∀ name ∈ names, inner'.find? name = inner.find? name)
    (below : ∀ name, name ∉ names → inner.find? name = locals.find? name)
    (below' : ∀ name, name ∉ names → inner'.find? name = locals'.find? name) :
    Renamed new (r.without names) inner inner' := by
  constructor
  · intro name hne hname
    by_cases hmem : name ∈ names
    · exact own name hmem
    · rw [Table.find?_without, if_neg hmem] at hname
      rw [below name hmem, below' name hmem]
      exact h.kept name hne hname
  · intro name e hname
    have hmem : name ∉ names := by
      intro hmem
      rw [Table.find?_without, if_pos hmem] at hname
      cases hname
    rw [Table.find?_without, if_neg hmem] at hname
    rw [below name hmem, below' new fresh]
    exact h.moved name e hname

theorem Renamed.frame
    (h : Renamed new r locals locals') (frame : Table Scheme) (fresh : new ∉ frame.names) :
    Renamed new (r.without frame.names) (frame :: locals) (frame :: locals') := by
  refine h.shadow fresh ?_ ?_ ?_
  · intro name hname
    obtain ⟨scheme, hscheme⟩ := Table.exists_find?_of_mem hname
    rw [find?_cons, find?_cons, hscheme, Option.some_or, Option.some_or]
  · intro name hname
    rw [find?_cons, Table.find?_eq_none hname, Option.none_or]
  · intro name hname
    rw [find?_cons, Table.find?_eq_none hname, Option.none_or]

theorem find?_cons_add_of_ne
    {name other : String} (h : other ≠ name) (own : Table Scheme) (scheme : Scheme)
    (locals : Locals) :
    find? (own.add name scheme :: locals) other = find? (own :: locals) other := by
  rw [find?_cons, find?_cons, Table.find?_add, if_neg h.symm, Option.or_none]

theorem Renamed.add
    {own : Table Scheme} (h : Renamed new r (own :: locals) (own :: locals')) {name : String}
    (fresh : name ≠ new) (scheme : Scheme) :
    Renamed new (r.without [name]) (own.add name scheme :: locals)
      (own.add name scheme :: locals') := by
  refine h.shadow (by simpa using fresh.symm) ?_ ?_ ?_
  · intro other hother
    obtain ⟨value, hvalue⟩ : ∃ value, (own.add name scheme).find? other = some value := by
      apply Table.exists_find?_of_mem
      rw [Table.names_add]
      exact List.mem_append_right _ hother
    rw [find?_cons, find?_cons, hvalue, Option.some_or, Option.some_or]
  · intro other hother
    exact find?_cons_add_of_ne (by simpa using hother) own scheme locals
  · intro other hother
    exact find?_cons_add_of_ne (by simpa using hother) own scheme locals'

end Locals

namespace Scope

open Locals

variable {new : String} {r : Replacements} {locals locals' : Locals}

/-- A name of a value is renamed to the name of a value, so expressions keep naming the
types that they name. -/
theorem typeName?_substitute (scope : Scope) (h : Renamed new r locals locals') :
    ∀ e : Expr, new ∉ e.names →
      scope.typeName? locals' (e.substitute r) = scope.typeName? locals e
  | .ident name span, fresh => by
      have hne : name ≠ new := by
        rintro rfl
        exact fresh (List.mem_singleton_self name)
      rw [Expr.substitute]
      cases hname : r.find? name with
      | some e =>
          obtain ⟨place, scheme, rfl, hlocals, hlocals'⟩ := h.moved name e hname
          simp [typeName?, isValueName, hlocals, hlocals']
      | none => simp [typeName?, isValueName, h.kept name hne hname]
  | .member base selector span, fresh => by
      have hbase := typeName?_substitute scope h base fresh
      rw [Expr.substitute]
      cases selector with
      | named name => simp only [typeName?, hbase]
      | index position => rfl
  | .tycon name [] span, _ => rfl
  | .tycon name (arg :: args) span, _ => rfl
  | .literal .., _ => rfl
  | .closure .., _ => rfl
  | .app .., _ => rfl
  | .cond _ _ none _, _ => rfl
  | .cond _ _ (some _) _, _ => rfl
  | .tuple .., _ => rfl
  | .structLit .., _ => rfl
  | .arrow .., _ => rfl
  | .block .., _ => rfl

/-- Nothing is replaced in the name of a type. -/
theorem substitute_eq_self {scope : Scope} (h : Renamed new r locals locals') :
    ∀ (e : Expr) {owner : String}, scope.typeName? locals e = some owner → e.substitute r = e
  | .ident name span, owner, hnames => by
      rw [Expr.substitute]
      cases hname : r.find? name with
      | some e =>
          obtain ⟨place, scheme, rfl, hlocals, -⟩ := h.moved name e hname
          simp [typeName?, isValueName, hlocals] at hnames
      | none => rfl
  | .member base (.named name) span, owner, hnames => by
      cases hbase : scope.typeName? locals base with
      | none => simp [typeName?, hbase] at hnames
      | some owner' => rw [Expr.substitute, substitute_eq_self h base hbase]
  | .tycon name [] span, owner, hnames => rfl

end Scope

/-! ## Renaming parameters -/

/-- The parameter under another name. -/
def Param.rename (f : String → String) (p : Param Expr) : Param Expr :=
  { p with name := f p.name }

namespace Scope

open Infer Locals

attribute [local simp] infer inferAll inferFields inferItems inferParams

variable {scope : Scope}

/-- Under other names that keep the parameters apart, parameters have the same types. -/
theorem inferParams_alike
    {f : String → String} (params : List (Param Expr)) {bound : Table Ty}
    (apart : ∀ name ∈ params.map Param.name,
      ∀ other ∈ bound.names ++ params.map Param.name, f other = f name → other = name) :
    Alike (fun own own' => own' = own.rename f ∧
        own.names = bound.names ++ params.map Param.name)
      (scope.inferParams bound params)
      (scope.inferParams (bound.rename f) (params.map (Param.rename f))) := by
  induction params generalizing bound with
  | nil =>
      simp only [List.map_nil, inferParams]
      exact alike_pure ⟨rfl, (List.append_nil _).symm⟩
  | cons p params ih =>
      obtain ⟨apartHead, apartRest⟩ := List.forall_mem_cons.1 apart
      have hcontains : (bound.rename f).contains (f p.name) = bound.contains p.name := by
        rw [Table.contains, Table.contains, Table.find?_rename]
        intro other hother
        exact apartHead other (List.mem_append_left _ hother)
      have hnext : ∀ t : Ty, Alike (fun own own' => own' = own.rename f ∧
            own.names = bound.names ++ p.name :: params.map Param.name)
          (scope.inferParams (bound.add p.name t) params)
          (scope.inferParams ((bound.rename f).add (f p.name) t)
            (params.map (Param.rename f))) := by
        intro t
        have hrest := @ih (bound.add p.name t) (by simpa [Table.names_add] using apartRest)
        rw [Table.rename_add] at hrest
        simpa [Table.names_add] using hrest
      simp only [List.map_cons, inferParams, Param.rename, hcontains]
      refine alike_guard fun _ => ?_
      cases p.ascription with
      | some ascription =>
          refine (alike_lift rfl).bind_eq fun t => ?_
          exact hnext t
      | none =>
          refine alike_fresh.bind_eq fun t => ?_
          exact hnext t

theorem inferParams_nil_alike
    {f : String → String} (params : List (Param Expr))
    (apart : ∀ name ∈ params.map Param.name, ∀ other ∈ params.map Param.name,
      f other = f name → other = name) :
    Alike (fun own own' => own' = own.rename f ∧ own.names = params.map Param.name)
      (scope.inferParams [] params)
      (scope.inferParams [] (params.map (Param.rename f))) :=
  @inferParams_alike scope f params [] apart

theorem inferParams_alike_self (params : List (Param Expr)) :
    Alike (fun own own' => own' = own ∧ own.names = params.map Param.name)
      (scope.inferParams [] params) (scope.inferParams [] params) := by
  have halike := @inferParams_nil_alike scope id params fun _ _ _ _ heq => heq
  have hsame : params.map (Param.rename id) = params := List.map_id params
  rw [hsame] at halike
  simpa [Table.rename] using halike

theorem inferLocalTy_alike
    (name : String) (ascription : Option Expr) {value value' : Option (Ty × Span)}
    (h : value.map Prod.fst = value'.map Prod.fst) (span : Span) :
    Alike Eq (scope.inferLocalTy name ascription value span)
      (scope.inferLocalTy name ascription value' span) := by
  cases value with
  | none =>
      obtain rfl := Option.map_eq_none_iff.1 h.symm
      cases ascription with
      | none => exact alike_fail _ _ _ _
      | some a => exact alike_lift rfl
  | some found =>
      obtain ⟨found', rfl, hty⟩ := Option.map_eq_some_iff.1 h.symm
      cases ascription with
      | none => exact alike_pure hty.symm
      | some a =>
          refine (alike_lift rfl).bind_eq fun annotated => ?_
          exact (alike_equal rfl hty.symm _ _).bind_eq fun _ => alike_pure rfl

variable {new : String}

/-- An identifier becomes an identifier with the same scheme. -/
theorem valueScheme_renamed
    (scope : Scope) {r : Replacements} {locals locals' : Locals} (h : Renamed new r locals locals')
    {name : String} (fresh : name ≠ new) (span : Span) :
    ∃ name' place, (Expr.ident name span).substitute r = .ident name' place ∧
      scope.valueScheme locals' name' place = scope.valueScheme locals name span := by
  cases hname : r.find? name with
  | some e =>
      obtain ⟨place, scheme, rfl, hlocals, hlocals'⟩ := h.moved name e hname
      refine ⟨new, place, ?_, ?_⟩
      · rw [Expr.substitute, hname, Option.getD_some]
      · simp only [valueScheme, hlocals, hlocals']
  | none =>
      refine ⟨name, span, ?_, ?_⟩
      · rw [Expr.substitute, hname, Option.getD_none]
      · simp only [valueScheme, h.kept name fresh hname]

mutual

/-- Generation goes the same way after names in reach were renamed.  Each form runs the same
steps on both sides, and its typed parts have the same types. -/
theorem infer_alike (scope : Scope) :
    ∀ (e : Expr) {r : Replacements} {locals locals' : Locals},
      Renamed new r locals locals' → new ∉ e.names →
        Alike TypedExpr.SameTypes (scope.infer locals e) (scope.infer locals' (e.substitute r))
  | .literal value span, r, locals, locals', h, fresh => by
      rw [Expr.substitute, infer, infer]
      exact alike_pure fun position => rfl
  | .ident name span, r, locals, locals', h, fresh => by
      have hne : name ≠ new := by
        rintro rfl
        exact fresh (List.mem_singleton_self name)
      obtain ⟨name', place, heq, hscheme⟩ := valueScheme_renamed scope h hne span
      rw [heq, infer, infer, hscheme]
      refine (alike_lift rfl).bind_eq fun scheme => ?_
      refine (alike_instantiate scheme).bind_eq fun t => ?_
      exact alike_pure (TypedExpr.sameTypes_of_children rfl .nil)
  | .closure params body span, r, locals, locals', h, fresh => by
      rw [Expr.names, List.mem_append, not_or] at fresh
      rw [Expr.substitute, infer, infer]
      refine (inferParams_alike_self params).bind fun bound bound' hbound => ?_
      obtain ⟨rfl, hnames⟩ := hbound
      have hframe : Table.names (bound'.map fun p => (p.1, Scheme.mono p.2)) =
          params.map Param.name := by
        rw [Table.names_map, hnames]
      have hinner := h.frame (bound'.map fun p => (p.1, Scheme.mono p.2)) (hframe ▸ fresh.1)
      rw [hframe] at hinner
      refine (infer_alike scope body hinner fresh.2).bind fun typed typed' htyped => ?_
      refine alike_pure (TypedExpr.sameTypes_of_children ?_ (.cons htyped .nil))
      rw [TypedExpr.ty, TypedExpr.ty, htyped.ty_eq]
  | .app fn args span, r, locals, locals', h, fresh => by
      rw [Expr.names, List.mem_append, not_or] at fresh
      rw [Expr.substitute, infer, infer]
      refine (infer_alike scope fn h fresh.1).bind fun fn' fn'' hfn => ?_
      refine (inferAll_alike scope args h fresh.2).bind fun args' args'' hargs => ?_
      refine alike_fresh.bind_eq fun t => ?_
      rw [hfn.ty_eq, TypedExpr.map_ty_eq hargs]
      refine (alike_equal rfl rfl span span).bind_eq fun _ => ?_
      exact alike_pure (TypedExpr.sameTypes_of_children rfl (.cons hfn hargs))
  | .cond condition thenBranch none span, r, locals, locals', h, fresh => by
      rw [Expr.names, List.mem_append, not_or] at fresh
      rw [Expr.substitute, infer, infer]
      refine (infer_alike scope condition h fresh.1).bind fun test test' htest => ?_
      refine (alike_equal htest.ty_eq rfl _ _).bind_eq fun _ => ?_
      refine (infer_alike scope thenBranch h fresh.2).bind fun typed typed' htyped => ?_
      refine (alike_equal htyped.ty_eq rfl _ _).bind_eq fun _ => ?_
      exact alike_pure
        (TypedExpr.sameTypes_of_children htyped.ty_eq (.cons htest (.cons htyped .nil)))
  | .cond condition thenBranch (some elseBranch) span, r, locals, locals', h, fresh => by
      rw [Expr.names, List.mem_append, List.mem_append, not_or, not_or] at fresh
      rw [Expr.substitute, infer, infer]
      refine (infer_alike scope condition h fresh.1.1).bind fun test test' htest => ?_
      refine (alike_equal htest.ty_eq rfl _ _).bind_eq fun _ => ?_
      refine (infer_alike scope thenBranch h fresh.1.2).bind fun typed typed' htyped => ?_
      refine (infer_alike scope elseBranch h fresh.2).bind fun other other' hother => ?_
      refine (alike_equal htyped.ty_eq hother.ty_eq _ _).bind_eq fun _ => ?_
      exact alike_pure (TypedExpr.sameTypes_of_children htyped.ty_eq
        (.cons htest (.cons htyped (.cons hother .nil))))
  | .member base selector span, r, locals, locals', h, fresh => by
      have htypeName := typeName?_substitute scope h base fresh
      rw [Expr.substitute, infer, infer, htypeName]
      cases hnames : scope.typeName? locals base with
      | some owner =>
          -- Nothing is replaced in the base, so the tree below the member is the same one.
          rw [substitute_eq_self h base hnames]
          refine (alike_lift rfl).bind_eq fun scheme => ?_
          refine (alike_instantiate scheme).bind_eq fun t => ?_
          exact alike_pure fun position => rfl
      | none =>
          refine (infer_alike scope base h fresh).bind fun typed typed' htyped => ?_
          rw [htyped.ty_eq]
          refine (alike_lift rfl).bind_eq fun found => ?_
          cases found with
          | some scheme =>
              refine (alike_instantiate scheme).bind_eq fun t => ?_
              exact alike_pure (TypedExpr.sameTypes_of_children rfl (.cons htyped .nil))
          | none =>
              refine alike_fresh.bind_eq fun t => ?_
              refine (alike_constrain rfl).bind_eq fun _ => ?_
              exact alike_pure (TypedExpr.sameTypes_of_children rfl (.cons htyped .nil))
  | .tuple elems span, r, locals, locals', h, fresh => by
      rw [Expr.substitute, infer, infer]
      refine (inferAll_alike scope elems h fresh).bind fun typed typed' htyped => ?_
      rw [TypedExpr.map_ty_eq htyped]
      exact alike_pure (TypedExpr.sameTypes_of_children rfl htyped)
  | .structLit type fields span, r, locals, locals', h, fresh => by
      rw [Expr.substitute, infer, infer]
      cases scope.resolveType type with
      | none => exact alike_fail _ _ _ _
      | some found =>
          obtain ⟨owner, d⟩ := found
          refine (inferFields_alike scope fields h fresh).bind fun typed typed' htyped => ?_
          exact alike_pure (TypedExpr.sameTypes_of_children rfl htyped)
  | .tycon name args span, r, locals, locals', h, fresh => by
      rw [Expr.substitute, infer, infer]
      exact alike_fail _ _ _ _
  | .arrow params result span, r, locals, locals', h, fresh => by
      rw [Expr.substitute, infer, infer]
      exact alike_fail _ _ _ _
  | .block items span, r, locals, locals', h, fresh => by
      have hinner : Renamed new r ([] :: locals) ([] :: locals') := ⟨h.kept, h.moved⟩
      rw [Expr.substitute, infer, infer]
      refine (inferItems_alike scope items hinner fresh).bind fun typed typed' htyped => ?_
      exact alike_pure (TypedExpr.sameTypes_of_children htyped.2 htyped.1)
termination_by structural e => e

theorem inferAll_alike (scope : Scope) :
    ∀ (es : List Expr) {r : Replacements} {locals locals' : Locals},
      Renamed new r locals locals' → new ∉ Expr.namesAll es →
        Alike (List.Forall₂ TypedExpr.SameTypes) (scope.inferAll locals es)
          (scope.inferAll locals' (Expr.substituteAll r es))
  | [], r, locals, locals', h, fresh => by
      rw [Expr.substituteAll, inferAll, inferAll]
      exact alike_pure .nil
  | e :: es, r, locals, locals', h, fresh => by
      rw [Expr.namesAll, List.mem_append, not_or] at fresh
      rw [Expr.substituteAll, inferAll, inferAll]
      refine (infer_alike scope e h fresh.1).bind fun typed typed' htyped => ?_
      refine (inferAll_alike scope es h fresh.2).bind fun rest rest' hrest => ?_
      exact alike_pure (.cons htyped hrest)
termination_by structural es => es

theorem inferFields_alike (scope : Scope) :
    ∀ (fields : List (String × Expr)) {r : Replacements} {locals locals' : Locals}
      {owner : Ty} {d : Definition}, Renamed new r locals locals' →
        new ∉ Expr.namesFields fields →
          Alike (fun typed typed' => List.Forall₂ TypedExpr.SameTypes (typed.map Prod.snd)
              (typed'.map Prod.snd))
            (scope.inferFields locals owner d fields)
            (scope.inferFields locals' owner d (Expr.substituteFields r fields))
  | [], r, locals, locals', owner, d, h, fresh => by
      rw [Expr.substituteFields, inferFields, inferFields]
      exact alike_pure .nil
  | (name, value) :: fields, r, locals, locals', owner, d, h, fresh => by
      rw [Expr.namesFields, List.mem_append, not_or] at fresh
      rw [Expr.substituteFields, inferFields, inferFields]
      refine (infer_alike scope value h fresh.1).bind fun typed typed' htyped => ?_
      refine (alike_lift (fieldScheme_place _ _ _ _ _)).bind_eq fun scheme => ?_
      refine (alike_instantiate scheme).bind_eq fun t => ?_
      refine (alike_equal rfl htyped.ty_eq _ _).bind_eq fun _ => ?_
      refine (inferFields_alike scope fields h fresh.2).bind fun rest rest' hrest => ?_
      exact alike_pure (.cons htyped hrest)
termination_by structural fields => fields

theorem inferItems_alike (scope : Scope) :
    ∀ (items : List (Item Expr Expr)) {r : Replacements} {own : Table Scheme}
      {locals locals' : Locals} {last : Ty},
      Renamed new r (own :: locals) (own :: locals') → new ∉ Expr.namesItems items →
        Alike (fun typed typed' => List.Forall₂ TypedExpr.SameTypes
            (typed.1.filterMap TypedExpr.itemNode?) (typed'.1.filterMap TypedExpr.itemNode?) ∧
            typed.2 = typed'.2)
          (scope.inferItems locals own last items)
          (scope.inferItems locals' own last (Expr.substituteItems r items))
  | [], r, own, locals, locals', last, h, fresh => by
      rw [Expr.substituteItems, inferItems, inferItems]
      exact alike_pure ⟨.nil, rfl⟩
  | .expr e :: items, r, own, locals, locals', last, h, fresh => by
      rw [Expr.namesItems, List.mem_append, not_or] at fresh
      rw [Expr.substituteItems, inferItems, inferItems]
      refine (infer_alike scope e h fresh.1).bind fun typed typed' htyped => ?_
      rw [htyped.ty_eq]
      refine (inferItems_alike scope items h fresh.2).bind fun rest rest' hrest => ?_
      exact alike_pure ⟨.cons htyped hrest.1, hrest.2⟩
  | .binding ⟨name, modifiers, ascription, none, span⟩ :: items, r, own, locals, locals',
      last, h, fresh => by
      rw [Expr.namesItems, List.mem_cons, not_or] at fresh
      rw [Expr.substituteItems, inferItems, inferItems]
      refine alike_guard fun _ => ?_
      refine (inferLocalTy_alike name ascription rfl span).bind_eq fun t => ?_
      have hinner := h.add (Ne.symm fresh.1) (.mono t)
      refine (inferItems_alike scope items hinner fresh.2).bind fun rest rest' hrest => ?_
      exact alike_pure hrest
  | .binding ⟨name, modifiers, ascription, some value, span⟩ :: items, r, own, locals,
      locals', last, h, fresh => by
      rw [Expr.namesItems, List.mem_cons, List.mem_append, not_or, not_or] at fresh
      rw [Expr.substituteItems, inferItems, inferItems]
      refine alike_guard fun _ => ?_
      refine (infer_alike scope value h fresh.2.1).bind fun typed typed' htyped => ?_
      have hlocal : (some (typed.ty, value.span)).map Prod.fst =
          (some (typed'.ty, (value.substitute r).span)).map Prod.fst :=
        congrArg some htyped.ty_eq
      refine (inferLocalTy_alike name ascription hlocal span).bind_eq fun t => ?_
      have hinner := h.add (Ne.symm fresh.1) (.mono t)
      refine (inferItems_alike scope items hinner fresh.2.2).bind fun rest rest' hrest => ?_
      exact alike_pure ⟨.cons htyped hrest.1, hrest.2⟩
termination_by structural items => items

end

/-! ## Closures -/

/-- The name that a name has after one name was changed. -/
def renameTo (x y name : String) : String :=
  if name = x then y else name

theorem renameTo_inj
    {x y name other : String} (hname : name = y → name = x) (hother : other = y → other = x)
    (h : renameTo x y other = renameTo x y name) :
    other = name := by
  unfold renameTo at h
  grind

/-- The parameters of a closure before and after one of them was renamed. -/
theorem renamed_param
    {frame : Table Scheme} {x y : String} (bound : x ∈ frame.names)
    (apart : ∀ name ∈ frame.names, name = y → name = x) (place : Span) :
    Renamed y [(x, .ident y place)] [frame] [frame.rename (renameTo x y)] := by
  constructor
  · intro name hne hname
    have hx : name ≠ x := by
      rintro rfl
      simp [Table.find?] at hname
    have hsame : renameTo x y name = name := if_neg hx
    have hfind := @Table.find?_rename _ (renameTo x y) frame name fun other hother heq =>
      renameTo_inj (fun hy => absurd hy hne) (apart other hother) heq
    rw [hsame] at hfind
    rw [find?_cons, find?_cons, hfind]
  · intro name e hname
    obtain ⟨rfl, rfl⟩ : x = name ∧ .ident y place = e := by
      simpa [Table.find?] using hname
    have hsame : renameTo x y x = y := if_pos rfl
    have hfind := @Table.find?_rename _ (renameTo x y) frame x fun other hother heq =>
      renameTo_inj (fun _ => rfl) (apart other hother) heq
    obtain ⟨scheme, hscheme⟩ := Table.exists_find?_of_mem bound
    rw [hsame, hscheme] at hfind
    refine ⟨place, scheme, rfl, ?_, ?_⟩
    · rw [find?_cons, hscheme, Option.some_or]
    · rw [find?_cons, hfind, Option.some_or]

/-- The two closures: the frames of their parameters differ in one name, and from there on
the bodies go the same way. -/
theorem infer_closure_alike
    (scope : Scope) {params : List (Param Expr)} {body : Expr} {x y : String}
    (bound : x ∈ params.map Param.name) (fresh : y ∉ body.names)
    (apart : ∀ name ∈ params.map Param.name, name = y → name = x) (place span : Span) :
    Alike TypedExpr.SameTypes (scope.infer [] (.closure params body span))
      (scope.infer [] (.closure (params.map (Param.rename (renameTo x y)))
        (body.substitute [(x, .ident y place)]) span)) := by
  have hparams : Alike (fun own own' => own' = own.rename (renameTo x y) ∧
        own.names = params.map Param.name)
      (scope.inferParams [] params)
      (scope.inferParams [] (params.map (Param.rename (renameTo x y)))) := by
    apply inferParams_nil_alike params
    intro name hname other hother heq
    exact renameTo_inj (apart name hname) (apart other hother) heq
  rw [infer, infer]
  refine hparams.bind fun own own' hown => ?_
  obtain ⟨rfl, hnames⟩ := hown
  have hframe : Table.names (own.map fun p => (p.1, Scheme.mono p.2)) =
      params.map Param.name := by
    rw [Table.names_map, hnames]
  rw [← hframe] at bound apart
  have hbody := infer_alike scope body (renamed_param bound apart place) fresh
  have hcommute : (Table.rename (renameTo x y) own).map (fun p => (p.1, Scheme.mono p.2)) =
      Table.rename (renameTo x y) (own.map fun p => (p.1, Scheme.mono p.2)) := by
    simp [Table.rename]
  rw [hcommute]
  refine hbody.bind fun typed typed' htyped => ?_
  refine alike_pure (TypedExpr.sameTypes_of_children ?_ (.cons htyped .nil))
  rw [TypedExpr.ty, TypedExpr.ty, htyped.ty_eq, Table.map_snd_rename]

/-- Inference on a closure does not depend on the names of its parameters: with a parameter
renamed to a name that does not occur in the body, and that no other parameter has, it
succeeds or fails as before, and corresponding nodes have the same types. -/
theorem annotate_rename_param
    (scope : Scope) {params : List (Param Expr)} {body : Expr} {x y : String}
    (bound : x ∈ params.map Param.name) (fresh : y ∉ body.names)
    (apart : ∀ name ∈ params.map Param.name, name = y → name = x) (place span : Span) :
    ((∃ typed, scope.annotate (.closure params body span) = .ok typed) ↔
        ∃ renamed, scope.annotate (.closure (params.map (Param.rename (renameTo x y)))
          (body.substitute [(x, .ident y place)]) span) = .ok renamed) ∧
      ∀ typed renamed, scope.annotate (.closure params body span) = .ok typed →
        scope.annotate (.closure (params.map (Param.rename (renameTo x y)))
          (body.substitute [(x, .ident y place)]) span) = .ok renamed →
        ∀ position, typed.tyAt? position = renamed.tyAt? position := by
  have halike := infer_closure_alike scope bound fresh apart place span
  have hcomplete := scope.complete_alike halike fun s _ _ hsame => hsame.apply s
  exact hcomplete

/-- The parameters of a closure, the first of them a point. -/
def pointAndOther : List (Param Expr) :=
  [⟨"x", some (.ident "Point" default), default⟩, ⟨"k", none, default⟩]

/-- The closure `{ x in x }`, applied to the second parameter. -/
def shadowingCall : Expr :=
  .app (.closure [⟨"x", none, default⟩] (.ident "x" default) default) [.ident "k" default] default

/-- A body that selects the field `x` of the parameter `x`, and then shadows the parameter. -/
def shadowingBody : Expr :=
  .tuple [.member (.ident "x" default) (.named "x") default, shadowingCall] default

/-- Neither the field nor the inner closure is renamed. -/
theorem annotate_rename_param_shadowingBody :
    "x" ∈ pointAndOther.map Param.name ∧ "q" ∉ shadowingBody.names ∧
      shadowingBody.substitute [("x", .ident "q" default)] =
        .tuple [.member (.ident "q" default) (.named "x") default, shadowingCall] default ∧
      ∃ typed renamed,
        pointScope.annotate (.closure pointAndOther shadowingBody default) = .ok typed ∧
        pointScope.annotate (.closure (pointAndOther.map (Param.rename (renameTo "x" "q")))
          (shadowingBody.substitute [("x", .ident "q" default)]) default) = .ok renamed ∧
        typed.tyAt? [0, 0, 0] = some (.named "Point") ∧
        ∀ position, typed.tyAt? position = renamed.tyAt? position := by
  have hbound : "x" ∈ pointAndOther.map Param.name := by decide
  have hfresh : "q" ∉ shadowingBody.names := by decide
  have hapart : ∀ name ∈ pointAndOther.map Param.name, name = "q" → name = "x" := by decide
  have hwithin : (pointScope.completeWithin 9 (pointScope.infer []
      (.closure pointAndOther shadowingBody default))).map (TypedExpr.tyAt? · [0, 0, 0]) =
        some (some (.named "Point")) := by cbv
  obtain ⟨typed, htyped, hty⟩ := Option.map_eq_some_iff.1 hwithin
  have hok := complete_of_completeWithin htyped
  obtain ⟨hiff, hsame⟩ :=
    annotate_rename_param pointScope hbound hfresh hapart default default
  obtain ⟨renamed, hok'⟩ := hiff.1 ⟨typed, hok⟩
  exact ⟨hbound, hfresh, rfl, typed, renamed, hok, hok', hty, hsame typed renamed hok hok'⟩

end Scope

end Ascribe
