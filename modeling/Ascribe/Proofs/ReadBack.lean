import Ascribe.Proofs.Annotations

/-!
# Forms read back as expressions

Evaluation puts forms back into expressions: the arguments of a function into its body, and the
value of a local name into the items after it.  There they are evaluated again.

The two ways of putting a form back agree: a block that begins with a local binding evaluates
like the application of a function, which costs one more level of depth.

A form that evaluation gives comes out of the second evaluation as it went in, at every limit, as
long as nothing in it is left for evaluation to go on with (`Scope.Settled`).  This holds of all
forms inside it as well, and it is kept in this way by everything that evaluation does with forms
(`Scope.Plain.keeps_readsBack`).

Some forms do have something left, even where the limit makes no difference to the first
evaluation.  Their names may mean something else when they are met again: a field that a literal
does not give is named like a member of the type itself, and what stands in the place of a type
name may be the name of a value.  And a function that calls itself until the limit is reached
leaves an application with which the next evaluation goes on.
-/

namespace Ascribe

namespace Scope

variable {scope : Scope}

/-! ## Limits -/

theorem Ends.withDepth
    {tree : CallTree NormalForm} {n : Nat} {outcome : Except TypeError NormalForm}
    (h : scope.Ends tree n outcome) (limit : Nat) :
    (scope.withDepth limit).Ends tree n outcome := by
  induction h with
  | done outcome => exact .done outcome
  | call called resumed ihCalled ihResumed => exact .call ihCalled ihResumed
  | fail called ih => exact .fail ih

/-- Evaluation does not look at the limit of the scope, only at the depth that is left. -/
theorem evalAt_withDepth (scope : Scope) (limit depth : Nat) (e : Expr) :
    (scope.withDepth limit).evalAt depth e = scope.evalAt depth e := by
  obtain ⟨m, hends⟩ := exists_ends scope (.expr depth e)
  obtain ⟨n, hends'⟩ := exists_ends (scope.withDepth limit) (.expr depth e)
  exact ((hends.withDepth limit).unique hends').2

theorem eval_withDepth (scope : Scope) (limit : Nat) (e : Expr) :
    (scope.withDepth limit).eval e = scope.evalAt limit e := by
  rw [eval_eq_evalAt]
  exact evalAt_withDepth scope limit limit e

/-! ## Local names as parameters -/

/-- The application of a function of one parameter: its body is evaluated one level deeper, with
the form of the argument in the place of the parameter. -/
theorem evalAt_app_closure
    (scope : Scope) (limit : Nat) (p : Param Expr) (body value : Expr) (span span' : Span) :
    scope.evalAt (limit + 1) (.app (.closure [p] body span) [value] span') =
      scope.evalAt (limit + 1) value >>= fun form =>
        scope.evalAt limit (body.substitute [(p.name, form.quote)]) := by
  have hhead (form : NormalForm) : Head.ofApp (.closure [p.name] body) [form] =
      .expand (body.substitute [(p.name, form.quote)]) (.app (.closure [p.name] body) [form]) :=
    rfl
  simp only [evalAt, evalAll]
  cases scope.evalAt (limit + 1) value with
  | error e => rfl
  | ok form =>
      simp only [bind, Except.bind, pure, Except.pure, List.map_cons, List.map_nil, hhead, finish]

/-- A block that begins with a local binding evaluates like the application of a function, whose
body is the rest of the block, with one more level of depth for the application. -/
theorem eval_block_eq_eval_app
    (scope : Scope) {limit : Nat} {value : Expr}
    (same : (scope.withDepth limit).eval value = (scope.withDepth (limit + 1)).eval value)
    (name : String) (modifiers : List Modifier) (ascription ascription' : Option Expr)
    (rest : List (Item Expr Expr)) (place place' span span' body closure : Span) :
    (scope.withDepth limit).eval
        (.block (.binding ⟨name, modifiers, ascription, some value, place⟩ :: rest) span) =
      (scope.withDepth (limit + 1)).eval
        (.app (.closure [⟨name, ascription', place'⟩] (.block rest body) closure) [value]
          span') := by
  simp only [eval_withDepth] at same ⊢
  rw [evalAt_app_closure, ← same, evalAt, evalItems]
  -- what is replaced in the body of the function is replaced in the items of the block
  refine congrArg _ (funext fun form => ?_)
  rw [Expr.substitute, evalAt]

def counterStartExpr : Expr :=
  .member (.ident "Counter" default) (.named "start") default

/-- A local name together with a function that hides it. -/
def useAndHide : List (Item Expr Expr) :=
  [.expr (.tuple [.ident "c" default,
    .closure [⟨"c", none, default⟩] (.ident "c" default) default] default)]

theorem eval_block_eq_eval_app_counterStart :
    (counterScope.withDepth 1).eval counterStartExpr =
        (counterScope.withDepth 2).eval counterStartExpr ∧
      (counterScope.withDepth 2).eval
          (.app (.closure [⟨"c", none, default⟩] (.block useAndHide default) default)
            [counterStartExpr] default) =
        .ok (.tuple [.literal (.int 0), .closure ["c"] (.ident "c" default)]) := by
  have hsame : (counterScope.withDepth 1).eval counterStartExpr =
      (counterScope.withDepth 2).eval counterStartExpr := by
    cbv
  refine ⟨hsame, ?_⟩
  rw [← eval_block_eq_eval_app counterScope hsame "c" [] none none useAndHide default default
    default]
  cbv

end Scope

/-! ## Forms inside forms -/

namespace NormalForm

mutual

/-- A form with all forms inside it.  The body of a closure is no form. -/
def subforms : NormalForm → List NormalForm
  | .closure params body => [.closure params body]
  | .literal value => [.literal value]
  | .cond condition thenBranch none => .cond condition thenBranch none :: thenBranch.subforms
  | .cond condition thenBranch (some elseBranch) =>
      .cond condition thenBranch (some elseBranch) ::
        (thenBranch.subforms ++ elseBranch.subforms)
  | .tuple elems => .tuple elems :: subformsAll elems
  | .structLit type fields => .structLit type fields :: subformsFields fields
  | .tycon name args => .tycon name args :: subformsAll args
  | .arrow params result => .arrow params result :: (subformsAll params ++ result.subforms)
  | .ident name => [.ident name]
  | .app fn args => .app fn args :: (fn.subforms ++ subformsAll args)
  | .member base selector => .member base selector :: base.subforms

def subformsAll : List NormalForm → List NormalForm
  | [] => []
  | form :: forms => form.subforms ++ subformsAll forms

def subformsFields : List (String × NormalForm) → List NormalForm
  | [] => []
  | (_, value) :: rest => value.subforms ++ subformsFields rest

end

/-- A form and all forms inside it have a property. -/
def Throughout (P : NormalForm → Prop) (form : NormalForm) : Prop :=
  ∀ part ∈ form.subforms, P part

instance {P : NormalForm → Prop} [DecidablePred P] (form : NormalForm) :
    Decidable (form.Throughout P) :=
  inferInstanceAs (Decidable (∀ part ∈ form.subforms, P part))

/-- The forms right inside a form. -/
def parts : NormalForm → List NormalForm
  | .closure _ _ | .literal _ | .ident _ => []
  | .cond _ thenBranch elseBranch => thenBranch :: elseBranch.toList
  | .tuple elems => elems
  | .structLit _ fields => fields.map Prod.snd
  | .tycon _ args => args
  | .arrow params result => params ++ [result]
  | .app fn args => fn :: args
  | .member base _ => [base]

theorem mem_subformsAll {part : NormalForm} {forms : List NormalForm} :
    part ∈ subformsAll forms ↔ ∃ form ∈ forms, part ∈ form.subforms := by
  induction forms with
  | nil => simp [subformsAll]
  | cons form forms ih => simp [subformsAll, ih]

theorem subformsFields_eq (fields : List (String × NormalForm)) :
    subformsFields fields = subformsAll (fields.map Prod.snd) := by
  induction fields with
  | nil => rfl
  | cons field rest ih =>
      obtain ⟨name, value⟩ := field
      rw [subformsFields, List.map_cons, subformsAll, ih]

theorem mem_subforms {part form : NormalForm} :
    part ∈ form.subforms ↔ part = form ∨ ∃ inner ∈ form.parts, part ∈ inner.subforms := by
  cases form with
  | closure | literal | ident => simp [subforms, parts]
  | cond condition thenBranch elseBranch =>
      cases elseBranch with
      | none | some => simp [subforms, parts]
  | tuple | tycon | app | member => simp [subforms, parts, mem_subformsAll]
  | structLit => simp [subforms, parts, subformsFields_eq, mem_subformsAll]
  | arrow => simp [subforms, parts, mem_subformsAll, or_and_right, exists_or]

theorem throughout_iff {P : NormalForm → Prop} {form : NormalForm} :
    form.Throughout P ↔ P form ∧ ∀ part ∈ form.parts, part.Throughout P := by
  constructor
  · intro h
    refine ⟨h form (mem_subforms.2 (.inl rfl)), ?_⟩
    intro part hpart inner hinner
    exact h inner (mem_subforms.2 (.inr ⟨part, hpart, hinner⟩))
  · rintro ⟨hform, hparts⟩ part hpart
    rcases mem_subforms.1 hpart with rfl | ⟨inner, hinner, hpart⟩
    · exact hform
    · exact hparts inner hinner part hpart

end NormalForm

/-! ## Forms that are left over -/

/-- Whether evaluation has something to put in the place of the name of an entry. -/
def Entry.unfolds : Entry → Bool
  | .binding value _ => value.isSome
  | .function _ body _ => body.isSome

theorem Head.ofEntry_of_not_unfolds
    {entry : Entry} (h : entry.unfolds = false) (symbolic : NormalForm) :
    Head.ofEntry symbolic entry = .done symbolic := by
  cases entry with
  | binding value scheme =>
      cases value with
      | none => rfl
      | some value => cases h
  | function params body scheme =>
      cases body with
      | none => rfl
      | some body => cases h

namespace Scope

/-- Whether evaluation goes on with a form when it meets it again: a name with a value or a body,
a function applied to as many arguments as it has parameters, or a member of a type that is not
one of its static members without a value or a body. -/
def goesOn (scope : Scope) : NormalForm → Bool
  | .ident name | .cond name _ _ => (scope.lookup name).any Entry.unfolds
  | .app (.closure params _) args => params.length = args.length
  | .member (.tycon owner _) (.named name) =>
      (scope.lookupType owner).all fun d =>
        (d.nested? name).isSome || (d.static? name).all Entry.unfolds
  | _ => false

/-- Nothing in a form is left for evaluation to go on with. -/
def Settled (scope : Scope) (form : NormalForm) : Prop :=
  form.Throughout fun part => scope.goesOn part = false

instance (scope : Scope) (form : NormalForm) : Decidable (scope.Settled form) :=
  inferInstanceAs (Decidable (form.Throughout fun part => scope.goesOn part = false))

/-! ## Reading back -/

open NormalForm

variable {scope : Scope} {limit : Nat}

theorem evalAll_quoteAll
    {forms : List NormalForm} (h : ∀ form ∈ forms, scope.evalAt limit form.quote = .ok form) :
    scope.evalAll limit (quoteAll forms) = .ok forms := by
  induction forms with
  | nil => rw [quoteAll, evalAll]
  | cons form forms ih =>
      rw [List.forall_mem_cons] at h
      rw [quoteAll, evalAll, h.1, ih h.2]
      rfl

theorem evalFields_quoteFields
    {fields : List (String × NormalForm)}
    (h : ∀ form ∈ fields.map Prod.snd, scope.evalAt limit form.quote = .ok form) :
    scope.evalFields limit (quoteFields fields) = .ok fields := by
  induction fields with
  | nil => rw [quoteFields, evalFields]
  | cons field rest ih =>
      obtain ⟨name, value⟩ := field
      rw [List.map_cons, List.forall_mem_cons] at h
      rw [quoteFields, evalFields, h.1, ih h.2]
      rfl

/-- A settled form is read back as it is. -/
def ReadsBack (scope : Scope) (limit : Nat) (form : NormalForm) : Prop :=
  scope.Settled form → scope.evalAt limit form.quote = .ok form

/-- A form is read back throughout when its parts are, and the form itself is read back from its
parts. -/
theorem throughout_readsBack
    {form : NormalForm} (hparts : ∀ part ∈ form.parts, part.Throughout (scope.ReadsBack limit))
    (hform : scope.goesOn form = false →
      (∀ part ∈ form.parts, scope.evalAt limit part.quote = .ok part) →
        scope.evalAt limit form.quote = .ok form) :
    form.Throughout (scope.ReadsBack limit) := by
  refine throughout_iff.2 ⟨fun hsettled => ?_, hparts⟩
  obtain ⟨hstop, hsettledParts⟩ := throughout_iff.1 hsettled
  refine hform hstop fun part hpart => ?_
  exact (throughout_iff.1 (hparts part hpart)).1 (hsettledParts part hpart)

theorem throughout_readsBack_closure (params : List String) (body : Expr) :
    (closure params body).Throughout (scope.ReadsBack limit) := by
  refine throughout_readsBack (by simp [parts]) fun _ _ => ?_
  rw [quote, evalAt]
  simp [Function.comp_def]

theorem throughout_readsBack_tycon
    {name : String} {args : List NormalForm} (hname : scope.Stands name)
    (hargs : ∀ form ∈ args, form.Throughout (scope.ReadsBack limit)) :
    (tycon name args).Throughout (scope.ReadsBack limit) := by
  obtain ⟨d, hd⟩ := hname
  refine throughout_readsBack hargs fun _ heval => ?_
  have hforms : scope.evalAll limit (quoteAll args) = .ok args := evalAll_quoteAll heval
  rw [quote, evalAt]
  simp only [hd, hforms]
  rfl

/-- A name that has no value and is no type is read back. -/
theorem throughout_readsBack_ident
    {name : String} (hfree : scope.lookup name = none → scope.resolveType name = none) :
    (ident name).Throughout (scope.ReadsBack limit) := by
  refine throughout_readsBack (by simp [parts]) fun hstop _ => ?_
  have hhead : scope.nameHead name = .done (.ident name) := by
    rw [nameHead]
    cases hlookup : scope.lookup name with
    | none => simp only [hfree hlookup]
    | some entry =>
        rw [goesOn, hlookup] at hstop
        exact Head.ofEntry_of_not_unfolds hstop _
  rw [quote, evalAt, hhead, finish]

/-- A selection is read back when it comes to nothing. -/
theorem throughout_readsBack_member
    {base : NormalForm} {selector : Selector} (hbase : base.Throughout (scope.ReadsBack limit))
    (hselect : scope.goesOn (.member base selector) = false →
      scope.selectHead base selector .blank = .ok (.done (.member base selector))) :
    (member base selector).Throughout (scope.ReadsBack limit) := by
  refine throughout_readsBack (List.forall_mem_singleton.2 hbase) fun hstop heval => ?_
  rw [quote, evalAt, heval base (List.mem_singleton_self _)]
  simp only [bind, Except.bind, hselect hstop, finish]

/-- The name of a member of a type is read back.  It may have been the name of a field. -/
theorem throughout_readsBack_memberOfType
    {owner : String} (howner : scope.Stands owner) (name : String) :
    (member (.tycon owner []) (.named name)).Throughout (scope.ReadsBack limit) := by
  refine throughout_readsBack_member (throughout_readsBack_tycon howner (by simp)) fun hstop => ?_
  rw [goesOn] at hstop
  rw [selectHead]
  cases hd : scope.lookupType owner with
  | none => simp [hd] at hstop
  | some d =>
      rw [hd, Option.all_some, Bool.or_eq_false_iff] at hstop
      obtain ⟨hnested, hstatic⟩ := hstop
      cases hentry : d.static? name with
      | none => simp [hentry] at hstatic
      | some entry =>
          rw [hentry, Option.all_some] at hstatic
          simp only [hnested, hentry, memberHead, Head.ofEntry_of_not_unfolds hstatic]
          rfl

theorem throughout_readsBack_app
    {fn : NormalForm} {args : List NormalForm} (hfn : fn.Throughout (scope.ReadsBack limit))
    (hargs : ∀ form ∈ args, form.Throughout (scope.ReadsBack limit)) :
    (app fn args).Throughout (scope.ReadsBack limit) := by
  refine throughout_readsBack (List.forall_mem_cons.2 ⟨hfn, hargs⟩) fun hstop heval => ?_
  have hhead : Head.ofApp fn args = .done (.app fn args) := by
    cases fn with
    | closure params body => exact if_neg (of_decide_eq_false hstop)
    | literal | cond | tuple | structLit | tycon | arrow | ident | app | member => rfl
  rw [parts, List.forall_mem_cons] at heval
  rw [quote, evalAt, heval.1, evalAll_quoteAll heval.2]
  simp only [bind, Except.bind, hhead, finish]

theorem throughout_readsBack_cond
    {name : String} {thenForm : NormalForm} {elseForm : Option NormalForm}
    (hname : (ident name).Throughout (scope.ReadsBack limit))
    (hthen : thenForm.Throughout (scope.ReadsBack limit))
    (helse : ∀ form ∈ elseForm, form.Throughout (scope.ReadsBack limit)) :
    (cond name thenForm elseForm).Throughout (scope.ReadsBack limit) := by
  refine throughout_readsBack (by simpa [parts] using ⟨hthen, helse⟩) fun hstop heval => ?_
  -- the condition is not one of the parts, but it goes on as the conditional does
  have hcondition : scope.evalAt limit (.ident name .blank) = .ok (.ident name) :=
    (throughout_iff.1 hname).1 (throughout_iff.2 ⟨hstop, by simp [parts]⟩)
  rw [parts, List.forall_mem_cons] at heval
  cases elseForm with
  | none =>
      rw [quote, evalAt, hcondition]
      simp only [bind, Except.bind, heval.1]
      rfl
  | some elseForm =>
      rw [quote, evalAt, hcondition]
      simp only [bind, Except.bind, heval.1, heval.2 elseForm (List.mem_singleton_self _)]
      rfl

theorem Plain.throughout_readsBack_structLit
    (h : scope.Plain) (type : String) {fields : List (String × NormalForm)}
    (hfields : ∀ field ∈ fields, field.2.Throughout (scope.ReadsBack limit)) :
    (structLit (((scope.resolveType type).map Prod.fst).getD type) fields).Throughout
      (scope.ReadsBack limit) := by
  have htype : ((scope.resolveType type).map Prod.fst).getD type = type := by
    cases hfound : scope.resolveType type with
    | none => rfl
    | some found => exact fst_eq_of_resolveType h.base hfound
  rw [htype]
  refine throughout_readsBack ?_ fun _ heval => ?_
  · intro form hform
    obtain ⟨field, hfield, rfl⟩ := List.mem_map.1 hform
    exact hfields field hfield
  · rw [quote, evalAt, evalFields_quoteFields heval]
    simp only [bind, Except.bind, htype]
    rfl

/-- Where names lead to themselves, evaluation gives forms that are read back throughout. -/
theorem Plain.keeps_readsBack (h : scope.Plain) (limit : Nat) :
    scope.Keeps (NormalForm.Throughout (scope.ReadsBack limit)) where
  literal value := by
    refine throughout_readsBack (by simp [parts]) fun _ _ => ?_
    rw [quote, evalAt]
  closure := throughout_readsBack_closure
  cond := throughout_readsBack_cond
  tuple {elems} hparts := by
    refine throughout_readsBack hparts fun _ heval => ?_
    have hforms : scope.evalAll limit (quoteAll elems) = .ok elems := evalAll_quoteAll heval
    rw [quote, evalAt, hforms]
    rfl
  elem hwhole hmem := (throughout_iff.1 hwhole).2 _ hmem
  structLit := h.throughout_readsBack_structLit
  field hwhole hform :=
    (throughout_iff.1 hwhole).2 _ (List.mem_map.2 ⟨_, Table.mem_of_find? hform, rfl⟩)
  tycon hfound hparts := throughout_readsBack_tycon (h.stands hfound) hparts
  nested hd hinner := throughout_readsBack_tycon (h.stands_nested hd hinner) (by simp)
  ident := throughout_readsBack_ident
  arrow {params result} hparts hlast := by
    refine throughout_readsBack ?_ fun _ heval => ?_
    · exact List.forall_mem_append.2 ⟨hparts, List.forall_mem_singleton.2 hlast⟩
    · rw [parts, List.forall_mem_append, List.forall_mem_singleton] at heval
      rw [quote, evalAt, evalAll_quoteAll heval.1]
      simp only [bind, Except.bind, heval.2]
      rfl
  app := throughout_readsBack_app
  member hwhole hstuck := throughout_readsBack_member hwhole fun _ => hstuck .blank
  memberOfType hd :=
    throughout_readsBack_memberOfType ⟨_, h.resolveType_of_lookupType hd⟩

/-- In a module whose type names have no dots, a form that evaluation gives is read back as it is
at every limit, if nothing in it is left for evaluation to go on with. -/
theorem eval_quote
    {options : Options} {ds : List (Declaration Expr)}
    (undotted : ∀ name ∈ Declaration.typeNamesAll ds, '.' ∉ name.toList)
    (built : build options ds = .ok scope) {e : Expr} {form : NormalForm}
    (evaluated : (scope.withDepth limit).eval e = .ok form) (settled : scope.Settled form)
    (other : Nat) :
    (scope.withDepth other).eval form.quote = .ok form := by
  rw [eval_withDepth] at evaluated ⊢
  have hkeeps := (plain_of_build undotted built).keeps_readsBack other
  have hform := forall_of_yields hkeeps.yields_callTree evaluated
  exact (throughout_iff.1 hform).1 settled

/-- A counter whose field is not known, with the cases of a type that is passed to a function. -/
def unknownCounter : Expr :=
  .tuple [.structLit "Counter" [("count", .ident "unknown" default)] default,
    .app
      (.closure [⟨"t", none, default⟩]
        (.tuple [.member (.ident "t" default) (.named "one") default,
          .app (.ident "unknown" default) [.ident "t" default] default] default)
        default)
      [.member (.ident "Counter" default) (.named "Step") default] default] default

def unknownCounterForm : NormalForm :=
  .tuple [.structLit "Counter" [("count", .ident "unknown")],
    .tuple [.member (.tycon "Counter.Step" []) (.named "one"),
      .app (.ident "unknown") [.tycon "Counter.Step" []]]]

theorem eval_quote_unknownCounter :
    (counterScope.withDepth 1).eval unknownCounter = .ok unknownCounterForm ∧
      (counterScope.withDepth 0).eval unknownCounterForm.quote = .ok unknownCounterForm := by
  have hundotted : ∀ name ∈ Declaration.typeNamesAll counterModule, '.' ∉ name.toList := by
    decide
  have hevaluated : (counterScope.withDepth 1).eval unknownCounter = .ok unknownCounterForm := by
    cbv
  have hsettled : counterScope.Settled unknownCounterForm := by
    decide
  exact ⟨hevaluated, eval_quote hundotted build_counterModule hevaluated hsettled 0⟩

/-! ## Forms that are not read back -/

/-- An expression has the same form at all limits from some limit on, but there is no limit from
which on the form is read back at all limits. -/
def Strays (scope : Scope) (e : Expr) (form : NormalForm) : Prop :=
  (∃ least, ∀ limit, least ≤ limit → (scope.withDepth limit).eval e = .ok form) ∧
    ¬ ∃ least, ∀ limit, least ≤ limit → (scope.withDepth limit).eval form.quote = .ok form

theorem strays_of_evalAt
    {e : Expr} {form : NormalForm} {outcome : Except TypeError NormalForm}
    (hsame : ∀ limit, scope.evalAt (limit + 1) e = .ok form)
    (hread : ∀ limit, scope.evalAt (2 * limit + 1) form.quote = outcome)
    (hne : outcome ≠ .ok form) :
    scope.Strays e form := by
  constructor
  · refine ⟨1, fun limit hlimit => ?_⟩
    obtain ⟨limit, rfl⟩ := Nat.exists_eq_add_of_le' hlimit
    rw [eval_withDepth]
    exact hsame limit
  · rintro ⟨least, hleast⟩
    have hodd := hleast (2 * least + 1) (by omega)
    rw [eval_withDepth, hread] at hodd
    exact hne hodd

/-- A body that calls its function again with the arguments in the other order. -/
def swapBody : Expr :=
  .block [.expr (.app (.ident "swap" default) [.ident "y" default, .ident "x" default] default)]
    default

/-- A field without a value, a nested type with a dot in its name, a value, and a function that
never ends. -/
def strayModule : List (Declaration Expr) :=
  [.type .struct "Point" [] [.binding ⟨"x", [], some (.ident "Int32" default), none, default⟩]
      default,
    .type .struct "Outer" [] [.type .struct "In.ner" [] [] default] default,
    .binding ⟨"one", [], none, some (.literal (.int 1) default), default⟩,
    .function ⟨"swap", [], [⟨none, "x", .ident "Int32" default, default⟩,
        ⟨none, "y", .ident "Int32" default, default⟩],
      some (.ident "Int32" default), some swapBody, default⟩]

def strayScope : Scope :=
  ⟨⟨none, [("one", .binding (some (.literal (.int 1) default)) (.mono .int)),
      ("swap", .function ["x", "y"] (some swapBody) (.mono (.arrow [.int, .int] .int)))],
    [("Point", .struct ⟨[("x", .binding none (.mono .int))], [], []⟩),
      ("Outer", .struct ⟨[], [], [("In.ner", .empty .struct)]⟩)]⟩, [.prelude], .standard⟩

/-- A field that the literal does not give is named as if it belonged to the type. -/
theorem strays_field :
    strayScope.Strays (.member (.structLit "Point" [] default) (.named "x") default)
      (.member (.tycon "Point" []) (.named "x")) := by
  have hread (limit : Nat) :
      strayScope.evalAt (2 * limit + 1) (quote (.member (.tycon "Point" []) (.named "x"))) =
        .error ⟨.unknownMember (.named "Point") (.named "x"), .blank⟩ := by
    cbv
  exact strays_of_evalAt (fun limit => by cbv) hread (by simp)

/-- The name of a value in the place of a type name stays a name. -/
theorem strays_value : strayScope.Strays (.tycon "one" [] default) (.ident "one") := by
  have hread (limit : Nat) :
      strayScope.evalAt (2 * limit + 1) (quote (.ident "one")) = .ok (.literal (.int 1)) := by
    cbv
  exact strays_of_evalAt (fun limit => by cbv) hread (by simp)

/-- The qualified name of a nested type whose own name has a dot leads nowhere. -/
theorem strays_dotted :
    strayScope.Strays (.member (.ident "Outer" default) (.named "In.ner") default)
      (.tycon "Outer.In.ner" []) := by
  have hread (limit : Nat) : strayScope.evalAt (2 * limit + 1) (quote (.tycon "Outer.In.ner" [])) =
      .ok (.ident "Outer.In.ner") := by
    cbv
  exact strays_of_evalAt (fun limit => by cbv) hread (by simp)

def swapCall (a b : Literal) : Expr :=
  .app (.ident "swap" default) [.literal a default, .literal b default] default

def swapForm (a b : Literal) : NormalForm :=
  .app (.closure ["x", "y"] swapBody) [.literal a, .literal b]

/-- The limit decides in which order the arguments are left. -/
theorem evalAt_swapForm (limit : Nat) (a b : Literal) :
    strayScope.evalAt limit (swapForm a b).quote =
      .ok (if limit % 2 = 0 then swapForm a b else swapForm b a) := by
  induction limit generalizing a b with
  | zero => cbv
  | succ limit ih =>
      have hstep : strayScope.evalAt (limit + 1) (swapForm a b).quote =
          strayScope.evalAt limit (swapForm b a).quote := by
        cbv
      rw [hstep, ih]
      rcases Nat.mod_two_eq_zero_or_one limit with h | h
      · rw [if_pos h, if_neg (by omega)]
      · rw [if_neg (by omega), if_pos (by omega)]

def identityCall (e : Expr) : Expr :=
  .app (.closure [⟨"z", none, default⟩] (.ident "z" default) default) [e] default

/-- The argument is evaluated twice, at limits that differ by one.  Together they leave the two
numbers swapped, whatever the limit is, but the next evaluation does so at every other limit
only. -/
theorem strays_loop :
    strayScope.Strays (identityCall (swapCall (.int 1) (.int 2)))
      (swapForm (.int 2) (.int 1)) := by
  have hcall (limit : Nat) (a b : Literal) : strayScope.evalAt (limit + 1) (swapCall a b) =
      strayScope.evalAt limit (swapForm b a).quote := by
    cbv
  have hread (limit : Nat) :
      strayScope.evalAt (2 * limit + 1) (swapForm (.int 2) (.int 1)).quote =
        .ok (swapForm (.int 1) (.int 2)) := by
    rw [evalAt_swapForm, if_neg (by omega)]
  refine strays_of_evalAt (fun limit => ?_) hread (by simp [swapForm])
  rw [identityCall, evalAt_app_closure, hcall, evalAt_swapForm]
  -- the parameter is the whole body, so the form of the argument is evaluated again
  change strayScope.evalAt limit (quote _) = _
  split
  · rw [evalAt_swapForm, if_pos ‹_›]
  · rw [evalAt_swapForm, if_neg ‹_›]

/-- Four kinds of forms that do not depend on the limit and are not read back. -/
theorem strays_strayModule :
    build .standard strayModule = .ok strayScope ∧
      strayScope.Strays (.member (.structLit "Point" [] default) (.named "x") default)
        (.member (.tycon "Point" []) (.named "x")) ∧
      strayScope.Strays (.tycon "one" [] default) (.ident "one") ∧
      strayScope.Strays (.member (.ident "Outer" default) (.named "In.ner") default)
        (.tycon "Outer.In.ner" []) ∧
      strayScope.Strays (identityCall (swapCall (.int 1) (.int 2)))
        (swapForm (.int 2) (.int 1)) :=
  ⟨by cbv, strays_field, strays_value, strays_dotted, strays_loop⟩

end Scope

end Ascribe
