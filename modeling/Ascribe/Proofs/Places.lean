import Ascribe.Proofs.Generation

/-!
# Places

A constraint knows the place it comes from, and an error is reported there.  Places decide
nothing else: constraints that are the same up to their places are solved alike, step by
step.  So two runs of generation are compared by whether they succeed, by their results, by
what they have taken from the supply and by what they have collected up to places
(`Infer.Alike`).
-/

namespace Ascribe

/-- Two outcomes with the same result, if any, are equal successes or two failures. -/
theorem toOption_eq_cases
    {ε α : Type} {x y : Except ε α} (h : x.toOption = y.toOption) :
    (∃ a, x = .ok a ∧ y = .ok a) ∨ ((∃ e, x = .error e) ∧ ∃ e, y = .error e) := by
  cases x with
  | ok a =>
      cases y with
      | ok b =>
          cases h
          exact .inl ⟨a, rfl, rfl⟩
      | error e => cases h
  | error e =>
      cases y with
      | ok b => cases h
      | error e' => exact .inr ⟨⟨e, rfl⟩, e', rfl⟩

/-! ## Looking up -/

namespace Scope

theorem memberOf_place
    (scope : Scope) (owner : Ty) (name : String) (selector : Selector)
    (find : Definition → String → Option Entry) (span place : Span) :
    (scope.memberOf owner name selector span find).toOption =
      (scope.memberOf owner name selector place find).toOption := by
  unfold memberOf
  split
  · rfl
  · split
    · rfl
    · split <;> rfl

/-- A member is found or not, wherever it is looked up. -/
theorem select_place
    (scope : Scope) (receiver : Ty) (selector : Selector) (span place : Span) :
    (scope.select receiver selector span).toOption =
      (scope.select receiver selector place).toOption := by
  cases receiver with
  | var v => rfl
  | arrow params result => rfl
  | con name args =>
      have hselect : ∀ place, (scope.select (.con name args) selector place).toOption =
          (scope.instanceMember (.con name args) name selector place).toOption.map some := by
        intro place
        rw [select]
        cases scope.instanceMember (.con name args) name selector place <;> rfl
      rw [hselect, hselect, instanceMember, instanceMember, memberOf_place]
  | tuple elems =>
      cases selector with
      | named member => rfl
      | index position =>
          simp only [select]
          cases elems[position]? <;> rfl

theorem fieldScheme_place
    (owner : Ty) (d : Definition) (name : String) (span place : Span) :
    (fieldScheme owner d name span).toOption = (fieldScheme owner d name place).toOption := by
  unfold fieldScheme
  split <;> rfl

end Scope

/-! ## Solving -/

/-- The constraint without its place. -/
def MemberConstraint.unplaced (m : MemberConstraint) : MemberConstraint :=
  ⟨m.receiver, m.selector, m.expected, .blank⟩

/-- The constraint without its place. -/
def Constraint.unplaced : Constraint → Constraint
  | .equal left right _ => .equal left right .blank
  | .member m => .member m.unplaced
  | .result expected actual _ => .result expected actual .blank

/-- The state without the places of its constraints. -/
def Solver.unplaced (solver : Solver Supply) : Solver Supply :=
  ⟨solver.pending.map Constraint.unplaced, solver.deferred.map MemberConstraint.unplaced,
    solver.subst, solver.supply⟩

/-- What a step gives, without the places of the constraints that are left. -/
def Step.unplaced : Step Supply → Step Supply
  | .next solver => .next solver.unplaced
  | .done s => .done s

namespace Solver

theorem settle_unplaced (policy : MemberPolicy) (solver : Solver Supply) :
    (solver.unplaced.settle policy).toOption =
      (solver.settle policy).toOption.map Step.unplaced := by
  obtain ⟨pending, deferred, s, supply⟩ := solver
  cases deferred with
  | nil => rfl
  | cons first rest =>
      have hany : (first.unplaced :: rest.map MemberConstraint.unplaced).any (isKnown s) =
          (first :: rest).any (isKnown s) := by
        rw [← List.map_cons, List.any_map]
        rfl
      simp only [settle, unplaced, List.map_cons, hany]
      split
      · simp [Step.unplaced, unplaced, Constraint.unplaced, Function.comp_def, Except.toOption]
      · cases policy <;> rfl

theorem resolveMember_unplaced
    (scope : Scope) (solver : Solver Supply) (rest : List Constraint) (m : MemberConstraint) :
    (solver.unplaced.resolveMember scope (rest.map Constraint.unplaced) m.unplaced).toOption =
      (solver.resolveMember scope rest m).toOption.map Step.unplaced := by
  simp only [resolveMember, MemberConstraint.unplaced]
  rcases toOption_eq_cases (scope.select_place m.receiver m.selector .blank m.span) with
    ⟨found, hblank, hplaced⟩ | ⟨⟨e, hblank⟩, e', hplaced⟩
  · rw [hblank, hplaced]
    cases found with
    | none => simp [Step.unplaced, unplaced, MemberConstraint.unplaced, Except.toOption]
    | some scheme => rfl
  · rw [hblank, hplaced]
    rfl

/-- A step goes the same way when the places are taken away. -/
theorem step_unplaced (scope : Scope) (policy : MemberPolicy) (solver : Solver Supply) :
    (solver.unplaced.step scope policy).toOption =
      (solver.step scope policy).toOption.map Step.unplaced := by
  obtain ⟨pending, deferred, s, supply⟩ := solver
  cases pending with
  | nil => exact settle_unplaced policy ⟨[], deferred, s, supply⟩
  | cons c rest =>
      cases c with
      | equal left right span =>
          simp only [step, unplaced, List.map_cons, Constraint.unplaced, Constraint.apply]
          cases unify (s.apply left) (s.apply right) <;> rfl
      | result expected actual span =>
          simp only [step, unplaced, List.map_cons, Constraint.unplaced, Constraint.apply]
          cases unify (s.apply expected) (s.apply actual) <;> rfl
      | member m =>
          exact resolveMember_unplaced scope ⟨.member m :: rest, deferred, s, supply⟩ rest
            (m.apply s)

/-- What solving finds after a step. -/
def resume? (scope : Scope) (policy : MemberPolicy) : Step Supply → Option Subst
  | .next solver => (solver.solve scope policy).toOption
  | .done s => some s

theorem toOption_solve (scope : Scope) (policy : MemberPolicy) (solver : Solver Supply) :
    (solver.solve scope policy).toOption =
      (solver.step scope policy).toOption.bind (resume? scope policy) := by
  rw [solve]
  split <;> simp_all [resume?, Except.toOption]

/-- Solving finds the same substitution when the places are taken away. -/
theorem solve_unplaced (scope : Scope) (policy : MemberPolicy) (solver : Solver Supply) :
    (solver.unplaced.solve scope policy).toOption = (solver.solve scope policy).toOption := by
  fun_induction solve scope policy solver with
  | case1 solver e hstep =>
      rw [toOption_solve, step_unplaced, hstep]
      rfl
  | case2 solver s hstep =>
      rw [toOption_solve, step_unplaced, hstep]
      rfl
  | case3 solver next hstep ih =>
      rw [toOption_solve, step_unplaced, hstep]
      exact ih

end Solver

/-! ## Generation -/

/-- Two states have the same supply and have collected the same, up to places. -/
structure InferState.Alike (state other : InferState Supply) : Prop where
  supply : state.supply = other.supply
  constraints : state.constraints.map Constraint.unplaced =
    other.constraints.map Constraint.unplaced

theorem Scope.solveInferred_alike
    (scope : Scope) {state other : InferState Supply} (h : state.Alike other) :
    (scope.solveInferred state).toOption = (scope.solveInferred other).toOption := by
  have hstart : (Solver.start state.constraints state.supply).unplaced =
      (Solver.start other.constraints other.supply).unplaced := by
    simp only [Solver.start, Solver.unplaced, h.constraints, h.supply]
  rw [solveInferred, solveInferred, ← Solver.solve_unplaced, hstart, Solver.solve_unplaced]

namespace Infer

variable {α β γ δ : Type} {R : α → β → Prop} {S : γ → δ → Prop}

/-- Two runs have succeeded with related results in states that are alike, or have both
failed. -/
inductive Agree (R : α → β → Prop) :
    EStateM.Result TypeError (InferState Supply) α →
      EStateM.Result TypeError (InferState Supply) β → Prop where
  | ok {a : α} {b : β} {final other : InferState Supply} (related : R a b)
      (states : final.Alike other) :
      Agree R (.ok a final) (.ok b other)
  | error {e e' : TypeError} {final other : InferState Supply} :
      Agree R (.error e final) (.error e' other)

/-- From states that are alike, two steps succeed with related results in states that are
alike, or both fail. -/
def Alike (R : α → β → Prop) (x : Infer Supply α) (x' : Infer Supply β) : Prop :=
  ∀ state other, state.Alike other → Agree R (x state) (x' other)

theorem alike_pure {a : α} {b : β} (h : R a b) :
    Alike R (pure a) (pure b) :=
  fun _ _ states => .ok h states

theorem Alike.bind
    {x : Infer Supply α} {x' : Infer Supply β} {f : α → Infer Supply γ} {f' : β → Infer Supply δ}
    (hx : Alike R x x') (hf : ∀ a b, R a b → Alike S (f a) (f' b)) :
    Alike S (x >>= f) (x' >>= f') := by
  intro state other states
  have hfirst := hx state other states
  simp only [Bind.bind, EStateM.bind]
  generalize x state = first at hfirst
  generalize x' other = second at hfirst
  cases hfirst with
  | ok related middle => exact hf _ _ related _ _ middle
  | error => exact .error

/-- Steps with the same result go on with it. -/
theorem Alike.bind_eq
    {x x' : Infer Supply α} {f : α → Infer Supply γ} {f' : α → Infer Supply δ} (hx : Alike Eq x x')
    (hf : ∀ a, Alike S (f a) (f' a)) :
    Alike S (x >>= f) (x' >>= f') := by
  refine hx.bind fun a b heq => ?_
  subst heq
  exact hf a

theorem alike_lift {x x' : Except TypeError α} (h : x.toOption = x'.toOption) :
    Alike Eq (lift x) (lift x') := by
  intro state other states
  rcases toOption_eq_cases h with ⟨a, rfl, rfl⟩ | ⟨⟨e, rfl⟩, e', rfl⟩
  · exact .ok rfl states
  · exact .error

theorem alike_fresh :
    Alike Eq fresh fresh := by
  rintro ⟨supply, constraints⟩ ⟨supply', constraints'⟩ ⟨hsupply, hconstraints⟩
  cases hsupply
  exact .ok rfl ⟨rfl, hconstraints⟩

theorem alike_instantiate (scheme : Scheme) :
    Alike Eq (instantiate scheme) (instantiate scheme) := by
  rintro ⟨supply, constraints⟩ ⟨supply', constraints'⟩ ⟨hsupply, hconstraints⟩
  cases hsupply
  exact .ok rfl ⟨rfl, hconstraints⟩

theorem alike_constrain {c c' : Constraint} (h : c.unplaced = c'.unplaced) :
    Alike Eq (constrain c) (constrain c') := by
  intro state other states
  refine .ok rfl ⟨states.supply, ?_⟩
  simp [states.constraints, h]

theorem alike_equal
    {left left' right right' : Ty} (hleft : left = left') (hright : right = right')
    (span span' : Span) :
    Alike Eq (constrain (.equal left right span)) (constrain (.equal left' right' span')) := by
  subst hleft hright
  exact alike_constrain rfl

theorem alike_fail (cause cause' : Cause) (span span' : Span) :
    Alike R (fail cause span) (fail cause' span') :=
  fun _ _ _ => .error

theorem alike_guard
    {b : Bool} {cause cause' : Cause} {span span' : Span} {k : Unit → Infer Supply α}
    {k' : Unit → Infer Supply β} (hk : ∀ u, Alike R (k u) (k' u)) :
    Alike R (if b = true then fail cause span >>= k else k ())
      (if b = true then fail cause' span' >>= k' else k' ()) := by
  cases b with
  | true => exact fun _ _ _ => .error
  | false => exact hk ()

end Infer

/-- Runs that are alike both complete or both fail, and what they complete with is
related. -/
theorem Scope.complete_alike
    (scope : Scope) {R : TypedExpr → TypedExpr → Prop} {run run' : Infer Supply TypedExpr}
    (h : Infer.Alike R run run')
    (kept : ∀ (s : Subst) (typed other : TypedExpr), R typed other →
      R (typed.apply s) (other.apply s)) :
    ((∃ typed, scope.complete run = .ok typed) ↔ ∃ other, scope.complete run' = .ok other) ∧
      ∀ typed other, scope.complete run = .ok typed → scope.complete run' = .ok other →
        R typed other := by
  have hruns := h (Infer.start scope) (Infer.start scope) ⟨rfl, rfl⟩
  unfold complete completeFrom
  generalize run (Infer.start scope) = first at hruns
  generalize run' (Infer.start scope) = second at hruns
  cases hruns with
  | error => simp
  | @ok typed other final final' related states =>
      rcases toOption_eq_cases (scope.solveInferred_alike states) with
        ⟨s, hs, hs'⟩ | ⟨⟨e, he⟩, e', he'⟩
      · simpa [hs, hs'] using kept s typed other related
      · simp [he, he']

end Ascribe
