import Ascribe.Proofs.Policies

/-!
# Result constraints

That the body of a function has the declared type is an equality of two types.  The solver
keeps such constraints apart only to report a mismatch of the two as one between the declared
type and that of the body.

So every result constraint may be replaced by an equality (`Constraint.asEquality`).  The two
runs go step by step through the same states, up to the replacement, and end in the same
substitution or fail at the same place.  Where the one reports a return type mismatch the
other reports the two types inside that cannot be unified, and every other failure is the same,
an infinite type in a result constraint included.
-/

namespace Ascribe

/-- The constraint with an equality in the place of a result constraint. -/
def Constraint.asEquality : Constraint → Constraint
  | .result expected actual span => .equal expected actual span
  | c => c

/-- The second error is what the first one becomes when result constraints are equalities: a
return type mismatch becomes the failure to unify the two types, at the same place, and any
other error stays as it is. -/
inductive TypeError.Recast : TypeError → TypeError → Prop where
  | mismatch {expected actual left right : Ty} {span : Span}
      (failed : unify expected actual = .error (.mismatch left right)) :
      Recast ⟨.returnTypeMismatch expected actual, span⟩ ⟨.unificationFailure left right, span⟩
  | other {e : TypeError}
      (cause_ne : ∀ expected actual, e.cause ≠ .returnTypeMismatch expected actual) :
      Recast e e

theorem TypeError.Recast.span_eq {e e' : TypeError} (h : e.Recast e') :
    e'.span = e.span := by
  cases h with
  | mismatch failed => rfl
  | other cause_ne => rfl

/-- A mismatch is recast, and an infinite type stays as it is. -/
theorem UnifyError.recast_resultError
    {expected actual : Ty} {e : UnifyError} (h : unify expected actual = .error e) (span : Span) :
    (Solver.resultError expected actual span e).Recast (e.located span) := by
  cases e with
  | mismatch left right => exact .mismatch h
  | occursCheck var ty => exact .other (by simp [Solver.resultError, UnifyError.located])

theorem UnifyError.recast_located (e : UnifyError) (span : Span) :
    (e.located span).Recast (e.located span) := by
  refine .other ?_
  cases e <;> simp [UnifyError.located]

namespace Solver

/-- The state with equalities in the place of result constraints. -/
def asEqualities (solver : Solver Supply) : Solver Supply :=
  { solver with pending := solver.pending.map Constraint.asEquality }

/-- Two outcomes are the same up to the replacement: related results, or recast errors. -/
inductive Recast {α β : Type} (R : α → β → Prop) :
    Except TypeError α → Except TypeError β → Prop where
  | ok {a : α} {b : β} (related : R a b) : Recast R (.ok a) (.ok b)
  | error {e e' : TypeError} (recast : e.Recast e') : Recast R (.error e) (.error e')

/-- Two steps go on to states that are the same up to the replacement, or are both done. -/
inductive StepRecast : Step Supply → Step Supply → Prop where
  | next (solver : Solver Supply) : StepRecast (.next solver) (.next solver.asEqualities)
  | done (s : Subst) : StepRecast (.done s) (.done s)

/-! ## One step -/

theorem settle_asEqualities (policy : MemberPolicy) (solver : Solver Supply) :
    Recast StepRecast (solver.settle policy) (solver.asEqualities.settle policy) := by
  obtain ⟨pending, deferred, s, supply⟩ := solver
  cases deferred with
  | nil => exact .ok (.done s)
  | cons first rest =>
      by_cases hknown : (first :: rest).any (isKnown s) = true
      · -- members are queued again, and there are no result constraints among them
        have hmembers : ((first :: rest).map Constraint.member).map Constraint.asEquality =
            (first :: rest).map Constraint.member := by
          rw [List.map_map]
          rfl
        have hnext := StepRecast.next ⟨(first :: rest).map .member, [], s, supply⟩
        rw [asEqualities, hmembers] at hnext
        simp only [settle, asEqualities, hknown, if_true]
        exact .ok hnext
      · simp only [settle, asEqualities, hknown]
        cases policy with
        | strict => exact .error (.other (by simp))
        | permissive => exact .ok (.done s)

theorem resolveMember_asEqualities
    (scope : Scope) (solver : Solver Supply) (rest : List Constraint) (m : MemberConstraint) :
    Recast StepRecast (solver.resolveMember scope rest m)
      (solver.asEqualities.resolveMember scope (rest.map Constraint.asEquality) m) := by
  simp only [resolveMember]
  split
  · rename_i e hselect
    refine .error (.other ?_)
    intro expected actual hcause
    rcases Scope.cause_of_select hselect with ⟨_, hc⟩ | ⟨_, hc⟩ | ⟨_, _, hc⟩ | ⟨_, hc⟩ <;>
      cases hcause.symm.trans hc
  · exact .ok (.next _)
  · -- what a member becomes is an equality already
    exact .ok (.next _)

/-- A step goes the same way when result constraints are equalities. -/
theorem step_asEqualities (scope : Scope) (policy : MemberPolicy) (solver : Solver Supply) :
    Recast StepRecast (solver.step scope policy) (solver.asEqualities.step scope policy) := by
  obtain ⟨pending, deferred, s, supply⟩ := solver
  cases pending with
  | nil => exact settle_asEqualities policy ⟨[], deferred, s, supply⟩
  | cons c rest =>
      cases c with
      | equal left right span =>
          simp only [step, asEqualities, List.map_cons, Constraint.asEquality, Constraint.apply]
          cases unify (s.apply left) (s.apply right) with
          | ok u => exact .ok (.next _)
          | error e => exact .error (e.recast_located span)
      | result expected actual span =>
          simp only [step, asEqualities, List.map_cons, Constraint.asEquality, Constraint.apply]
          cases hunify : unify (s.apply expected) (s.apply actual) with
          | ok u => exact .ok (.next _)
          | error e => exact .error (UnifyError.recast_resultError hunify span)
      | member m =>
          exact resolveMember_asEqualities scope ⟨.member m :: rest, deferred, s, supply⟩ rest
            (m.apply s)

/-! ## Runs -/

/-- Solving ends in the same substitution when result constraints are equalities, or fails
with the error recast. -/
theorem solve_asEqualities (scope : Scope) (policy : MemberPolicy) (solver : Solver Supply) :
    Recast Eq (solver.solve scope policy) (solver.asEqualities.solve scope policy) := by
  have hrecast := step_asEqualities scope policy solver
  generalize hstep : solver.step scope policy = outcome at hrecast
  generalize hstep' : solver.asEqualities.step scope policy = outcome' at hrecast
  cases hrecast with
  | @error e e' recast =>
      have hsolve : solver.solve scope policy = .error e := solve_of_step_done hstep
      have hsolve' : solver.asEqualities.solve scope policy = .error e' :=
        solve_of_step_done hstep'
      rw [hsolve, hsolve']
      exact .error recast
  | ok related =>
      cases related with
      | done s =>
          have hsolve : solver.solve scope policy = .ok s := solve_of_step_done hstep
          have hsolve' : solver.asEqualities.solve scope policy = .ok s :=
            solve_of_step_done hstep'
          rw [hsolve, hsolve']
          exact .ok rfl
      | next next =>
          rw [solve_of_step_next hstep, solve_of_step_next hstep']
          exact solve_asEqualities scope policy next
termination_by solver.measure
decreasing_by exact lex_of_step hstep

/-- Result constraints are equalities with a diagnosis of their own.  When they are replaced by
equalities, solving returns the same substitution or fails again.  It fails at the same place,
and for the same cause unless that was a return type mismatch, which becomes the failure to
unify the two types. -/
theorem solve_results_as_equalities
    (scope : Scope) (policy : MemberPolicy) (constraints : List Constraint) (supply : Supply) :
    (∀ s, (start (constraints.map Constraint.asEquality) supply).solve scope policy = .ok s ↔
        (start constraints supply).solve scope policy = .ok s) ∧
      (∀ e, (start constraints supply).solve scope policy = .error e →
        ∃ e', (start (constraints.map Constraint.asEquality) supply).solve scope policy =
            .error e' ∧ e'.span = e.span ∧ e.Recast e') ∧
      ∀ e', (start (constraints.map Constraint.asEquality) supply).solve scope policy =
          .error e' →
        ∃ e, (start constraints supply).solve scope policy = .error e ∧
          e'.span = e.span ∧ e.Recast e' := by
  have hrecast := solve_asEqualities scope policy (start constraints supply)
  change Recast Eq ((start constraints supply).solve scope policy)
    ((start (constraints.map Constraint.asEquality) supply).solve scope policy) at hrecast
  generalize (start constraints supply).solve scope policy = original at hrecast ⊢
  generalize (start (constraints.map Constraint.asEquality) supply).solve scope policy =
    replaced at hrecast ⊢
  cases hrecast with
  | ok related =>
      subst related
      refine ⟨fun s => Iff.rfl, ?_, ?_⟩ <;> simp
  | @error e e' recast =>
      refine ⟨by simp, ?_, ?_⟩
      · rintro e₁ h
        cases h
        exact ⟨e', rfl, recast.span_eq, recast⟩
      · rintro e₁ h
        cases h
        exact ⟨e, rfl, recast.span_eq, recast⟩

/-- The body of a function is a member that is looked up while solving, where the declared type
is a function of two integers. -/
def memberBody : List Constraint :=
  [.equal (.var 5) (.named "Box") default,
    .member ⟨.var 5, .named "map", .var 6, default⟩,
    .result (.arrow [.int, .int] (.var 7)) (.var 6) default]

theorem solve_memberBody :
    (start memberBody (⟨8⟩ : Supply)).solve boxScope .strict =
      .error ⟨.returnTypeMismatch (.arrow [.int, .int] (.var 7))
        (.arrow [.arrow [.var 8] (.var 9), .var 8] (.var 9)), default⟩ :=
  solve_of_advance (n := 5) (by cbv)

theorem solve_results_as_equalities_memberBody :
    (start (memberBody.map Constraint.asEquality) (⟨8⟩ : Supply)).solve boxScope .strict =
      .error ⟨.unificationFailure .int (.arrow [.var 8] (.var 9)), default⟩ := by
  obtain ⟨-, hfails, -⟩ := solve_results_as_equalities boxScope .strict memberBody ⟨8⟩
  obtain ⟨e', hsolve, -, hrecast⟩ := hfails _ solve_memberBody
  cases hrecast with
  | mismatch failed =>
      have hunify : unify (.arrow [.int, .int] (.var 7))
          (.arrow [.arrow [.var 8] (.var 9), .var 8] (.var 9)) =
            .error (.mismatch .int (.arrow [.var 8] (.var 9))) := by cbv
      rw [hunify] at failed
      cases failed
      exact hsolve
  | other cause_ne => exact absurd rfl (cause_ne _ _)

end Solver

end Ascribe
