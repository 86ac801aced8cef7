import Ascribe.Proofs.Solving

/-!
# The running substitution

The solver composes every unifier that it finds into its running substitution.  Composition lets
the newer entries win, so in general it neither keeps a substitution in solved form nor keeps
what the older one says.  In a run it does both.  A constraint is rewritten by the running
substitution before it is unified, so that its unifier binds and mentions only variables that
are still open.  This includes the types that come in late, from the tables of members or from
constraints that were set aside: they may mention variables that are bound by then, but they
are rewritten when their turn comes.

So no freshness is needed here, neither of the supply nor of the variables of a scheme.
-/

namespace Ascribe

/-- The substitution in which a step of solving ends. -/
def Step.subst : Step Supply → Subst
  | .next solver => solver.subst
  | .done s => s

namespace Solver

variable {scope : Scope} {policy : MemberPolicy} {solver : Solver Supply}

/-- A step refines the running substitution. -/
theorem absorbs_of_step
    {outcome : Step Supply} (hs : solver.subst.Solved)
    (h : solver.step scope policy = .ok outcome) :
    outcome.subst.Absorbs solver.subst := by
  cases outcome with
  | done s =>
      obtain ⟨rfl, -, -⟩ := done_of_step h
      exact hs.absorbs_self
  | next next =>
      cases moves_of_step h with
      | @unify c left right rest u pending sides unified =>
          intro t
          calc
            (u.compose solver.subst).apply (solver.subst.apply t) =
                u.apply (solver.subst.apply (solver.subst.apply t)) :=
              apply_compose_unifier hs unified _
            _ = u.apply (solver.subst.apply t) := by rw [hs.absorbs_self t]
            _ = (u.compose solver.subst).apply t := (apply_compose_unifier hs unified t).symm
      | defer | resolve | retry => exact hs.absorbs_self

/-- A run keeps the running substitution in solved form. -/
theorem solved_of_advance
    {n : Nat} {later : Solver Supply} (hs : solver.subst.Solved)
    (h : solver.advance scope policy n = .ok (.next later)) :
    later.subst.Solved := by
  induction n generalizing solver with
  | zero =>
      cases h
      exact hs
  | succ n ih =>
      rw [advance] at h
      split at h
      · rename_i next hstep
        exact ih ((moves_of_step hstep).solved hs) h
      · rename_i hlast
        exact absurd h (hlast later)

/-- After any number of steps the running substitution is idempotent and does not bind a variable
that occurs in a type that it binds, and one more step only refines it.  This holds for all
constraints, whatever the scope, the policy and the source of fresh variables are. -/
theorem advance_refines
    {n : Nat} {constraints : List Constraint} {supply : Supply}
    (h : (start constraints supply).advance scope policy n = .ok (.next solver)) :
    (∀ t, solver.subst.apply (solver.subst.apply t) = solver.subst.apply t) ∧
      (∀ v t w, solver.subst.find? v = some t → w ∈ t.vars → solver.subst.find? w = none) ∧
      ∀ outcome, solver.step scope policy = .ok outcome →
        ∀ t, outcome.subst.apply (solver.subst.apply t) = outcome.subst.apply t := by
  have hs : solver.subst.Solved := solved_of_advance Subst.solved_empty h
  refine ⟨hs.absorbs_self, ?_, fun outcome hstep => absorbs_of_step hs hstep⟩
  intro v t w hv hw
  obtain ⟨vs, hvs⟩ := hs
  exact (hvs.mentioned hv hw).2

/-- The member of a box is looked up in the fifth step, when the type that is expected of it is
already bound. -/
def boxLookedUp : Solver Supply :=
  ⟨[.equal (.arrow [.arrow [.var 7] .bool, .int] (.var 8))
      (.arrow [.arrow [.var 9] (.var 10), .var 9] (.var 10)) default], [],
    .ofList [(5, .named "Box"), (6, .arrow [.arrow [.var 7] .bool, .int] (.var 8))], ⟨11⟩⟩

theorem advance_refines_boxLookedUp :
    (start boxConstraints (⟨9⟩ : Supply)).advance boxScope .strict 5 = .ok (.next boxLookedUp) ∧
      (∀ t, boxLookedUp.subst.apply (boxLookedUp.subst.apply t) = boxLookedUp.subst.apply t) ∧
      (∀ v t w, boxLookedUp.subst.find? v = some t → w ∈ t.vars →
        boxLookedUp.subst.find? w = none) ∧
      ∃ next, boxLookedUp.step boxScope .strict = .ok (.next next) ∧
        next.subst.find? 6 = some (.arrow [.arrow [.int] .bool, .int] .bool) ∧
        ∀ t, next.subst.apply (boxLookedUp.subst.apply t) = next.subst.apply t := by
  have hadvance : (start boxConstraints (⟨9⟩ : Supply)).advance boxScope .strict 5 =
      .ok (.next boxLookedUp) := by cbv
  obtain ⟨hidempotent, hunbound, hrefines⟩ := advance_refines hadvance
  refine ⟨hadvance, hidempotent, hunbound, ?_⟩
  have hstep : boxLookedUp.step boxScope .strict =
      .ok (.next ⟨[], [], .ofList [(5, .named "Box"),
        (6, .arrow [.arrow [.int] .bool, .int] .bool), (7, .int), (8, .bool), (9, .int),
        (10, .bool)], ⟨11⟩⟩) := by cbv
  exact ⟨_, hstep, rfl, hrefines _ hstep⟩

end Solver

end Ascribe
