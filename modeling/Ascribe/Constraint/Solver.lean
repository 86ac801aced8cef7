import Ascribe.Constraint.Basic
import Ascribe.Scope.Basic
import Ascribe.Ty.Supply

/-!
# Solving constraints

The solver takes constraints from the front of a queue.  An equality is unified into the
running substitution.  A member constraint becomes an equality with the type of the member
once its receiver is known, and is set aside while the receiver is a bare variable.  When
the queue is empty, everything that was set aside is queued again if one of the receivers
has become known.  Otherwise the policy decides what becomes of the rest.

Solving ends.  Discharging a constraint takes it out of the two lists, and queueing again
happens only when the next round discharges a member (`Solver.lex_of_step`).
-/

namespace Ascribe

/-- The state of solving: the queue, the member constraints that were set aside, the running
substitution, and where the variables for the members that are looked up come from. -/
structure Solver (σ : Type) where
  pending : List Constraint
  deferred : List MemberConstraint
  subst : Subst
  supply : σ

/-- What one step of solving gives: solving goes on, or it is done. -/
inductive Step (σ : Type) where
  | next (solver : Solver σ)
  | done (subst : Subst)

namespace Solver

variable {σ : Type}

/-- The state before the first step. -/
def start (constraints : List Constraint) (supply : σ) : Solver σ :=
  ⟨constraints, [], .empty, supply⟩

/-- Whether the receiver of a member constraint is known. -/
def isKnown (s : Subst) (m : MemberConstraint) : Bool :=
  !(s.apply m.receiver).isVar

/-- The step when the queue is empty. -/
def settle (policy : MemberPolicy) (solver : Solver σ) : Except TypeError (Step σ) :=
  match solver.deferred with
  | [] => .ok (.done solver.subst)
  | first :: rest =>
      if (first :: rest).any (isKnown solver.subst) then
        .ok (.next ⟨(first :: rest).map .member, [], solver.subst, solver.supply⟩)
      else
        match policy with
        | .strict => .error ⟨.unresolvedMember first.selector, first.span⟩
        | .permissive => .ok (.done solver.subst)

/-- The step for a member constraint whose types are up to date, the rest of the queue
being given. -/
def resolveMember [VarSource σ] (scope : Scope) (solver : Solver σ) (rest : List Constraint)
    (m : MemberConstraint) : Except TypeError (Step σ) :=
  match scope.select m.receiver m.selector m.span with
  | .error e => .error e
  | .ok none => .ok (.next ⟨rest, solver.deferred ++ [m], solver.subst, solver.supply⟩)
  | .ok (some scheme) =>
      let (t, supply) := VarSource.instantiate solver.supply scheme
      .ok (.next ⟨.equal m.expected t m.span :: rest, solver.deferred, solver.subst, supply⟩)

/-- The error of a body that does not have the declared type. -/
def resultError (expected actual : Ty) (span : Span) : UnifyError → TypeError
  | .mismatch _ _ => ⟨.returnTypeMismatch expected actual, span⟩
  | e => e.located span

/-- The step that adds a unifier to the running substitution, the rest of the queue being
given. -/
def absorb (solver : Solver σ) (rest : List Constraint) (u : Subst) : Step σ :=
  .next ⟨rest, solver.deferred, u.compose solver.subst, solver.supply⟩

/-- One step of solving. -/
def step [VarSource σ] (scope : Scope) (policy : MemberPolicy) (solver : Solver σ) :
    Except TypeError (Step σ) :=
  match solver.pending with
  | [] => solver.settle policy
  | c :: rest =>
      match c.apply solver.subst with
      | .equal left right span =>
          match unify left right with
          | .ok u => .ok (solver.absorb rest u)
          | .error e => .error (e.located span)
      | .result expected actual span =>
          match unify expected actual with
          | .ok u => .ok (solver.absorb rest u)
          | .error e => .error (resultError expected actual span e)
      | .member m => solver.resolveMember scope rest m

/-! ## Termination -/

/-- What discharging a constraint is worth: a member first becomes an equality. -/
def cost : Constraint → Nat
  | .member _ => 2
  | _ => 1

/-- What discharging a queue of constraints is worth. -/
def queueCost : List Constraint → Nat
  | [] => 0
  | c :: rest => cost c + queueCost rest

/-- What discharging all constraints is worth. -/
def totalCost (solver : Solver σ) : Nat :=
  queueCost solver.pending + 2 * solver.deferred.length

theorem queueCost_members (ms : List MemberConstraint) :
    queueCost (ms.map .member) = 2 * ms.length := by
  induction ms with
  | nil => rfl
  | cons m ms ih =>
      simp only [List.map_cons, queueCost, cost, List.length_cons, ih]
      omega

/-- Whether a constraint is a member constraint with a known receiver. -/
def isReady (s : Subst) : Constraint → Bool
  | .member m => isKnown s m
  | _ => false

/-- One while no member in the queue has a known receiver. -/
def idle (solver : Solver σ) : Nat :=
  if solver.pending.any (isReady solver.subst) then 0 else 1

/-- The measure that every step lowers. -/
def measure (solver : Solver σ) : Nat × Nat × Nat :=
  (solver.totalCost, solver.idle, solver.pending.length)

/-- The order of the measure. -/
abbrev Smaller : Nat × Nat × Nat → Nat × Nat × Nat → Prop :=
  Prod.Lex (· < ·) (Prod.Lex (· < ·) (· < ·))

private theorem smaller_of_totalCost {a b c d e f : Nat} (h : a < d) :
    Smaller (a, b, c) (d, e, f) :=
  .left _ _ h

private theorem lex_of_settle
    {policy : MemberPolicy} {solver next : Solver σ}
    (hpending : solver.pending = []) (h : solver.settle policy = .ok (.next next)) :
    Smaller next.measure solver.measure := by
  unfold settle at h
  split at h
  · cases h
  · rename_i first rest hdeferred
    split at h
    · rename_i hknown
      cases h
      have hcost : totalCost ⟨(first :: rest).map .member, [], solver.subst, solver.supply⟩ =
          solver.totalCost := by
        simp only [totalCost, hpending, hdeferred, queueCost_members, queueCost, List.length_nil]
        omega
      have hbefore : solver.idle = 1 := by
        simp [idle, hpending]
      have hafter : idle ⟨(first :: rest).map .member, [], solver.subst, solver.supply⟩ = 0 := by
        have : ((first :: rest).map Constraint.member).any (isReady solver.subst) = true := by
          rw [List.any_map]
          exact hknown
        simp only [idle, this, if_true]
      simp only [measure, hcost, hbefore, hafter]
      exact .right _ (.left _ _ (by omega))
    · split at h <;> cases h

/-- Only a bare variable leaves the selection open. -/
theorem select_eq_none
    {scope : Scope} {receiver : Ty} {selector : Selector} {span : Span}
    (h : scope.select receiver selector span = .ok none) : receiver.isVar = true := by
  unfold Scope.select at h
  split at h
  · rfl
  · split at h <;> cases h
  · split at h
    · cases h
    · split at h <;> cases h
  · cases h

private theorem lex_of_resolveMember [VarSource σ]
    {scope : Scope} {solver next : Solver σ} {m : MemberConstraint} {rest : List Constraint}
    (hpending : solver.pending = .member m :: rest)
    (h : solver.resolveMember scope rest (m.apply solver.subst) = .ok (.next next)) :
    Smaller next.measure solver.measure := by
  unfold resolveMember at h
  split at h
  · cases h
  · rename_i hselect
    cases h
    have hvar := select_eq_none hselect
    have hcost : totalCost ⟨rest, solver.deferred ++ [m.apply solver.subst], solver.subst,
        solver.supply⟩ = solver.totalCost := by
      simp only [totalCost, hpending, queueCost, cost, List.length_append,
        List.length_cons, List.length_nil]
      omega
    have hidle : idle ⟨rest, solver.deferred ++ [m.apply solver.subst], solver.subst,
        solver.supply⟩ = solver.idle := by
      have hnot : isKnown solver.subst m = false := by
        simpa [isKnown, MemberConstraint.apply] using hvar
      simp only [idle, hpending, List.any_cons, isReady, hnot, Bool.false_or]
    simp only [measure, hcost, hidle]
    refine .right _ (.right _ ?_)
    simp [hpending]
  · cases h
    refine smaller_of_totalCost ?_
    simp only [totalCost, hpending, queueCost, cost]
    omega

private theorem lex_of_absorb
    {solver next : Solver σ} {c : Constraint} {rest : List Constraint} {u : Subst}
    (hpending : solver.pending = c :: rest)
    (h : solver.absorb rest u = .next next) :
    Smaller next.measure solver.measure := by
  cases h
  refine smaller_of_totalCost ?_
  simp only [totalCost, hpending, queueCost]
  have : 0 < cost c := by
    cases c <;> simp [cost]
  omega

/-- Every step that goes on lowers the measure. -/
theorem lex_of_step [VarSource σ]
    {scope : Scope} {policy : MemberPolicy} {solver next : Solver σ}
    (h : solver.step scope policy = .ok (.next next)) :
    Smaller next.measure solver.measure := by
  unfold step at h
  split at h
  · rename_i hpending
    exact lex_of_settle hpending h
  · rename_i c rest hpending
    cases c with
    | equal left right span =>
        simp only [Constraint.apply] at h
        split at h
        · exact lex_of_absorb hpending (Except.ok.inj h)
        · cases h
    | result expected actual span =>
        simp only [Constraint.apply] at h
        split at h
        · exact lex_of_absorb hpending (Except.ok.inj h)
        · cases h
    | member m =>
        simp only [Constraint.apply] at h
        exact lex_of_resolveMember hpending h

/-- Solve all constraints. -/
def solve [VarSource σ] (scope : Scope) (policy : MemberPolicy) (solver : Solver σ) :
    Except TypeError Subst :=
  match _h : solver.step scope policy with
  | .error e => .error e
  | .ok (.done s) => .ok s
  | .ok (.next next) => solve scope policy next
termination_by solver.measure
decreasing_by exact lex_of_step _h

theorem solve_of_step_next [VarSource σ]
    {scope : Scope} {policy : MemberPolicy} {solver next : Solver σ}
    (h : solver.step scope policy = .ok (.next next)) :
    solver.solve scope policy = next.solve scope policy := by
  rw [solve]
  split <;> simp_all

theorem solve_of_step_done [VarSource σ]
    {scope : Scope} {policy : MemberPolicy} {solver : Solver σ}
    {outcome : Except TypeError Subst} (h : solver.step scope policy = outcome.map .done) :
    solver.solve scope policy = outcome := by
  rw [solve]
  cases outcome with
  | ok s => split <;> simp_all [Except.map]
  | error e => split <;> simp_all [Except.map]

/-- The states after each step that goes on, and what solving ends in. -/
def trace [VarSource σ] (scope : Scope) (policy : MemberPolicy) (solver : Solver σ) :
    List (Solver σ) × Except TypeError Subst :=
  match _h : solver.step scope policy with
  | .error e => ([], .error e)
  | .ok (.done s) => ([], .ok s)
  | .ok (.next next) =>
      let (states, outcome) := trace scope policy next
      (next :: states, outcome)
termination_by solver.measure
decreasing_by exact lex_of_step _h

/-- A trace ends in what solving gives. -/
theorem trace_snd [VarSource σ] (scope : Scope) (policy : MemberPolicy) (solver : Solver σ) :
    (solver.trace scope policy).2 = solver.solve scope policy := by
  fun_induction solve scope policy solver with
  | case1 solver e h =>
      rw [trace]
      split <;> simp_all
  | case2 solver s h =>
      rw [trace]
      split <;> simp_all
  | case3 solver next h ih =>
      rw [trace]
      split <;> simp_all

end Solver

end Ascribe
