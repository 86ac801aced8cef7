import Ascribe.Proofs.StepBound

/-!
# The member policy

The policy is asked only when the queue is empty and no receiver of a member that was set aside
is known.  The strict policy fails there and the permissive one ends.  In every other state the
two make the same step, so two runs from the same state stay together until then, over any
number of rounds.

A member leaves the two lists only when its receiver is known, and a known receiver stays known.
So the permissive run ends with an unknown receiver exactly when the strict one fails for it.
-/

namespace Ascribe

/-- A selection fails because the type of the receiver is unknown or has no such member. -/
theorem Scope.cause_of_select
    {scope : Scope} {receiver : Ty} {selector : Selector} {span : Span} {e : TypeError}
    (h : scope.select receiver selector span = .error e) :
    (∃ name, e.cause = .unknownType name) ∨
      (∃ owner, e.cause = .unknownMember owner selector) ∨
      (∃ index arity, e.cause = .tupleIndexOutOfRange index arity) ∨
      ∃ t, e.cause = .invalidMemberTarget t selector := by
  unfold select at h
  split at h
  · cases h
  · simp only [instanceMember, memberOf] at h
    grind
  · grind
  · cases h
    exact .inr (.inr (.inr ⟨_, rfl⟩))

namespace Solver

/-! ## One step -/

/-- A step fails for an unknown receiver only when nothing else is left to do. -/
theorem unresolved_of_step
    {scope : Scope} {policy : MemberPolicy} {solver : Solver Supply} {selector : Selector}
    {span : Span}
    (h : solver.step scope policy = .error ⟨.unresolvedMember selector, span⟩) :
    solver.pending = [] ∧ solver.deferred ≠ [] ∧
      ∀ m ∈ solver.deferred, (solver.subst.apply m.receiver).isVar = true := by
  unfold step at h
  split at h
  · rename_i hpending
    unfold settle at h
    split at h
    · cases h
    · rename_i first rest hdeferred
      split at h
      · cases h
      · rename_i hknown
        rw [hdeferred]
        exact ⟨hpending, List.cons_ne_nil _ _, isVar_of_not_any_isKnown hknown⟩
  · rename_i c rest hpending
    exfalso
    cases c with
    | equal left right span =>
        simp only [Constraint.apply] at h
        split at h
        · cases h
        · rename_i e he
          cases e <;> cases h
    | result expected actual span =>
        simp only [Constraint.apply] at h
        split at h
        · cases h
        · rename_i e he
          cases e <;> cases h
    | member m =>
        simp only [Constraint.apply, resolveMember] at h
        split at h
        · rename_i e he
          rw [Except.error.inj h] at he
          rcases Scope.cause_of_select he with
            ⟨_, hc⟩ | ⟨_, hc⟩ | ⟨_, _, hc⟩ | ⟨_, hc⟩ <;> cases hc
        · cases h
        · cases h

/-- Whatever the strict step gives, unless it fails for an unknown receiver, the permissive step
gives too. -/
theorem step_permissive_of_strict
    {scope : Scope} {solver : Solver Supply} {outcome : Except TypeError (Step Supply)}
    (h : solver.step scope .strict = outcome)
    (hne : ∀ selector span, outcome ≠ .error ⟨.unresolvedMember selector, span⟩) :
    solver.step scope .permissive = outcome := by
  subst h
  cases hpending : solver.pending with
  | cons c rest => simp only [step, hpending]
  | nil =>
      simp only [step, settle, hpending] at hne ⊢
      split
      · rfl
      · rename_i first rest hdeferred
        split
        · rfl
        · rename_i hknown
          simp only [hdeferred, hknown] at hne
          exact absurd rfl (hne first.selector first.span)

/-- Where the strict step fails for an unknown receiver, the permissive run is done. -/
theorem step_permissive_of_unresolved
    {scope : Scope} {solver : Solver Supply} {selector : Selector} {span : Span}
    (h : solver.step scope .strict = .error ⟨.unresolvedMember selector, span⟩) :
    solver.step scope .permissive = .ok (.done solver.subst) := by
  obtain ⟨hpending, -, hunknown⟩ := unresolved_of_step h
  simp only [step, settle, hpending]
  split
  · rfl
  · rename_i first rest hdeferred
    rw [hdeferred] at hunknown
    have hknown : ¬ (first :: rest).any (isKnown solver.subst) = true := by
      rw [List.any_eq_true]
      rintro ⟨m, hm, hm'⟩
      simp [isKnown, hunknown m hm] at hm'
    rw [if_neg hknown]

/-- A member in one of the lists of a state has an unknown receiver under a substitution. -/
def Open (s : Subst) (solver : Solver Supply) : Prop :=
  ∃ m, (.member m ∈ solver.pending ∨ m ∈ solver.deferred) ∧
    (s.apply m.receiver).isVar = true

/-- A receiver that is unknown after a step was unknown before it. -/
theorem Moves.open_of_open
    {scope : Scope} {solver next : Solver Supply} {s : Subst} (h : Moves scope solver next)
    (habs : s.Absorbs solver.subst) (hopen : Open s next) :
    Open s solver := by
  obtain ⟨m, hm, hvar⟩ := hopen
  cases h with
  | @unify c left right rest u hpending sides unified =>
      refine ⟨m, ?_, hvar⟩
      rw [hpending]
      exact hm.imp (List.mem_cons_of_mem c) id
  | @defer first rest hpending unknown =>
      rw [List.mem_append, List.mem_singleton] at hm
      rcases hm with hm | hm | rfl
      · refine ⟨m, .inl ?_, hvar⟩
        rw [hpending]
        exact List.mem_cons_of_mem _ hm
      · exact ⟨m, .inr hm, hvar⟩
      · -- The constraint was set aside with the running substitution already applied.
        have hsame : s.apply (solver.subst.apply first.receiver) = s.apply first.receiver :=
          habs first.receiver
        refine ⟨first, .inl ?_, ?_⟩
        · rw [hpending]
          exact List.mem_cons_self
        · rw [← hsame]
          exact hvar
  | @resolve first rest scheme hpending found =>
      refine ⟨m, ?_, hvar⟩
      rw [hpending]
      rcases hm with hm | hm
      · rcases List.mem_cons.1 hm with heq | hm
        · cases heq
        · exact .inl (List.mem_cons_of_mem _ hm)
      · exact .inr hm
  | retry hpending =>
      rcases hm with hm | hm
      · obtain ⟨m', hm', heq⟩ := List.mem_map.1 hm
        cases heq
        exact ⟨m, .inr hm', hvar⟩
      · cases hm

/-! ## Runs -/

/-- Whatever strict solving gives, unless it fails for an unknown receiver, permissive solving
gives too. -/
theorem solve_permissive_of_strict
    {scope : Scope} {solver : Solver Supply} {outcome : Except TypeError Subst}
    (h : solver.solve scope .strict = outcome)
    (hne : ∀ selector span, outcome ≠ .error ⟨.unresolvedMember selector, span⟩) :
    solver.solve scope .permissive = outcome := by
  fun_induction solve scope .strict solver with
  | case1 solver e hstep =>
      subst h
      have hfail : solver.step scope .permissive = (Except.error e).map .done := by
        refine step_permissive_of_strict hstep ?_
        intro selector span heq
        exact hne selector span (by rw [Except.error.inj heq])
      exact solve_of_step_done hfail
  | case2 solver s hstep =>
      subst h
      have hdone := step_permissive_of_strict hstep (by simp)
      change solver.step scope .permissive = (Except.ok s).map .done at hdone
      exact solve_of_step_done hdone
  | case3 solver next hstep ih =>
      have hnext := step_permissive_of_strict hstep (by simp)
      rw [solve_of_step_next hnext]
      exact ih h

/-- Where strict solving fails for an unknown receiver, permissive solving returns a
substitution under which a receiver is unknown. -/
theorem exists_solve_permissive_of_unresolved
    {scope : Scope} {solver : Solver Supply} {selector : Selector} {span : Span}
    (h : solver.solve scope .strict = .error ⟨.unresolvedMember selector, span⟩)
    (hs : solver.subst.Solved) :
    ∃ s, solver.solve scope .permissive = .ok s ∧ Open s solver := by
  fun_induction solve scope .strict solver with
  | case1 solver e hstep =>
      cases h
      obtain ⟨-, hdeferred, hunknown⟩ := unresolved_of_step hstep
      obtain ⟨m, hm⟩ := List.exists_mem_of_ne_nil _ hdeferred
      have hdone : solver.step scope .permissive = (Except.ok solver.subst).map .done :=
        step_permissive_of_unresolved hstep
      exact ⟨solver.subst, solve_of_step_done hdone, m, .inr hm, hunknown m hm⟩
  | case2 solver s hstep => cases h
  | case3 solver next hstep ih =>
      have hnext := step_permissive_of_strict hstep (by simp)
      have hmove := moves_of_step hstep
      obtain ⟨s, hsolve, hopen⟩ := ih h (hmove.solved hs)
      rw [← solve_of_step_next hnext] at hsolve
      obtain ⟨-, hsol⟩ := solution_of_solve hsolve hs
      exact ⟨s, hsolve, hmove.open_of_open hsol.absorbs hopen⟩

/-- Strict and permissive solving differ only in members whose receiver stays unknown.  What
strict solving returns, permissive solving returns too, and any other failure of the one is a
failure of the other.  Strict solving fails for an unknown receiver exactly when permissive
solving returns a substitution under which the receiver of one of the given members is a bare
variable. -/
theorem solve_strict_and_permissive
    (scope : Scope) (constraints : List Constraint) (supply : Supply) :
    (∀ s, (start constraints supply).solve scope .strict = .ok s →
        (start constraints supply).solve scope .permissive = .ok s) ∧
      (∀ e, (start constraints supply).solve scope .strict = .error e →
        (∀ selector, e.cause ≠ .unresolvedMember selector) →
        (start constraints supply).solve scope .permissive = .error e) ∧
      ((∃ selector span, (start constraints supply).solve scope .strict =
          .error ⟨.unresolvedMember selector, span⟩) ↔
        ∃ s, (start constraints supply).solve scope .permissive = .ok s ∧
          ∃ m v, .member m ∈ constraints ∧ s.apply m.receiver = .var v) := by
  refine ⟨?_, ?_, ?_, ?_⟩
  · intro s hstrict
    exact solve_permissive_of_strict hstrict (by simp)
  · intro e hstrict hcause
    refine solve_permissive_of_strict hstrict ?_
    intro selector span heq
    cases heq
    exact hcause selector rfl
  · rintro ⟨selector, span, hstrict⟩
    obtain ⟨s, hsolve, m, hm, hvar⟩ :=
      exists_solve_permissive_of_unresolved hstrict Subst.solved_empty
    obtain ⟨v, hv⟩ := Ty.exists_eq_var hvar
    rcases hm with hm | hm
    · exact ⟨s, hsolve, m, v, hm, hv⟩
    · cases hm
  · rintro ⟨s, hsolve, m, v, hm, hv⟩
    by_contra hresolved
    -- otherwise the two runs are the same, and strict solving leaves no receiver unknown
    have hstrict : (start constraints supply).solve scope .strict = .ok s := by
      rw [← hsolve]
      refine (solve_permissive_of_strict rfl ?_).symm
      exact fun selector span herr => hresolved ⟨selector, span, herr⟩
    obtain ⟨-, hholds⟩ := solution_of_solve_start hstrict
    rcases hholds _ hm with hselects | ⟨hpolicy, -⟩
    · rw [hv] at hselects
      cases hselects
    · cases hpolicy

/-- Of two members that are set aside, the second becomes known and is looked up in a second
round, and the first stays unknown. -/
def halfKnown : List Constraint :=
  [.member ⟨.var 5, .named "map", .var 6, default⟩,
    .member ⟨.var 7, .named "map", .var 8, default⟩,
    .equal (.var 7) (.named "Box") default]

theorem solve_halfKnown :
    (start halfKnown (⟨9⟩ : Supply)).solve boxScope .permissive =
      .ok (.ofList [(7, .named "Box"),
        (8, .arrow [.arrow [.var 9] (.var 10), .var 9] (.var 10))]) :=
  solve_of_advance (n := 9) (by cbv)

theorem solve_strict_and_permissive_halfKnown :
    ∃ selector span, (start halfKnown (⟨9⟩ : Supply)).solve boxScope .strict =
      .error ⟨.unresolvedMember selector, span⟩ := by
  obtain ⟨-, -, hunresolved⟩ := solve_strict_and_permissive boxScope halfKnown ⟨9⟩
  refine hunresolved.2 ⟨_, solve_halfKnown, ⟨.var 5, .named "map", .var 6, default⟩, 5, ?_, ?_⟩
  · simp [halfKnown]
  · rfl

end Solver

end Ascribe
