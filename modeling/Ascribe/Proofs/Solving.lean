import Ascribe.Constraint.Solver
import Ascribe.Proofs.Unification

/-!
# Solving is sound and most general

A solver state stands for the constraints that are still in its two lists together with
the running substitution.  A substitution solves a state when it satisfies those
constraints and absorbs the running substitution.  Read backwards, a step loses nothing:
what solves the next state solves the state before it, so the substitution in which
solving ends satisfies every constraint of the start.  Read forwards, a step commits to
nothing: what solves a state solves the next one after a change on fresh variables only.
-/

namespace Ascribe

/-! ## Selections -/

namespace Scope

/-- What the table of a type gives does not depend on where and on what it is selected. -/
theorem memberOf_eq_ok
    {scope : Scope} {owner : Ty} {name : String} {selector : Selector} {span : Span}
    {find : Definition → String → Option Entry} {scheme : Scheme} :
    scope.memberOf owner name selector span find = .ok scheme ↔
      ∃ d member entry, scope.lookupType name = some d ∧ selector = .named member ∧
        find d member = some entry ∧ entry.scheme = scheme := by
  unfold memberOf
  constructor
  · intro h
    split at h
    · cases h
    · rename_i d hd
      split at h
      · cases h
      · rename_i member
        split at h
        · rename_i entry hentry
          exact ⟨d, member, entry, hd, rfl, hentry, Except.ok.inj h⟩
        · cases h
  · rintro ⟨d, member, entry, hd, rfl, hentry, rfl⟩
    simp only [hd, hentry]

theorem instanceMember_at
    {scope : Scope} {owner : Ty} {name : String} {selector : Selector} {span : Span}
    {scheme : Scheme} (h : scope.instanceMember owner name selector span = .ok scheme)
    (owner' : Ty) (span' : Span) :
    scope.instanceMember owner' name selector span' = .ok scheme :=
  memberOf_eq_ok.2 (memberOf_eq_ok.1 h)

/-- A selection from a bare variable stays open. -/
theorem select_of_isVar
    {scope : Scope} {receiver : Ty} (h : receiver.isVar = true) (selector : Selector)
    (span : Span) :
    scope.select receiver selector span = .ok none := by
  obtain ⟨v, rfl⟩ := Ty.exists_eq_var h
  rfl

/-- A selection from a receiver of known type may have the given type: an instance of the
scheme of the member, or the component of a tuple. -/
inductive Selects (scope : Scope) (s : Subst) : Ty → Selector → Ty → Prop where
  | member {name : String} {args : List Ty} {selector : Selector} {span : Span}
      {scheme : Scheme} {t : Ty}
      (found : scope.instanceMember (.con name args) name selector span = .ok scheme)
      (inst : scheme.InstanceUnder s t) :
      Selects scope s (.con name args) selector t
  | component {elems : List Ty} {position : Nat} {t : Ty}
      (found : elems[position]? = some t) :
      Selects scope s (.tuple elems) (.index position) t

/-- The scheme that is found for a receiver describes the selections after any further
substitution. -/
theorem selects_of_select
    {scope : Scope} {receiver : Ty} {selector : Selector} {span : Span} {scheme : Scheme}
    (h : scope.select receiver selector span = .ok (some scheme)) {s : Subst} {t : Ty}
    (inst : scheme.InstanceUnder s t) :
    scope.Selects s (s.apply receiver) selector t := by
  unfold select at h
  split at h
  · cases h
  · rename_i name args
    split at h
    · rename_i found hfound
      cases h
      rw [Subst.apply_con]
      exact .member (instanceMember_at hfound _ span) inst
    · cases h
  · rename_i elems
    split at h
    · cases h
    · rename_i position
      split at h
      · rename_i u hu
        cases h
        rw [Scheme.instanceUnder_mono] at inst
        rw [Subst.apply_tuple]
        refine .component ?_
        rw [List.getElem?_map, hu, inst, Option.map_some]
      · cases h
  · cases h

/-- A receiver with a selection after some substitution is not known yet, or a scheme is
found that has the type of the selection as an instance. -/
theorem select_of_selects
    {scope : Scope} {s : Subst} {receiver : Ty} {selector : Selector} {t : Ty}
    (h : scope.Selects s (s.apply receiver) selector t) (span : Span) :
    receiver.isVar = true ∨
      ∃ scheme, scope.select receiver selector span = .ok (some scheme) ∧
        scheme.InstanceUnder s t := by
  cases receiver with
  | var v => exact .inl rfl
  | con name args =>
      right
      rw [Subst.apply_con] at h
      cases h with
      | member found inst =>
          refine ⟨_, ?_, inst⟩
          simp only [select, instanceMember_at found (.con name args) span]
  | arrow params result =>
      rw [Subst.apply_arrow] at h
      cases h
  | tuple elems =>
      right
      rw [Subst.apply_tuple] at h
      cases h with
      | @component _ position _ found =>
          rw [List.getElem?_map, Option.map_eq_some_iff] at found
          obtain ⟨u, hu, rfl⟩ := found
          exact ⟨.mono u, by simp only [select, hu], Scheme.instanceUnder_mono.2 rfl⟩

end Scope

/-! ## Satisfied constraints -/

/-- Two types are the sides of a constraint that equates them. -/
def Constraint.Equates (c : Constraint) (left right : Ty) : Prop :=
  ∃ span, c = .equal left right span ∨ c = .result left right span

/-- A substitution satisfies a constraint.  Under the permissive policy a receiver may
stay a bare variable. -/
def Constraint.Holds (scope : Scope) (policy : MemberPolicy) (s : Subst) :
    Constraint → Prop
  | .equal left right _ => s.apply left = s.apply right
  | .result expected actual _ => s.apply expected = s.apply actual
  | .member m =>
      scope.Selects s (s.apply m.receiver) m.selector (s.apply m.expected) ∨
        (policy = .permissive ∧ (s.apply m.receiver).isVar = true)

theorem Constraint.Equates.holds_iff
    {c : Constraint} {left right : Ty} (h : c.Equates left right)
    {scope : Scope} {policy : MemberPolicy} {s : Subst} :
    c.Holds scope policy s ↔ s.apply left = s.apply right := by
  rcases h with ⟨span, rfl | rfl⟩
  · exact Iff.rfl
  · exact Iff.rfl

theorem MemberConstraint.holds_apply
    {scope : Scope} {policy : MemberPolicy} {s u : Subst} (h : s.Absorbs u)
    (m : MemberConstraint) :
    (Constraint.member (m.apply u)).Holds scope policy s ↔
      (Constraint.member m).Holds scope policy s := by
  simp only [Constraint.Holds, MemberConstraint.apply, h _]

namespace Solver

/-- A substitution solves a state. -/
structure Solution (scope : Scope) (policy : MemberPolicy) (s : Subst) (solver : Solver Supply) :
    Prop where
  absorbs : s.Absorbs solver.subst
  pending : ∀ c ∈ solver.pending, c.Holds scope policy s
  deferred : ∀ m ∈ solver.deferred, (Constraint.member m).Holds scope policy s

/-- What a step that goes on can do. -/
inductive Moves (scope : Scope) (solver : Solver Supply) : Solver Supply → Prop where
  | unify {c : Constraint} {left right : Ty} {rest : List Constraint} {u : Subst}
      (pending : solver.pending = c :: rest) (sides : c.Equates left right)
      (unified : unify (solver.subst.apply left) (solver.subst.apply right) = .ok u) :
      Moves scope solver ⟨rest, solver.deferred, u.compose solver.subst, solver.supply⟩
  | defer {m : MemberConstraint} {rest : List Constraint}
      (pending : solver.pending = .member m :: rest)
      (unknown : (solver.subst.apply m.receiver).isVar = true) :
      Moves scope solver
        ⟨rest, solver.deferred ++ [m.apply solver.subst], solver.subst, solver.supply⟩
  | resolve {m : MemberConstraint} {rest : List Constraint} {scheme : Scheme}
      (pending : solver.pending = .member m :: rest)
      (found : scope.select (solver.subst.apply m.receiver) m.selector m.span =
        .ok (some scheme)) :
      Moves scope solver
        ⟨.equal (solver.subst.apply m.expected) (solver.supply.instantiate scheme).1 m.span ::
          rest, solver.deferred, solver.subst, (solver.supply.instantiate scheme).2⟩
  | retry (pending : solver.pending = []) :
      Moves scope solver ⟨solver.deferred.map .member, [], solver.subst, solver.supply⟩

theorem moves_of_step
    {scope : Scope} {policy : MemberPolicy} {solver next : Solver Supply}
    (h : solver.step scope policy = .ok (.next next)) :
    Moves scope solver next := by
  unfold step at h
  split at h
  · rename_i hpending
    unfold settle at h
    split at h
    · cases h
    · rename_i first rest hdeferred
      split at h
      · cases h
        rw [← hdeferred]
        exact .retry hpending
      · split at h <;> cases h
  · rename_i c rest hpending
    cases c with
    | equal left right span =>
        simp only [Constraint.apply] at h
        split at h
        · rename_i u hu
          cases h
          exact .unify hpending ⟨span, .inl rfl⟩ hu
        · cases h
    | result expected actual span =>
        simp only [Constraint.apply] at h
        split at h
        · rename_i u hu
          cases h
          exact .unify hpending ⟨span, .inr rfl⟩ hu
        · cases h
    | member m =>
        simp only [Constraint.apply, resolveMember, MemberConstraint.apply] at h
        split at h
        · cases h
        · rename_i hnone
          cases h
          exact .defer hpending (select_eq_none hnone)
        · rename_i scheme hfound
          cases h
          exact .resolve hpending hfound

theorem isVar_of_not_any_isKnown
    {s : Subst} {ms : List MemberConstraint} (h : ¬ ms.any (isKnown s) = true) :
    ∀ m ∈ ms, (s.apply m.receiver).isVar = true := by
  intro m hm
  by_cases hm' : isKnown s m = true
  · exact absurd (List.any_eq_true.2 ⟨m, hm, hm'⟩) h
  · simpa [isKnown] using hm'

/-- Solving ends with the running substitution, when nothing is left or when the policy
drops the members of receivers that are still unknown. -/
theorem done_of_step
    {scope : Scope} {policy : MemberPolicy} {solver : Solver Supply} {s : Subst}
    (h : solver.step scope policy = .ok (.done s)) :
    s = solver.subst ∧ solver.pending = [] ∧
      ∀ m ∈ solver.deferred,
        policy = .permissive ∧ (solver.subst.apply m.receiver).isVar = true := by
  unfold step at h
  split at h
  · rename_i hpending
    unfold settle at h
    split at h
    · rename_i hdeferred
      cases h
      refine ⟨rfl, hpending, ?_⟩
      rw [hdeferred]
      intro m hm
      cases hm
    · rename_i first rest hdeferred
      split at h
      · cases h
      · rename_i hknown
        split at h
        · cases h
        · cases h
          refine ⟨rfl, hpending, ?_⟩
          intro m hm
          rw [hdeferred] at hm
          exact ⟨rfl, isVar_of_not_any_isKnown hknown m hm⟩
  · rename_i c rest hpending
    cases c with
    | equal | result =>
        simp only [Constraint.apply] at h
        split at h <;> cases h
    | member m =>
        simp only [Constraint.apply, resolveMember] at h
        split at h <;> cases h

/-! ## Bounded runs -/

/-- The state after the given number of steps, or what solving ended in before. -/
def advance {σ : Type} [VarSource σ] (scope : Scope) (policy : MemberPolicy) :
    Nat → Solver σ → Except TypeError (Step σ)
  | 0, solver => .ok (.next solver)
  | n + 1, solver =>
      match solver.step scope policy with
      | .ok (.next next) => advance scope policy n next
      | outcome => outcome

theorem solve_of_advance
    {σ : Type} [VarSource σ] {scope : Scope} {policy : MemberPolicy} {n : Nat} {solver : Solver σ}
    {outcome : Except TypeError Subst}
    (h : solver.advance scope policy n = outcome.map .done) :
    solver.solve scope policy = outcome := by
  induction n generalizing solver with
  | zero => cases outcome <;> cases h
  | succ n ih =>
      rw [advance] at h
      rw [solve]
      split at h
      · rename_i next hnext
        have hrest := ih h
        split <;> simp_all
      · cases outcome <;> split <;> simp_all [Except.map]

theorem Moves.solved
    {scope : Scope} {solver next : Solver Supply} (h : Moves scope solver next)
    (hs : solver.subst.Solved) :
    next.subst.Solved := by
  cases h with
  | unify pending sides unified => exact solved_compose_unifier hs unified
  | defer | resolve | retry => exact hs

/-- What solves the state after a step solves the state before it. -/
theorem Moves.solution_of_solution
    {scope : Scope} {policy : MemberPolicy} {solver next : Solver Supply} {s : Subst}
    (h : Moves scope solver next) (hs : solver.subst.Solved)
    (sol : Solution scope policy s next) :
    Solution scope policy s solver := by
  cases h with
  | @unify c left right rest u hpending sides unified =>
      have hcomp : ∀ t, s.apply (u.apply (solver.subst.apply t)) = s.apply t := by
        intro t
        rw [← apply_compose_unifier hs unified]
        exact sol.absorbs t
      have habs : s.Absorbs solver.subst := by
        intro t
        rw [← hcomp, hs.absorbs_self, hcomp]
      refine ⟨habs, ?_, sol.deferred⟩
      rw [hpending, List.forall_mem_cons]
      refine ⟨sides.holds_iff.2 ?_, sol.pending⟩
      rw [← hcomp left, ← hcomp right, unify_sound unified]
  | @defer m rest hpending unknown =>
      have hdeferred := List.forall_mem_append.1 sol.deferred
      refine ⟨sol.absorbs, ?_, hdeferred.1⟩
      rw [hpending, List.forall_mem_cons]
      refine ⟨?_, sol.pending⟩
      rw [← MemberConstraint.holds_apply sol.absorbs]
      exact hdeferred.2 _ List.mem_cons_self
  | @resolve m rest scheme hpending found =>
      obtain ⟨hequal, hrest⟩ := List.forall_mem_cons.1 sol.pending
      refine ⟨sol.absorbs, ?_, sol.deferred⟩
      rw [hpending, List.forall_mem_cons]
      refine ⟨.inl ?_, hrest⟩
      have hinst := solver.supply.instantiate_instanceUnder scheme s
      rw [← sol.absorbs m.receiver, ← sol.absorbs m.expected]
      rw [show s.apply (solver.subst.apply m.expected) =
        s.apply (solver.supply.instantiate scheme).1 from hequal]
      exact Scope.selects_of_select found hinst
  | retry hpending =>
      refine ⟨sol.absorbs, ?_, ?_⟩
      · rw [hpending]
        exact fun c hc => absurd hc List.not_mem_nil
      · intro m hm
        exact sol.pending _ (List.mem_map_of_mem hm)

theorem solution_of_done
    {scope : Scope} {policy : MemberPolicy} {solver : Solver Supply} {s : Subst}
    (h : solver.step scope policy = .ok (.done s)) (hs : solver.subst.Solved) :
    Solution scope policy s solver := by
  obtain ⟨rfl, hpending, hdeferred⟩ := done_of_step h
  refine ⟨hs.absorbs_self, ?_, ?_⟩
  · rw [hpending]
    exact fun c hc => absurd hc List.not_mem_nil
  · exact fun m hm => .inr (hdeferred m hm)

/-- The substitution in which solving ends is in solved form and solves every state on the
way. -/
theorem solution_of_solve
    {scope : Scope} {policy : MemberPolicy} {solver : Solver Supply} {s : Subst}
    (h : solver.solve scope policy = .ok s) (hs : solver.subst.Solved) :
    s.Solved ∧ Solution scope policy s solver := by
  fun_induction solve scope policy solver with
  | case1 solver e hstep => cases h
  | case2 solver u hstep =>
      cases h
      refine ⟨?_, solution_of_done hstep hs⟩
      rw [(done_of_step hstep).1]
      exact hs
  | case3 solver next hstep ih =>
      have hmove := moves_of_step hstep
      obtain ⟨hsolved, hsol⟩ := ih h (hmove.solved hs)
      exact ⟨hsolved, hmove.solution_of_solution hs hsol⟩

theorem solution_of_solve_start
    {scope : Scope} {policy : MemberPolicy} {constraints : List Constraint}
    {supply : Supply} {s : Subst}
    (h : (start constraints supply).solve scope policy = .ok s) :
    s.Solved ∧ ∀ c ∈ constraints, c.Holds scope policy s := by
  obtain ⟨hsolved, hsol⟩ := solution_of_solve h Subst.solved_empty
  exact ⟨hsolved, hsol.pending⟩

/-- The substitution that solving returns makes the sides of every equation of the start
equal.  The receiver of every member constraint has become a type with that member, of
which the expected type is an instance, or a tuple with that component; only the permissive
policy leaves a receiver unknown. -/
theorem solve_satisfies
    {scope : Scope} {policy : MemberPolicy} {constraints : List Constraint}
    {supply : Supply} {s : Subst}
    (h : (start constraints supply).solve scope policy = .ok s) :
    (∀ left right span, .equal left right span ∈ constraints →
        s.apply left = s.apply right) ∧
      (∀ expected actual span, .result expected actual span ∈ constraints →
        s.apply expected = s.apply actual) ∧
      ∀ m, .member m ∈ constraints →
        (∃ name args scheme, ∃ ρ : Subst, s.apply m.receiver = .con name args ∧
          scope.instanceMember (.con name args) name m.selector m.span = .ok scheme ∧
          (∀ v, v ∉ scheme.vars → ρ.find? v = none) ∧
          s.apply m.expected = s.apply (ρ.apply scheme.ty)) ∨
        (∃ elems position, s.apply m.receiver = .tuple elems ∧
          m.selector = .index position ∧ elems[position]? = some (s.apply m.expected)) ∨
        (policy = .permissive ∧ ∃ v, s.apply m.receiver = .var v) := by
  obtain ⟨hsolved, hholds⟩ := solution_of_solve_start h
  refine ⟨fun left right span => hholds _, fun expected actual span => hholds _, ?_⟩
  intro m hm
  rcases hholds _ hm with hselects | ⟨hpolicy, hvar⟩
  · generalize hreceiver : s.apply m.receiver = receiver at hselects
    generalize hselector : m.selector = selector at hselects
    generalize hexpected : s.apply m.expected = expected at hselects
    cases hselects with
    | @member name args _ span scheme _ found inst =>
        left
        rw [← hexpected] at inst
        obtain ⟨ρ, hρ, heq⟩ := inst.exists_apply_apply hsolved.absorbs_self
        refine ⟨name, args, scheme, ρ, rfl, ?_, hρ, hexpected ▸ heq⟩
        exact Scope.instanceMember_at found _ m.span
    | component found =>
        right; left
        exact ⟨_, _, rfl, rfl, found⟩
  · right; right
    refine ⟨hpolicy, ?_⟩
    cases hreceiver : s.apply m.receiver with
    | var v => exact ⟨v, rfl⟩
    | con | arrow | tuple =>
        rw [hreceiver] at hvar
        cases hvar

/-- A module with a struct `Box` that has a polymorphic member. -/
def boxScope : Scope :=
  ⟨⟨none, [], [("Box", .struct ⟨[("map", .signature (.generalize
    (.arrow [.arrow [.var 0] (.var 1), .var 0] (.var 1))))], [], []⟩)]⟩, [], .standard⟩

/-- The member is selected and used before its receiver is known. -/
def boxConstraints : List Constraint :=
  [.member ⟨.var 5, .named "map", .var 6, default⟩,
    .equal (.var 6) (.arrow [.arrow [.var 7] .bool, .int] (.var 8)) default,
    .equal (.var 5) (.named "Box") default]

theorem solve_satisfies_box :
    ∃ s : Subst, (start boxConstraints (⟨9⟩ : Supply)).solve boxScope .strict = .ok s ∧
      s.apply (.var 6) = s.apply (.arrow [.arrow [.var 7] .bool, .int] (.var 8)) ∧
      ∃ name args scheme, ∃ ρ : Subst, s.apply (.var 5) = .con name args ∧
        boxScope.instanceMember (.con name args) name (.named "map") default = .ok scheme ∧
        (∀ v, v ∉ scheme.vars → ρ.find? v = none) ∧
        s.apply (.var 6) = s.apply (ρ.apply scheme.ty) := by
  have hsolve : (start boxConstraints (⟨9⟩ : Supply)).solve boxScope .strict =
      .ok (.ofList [(5, .named "Box"), (6, .arrow [.arrow [.int] .bool, .int] .bool),
        (7, .int), (8, .bool), (9, .int), (10, .bool)]) :=
    solve_of_advance (n := 7) (by cbv)
  obtain ⟨hequal, -, hmember⟩ := solve_satisfies hsolve
  refine ⟨_, hsolve, hequal _ _ default (by simp [boxConstraints]), ?_⟩
  rcases hmember ⟨.var 5, .named "map", .var 6, default⟩ (by simp [boxConstraints]) with
    hcon | ⟨elems, position, -, hindex, -⟩ | ⟨hpolicy, -⟩
  · exact hcon
  · cases hindex
  · cases hpolicy

end Solver

/-! ## Generality -/

/-- The variables that the members of types leave free lie below a bound. -/
def Scope.MembersBelow (scope : Scope) (n : Nat) : Prop :=
  ∀ owner name selector span scheme,
    scope.instanceMember owner name selector span = .ok scheme →
      ∀ v ∈ scheme.freeVars, v < n

theorem Scope.MembersBelow.mono
    {scope : Scope} {n m : Nat} (h : scope.MembersBelow n) (hnm : n ≤ m) :
    scope.MembersBelow m := by
  intro owner name selector span scheme hfound v hv
  exact Nat.lt_of_lt_of_le (h owner name selector span scheme hfound v hv) hnm

/-- The variables of the types of a constraint lie below a bound. -/
def Constraint.Below (n : Nat) : Constraint → Prop
  | .equal left right _ => left.Below n ∧ right.Below n
  | .result expected actual _ => expected.Below n ∧ actual.Below n
  | .member m => m.receiver.Below n ∧ m.expected.Below n

theorem Constraint.Below.mono
    {n m : Nat} {c : Constraint} (h : c.Below n) (hnm : n ≤ m) :
    c.Below m := by
  cases c with
  | equal | result | member => exact ⟨h.1.mono hnm, h.2.mono hnm⟩

theorem Constraint.Equates.below_iff
    {c : Constraint} {left right : Ty} (h : c.Equates left right) {n : Nat} :
    c.Below n ↔ left.Below n ∧ right.Below n := by
  rcases h with ⟨span, rfl | rfl⟩
  · exact Iff.rfl
  · exact Iff.rfl

theorem Scope.Selects.of_agreesBelow
    {scope : Scope} {n : Nat} {s s' : Subst} {receiver t : Ty} {selector : Selector}
    (h : scope.Selects s receiver selector t) (hscope : scope.MembersBelow n)
    (hagree : Subst.AgreesBelow n s s') :
    scope.Selects s' receiver selector t := by
  cases h with
  | member found inst =>
      exact .member found (inst.of_agreesBelow (hscope _ _ _ _ _ found) hagree)
  | component found => exact .component found

theorem Constraint.Holds.of_agreesBelow
    {scope : Scope} {policy : MemberPolicy} {n : Nat} {s s' : Subst} {c : Constraint}
    (h : c.Holds scope policy s) (hscope : scope.MembersBelow n) (hc : c.Below n)
    (hagree : Subst.AgreesBelow n s s') :
    c.Holds scope policy s' := by
  cases c with
  | equal | result =>
      simp only [Constraint.Holds, ← hagree.apply hc.1, ← hagree.apply hc.2]
      exact h
  | member m =>
      simp only [Constraint.Holds, ← hagree.apply hc.1, ← hagree.apply hc.2]
      rcases h with hselects | hunknown
      · exact .inl (hselects.of_agreesBelow hscope hagree)
      · exact .inr hunknown

namespace Solver

/-- Every variable of a state lies below its supply. -/
structure Bounded (solver : Solver Supply) : Prop where
  subst : solver.subst.Below solver.supply.next
  pending : ∀ c ∈ solver.pending, c.Below solver.supply.next
  deferred : ∀ m ∈ solver.deferred, (Constraint.member m).Below solver.supply.next

theorem bounded_start
    {constraints : List Constraint} {supply : Supply}
    (h : ∀ c ∈ constraints, c.Below supply.next) :
    (start constraints supply).Bounded := by
  refine ⟨Subst.below_empty _, h, ?_⟩
  intro m hm
  cases hm

theorem solution_start
    {scope : Scope} {policy : MemberPolicy} {s : Subst} {constraints : List Constraint}
    (h : ∀ c ∈ constraints, c.Holds scope policy s) (supply : Supply) :
    Solution scope policy s (start constraints supply) := by
  refine ⟨s.absorbs_empty, h, ?_⟩
  intro m hm
  cases hm

theorem Solution.of_agreesBelow
    {scope : Scope} {policy : MemberPolicy} {s s' : Subst} {solver : Solver Supply}
    (h : Solution scope policy s solver) (hb : solver.Bounded)
    (hscope : scope.MembersBelow solver.supply.next)
    (hagree : Subst.AgreesBelow solver.supply.next s s') :
    Solution scope policy s' solver := by
  refine ⟨h.absorbs.of_agreesBelow hb.subst hagree, ?_, ?_⟩
  · intro c hc
    exact (h.pending c hc).of_agreesBelow hscope (hb.pending c hc) hagree
  · intro m hm
    exact (h.deferred m hm).of_agreesBelow hscope (hb.deferred m hm) hagree

/-- The scheme that is found leaves only variables free that are already in use. -/
theorem freeVars_lt_of_select
    {scope : Scope} {n : Nat} {receiver : Ty} {selector : Selector} {span : Span}
    {scheme : Scheme} (h : scope.select receiver selector span = .ok (some scheme))
    (hscope : scope.MembersBelow n) (hreceiver : receiver.Below n) :
    ∀ v ∈ scheme.freeVars, v < n := by
  cases receiver with
  | var v => cases h
  | con name args =>
      simp only [Scope.select] at h
      split at h
      · rename_i found hfound
        cases h
        exact hscope _ _ _ _ _ hfound
      · cases h
  | arrow params result => cases h
  | tuple elems =>
      simp only [Scope.select] at h
      split at h
      · cases h
      · split at h
        · rename_i t ht
          cases h
          intro v hv
          have hmem := Scheme.mem_freeVars.1 hv
          exact Ty.below_tuple.1 hreceiver t (List.mem_of_getElem? ht) v hmem.1
        · cases h

theorem Moves.next_le
    {scope : Scope} {solver next : Solver Supply} (h : Moves scope solver next) :
    solver.supply.next ≤ next.supply.next := by
  cases h with
  | resolve => exact solver.supply.next_le_instantiate _
  | unify | defer | retry => exact Nat.le_refl _

theorem Moves.bounded
    {scope : Scope} {solver next : Solver Supply} (h : Moves scope solver next)
    (hb : solver.Bounded) (hscope : scope.MembersBelow solver.supply.next) :
    next.Bounded := by
  cases h with
  | @unify c left right rest u hpending sides unified =>
      have hall := hb.pending
      rw [hpending, List.forall_mem_cons] at hall
      obtain ⟨hleft, hright⟩ := sides.below_iff.1 hall.1
      have hu : u.Below solver.supply.next := by
        refine (unify_solvedOver unified).below ?_
        intro v hv
        rcases List.mem_append.1 hv with hv | hv
        · exact hb.subst.apply hleft v hv
        · exact hb.subst.apply hright v hv
      exact ⟨hu.compose hb.subst, hall.2, hb.deferred⟩
  | @defer m rest hpending unknown =>
      have hall := hb.pending
      rw [hpending, List.forall_mem_cons] at hall
      refine ⟨hb.subst, hall.2, ?_⟩
      rw [List.forall_mem_append]
      refine ⟨hb.deferred, ?_⟩
      intro m' hm'
      obtain rfl := List.mem_singleton.1 hm'
      exact ⟨hb.subst.apply hall.1.1, hb.subst.apply hall.1.2⟩
  | @resolve m rest scheme hpending found =>
      have hall := hb.pending
      rw [hpending, List.forall_mem_cons] at hall
      have hle := solver.supply.next_le_instantiate scheme
      have hfree := freeVars_lt_of_select found hscope (hb.subst.apply hall.1.1)
      refine ⟨hb.subst.mono hle, ?_, fun m' hm' => (hb.deferred m' hm').mono hle⟩
      rw [List.forall_mem_cons]
      refine ⟨⟨(hb.subst.apply hall.1.2).mono hle, Supply.instantiate_below hfree⟩, ?_⟩
      exact fun c hc => (hall.2 c hc).mono hle
  | retry hpending =>
      refine ⟨hb.subst, ?_, fun m hm => absurd hm List.not_mem_nil⟩
      intro c hc
      obtain ⟨m, hm, rfl⟩ := List.mem_map.1 hc
      exact hb.deferred m hm

theorem isVar_of_isVar_apply {s : Subst} {t : Ty} (h : (s.apply t).isVar = true) :
    t.isVar = true := by
  cases t with
  | var v => rfl
  | con name args =>
      rw [Subst.apply_con] at h
      cases h
  | arrow params result =>
      rw [Subst.apply_arrow] at h
      cases h
  | tuple elems =>
      rw [Subst.apply_tuple] at h
      cases h

/-- A step on a state with a solution goes on, ends, or finds under the strict policy that
every receiver left is unknown.  The solution itself may leave receivers unknown. -/
theorem step_of_solution
    {scope : Scope} {policy granted : MemberPolicy} {s : Subst} {solver : Solver Supply}
    (sol : Solution scope granted s solver) :
    (∃ next, solver.step scope policy = .ok (.next next)) ∨
      solver.step scope policy = .ok (.done solver.subst) ∨
      (policy = .strict ∧ ∃ selector span,
        solver.step scope policy = .error ⟨.unresolvedMember selector, span⟩) := by
  have hunify : ∀ {left right : Ty}, s.apply left = s.apply right →
      ∃ u, unify (solver.subst.apply left) (solver.subst.apply right) = .ok u := by
    intro left right heq
    obtain ⟨u, hu, -⟩ := unify_complete (s := s) (l := solver.subst.apply left)
      (r := solver.subst.apply right) (by rw [sol.absorbs, sol.absorbs, heq])
    exact ⟨u, hu⟩
  unfold step
  split
  · unfold settle
    split
    · exact .inr (.inl rfl)
    · split
      · exact .inl ⟨_, rfl⟩
      · cases policy with
        | strict => exact .inr (.inr ⟨rfl, _, _, rfl⟩)
        | permissive => exact .inr (.inl rfl)
  · rename_i c rest hpending
    have hc := sol.pending c (by rw [hpending]; exact List.mem_cons_self)
    left
    cases c with
    | equal left right span =>
        obtain ⟨u, hu⟩ := hunify hc
        simp only [Constraint.apply, hu]
        exact ⟨_, rfl⟩
    | result expected actual span =>
        obtain ⟨u, hu⟩ := hunify hc
        simp only [Constraint.apply, hu]
        exact ⟨_, rfl⟩
    | member m =>
        have hknown : (solver.subst.apply m.receiver).isVar = true ∨
            ∃ scheme, scope.select (solver.subst.apply m.receiver) m.selector m.span =
              .ok (some scheme) ∧ scheme.InstanceUnder s (s.apply m.expected) := by
          rcases hc with hselects | ⟨-, hvar⟩
          · rw [← sol.absorbs m.receiver] at hselects
            exact Scope.select_of_selects hselects m.span
          · rw [← sol.absorbs m.receiver] at hvar
            exact .inl (isVar_of_isVar_apply hvar)
        simp only [Constraint.apply, resolveMember, MemberConstraint.apply]
        rcases hknown with hvar | ⟨scheme, hselect, -⟩
        · simp only [Scope.select_of_isVar hvar]
          exact ⟨_, rfl⟩
        · simp only [hselect]
          exact ⟨_, rfl⟩

/-- A scheme that is found for the receiver of a satisfied constraint has the expected type
as an instance. -/
theorem instanceUnder_of_holds
    {scope : Scope} {policy : MemberPolicy} {s u : Subst} {m : MemberConstraint}
    {scheme : Scheme} (h : (Constraint.member m).Holds scope policy s) (habs : s.Absorbs u)
    (found : scope.select (u.apply m.receiver) m.selector m.span = .ok (some scheme)) :
    scheme.InstanceUnder s (s.apply m.expected) := by
  have hknown : (u.apply m.receiver).isVar ≠ true := by
    intro hvar
    rw [Scope.select_of_isVar hvar] at found
    cases found
  rcases h with hselects | ⟨-, hvar⟩
  · rw [← habs m.receiver] at hselects
    rcases Scope.select_of_selects hselects m.span with hvar | ⟨scheme', hselect, inst⟩
    · exact absurd hvar hknown
    · rw [found] at hselect
      cases hselect
      exact inst
  · rw [← habs m.receiver] at hvar
    exact absurd (isVar_of_isVar_apply hvar) hknown

/-- What solves a state solves the next one after a change on fresh variables only. -/
theorem Moves.exists_solution
    {scope : Scope} {policy : MemberPolicy} {solver next : Solver Supply} {s : Subst}
    (h : Moves scope solver next) (sol : Solution scope policy s solver)
    (hb : solver.Bounded) (hscope : scope.MembersBelow solver.supply.next) :
    ∃ s', Subst.AgreesBelow solver.supply.next s s' ∧ Solution scope policy s' next := by
  have hpend := sol.pending
  cases h with
  | @unify c left right rest u hpending sides unified =>
      rw [hpending, List.forall_mem_cons] at hpend
      have hsides := sides.holds_iff.1 hpend.1
      obtain ⟨u', hu', habs⟩ := unify_complete (s := s) (l := solver.subst.apply left)
        (r := solver.subst.apply right) (by rw [sol.absorbs, sol.absorbs, hsides])
      rw [unified] at hu'
      cases hu'
      exact ⟨s, .refl _ _, habs.compose sol.absorbs, hpend.2, sol.deferred⟩
  | @defer m rest hpending unknown =>
      rw [hpending, List.forall_mem_cons] at hpend
      refine ⟨s, .refl _ _, sol.absorbs, hpend.2, ?_⟩
      rw [List.forall_mem_append]
      refine ⟨sol.deferred, ?_⟩
      intro m' hm'
      obtain rfl := List.mem_singleton.1 hm'
      exact (MemberConstraint.holds_apply sol.absorbs m).2 hpend.1
  | @resolve m rest scheme hpending found =>
      have hbound := hb.pending
      rw [hpending, List.forall_mem_cons] at hpend hbound
      have inst := instanceUnder_of_holds hpend.1 sol.absorbs found
      have hfree := freeVars_lt_of_select found hscope (hb.subst.apply hbound.1.1)
      obtain ⟨s', hagree, heq⟩ := Supply.exists_instantiate inst hfree
      have sol' := sol.of_agreesBelow hb hscope hagree
      refine ⟨s', hagree, sol'.absorbs, ?_, sol'.deferred⟩
      rw [List.forall_mem_cons]
      refine ⟨?_, fun c hc => sol'.pending c (by rw [hpending]; exact .tail _ hc)⟩
      simp only [Constraint.Holds]
      rw [sol'.absorbs, heq, hagree.apply hbound.1.2]
  | retry hpending =>
      refine ⟨s, .refl _ _, sol.absorbs, ?_, fun m hm => absurd hm List.not_mem_nil⟩
      intro c hc
      obtain ⟨m, hm, rfl⟩ := List.mem_map.1 hc
      exact sol.deferred m hm

/-- A state with a solution is solved, unless the strict policy meets a member of a receiver
that stays unknown.  The solution absorbs the result after a change on fresh variables.  It
may leave receivers unknown even when the run is strict. -/
theorem solve_of_solution
    {scope : Scope} {policy granted : MemberPolicy} {solver : Solver Supply} {s : Subst}
    (sol : Solution scope granted s solver) (hb : solver.Bounded)
    (hscope : scope.MembersBelow solver.supply.next) :
    (∃ u s', solver.solve scope policy = .ok u ∧
        Subst.AgreesBelow solver.supply.next s s' ∧ s'.Absorbs u) ∨
      (policy = .strict ∧ ∃ selector span,
        solver.solve scope policy = .error ⟨.unresolvedMember selector, span⟩) := by
  fun_induction solve scope policy solver generalizing s with
  | case1 solver e hstep =>
      rcases step_of_solution sol with ⟨next, hnext⟩ | hdone | ⟨hpolicy, selector, span, herr⟩
      · rw [hnext] at hstep
        cases hstep
      · rw [hdone] at hstep
        cases hstep
      · rw [herr] at hstep
        cases hstep
        exact .inr ⟨hpolicy, selector, span, rfl⟩
  | case2 solver u hstep =>
      obtain ⟨rfl, -, -⟩ := done_of_step hstep
      exact .inl ⟨_, s, rfl, .refl _ _, sol.absorbs⟩
  | case3 solver next hstep ih =>
      have hmove := moves_of_step hstep
      obtain ⟨s', hagree, sol'⟩ := hmove.exists_solution sol hb hscope
      have hrest := ih sol' (hmove.bounded hb hscope) (hscope.mono hmove.next_le)
      rcases hrest with ⟨u, s'', hu, hagree', habs⟩ | hunresolved
      · exact .inl ⟨u, s'', hu, hagree.trans hmove.next_le hagree', habs⟩
      · exact .inr hunresolved

end Solver

end Ascribe
