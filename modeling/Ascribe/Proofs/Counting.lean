import Ascribe.Proofs.Primitives

/-!
# Counting in a word

As long as no addition goes past the end of the word, a counter hands out what a supply hands out
that started at the same variable.  Then inference, solving and both together do with a counter
exactly what they do with a supply (`Scope.mirrors_infer`, `Solver.solve_exact`,
`Scope.annotateCounted_eq`), and so all that is known of them with a supply holds with a counter.

That an addition has gone past the end is never forgotten (`Counter.Precedes`), so it is enough to
look at the counter in which a run ends.
-/

namespace Ascribe

/-! ## Ascending variables -/

/-- Variables that ascend strictly and lie between two bounds. -/
structure Ascends (first last : Nat) (ids : List Nat) : Prop where
  le : first ≤ last
  ascending : ids.Pairwise (· < ·)
  within : ∀ v ∈ ids, first ≤ v ∧ v < last

theorem Ascends.nil {first last : Nat} (h : first ≤ last) :
    Ascends first last [] :=
  ⟨h, List.Pairwise.nil, fun _ hv => absurd hv List.not_mem_nil⟩

theorem Ascends.append
    {first middle last : Nat} {ids others : List Nat}
    (h : Ascends first middle ids) (h' : Ascends middle last others) :
    Ascends first last (ids ++ others) := by
  refine ⟨Nat.le_trans h.le h'.le, ?_, ?_⟩
  · refine List.pairwise_append.2 ⟨h.ascending, h'.ascending, ?_⟩
    intro v hv w hw
    exact Nat.lt_of_lt_of_le (h.within v hv).2 (h'.within w hw).1
  · intro v hv
    have hle := h.le
    have hle' := h'.le
    rcases List.mem_append.1 hv with hv | hv
    · have hbounds := h.within v hv
      omega
    · have hbounds := h'.within v hv
      omega

/-! ## Counters -/

namespace Counter

/-- The supply that starts at the same variable. -/
def exact (counter : Counter) : Supply :=
  ⟨counter.next.toNat⟩

/-- A counter comes before another one in a run: an overflow is not forgotten, and without one
the variables that were handed out in between ascend from the one to the other. -/
structure Precedes (before after : Counter) : Prop where
  overflowed : before.overflowed = true → after.overflowed = true
  ascends : after.overflowed = false →
    ∃ ids, after.issued = before.issued ++ ids ∧
      Ascends before.next.toNat after.next.toNat ids

variable {before middle after counter : Counter}

theorem Precedes.refl (counter : Counter) : counter.Precedes counter :=
  ⟨id, fun _ => ⟨[], (List.append_nil _).symm, .nil (Nat.le_refl _)⟩⟩

theorem Precedes.overflowed_eq_false
    (h : before.Precedes after) (hafter : after.overflowed = false) :
    before.overflowed = false := by
  rw [Bool.eq_false_iff] at hafter ⊢
  exact fun hbefore => hafter (h.overflowed hbefore)

theorem Precedes.trans (h : before.Precedes middle) (h' : middle.Precedes after) :
    before.Precedes after := by
  refine ⟨fun hbefore => h'.overflowed (h.overflowed hbefore), ?_⟩
  intro hafter
  obtain ⟨ids, hids, hascends⟩ := h.ascends (h'.overflowed_eq_false hafter)
  obtain ⟨others, hothers, hascends'⟩ := h'.ascends hafter
  refine ⟨ids ++ others, ?_, hascends.append hascends'⟩
  rw [hothers, hids, List.append_assoc]

theorem precedes_fresh (counter : Counter) : counter.Precedes counter.fresh.2 := by
  refine ⟨fun h => by simp [fresh, h], ?_⟩
  intro h
  have hnext := VarSet.toNat_succ (Bool.or_eq_false_iff.1 h).2
  refine ⟨[counter.next.toNat], rfl, ?_, List.pairwise_singleton _ _, ?_⟩
  · simp only [fresh]
    omega
  · intro v hv
    rw [List.mem_singleton] at hv
    simp only [fresh]
    omega

/-- Without an overflow a fresh variable is that of a supply. -/
theorem fresh_exact (h : counter.fresh.2.overflowed = false) :
    counter.exact.fresh = (counter.fresh.1, counter.fresh.2.exact) := by
  have hnext := VarSet.toNat_succ (Bool.or_eq_false_iff.1 h).2
  simp only [Supply.fresh, exact, fresh, hnext]

theorem precedes_freshFor (counter : Counter) (vs : List Nat) :
    counter.Precedes (counter.freshFor vs).2 := by
  induction vs generalizing counter with
  | nil => exact .refl counter
  | cons v vs ih => exact counter.precedes_fresh.trans (ih counter.fresh.2)

theorem freshFor_exact {vs : List Nat} (h : (counter.freshFor vs).2.overflowed = false) :
    (counter.freshFor vs).1 = Supply.freshFor counter.next.toNat vs ∧
      (counter.freshFor vs).2.next.toNat = counter.next.toNat + vs.length := by
  induction vs generalizing counter with
  | nil => exact ⟨rfl, rfl⟩
  | cons v vs ih =>
      have hfresh := (counter.fresh.2.precedes_freshFor vs).overflowed_eq_false h
      have hnext := VarSet.toNat_succ (Bool.or_eq_false_iff.1 hfresh).2
      have hstart : counter.fresh.2.next.toNat = counter.next.toNat + 1 := hnext
      have ⟨hpairs, hlast⟩ := @ih counter.fresh.2 h
      rw [hstart] at hpairs hlast
      refine ⟨?_, ?_⟩
      · rw [Supply.freshFor, ← hpairs]
        rfl
      · rw [List.length_cons, Nat.add_comm vs.length, ← Nat.add_assoc, ← hlast]
        rfl

theorem precedes_above (counter : Counter) (scheme : Scheme) :
    counter.Precedes (counter.above scheme) := by
  refine ⟨fun h => by simp [above, h], fun h => ⟨[], (List.append_nil _).symm, .nil ?_⟩⟩
  rw [above, VarSet.toNat_larger]
  exact Nat.le_max_left _ _

theorem precedes_instantiate (counter : Counter) (scheme : Scheme) :
    counter.Precedes (counter.instantiate scheme).2 := by
  unfold instantiate
  split
  · exact .refl counter
  · exact (counter.precedes_above scheme).trans (precedes_freshFor _ _)

/-- Without an overflow an instance of a scheme is that of a supply. -/
theorem instantiate_exact {scheme : Scheme}
    (h : (counter.instantiate scheme).2.overflowed = false) :
    counter.exact.instantiate scheme =
      ((counter.instantiate scheme).1, (counter.instantiate scheme).2.exact) := by
  unfold instantiate at h ⊢
  unfold Supply.instantiate
  split at h
  · rename_i hvars
    rw [if_pos hvars, if_pos hvars]
  · rename_i hvars
    rw [if_neg hvars, if_neg hvars]
    have habove := (precedes_freshFor _ _).overflowed_eq_false h
    have hfirst : (counter.above scheme).next.toNat =
        max counter.exact.next scheme.ceiling := by
      rw [above, VarSet.toNat_larger, VarSet.toNat_wordCeiling (Bool.or_eq_false_iff.1 habove).2]
      rfl
    obtain ⟨hpairs, hlast⟩ := freshFor_exact h
    rw [hfirst] at hpairs hlast
    simp only [hpairs, exact, hlast]

end Counter

/-! ## Inference -/

namespace InferState

/-- The state with the supply that starts at the same variable. -/
def exact (state : InferState Counter) : InferState Supply :=
  ⟨state.supply.exact, state.constraints⟩

/-- A state comes before another one in a run: constraints are only added behind those that are
there, and the counter is not turned back. -/
structure Onward (before after : InferState Counter) : Prop where
  constraints : before.constraints <+: after.constraints
  supply : before.supply.Precedes after.supply

variable {before middle after : InferState Counter}

theorem Onward.trans (h : before.Onward middle) (h' : middle.Onward after) :
    before.Onward after :=
  ⟨h.constraints.trans h'.constraints, h.supply.trans h'.supply⟩

end InferState

namespace Infer

section After

variable {σ α β : Type} {state middle final : InferState σ}

/-- The state in which a step ends, whether it fails or not. -/
def after (x : Infer σ α) (state : InferState σ) : InferState σ :=
  match x state with
  | .ok _ final => final
  | .error _ final => final

theorem after_of_ok {x : Infer σ α} {a : α} (h : x state = .ok a final) :
    after x state = final := by
  simp only [after, h]

theorem after_of_error {x : Infer σ α} {e : TypeError} (h : x state = .error e final) :
    after x state = final := by
  simp only [after, h]

theorem bind_of_ok
    {x : Infer σ α} {f : α → Infer σ β} {a : α} (h : x state = .ok a middle) :
    (x >>= f) state = f a middle := by
  simp only [bind, EStateM.bind, h]

theorem bind_of_error
    {x : Infer σ α} {f : α → Infer σ β} {e : TypeError} (h : x state = .error e middle) :
    (x >>= f) state = .error e middle := by
  simp only [bind, EStateM.bind, h]

end After

variable {α β : Type}

/-- The outcome of a step with a counter, as one with a supply. -/
def exactly :
    EStateM.Result TypeError (InferState Counter) α →
      EStateM.Result TypeError (InferState Supply) α
  | .ok a state => .ok a state.exact
  | .error e state => .error e state.exact

/-- A step with a counter only moves onward, and unless it overflows it does what another step
does with a supply. -/
structure Mirrors (x : Infer Counter α) (y : Infer Supply α) : Prop where
  onward (state : InferState Counter) : state.Onward (after x state)
  exact (state : InferState Counter) (fits : (after x state).supply.overflowed = false) :
    y state.exact = exactly (x state)

theorem Mirrors.bind
    {x : Infer Counter α} {y : Infer Supply α} {f : α → Infer Counter β}
    {g : α → Infer Supply β} (first : Mirrors x y) (rest : ∀ a, Mirrors (f a) (g a)) :
    Mirrors (x >>= f) (y >>= g) := by
  refine ⟨?_, ?_⟩
  · intro state
    have hfirst := first.onward state
    cases hrun : x state with
    | ok a middle =>
        rw [after_of_ok hrun] at hfirst
        rw [after, bind_of_ok hrun]
        exact hfirst.trans ((rest a).onward middle)
    | error e middle =>
        rw [after_of_error hrun] at hfirst
        rw [after_of_error (bind_of_error hrun)]
        exact hfirst
  · intro state fits
    have hfirst := first.exact state
    cases hrun : x state with
    | ok a middle =>
        rw [after, bind_of_ok hrun] at fits
        rw [after_of_ok hrun, hrun] at hfirst
        -- An overflow in the first step would still show after the second one.
        have hmiddle := ((rest a).onward middle).supply.overflowed_eq_false fits
        rw [bind_of_ok hrun, bind_of_ok (hfirst hmiddle)]
        exact (rest a).exact middle fits
    | error e middle =>
        rw [after_of_error (bind_of_error hrun)] at fits
        rw [after_of_error hrun, hrun] at hfirst
        rw [bind_of_error hrun, bind_of_error (hfirst fits)]
        rfl

/-- A step that takes no variable. -/
theorem mirrors_of_supply_eq
    {x : Infer Counter α} {y : Infer Supply α}
    (constraints : ∀ state, state.constraints <+: (after x state).constraints)
    (supply : ∀ state, (after x state).supply = state.supply)
    (same : ∀ state : InferState Counter, y state.exact = exactly (x state)) :
    Mirrors x y := by
  refine ⟨fun state => ⟨constraints state, ?_⟩, fun state _ => same state⟩
  rw [supply state]
  exact .refl _

theorem mirrors_lift (x : Except TypeError α) : Mirrors (lift x) (lift x) := by
  cases x with
  | ok a => exact mirrors_of_supply_eq (fun _ => List.prefix_rfl) (fun _ => rfl) fun _ => rfl
  | error e => exact mirrors_of_supply_eq (fun _ => List.prefix_rfl) (fun _ => rfl) fun _ => rfl

theorem mirrors_fresh : Mirrors fresh fresh := by
  refine ⟨fun state => ⟨List.prefix_rfl, state.supply.precedes_fresh⟩, ?_⟩
  intro state fits
  have hfresh : state.exact.supply.fresh = _ := Counter.fresh_exact fits
  simp only [fresh, Supply.varSource_fresh, hfresh]
  rfl

theorem mirrors_instantiate (scheme : Scheme) :
    Mirrors (instantiate scheme) (instantiate scheme) := by
  refine ⟨fun state => ⟨List.prefix_rfl, state.supply.precedes_instantiate scheme⟩, ?_⟩
  intro state fits
  have hinstance : state.exact.supply.instantiate scheme = _ := Counter.instantiate_exact fits
  simp only [instantiate, Supply.varSource_instantiate, hinstance]
  rfl

theorem respected_mirrors : Respected (σ := Counter) (τ := Supply) Mirrors where
  pure _ := mirrors_of_supply_eq (fun _ => List.prefix_rfl) (fun _ => rfl) fun _ => rfl
  lift := mirrors_lift
  fail _ _ := mirrors_of_supply_eq (fun _ => List.prefix_rfl) (fun _ => rfl) fun _ => rfl
  constrain _ := mirrors_of_supply_eq (fun _ => List.prefix_append _ _) (fun _ => rfl) fun _ => rfl
  fresh := mirrors_fresh
  instantiate := mirrors_instantiate
  bind := .bind

end Infer

/-- Inference with a counter only moves onward, and unless it overflows it is inference with a
supply. -/
theorem Scope.mirrors_infer (scope : Scope) (e : Expr) (locals : Locals) :
    Infer.Mirrors (scope.infer locals e) (scope.infer locals e) :=
  respects_infer Infer.respected_mirrors e locals

/-! ## Solving -/

namespace Solver

section Last

variable {σ : Type} [VarSource σ] {scope : Scope} {policy : MemberPolicy}

/-- The state in which solving ends. -/
def last (scope : Scope) (policy : MemberPolicy) (solver : Solver σ) : Solver σ :=
  (solver.trace scope policy).1.getLastD solver

theorem last_of_next
    {solver next : Solver σ} (h : solver.step scope policy = .ok (.next next)) :
    solver.last scope policy = next.last scope policy := by
  rw [last, trace]
  split
  · simp_all
  · simp_all
  · rename_i next' hstep
    rw [h] at hstep
    cases hstep
    exact List.getLastD_cons

theorem last_of_done
    {solver : Solver σ} {outcome : Except TypeError Subst}
    (h : solver.step scope policy = outcome.map .done) :
    solver.last scope policy = solver := by
  rw [last, trace]
  cases outcome with
  | ok s => split <;> simp_all [Except.map]
  | error e => split <;> simp_all [Except.map]

end Last

/-- The state with the supply that starts at the same variable. -/
def exact (solver : Solver Counter) : Solver Supply :=
  ⟨solver.pending, solver.deferred, solver.subst, solver.supply.exact⟩

end Solver

/-- `Solver.exact` on the outcome of a step. -/
def Step.exact : Step Counter → Step Supply
  | .next solver => .next solver.exact
  | .done s => .done s

namespace Solver

variable {scope : Scope} {policy : MemberPolicy} {solver next : Solver Counter}

theorem resolveMember_exact
    {rest : List Constraint} {m : MemberConstraint}
    (fits : ∀ next, solver.resolveMember scope rest m = .ok (.next next) →
      next.supply.overflowed = false) :
    solver.exact.resolveMember scope rest m =
      (solver.resolveMember scope rest m).map Step.exact := by
  unfold resolveMember at fits ⊢
  cases hselect : scope.select m.receiver m.selector m.span with
  | error e => rfl
  | ok found =>
      cases found with
      | none => rfl
      | some scheme =>
          simp only [hselect] at fits
          have hinstance : solver.exact.supply.instantiate scheme = _ :=
            Counter.instantiate_exact (fits _ rfl)
          simp only [Supply.varSource_instantiate, hinstance]
          rfl

theorem settle_exact (policy : MemberPolicy) (solver : Solver Counter) :
    solver.exact.settle policy = (solver.settle policy).map Step.exact := by
  cases hdeferred : solver.deferred with
  | nil => simp only [settle, exact, hdeferred, Except.map, Step.exact]
  | cons first rest =>
      simp only [settle, exact, hdeferred]
      split
      · rfl
      · cases policy with
        | strict => rfl
        | permissive => rfl

/-- Unless it overflows, a step with a counter is a step with a supply. -/
theorem step_exact
    (fits : ∀ next, solver.step scope policy = .ok (.next next) →
      next.supply.overflowed = false) :
    solver.exact.step scope policy = (solver.step scope policy).map Step.exact := by
  have hpending : solver.exact.pending = solver.pending := rfl
  have hsubst : solver.exact.subst = solver.subst := rfl
  unfold step at fits ⊢
  rw [hpending, hsubst]
  cases hqueue : solver.pending with
  | nil => exact settle_exact policy solver
  | cons c rest =>
      simp only [hqueue] at fits
      cases c with
      | equal left right span =>
          simp only [Constraint.apply]
          cases unify (solver.subst.apply left) (solver.subst.apply right) with
          | ok u => rfl
          | error e => rfl
      | result expected actual span =>
          simp only [Constraint.apply]
          cases unify (solver.subst.apply expected) (solver.subst.apply actual) with
          | ok u => rfl
          | error e => rfl
      | member m => exact resolveMember_exact fits

theorem exact_step_eq
    {outcome : Except TypeError (Step Counter)} (h : solver.step scope policy = outcome)
    (fits : ∀ next, outcome = .ok (.next next) → next.supply.overflowed = false) :
    solver.exact.step scope policy = outcome.map Step.exact := by
  subst h
  exact step_exact fits

theorem supply_of_settle (h : solver.settle policy = .ok (.next next)) :
    next.supply = solver.supply := by
  unfold settle at h
  split at h
  · cases h
  · split at h
    · cases h
      rfl
    · split at h <;> cases h

theorem precedes_of_resolveMember
    {rest : List Constraint} {m : MemberConstraint}
    (h : solver.resolveMember scope rest m = .ok (.next next)) :
    solver.supply.Precedes next.supply := by
  unfold resolveMember at h
  split at h
  · cases h
  · cases h
    exact .refl _
  · rename_i scheme hselect
    cases h
    exact solver.supply.precedes_instantiate scheme

/-- A step does not turn the counter back. -/
theorem precedes_of_step (h : solver.step scope policy = .ok (.next next)) :
    solver.supply.Precedes next.supply := by
  unfold step at h
  split at h
  · rw [supply_of_settle h]
    exact .refl _
  · rename_i c rest hpending
    cases c with
    | equal left right span =>
        simp only [Constraint.apply] at h
        split at h
        · cases h
          exact .refl _
        · cases h
    | result expected actual span =>
        simp only [Constraint.apply] at h
        split at h
        · cases h
          exact .refl _
        · cases h
    | member m => exact precedes_of_resolveMember h

theorem precedes_last (scope : Scope) (policy : MemberPolicy) (solver : Solver Counter) :
    solver.supply.Precedes (solver.last scope policy).supply := by
  fun_induction solve scope policy solver with
  | case1 solver e hstep =>
      have hdone : solver.step scope policy = Except.map .done (.error e) := hstep
      rw [last_of_done hdone]
      exact .refl _
  | case2 solver s hstep =>
      have hdone : solver.step scope policy = Except.map .done (.ok s) := hstep
      rw [last_of_done hdone]
      exact .refl _
  | case3 solver next hstep ih =>
      rw [last_of_next hstep]
      exact (precedes_of_step hstep).trans ih

/-- Unless it overflows, solving with a counter is solving with a supply. -/
theorem solve_exact (fits : (solver.last scope policy).supply.overflowed = false) :
    solver.exact.solve scope policy = solver.solve scope policy := by
  fun_induction solve scope policy solver with
  | case1 solver e hstep => exact solve_of_step_done (exact_step_eq hstep (by simp))
  | case2 solver s hstep => exact solve_of_step_done (exact_step_eq hstep (by simp))
  | case3 solver next hstep ih =>
      rw [last_of_next hstep] at fits
      have hnext : next.supply.overflowed = false :=
        (precedes_last scope policy next).overflowed_eq_false fits
      have hexact : solver.exact.step scope policy = .ok (.next next.exact) := by
        refine exact_step_eq hstep fun next' h => ?_
        cases h
        exact hnext
      rw [solve_of_step_next hexact]
      exact ih fits

end Solver

/-! ## Both together -/

namespace Scope

variable {scope : Scope} {e : Expr}

/-- The counter in which annotating an expression ends. -/
def spent (scope : Scope) (e : Expr) : Counter :=
  match scope.infer [] e (Infer.startCounted scope) with
  | .error _ state => state.supply
  | .ok _ state =>
      ((Solver.start state.constraints state.supply).last scope scope.options.policy).supply

/-- A run ends behind the counter in which it starts, whether it fails or not. -/
theorem precedes_spent (scope : Scope) (e : Expr) :
    scope.startCounter.Precedes (scope.spent e) := by
  have honward := (scope.mirrors_infer e []).onward (Infer.startCounted scope)
  unfold spent
  cases hrun : scope.infer [] e (Infer.startCounted scope) with
  | error error state =>
      rw [Infer.after_of_error hrun] at honward
      exact honward.supply
  | ok typed state =>
      rw [Infer.after_of_ok hrun] at honward
      exact honward.supply.trans (Solver.precedes_last _ _ (Solver.start _ state.supply))

/-- Unless it overflows, annotating an expression with a counter is annotating it with a
supply. -/
theorem annotateCounted_eq (fits : (scope.spent e).overflowed = false) :
    scope.annotateCounted e = scope.annotate e := by
  have hstart : (Infer.startCounted scope).exact = Infer.start scope := by
    have hbelow := (scope.precedes_spent e).overflowed_eq_false fits
    simp only [InferState.exact, Infer.startCounted, Counter.exact, startCounter, Infer.start,
      nextVar, VarSet.toNat_wordCeiling hbelow]
  have hexact := (scope.mirrors_infer e []).exact (Infer.startCounted scope)
  rw [hstart] at hexact
  rw [annotateCounted, annotate, complete, completeFrom, completeFrom]
  unfold spent at fits
  cases hrun : scope.infer [] e (Infer.startCounted scope) with
  | error error state =>
      rw [Infer.after_of_error hrun, hrun] at hexact
      simp only [hrun] at fits
      simp only [hexact fits, Infer.exactly]
  | ok typed state =>
      rw [Infer.after_of_ok hrun, hrun] at hexact
      simp only [hrun] at fits
      have hstate : state.supply.overflowed = false :=
        (Solver.precedes_last _ _ (Solver.start _ state.supply)).overflowed_eq_false fits
      have hsolve : scope.solveInferred state.exact = scope.solveInferred state :=
        Solver.solve_exact fits
      simp only [hexact hstate, Infer.exactly, hsolve]

end Scope

end Ascribe
