import Mathlib.Tactic.Ring
import Ascribe.Proofs.Solving

/-!
# How many steps solving takes

An equality takes one step.  A member takes two, since it is looked up and then becomes an
equality.  While its receiver is unknown, looking at it takes a step and leaves it where it
was, so the length of the queue says nothing about how long solving goes on.

What bounds the number of steps is that every round counts.  The members that were set aside
are queued again only when the receiver of one of them has become known.  A known receiver
stays known, so that member is discharged before the next round, and there are at most as many
further rounds as there are members.  `Solver.stepsLeft` adds this up, and every step lowers it
(`Solver.stepsLeft_lt_of_step`).  So the number of steps is at most quadratic in the number of
members and linear in the number of constraints.
-/

namespace Ascribe

def Constraint.isMember : Constraint → Bool
  | .member _ => true
  | _ => false

theorem Constraint.Equates.isMember_eq_false
    {c : Constraint} {left right : Ty} (h : c.Equates left right) :
    c.isMember = false := by
  rcases h with ⟨span, rfl | rfl⟩
  · rfl
  · rfl

namespace Solver

/-! ## Rounds -/

/-- The steps that the given number of members may take once the queue is empty, without the
equalities that they become: a step to queue them again, one to look at each of them, and the
same for the rest of them. -/
def roundSteps : Nat → Nat
  | 0 => 1
  | members + 1 => roundSteps members + members + 2

theorem roundSteps_mono {m n : Nat} (h : m ≤ n) : roundSteps m ≤ roundSteps n := by
  induction h with
  | refl => exact Nat.le_refl _
  | step _ ih => exact Nat.le_trans ih (by rw [roundSteps]; omega)

theorem roundSteps_eq (members : Nat) :
    roundSteps members = members * (members + 3) / 2 + 1 := by
  induction members with
  | zero => rfl
  | succ members ih =>
      have hnext : (members + 1) * (members + 1 + 3) =
          members * (members + 3) + 2 * (members + 2) := by ring
      rw [roundSteps, ih, hnext]
      omega

/-! ## The steps that are left -/

/-- The number of members in the queue and of those that were set aside. -/
def memberCount (solver : Solver Supply) : Nat :=
  solver.pending.countP Constraint.isMember + solver.deferred.length

/-- Whether a member in the queue will be discharged before the next round. -/
def ready (solver : Solver Supply) : Bool :=
  solver.pending.any (isReady solver.subst)

/-- The number of members that may be left for the next round. -/
def nextRound (solver : Solver Supply) : Nat :=
  if solver.ready then solver.memberCount - 1 else solver.memberCount

/-- A bound on the number of steps that are left: one for each constraint in the queue, one for
the equality that each member becomes, and the rounds that follow. -/
def stepsLeft (solver : Solver Supply) : Nat :=
  solver.pending.length + solver.memberCount + roundSteps solver.nextRound

theorem isMember_of_isReady {s : Subst} {c : Constraint} (h : isReady s c = true) :
    c.isMember = true := by
  cases c with
  | member m => rfl
  | equal | result => cases h

theorem memberCount_pos_of_ready {solver : Solver Supply} (h : solver.ready = true) :
    0 < solver.memberCount := by
  obtain ⟨c, hmem, hready⟩ := List.any_eq_true.1 h
  have hcount : 0 < solver.pending.countP Constraint.isMember :=
    List.countP_pos_iff.2 ⟨c, hmem, isMember_of_isReady hready⟩
  exact Nat.lt_of_lt_of_le hcount (Nat.le_add_right _ _)

theorem nextRound_le (solver : Solver Supply) : solver.nextRound ≤ solver.memberCount := by
  rw [nextRound]
  split
  · exact Nat.sub_le _ _
  · exact Nat.le_refl _

theorem memberCount_le_nextRound (solver : Solver Supply) :
    solver.memberCount - 1 ≤ solver.nextRound := by
  rw [nextRound]
  split
  · exact Nat.le_refl _
  · exact Nat.sub_le _ _

theorem stepsLeft_pos (solver : Solver Supply) : 0 < solver.stepsLeft := by
  have hrounds : roundSteps 0 ≤ roundSteps solver.nextRound := roundSteps_mono (Nat.zero_le _)
  exact Nat.lt_of_lt_of_le hrounds (Nat.le_add_left _ _)

/-- A receiver that is known stays known. -/
theorem isReady_compose
    {s u : Subst} {left right : Ty} (hs : s.Solved)
    (unified : unify (s.apply left) (s.apply right) = .ok u) {c : Constraint}
    (h : isReady s c = true) :
    isReady (u.compose s) c = true := by
  cases c with
  | equal | result => cases h
  | member m =>
      simp only [isReady, isKnown, Bool.not_eq_true', apply_compose_unifier hs unified] at h ⊢
      cases hvar : (u.apply (s.apply m.receiver)).isVar with
      | false => rfl
      | true => exact absurd (isVar_of_isVar_apply hvar) (by simp [h])

/-- A new round begins with a member whose receiver is known. -/
theorem ready_of_settle
    {policy : MemberPolicy} {solver next : Solver Supply}
    (h : solver.settle policy = .ok (.next next)) :
    next = ⟨solver.deferred.map .member, [], solver.subst, solver.supply⟩ ∧
      next.ready = true := by
  unfold settle at h
  split at h
  · cases h
  · rename_i first rest hdeferred
    split at h
    · rename_i hknown
      cases h
      refine ⟨by rw [hdeferred], ?_⟩
      rw [ready, List.any_map]
      exact hknown
    · split at h <;> cases h

theorem nextRound_le_of_ready
    {solver next : Solver Supply} (hcount : next.memberCount = solver.memberCount)
    (hready : solver.ready = true → next.ready = true) :
    next.nextRound ≤ solver.nextRound := by
  cases h : solver.ready with
  | true => simp [nextRound, h, hready h, hcount]
  | false =>
      have hround : solver.nextRound = solver.memberCount := by simp [nextRound, h]
      rw [hround, ← hcount]
      exact nextRound_le next

/-- A step that takes an equality or an unknown member out of the queue leaves fewer steps. -/
theorem stepsLeft_lt_of_ready
    {solver next : Solver Supply} (hlength : next.pending.length < solver.pending.length)
    (hcount : next.memberCount = solver.memberCount)
    (hready : solver.ready = true → next.ready = true) :
    next.stepsLeft < solver.stepsLeft := by
  have hrounds := roundSteps_mono (nextRound_le_of_ready hcount hready)
  rw [stepsLeft, stepsLeft, hcount]
  omega

/-- A step that puts an equality in the place of a member leaves fewer steps. -/
theorem stepsLeft_lt_of_discharged
    {solver next : Solver Supply} (hlength : next.pending.length = solver.pending.length)
    (hcount : next.memberCount + 1 = solver.memberCount) :
    next.stepsLeft < solver.stepsLeft := by
  have hround : next.nextRound ≤ solver.nextRound := by
    calc
      next.nextRound ≤ next.memberCount := nextRound_le next
      _ = solver.memberCount - 1 := by omega
      _ ≤ solver.nextRound := memberCount_le_nextRound solver
  have hrounds := roundSteps_mono hround
  rw [stepsLeft, stepsLeft]
  omega

/-- A step that begins a round leaves fewer steps. -/
theorem stepsLeft_lt_of_settle
    {policy : MemberPolicy} {solver next : Solver Supply} (hpending : solver.pending = [])
    (h : solver.settle policy = .ok (.next next)) :
    next.stepsLeft < solver.stepsLeft := by
  obtain ⟨hnext, hready⟩ := ready_of_settle h
  have hlength : next.pending.length = solver.deferred.length := by simp [hnext]
  have hcount : next.memberCount = solver.deferred.length := by
    simp [hnext, memberCount, List.countP_map, Function.comp_def, Constraint.isMember]
  -- the queue is empty and nothing in it is ready, so the rounds were counted for all members
  have hbefore : solver.stepsLeft =
      solver.deferred.length + roundSteps solver.deferred.length := by
    simp [stepsLeft, nextRound, ready, memberCount, hpending]
  have hpos := memberCount_pos_of_ready hready
  obtain ⟨members, hmembers⟩ := Nat.exists_eq_add_one.2 (hcount ▸ hpos)
  rw [hbefore, stepsLeft, nextRound, if_pos hready, hlength, hcount, hmembers,
    Nat.add_sub_cancel, roundSteps]
  omega

/-- A step that goes on leaves fewer steps. -/
theorem stepsLeft_lt_of_step
    {scope : Scope} {policy : MemberPolicy} {solver next : Solver Supply} (hs : solver.subst.Solved)
    (h : solver.step scope policy = .ok (.next next)) :
    next.stepsLeft < solver.stepsLeft := by
  cases moves_of_step h with
  | @unify c left right rest u hpending sides unified =>
      have hmember := sides.isMember_eq_false
      refine stepsLeft_lt_of_ready ?_ ?_ ?_
      · simp [hpending]
      · simp [memberCount, hpending, hmember]
      · -- what is ready is behind the equality, and unifying keeps it ready
        intro hready
        obtain ⟨c', hmem, hc'⟩ := List.any_eq_true.1 hready
        rw [hpending] at hmem
        rcases List.mem_cons.1 hmem with rfl | hmem
        · rw [isMember_of_isReady hc'] at hmember
          cases hmember
        · exact List.any_eq_true.2 ⟨c', hmem, isReady_compose hs unified hc'⟩
  | @defer m rest hpending hunknown =>
      refine stepsLeft_lt_of_ready ?_ ?_ ?_
      · simp [hpending]
      · simp only [memberCount, hpending, List.countP_cons, Constraint.isMember, if_true,
          List.length_append, List.length_singleton]
        omega
      · intro hready
        simpa [ready, hpending, isReady, isKnown, hunknown] using hready
  | @resolve m rest scheme hpending found =>
      refine stepsLeft_lt_of_discharged ?_ ?_
      · simp [hpending]
      · simp only [memberCount, hpending, List.countP_cons, Constraint.isMember, if_true,
          Bool.false_eq_true, if_false]
        omega
  | retry hpending =>
      rw [step, hpending] at h
      exact stepsLeft_lt_of_settle hpending h

/-! ## Runs -/

/-- Solving takes exactly the given number of steps: with fewer it still goes on, and with that
many or more it has come to what solving gives. -/
structure Takes (scope : Scope) (policy : MemberPolicy) (solver : Solver Supply) (n : Nat) :
    Prop where
  running : ∀ k < n, ∃ state, solver.advance scope policy k = .ok (.next state)
  ended : ∀ k, n ≤ k → solver.advance scope policy k = (solver.solve scope policy).map .done

theorem takes_one
    {scope : Scope} {policy : MemberPolicy} {solver : Solver Supply}
    (outcome : Except TypeError Subst)
    (h : solver.step scope policy = outcome.map .done) :
    Takes scope policy solver 1 where
  running := by
    intro k hk
    obtain rfl : k = 0 := by omega
    exact ⟨solver, rfl⟩
  ended := by
    intro k hk
    obtain ⟨j, rfl⟩ := Nat.exists_eq_add_of_le' hk
    rw [solve_of_step_done h, advance, h]
    cases outcome with
    | ok s => rfl
    | error e => rfl

theorem Takes.succ
    {scope : Scope} {policy : MemberPolicy} {solver next : Solver Supply} {n : Nat}
    (h : solver.step scope policy = .ok (.next next)) (hnext : Takes scope policy next n) :
    Takes scope policy solver (n + 1) where
  running := by
    intro k hk
    cases k with
    | zero => exact ⟨solver, rfl⟩
    | succ k =>
        obtain ⟨state, hstate⟩ := hnext.running k (by omega)
        exact ⟨state, by simp only [advance, h, hstate]⟩
  ended := by
    intro k hk
    obtain ⟨j, rfl⟩ := Nat.exists_eq_add_of_le' hk
    rw [solve_of_step_next h, ← hnext.ended (j + n) (Nat.le_add_left _ _), ← Nat.add_assoc,
      advance, h]

/-- Solving takes no more steps than there are left. -/
theorem exists_takes
    (scope : Scope) (policy : MemberPolicy) (solver : Solver Supply) (hs : solver.subst.Solved) :
    ∃ n ≤ solver.stepsLeft, Takes scope policy solver n := by
  induction hleft : solver.stepsLeft using Nat.strong_induction_on generalizing solver with
  | _ left ih =>
    subst hleft
    cases hstep : solver.step scope policy with
    | error e => exact ⟨1, stepsLeft_pos solver, takes_one (.error e) hstep⟩
    | ok outcome =>
        cases outcome with
        | done s => exact ⟨1, stepsLeft_pos solver, takes_one (.ok s) hstep⟩
        | next next =>
            have hless := stepsLeft_lt_of_step hs hstep
            have hsolved := (moves_of_step hstep).solved hs
            obtain ⟨n, hn, htakes⟩ := ih next.stepsLeft hless next hsolved rfl
            exact ⟨n + 1, by omega, htakes.succ hstep⟩

theorem stepsLeft_start_le (constraints : List Constraint) (supply : Supply) :
    (start constraints supply).stepsLeft ≤
      constraints.length + constraints.countP Constraint.isMember *
        (constraints.countP Constraint.isMember + 5) / 2 + 1 := by
  have hcount : (start constraints supply).memberCount =
      constraints.countP Constraint.isMember := rfl
  have hlength : (start constraints supply).pending.length = constraints.length := rfl
  have hrounds := roundSteps_mono (nextRound_le (start constraints supply))
  rw [stepsLeft, hcount, hlength]
  rw [hcount, roundSteps_eq (constraints.countP Constraint.isMember)] at hrounds
  generalize constraints.countP Constraint.isMember = members at hrounds ⊢
  have hsum : members * (members + 5) = members * (members + 3) + 2 * members := by ring
  omega

/-- Solving ends, whatever the scope, the constraints, the source of variables and the policy
are.  The number of its steps is linear in the number of constraints and quadratic in the number
of members among them. -/
theorem solve_takes
    (scope : Scope) (policy : MemberPolicy) (constraints : List Constraint) (supply : Supply) :
    ∃ n, Takes scope policy (start constraints supply) n ∧
      n ≤ constraints.length + constraints.countP Constraint.isMember *
        (constraints.countP Constraint.isMember + 5) / 2 + 1 := by
  obtain ⟨n, hn, htakes⟩ :=
    exists_takes scope policy (start constraints supply) Subst.solved_empty
  exact ⟨n, htakes, Nat.le_trans hn (stepsLeft_start_le constraints supply)⟩

end Solver

end Ascribe
