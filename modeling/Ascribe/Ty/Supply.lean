import Ascribe.Ty.Scheme

/-!
# Fresh type variables

A supply hands out variables in ascending order.  Instantiating a scheme replaces
its quantified variables by fresh ones, all at once.  The fresh ones start above
every variable that the scheme mentions, so a variable that the scheme leaves free
is never reused.

Inference and solving take their variables from any source.  A supply counts without a
bound.
-/

namespace Ascribe

/-- What inference and solving need of a source of fresh type variables: a fresh one, and the type
of a scheme with its quantified variables replaced by fresh ones. -/
class VarSource (σ : Type) where
  fresh : σ → Ty × σ
  instantiate : σ → Scheme → Ty × σ

/-- A source that counts without a bound. -/
structure Supply where
  next : Nat

namespace Supply

def fresh (supply : Supply) : Ty × Supply :=
  (.var supply.next, ⟨supply.next + 1⟩)

/-- The variables of a list, each with the fresh variable that replaces it. -/
def freshFor (first : Nat) : List Nat → List (Nat × Ty)
  | [] => []
  | v :: rest => (v, .var first) :: freshFor (first + 1) rest

/-- The type of a scheme with its quantified variables replaced by fresh ones. -/
def instantiate (supply : Supply) (scheme : Scheme) : Ty × Supply :=
  if scheme.vars.isEmpty then (scheme.ty, supply)
  else
    let first := max supply.next scheme.ceiling
    ((Subst.ofList (freshFor first scheme.vars)).apply scheme.ty,
      ⟨first + scheme.vars.length⟩)

instance : VarSource Supply :=
  ⟨fresh, instantiate⟩

@[simp]
theorem varSource_fresh (supply : Supply) : VarSource.fresh supply = supply.fresh :=
  rfl

@[simp]
theorem varSource_instantiate (supply : Supply) :
    VarSource.instantiate supply = supply.instantiate :=
  rfl

@[simp]
theorem instantiate_mono (supply : Supply) (t : Ty) :
    supply.instantiate (.mono t) = (t, supply) :=
  rfl

/-- Instantiating never lowers the supply. -/
theorem next_le_instantiate (supply : Supply) (scheme : Scheme) :
    supply.next ≤ (supply.instantiate scheme).2.next := by
  unfold instantiate
  split
  · exact Nat.le_refl _
  · simp only
    omega

end Supply

end Ascribe
