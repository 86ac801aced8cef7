import Ascribe.Ty.Subst
import Ascribe.Ty.VarSet

/-!
# Type schemes

A scheme is a type together with the variables that are quantified in it.  The
other variables of the type belong to an enclosing scope and stay as they are.
-/

namespace Ascribe

/-- A type with some of its variables quantified, in the order in which they are instantiated. -/
structure Scheme where
  vars : List Nat
  ty : Ty
  deriving Inhabited

namespace Scheme

/-- The scheme of a type with nothing quantified. -/
def mono (t : Ty) : Scheme :=
  ⟨[], t⟩

/-- The scheme of a type with all its variables quantified in ascending order. -/
def generalize (t : Ty) : Scheme :=
  ⟨VarSet.ofList t.vars, t⟩

/-- The variables that are not quantified, ascending. -/
def freeVars (s : Scheme) : List Nat :=
  (VarSet.ofList s.ty.vars).filter fun v => !s.vars.contains v

/-- The variables that a scheme mentions, quantified or not. -/
def mentioned (s : Scheme) : List Nat :=
  s.ty.vars ++ s.vars

/-- One more than the largest variable that a scheme mentions. -/
def ceiling (s : Scheme) : Nat :=
  VarSet.ceiling s.mentioned

/-- The printed form, which names the quantified variables first. -/
def render (s : Scheme) : String :=
  if s.vars.isEmpty then s.ty.render
  else "forall " ++ " ".intercalate (s.vars.map Ty.renderVar) ++ ". " ++ s.ty.render

theorem mem_freeVars {s : Scheme} {v : Nat} :
    v ∈ s.freeVars ↔ v ∈ s.ty.vars ∧ v ∉ s.vars := by
  simp [freeVars, VarSet.mem_ofList]

theorem freeVars_generalize (t : Ty) :
    (generalize t).freeVars = [] := by
  rw [List.eq_nil_iff_forall_not_mem]
  intro v hv
  obtain ⟨hmem, hnot⟩ := mem_freeVars.1 hv
  exact hnot (VarSet.mem_ofList.2 hmem)

end Scheme

/-- Replace the variables of a scheme that are not quantified. -/
def Subst.applyScheme (s : Subst) (scheme : Scheme) : Scheme :=
  ⟨scheme.vars, (scheme.vars.foldl Subst.erase s).apply scheme.ty⟩

end Ascribe
