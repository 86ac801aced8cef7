import Ascribe.Proofs.Substitution

/-!
# Clashes

A substitution brings in types that were made elsewhere.  What it brings in may clash with
what is already there, in two ways.

In a composition the entry of the newer substitution wins.  Where both bind a variable, the
older entry is lost, and what the newer one says need not be what the two say in turn.  This
is the only way in which the grouping of three substitutions matters
(`Subst.compose_assoc_iff`).

In a scheme the quantified variables are kept out of the reach of a substitution, but the
types that it puts in for the other variables may mention them.  Such a variable is
quantified from then on (`Subst.mem_freeVars_applyScheme`).
-/

namespace Ascribe

namespace Subst

/-! ## Grouping -/

/-- Two substitutions bind a variable, and the newer one says something else of it than the
two say in turn. -/
def ClashesAt (newer older : Subst) (v : Nat) : Prop :=
  ∃ a b, older.find? v = some a ∧ newer.find? v = some b ∧ newer.apply a ≠ b

/-- Applying two substitutions in turn is applying a third one to a type exactly when it is
so for the variables of the type. -/
theorem apply_apply_eq_iff {s u w : Subst} {t : Ty} :
    s.apply (u.apply t) = w.apply t ↔
      ∀ v ∈ t.vars, s.apply (u.apply (.var v)) = w.apply (.var v) := by
  refine ⟨?_, apply_apply_eq⟩
  intro h v hv
  -- on one type, applying the two in turn is applying one substitution
  let inTurn := empty.extend (fun v => s.apply (u.apply (.var v))) t.vars
  have hvars : ∀ v ∈ t.vars, s.apply (u.apply (.var v)) = inTurn.apply (.var v) := by
    intro v hv
    rw [apply_extend_of_mem hv]
  have hsame : inTurn.apply t = w.apply t := by
    rw [← h, apply_apply_eq hvars]
  rw [hvars v hv, apply_var_eq_of_apply_eq hsame v hv]

theorem apply_compose_var_iff {newer older : Subst} {v : Nat} :
    newer.apply (older.apply (.var v)) = (newer.compose older).apply (.var v) ↔
      ¬ newer.ClashesAt older v := by
  rw [apply_var (newer.compose older), find?_compose]
  cases hold : older.find? v with
  | none =>
      have hclash : ¬ newer.ClashesAt older v := by
        rintro ⟨a, b, ha, -, -⟩
        rw [hold] at ha
        cases ha
      simp [apply_var_of_unbound hold, apply_var newer, hclash]
  | some a =>
      rw [apply_var_of_find? hold]
      cases hnew : newer.find? v with
      | none => simp [ClashesAt, hnew]
      | some b => simp [ClashesAt, hold, hnew]

/-- Composition is application in turn on the types without a clash. -/
theorem apply_compose_iff {newer older : Subst} {t : Ty} :
    (newer.compose older).apply t = newer.apply (older.apply t) ↔
      ∀ v ∈ t.vars, ¬ newer.ClashesAt older v := by
  rw [eq_comm, apply_apply_eq_iff]
  exact forall₂_congr fun v _ => apply_compose_var_iff

/-- Two ways to group three substitutions give the same type for a variable, unless only the
oldest one binds it, and to a type on which the other two clash. -/
theorem find?_compose_assoc_iff (s₁ s₂ s₃ : Subst) (v : Nat) :
    ((s₃.compose s₂).compose s₁).find? v = (s₃.compose (s₂.compose s₁)).find? v ↔
      ∀ t, s₁.find? v = some t → s₂.find? v = none → s₃.find? v = none →
        ∀ w ∈ t.vars, ¬ s₃.ClashesAt s₂ w := by
  simp only [find?_compose]
  cases h₃ : s₃.find? v with
  | some b => simp
  | none =>
      cases h₂ : s₂.find? v with
      | some a => simp
      | none =>
          cases h₁ : s₁.find? v with
          | none => simp
          | some t => simp [apply_compose_iff]

/-- Composition is associative exactly when the two newer substitutions do not clash in a type
that the oldest one binds to a variable of its own. -/
theorem compose_assoc_iff (s₁ s₂ s₃ : Subst) :
    (s₃.compose s₂).compose s₁ = s₃.compose (s₂.compose s₁) ↔
      ∀ v t, s₁.find? v = some t → s₂.find? v = none → s₃.find? v = none →
        ∀ w ∈ t.vars, ¬ s₃.ClashesAt s₂ w := by
  constructor
  · intro h v
    rw [← find?_compose_assoc_iff, h]
  · intro h
    apply ext_find?
    intro v
    rw [find?_compose_assoc_iff]
    exact h v

/-- The two newer substitutions bind a variable that the oldest one mentions: one grouping
reads it by the newest substitution and the other by the one before. -/
theorem compose_assoc_clash :
    ((singleton 1 .bool).compose (singleton 1 .int)).compose (singleton 0 (.var 1)) ≠
      (singleton 1 .bool).compose ((singleton 1 .int).compose (singleton 0 (.var 1))) := by
  intro h
  have hfind := congrArg (fun s => s.find? 0) h
  simp [find?_compose, find?_singleton, apply_var, Ty.bool, Ty.int, Ty.named] at hfind

/-! ## Quantified variables -/

theorem find?_foldl_erase (vs : List Nat) (s : Subst) (v : Nat) :
    (vs.foldl erase s).find? v = if v ∈ vs then none else s.find? v := by
  induction vs generalizing s with
  | nil => simp
  | cons w vs ih =>
      rw [List.foldl_cons, ih, find?_erase]
      by_cases hv : v ∈ vs
      · simp [hv]
      · simp [hv]

/-- What a substitution brings into a scheme is free unless it is quantified there. -/
theorem mem_freeVars_applyScheme {s : Subst} {scheme : Scheme} {v : Nat} :
    v ∈ (s.applyScheme scheme).freeVars ↔
      (∃ u ∈ scheme.freeVars, v ∈ (s.apply (.var u)).vars) ∧ v ∉ scheme.vars := by
  rw [Scheme.mem_freeVars]
  refine and_congr_left fun hv => ?_
  rw [applyScheme, mem_vars_apply]
  constructor
  · rintro ⟨u, hu, hvu⟩
    rw [find?_foldl_erase] at hvu
    split at hvu
    · rename_i hquantified
      obtain rfl : v = u := by simpa [Ty.vars] using hvu
      exact absurd hquantified hv
    · rename_i hfree
      exact ⟨u, Scheme.mem_freeVars.2 ⟨hu, hfree⟩, by rwa [apply_var]⟩
  · rintro ⟨u, hu, hvu⟩
    obtain ⟨hmem, hfree⟩ := Scheme.mem_freeVars.1 hu
    refine ⟨u, hmem, ?_⟩
    rwa [find?_foldl_erase, if_neg hfree, ← apply_var]

/-- The free variables of a scheme after a substitution are those that it brings in for the
free variables of the scheme, less the quantified ones.  So they are all that it brings in
exactly when it brings in no quantified variable. -/
theorem freeVars_applyScheme_iff (s : Subst) (scheme : Scheme) :
    (∀ v, v ∈ (s.applyScheme scheme).freeVars ↔
        (∃ u ∈ scheme.freeVars, v ∈ (s.apply (.var u)).vars) ∧ v ∉ scheme.vars) ∧
      ((∀ v, v ∈ (s.applyScheme scheme).freeVars ↔
          ∃ u ∈ scheme.freeVars, v ∈ (s.apply (.var u)).vars) ↔
        ∀ u ∈ scheme.freeVars, ∀ v ∈ (s.apply (.var u)).vars, v ∉ scheme.vars) := by
  refine ⟨fun v => mem_freeVars_applyScheme, ?_, ?_⟩
  · intro h u hu v hv
    have hfree := (h v).2 ⟨u, hu, hv⟩
    exact (mem_freeVars_applyScheme.1 hfree).2
  · intro h v
    rw [mem_freeVars_applyScheme]
    refine ⟨And.left, ?_⟩
    rintro ⟨u, hu, hv⟩
    exact ⟨⟨u, hu, hv⟩, h u hu v hv⟩

/-- The result is bound to the variable of the quantified parameter, which is not free in the
scheme that comes out. -/
theorem freeVars_applyScheme_captured :
    ¬ (0 ∈ ((singleton 1 (.var 0)).applyScheme ⟨[0], .arrow [.var 0] (.var 1)⟩).freeVars ↔
      ∃ u ∈ (Scheme.mk [0] (.arrow [.var 0] (.var 1))).freeVars,
        0 ∈ ((singleton 1 (.var 0)).apply (.var u)).vars) := by
  decide

end Subst

end Ascribe
