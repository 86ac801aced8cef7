import Ascribe.Proofs.Unification

/-!
# What a failed unification reports

An error is found deep inside the two types, after unifiers of earlier positions were applied
to what is compared there.  Around a constructor a mismatch is replaced by the pair of
constructors, around a function type or a tuple it is kept.  Whatever is reported in the end is
a reason to fail by itself: the pair of a mismatch has no unifier, and the type of an occurs
check contains its variable.  A unifier of earlier positions mentions only variables of the two
types, so no other variable is shown.
-/

namespace Ascribe

namespace UnifyError

/-- The variables that an error shows. -/
def vars : UnifyError → List Nat
  | .mismatch expected found => expected.vars ++ found.vars
  | .occursCheck var ty => var :: ty.vars

/-- An error is a reason to fail by itself. -/
def Genuine : UnifyError → Prop
  | .mismatch expected found => ∀ s : Subst, s.apply expected ≠ s.apply found
  | .occursCheck var ty => ty ≠ .var var ∧ var ∈ ty.vars

/-- An error is a reason to fail by itself and shows only the given variables. -/
structure GenuineOver (e : UnifyError) (vs : List Nat) : Prop where
  genuine : e.Genuine
  shown : ∀ v ∈ e.vars, v ∈ vs

theorem GenuineOver.mono
    {e : UnifyError} {vs ws : List Nat} (h : e.GenuineOver vs) (sub : ∀ v ∈ vs, v ∈ ws) :
    e.GenuineOver ws :=
  ⟨h.genuine, fun v hv => sub v (h.shown v hv)⟩

end UnifyError

/-! ## One position -/

theorem genuineOver_of_bindVar
    {v : Nat} {t : Ty} {e : UnifyError} (h : bindVar v t = .error e) :
    e.GenuineOver (v :: t.vars) := by
  unfold bindVar at h
  split at h
  · cases h
  · rename_i hvar
    split at h
    · rename_i hoccurs
      cases h
      have hne : t ≠ .var v := fun heq => hvar (Ty.isBareVar_iff.2 heq)
      exact ⟨⟨hne, Ty.occurs_iff.1 hoccurs⟩, fun w hw => hw⟩
    · cases h

/-- Two types that do not unify are a mismatch that may be reported. -/
theorem genuineOver_mismatch
    {l r : Ty} {e : UnifyError} (h : unify l r = .error e) :
    (UnifyError.mismatch l r).GenuineOver (l.vars ++ r.vars) := by
  refine ⟨?_, fun v hv => hv⟩
  intro s heq
  obtain ⟨u, hu, -⟩ := unify_complete heq
  rw [hu] at h
  cases h

/-! ## Later positions -/

/-- What is compared after the parameters shows variables of the two function types only. -/
theorem mem_vars_of_unifyAll_params
    {ps qs : List Ty} {s : Subst} (hs : unifyAll ps qs = .ok s) (a b : Ty) :
    ∀ v ∈ (s.apply a).vars ++ (s.apply b).vars,
      v ∈ (Ty.arrow ps a).vars ++ (Ty.arrow qs b).vars := by
  intro v hv
  have hsolved := unifyAll_solvedOver hs
  have hmem : (v ∈ a.vars ∨ v ∈ b.vars) ∨ v ∈ Ty.varsAll ps ++ Ty.varsAll qs := by
    rcases List.mem_append.1 hv with hv | hv
    · exact (hsolved.mem_vars_apply hv).1.imp_left .inl
    · exact (hsolved.mem_vars_apply hv).1.imp_left .inr
  simp only [Ty.vars, List.mem_append] at hmem ⊢
  tauto

/-- What is compared after the first position shows variables of the two lists only. -/
theorem mem_varsAll_of_unify_head
    {l r : Ty} {s : Subst} (hs : unify l r = .ok s) (ls rs : List Ty) :
    ∀ v ∈ Ty.varsAll (s.applyAll ls) ++ Ty.varsAll (s.applyAll rs),
      v ∈ Ty.varsAll (l :: ls) ++ Ty.varsAll (r :: rs) := by
  intro v hv
  have hsolved := unify_solvedOver hs
  have hmem : (v ∈ Ty.varsAll ls ∨ v ∈ Ty.varsAll rs) ∨ v ∈ l.vars ++ r.vars := by
    rcases List.mem_append.1 hv with hv | hv
    · exact (hsolved.mem_varsAll_applyAll hv).1.imp_left .inl
    · exact (hsolved.mem_varsAll_applyAll hv).1.imp_left .inr
  simp only [Ty.varsAll, List.mem_append] at hmem ⊢
  tauto

/-! ## Two types -/

theorem genuineOver_of_unify_and_unifyAll :
    (∀ l r e, unify l r = .error e → e.GenuineOver (l.vars ++ r.vars)) ∧
      ∀ ls rs, ls.length = rs.length → ∀ e, unifyAll ls rs = .error e →
        e.GenuineOver (Ty.varsAll ls ++ Ty.varsAll rs) := by
  refine unify_induction ?_ ?_ ?_ ?_ ?_ ?_ ?_ ?_ ?_
  · intro v t e h
    rw [unify_var_left] at h
    exact genuineOver_of_bindVar h
  · intro t v ht e h
    rw [unify_var_right ht] at h
    refine (genuineOver_of_bindVar h).mono ?_
    intro w hw
    exact List.mem_append.2 ((List.mem_cons.1 hw).symm.imp_right List.mem_singleton.2)
  · intro name other as bs ih e h
    have hpair := genuineOver_mismatch h
    rw [unify_con] at h
    split at h
    · rename_i hsame
      split at h
      · cases h
      · -- the mismatch that was found below is given up for the pair of constructors
        cases h
        exact hpair
      · rename_i e' hoccurs herr
        cases h
        exact ih hsame hsame.2 _ herr
    · cases h
      exact hpair
  · intro ps qs a b ihs ih e h
    have hpair := genuineOver_mismatch h
    rw [unify_arrow] at h
    split at h
    · rename_i hlen
      split at h
      · rename_i e' herr
        cases h
        refine (ihs hlen hlen _ herr).mono ?_
        intro v hv
        simp only [Ty.vars, List.mem_append] at hv ⊢
        tauto
      · rename_i s hs
        split at h
        · rename_i e' herr
          cases h
          exact (ih s hlen hs _ herr).mono (mem_vars_of_unifyAll_params hs a b)
        · cases h
    · cases h
      exact hpair
  · intro as bs ih e h
    have hpair := genuineOver_mismatch h
    rw [unify_tuple] at h
    split at h
    · rename_i hlen
      exact ih hlen hlen e h
    · cases h
      exact hpair
  · intro l r hclash _ e h
    have hpair := genuineOver_mismatch h
    rw [hclash] at h
    cases h
    exact hpair
  · intro _ e h
    rw [unifyAll_nil] at h
    cases h
  · intro l r ls rs ih ihs hlen e h
    rw [unifyAll_cons] at h
    split at h
    · rename_i e' herr
      cases h
      refine (ih _ herr).mono ?_
      intro v hv
      simp only [Ty.varsAll, List.mem_append] at hv ⊢
      tauto
    · rename_i s hs
      split at h
      · rename_i e' herr
        cases h
        have hrest : (s.applyAll ls).length = (s.applyAll rs).length := by
          simpa [Subst.applyAll_eq_map] using hlen
        exact (ihs s hs hrest _ herr).mono (mem_varsAll_of_unify_head hs ls rs)
      · cases h
  · intro ls rs hne hlen
    exact absurd hlen hne

/-- Unification fails only where no substitution makes the two types equal, and what it reports
is a reason to fail by itself: no substitution makes the two types of a mismatch equal, and the
variable of an occurs check occurs properly in its type.  Only variables of the two types are
shown. -/
theorem unify_error_genuine {l r : Ty} {e : UnifyError} (h : unify l r = .error e) :
    (∀ s : Subst, s.apply l ≠ s.apply r) ∧
      (∀ expected found, e = .mismatch expected found →
        (∀ s : Subst, s.apply expected ≠ s.apply found) ∧
          ∀ v, v ∈ expected.vars ∨ v ∈ found.vars → v ∈ l.vars ∨ v ∈ r.vars) ∧
      ∀ var ty, e = .occursCheck var ty →
        ty ≠ .var var ∧ var ∈ ty.vars ∧
          ∀ v, v = var ∨ v ∈ ty.vars → v ∈ l.vars ∨ v ∈ r.vars := by
  obtain ⟨hgenuine, hshown⟩ := genuineOver_of_unify_and_unifyAll.1 l r e h
  refine ⟨(genuineOver_mismatch h).genuine, ?_, ?_⟩
  · rintro expected found rfl
    refine ⟨hgenuine, fun v hv => ?_⟩
    exact List.mem_append.1 (hshown v (List.mem_append.2 hv))
  · rintro var ty rfl
    refine ⟨hgenuine.1, hgenuine.2, fun v hv => ?_⟩
    exact List.mem_append.1 (hshown v (List.mem_cons.2 hv))

/-- A pair whose first position binds a variable that the second position mentions inside a
constructor. -/
def arrayLeft : Ty :=
  .tuple [.var 0, .arrow [.var 1] (.con "Array" [.var 0])]

/-- The other side of `arrayLeft`. -/
def arrayRight : Ty :=
  .tuple [.tuple [.var 1, .var 2], .arrow [.int] (.con "Array" [.bool])]

/-- The arrays are reported as they are after two variables were bound, and not the tuple and
the truth value inside them. -/
theorem unify_array :
    unify arrayLeft arrayRight =
      .error (.mismatch (.con "Array" [.tuple [.int, .var 2]]) (.con "Array" [.bool])) := by
  cbv

theorem unify_error_genuine_array :
    unify arrayLeft arrayRight =
        .error (.mismatch (.con "Array" [.tuple [.int, .var 2]]) (.con "Array" [.bool])) ∧
      (∀ s : Subst, s.apply (.con "Array" [.tuple [.int, .var 2]]) ≠
        s.apply (.con "Array" [.bool])) ∧
      (2 ∈ arrayLeft.vars ∨ 2 ∈ arrayRight.vars) := by
  obtain ⟨hne, hshown⟩ := (unify_error_genuine unify_array).2.1 _ _ rfl
  exact ⟨unify_array, hne, hshown 2 (.inl (by decide))⟩

end Ascribe
