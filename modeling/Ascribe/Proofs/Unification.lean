import Ascribe.Proofs.Substitution
import Mathlib.Data.List.Permutation

/-!
# Unification is sound and most general

`unify l r` succeeds exactly when some substitution makes the two types equal, the unifier
it returns makes them equal, and every substitution that makes them equal absorbs it.  Both
directions follow the recursion of `unify` through one induction principle
(`unify_induction`), which speaks of unifiers only and not of the proofs they carry.  Those
proofs say that the unifier is in solved form over the variables of the two types.
-/

namespace Ascribe

/-! ## Induction along a run -/

private theorem unify_eq_ok {l r : Ty} {s : Subst} (h : unify l r = .ok s) :
    ∃ hs, Unify.solved l r = .ok ⟨s, hs⟩ := by
  unfold unify at h
  cases hsolved : Unify.solved l r with
  | error e =>
      rw [hsolved] at h
      cases h
  | ok u =>
      rw [hsolved] at h
      cases h
      exact ⟨u.2, rfl⟩

private theorem unifyAll_eq_ok {ls rs : List Ty} {s : Subst} (h : unifyAll ls rs = .ok s) :
    ∃ hs, Unify.solvedAll ls rs = .ok ⟨s, hs⟩ := by
  unfold unifyAll at h
  cases hsolved : Unify.solvedAll ls rs with
  | error e =>
      rw [hsolved] at h
      cases h
  | ok u =>
      rw [hsolved] at h
      cases h
      exact ⟨u.2, rfl⟩

/-- A property of pairs of types and one of pairs of lists hold everywhere when each
follows from the pairs that unification compares next.  A pair compared after others is
seen under the unifier of those. -/
theorem unify_induction
    {P : Ty → Ty → Prop} {Q : List Ty → List Ty → Prop}
    (var_left : ∀ v t, P (.var v) t)
    (var_right : ∀ t v, t.isVar = false → P t (.var v))
    (con : ∀ name other as bs,
      (name = other ∧ as.length = bs.length → Q as bs) → P (.con name as) (.con other bs))
    (arrow : ∀ ps qs a b,
      (ps.length = qs.length → Q ps qs) →
      (∀ s, ps.length = qs.length → unifyAll ps qs = .ok s → P (s.apply a) (s.apply b)) →
      P (.arrow ps a) (.arrow qs b))
    (tuple : ∀ as bs, (as.length = bs.length → Q as bs) → P (.tuple as) (.tuple bs))
    (clash : ∀ l r, unify l r = .error (.mismatch l r) →
      (∀ s : Subst, s.apply l ≠ s.apply r) → P l r)
    (nil : Q [] [])
    (cons : ∀ l r ls rs, P l r →
      (∀ s, unify l r = .ok s → Q (s.applyAll ls) (s.applyAll rs)) → Q (l :: ls) (r :: rs))
    (uneven : ∀ ls rs, ls.length ≠ rs.length → Q ls rs) :
    (∀ l r, P l r) ∧ ∀ ls rs, Q ls rs := by
  have hvar : ∀ t : Ty, (∀ v, t = .var v → False) → t.isVar = false := by
    intro t ht
    cases t with
    | var v => exact (ht v rfl).elim
    | con | arrow | tuple => rfl
  have harrow : ∀ ps qs a b s hs, Unify.solvedAll ps qs = .ok ⟨s, hs⟩ → Q ps qs →
      P (s.apply a) (s.apply b) → P (.arrow ps a) (.arrow qs b) := by
    intro ps qs a b s hs hok hQ hP
    refine arrow ps qs a b (fun _ => hQ) ?_
    intro u _ hu
    obtain ⟨hus, hu⟩ := unifyAll_eq_ok hu
    rw [hok] at hu
    cases hu
    exact hP
  have hcons : ∀ l r ls rs s hs, Unify.solved l r = .ok ⟨s, hs⟩ → P l r →
      Q (s.applyAll ls) (s.applyAll rs) → Q (l :: ls) (r :: rs) := by
    intro l r ls rs s hs hok hP hQ
    refine cons l r ls rs hP ?_
    intro u hu
    obtain ⟨hus, hu⟩ := unify_eq_ok hu
    rw [hok] at hu
    cases hu
    exact hQ
  refine Unify.solved.mutual_induct P Q ?_ ?_ ?_ ?_ ?_ ?_ ?_ ?_ ?_ ?_ ?_ ?_ ?_ ?_ ?_ ?_ ?_ ?_
    ?_ ?_
  · exact fun v t _ _ _ => var_left v t
  · exact fun v t _ _ => var_left v t
  · exact fun t v ht _ _ _ => var_right t v (hvar t ht)
  · exact fun t v ht _ _ => var_right t v (hvar t ht)
  · exact fun name as other bs _ _ _ _ hQ => con name other as bs fun _ => hQ
  · exact fun name as other bs _ _ _ _ hQ => con name other as bs fun _ => hQ
  · exact fun name as other bs _ _ _ _ hQ => con name other as bs fun _ => hQ
  · exact fun name as other bs hne => con name other as bs fun heq => absurd heq hne
  · intro ps a qs b _ e herr hQ
    refine arrow ps qs a b (fun _ => hQ) ?_
    intro u _ hu
    obtain ⟨hus, hu⟩ := unifyAll_eq_ok hu
    rw [herr] at hu
    cases hu
  · exact fun ps a qs b _ s hs hok _ _ _ hQ hP => harrow ps qs a b s hs hok hQ hP
  · exact fun ps a qs b _ s hs hok _ _ _ _ hQ hP => harrow ps qs a b s hs hok hQ hP
  · exact fun ps a qs b hne =>
      arrow ps qs a b (fun heq => absurd heq hne) fun _ heq => absurd heq hne
  · exact fun as bs _ _ _ _ hQ => tuple as bs fun _ => hQ
  · exact fun as bs _ _ _ hQ => tuple as bs fun _ => hQ
  · exact fun as bs hne => tuple as bs fun heq => absurd heq hne
  · intro l r hl hr hcon harr htup
    apply clash
    · rw [unify, Unify.solved]
      · rfl
      all_goals assumption
    · intro s
      cases l <;> cases r <;> grind [Subst.apply]
  · intro l ls r rs e herr hP
    refine cons l r ls rs hP ?_
    intro u hu
    obtain ⟨hus, hu⟩ := unify_eq_ok hu
    rw [herr] at hu
    cases hu
  · exact fun l ls r rs s hs hok _ _ _ hP hQ => hcons l r ls rs s hs hok hP hQ
  · exact fun l ls r rs s hs hok _ _ _ _ hP hQ => hcons l r ls rs s hs hok hP hQ
  · intro ls rs hne
    cases ls with
    | nil =>
        cases rs with
        | nil => exact nil
        | cons r rs => exact uneven _ _ (by simp)
    | cons l ls =>
        cases rs with
        | nil => exact uneven _ _ (by simp)
        | cons r rs => exact (hne l ls r rs rfl rfl).elim

/-! ## One variable -/

private theorem size_le_sizeAll {t : Ty} {ts : List Ty} (h : t ∈ ts) :
    t.size ≤ Ty.sizeAll ts := by
  induction ts with
  | nil => cases h
  | cons u ts ih =>
      rw [Ty.sizeAll]
      rcases List.mem_cons.1 h with rfl | h
      · omega
      · have hle := ih h
        omega

/-- What a variable stands for is smaller than what a type around it stands for. -/
theorem Subst.size_apply_var_lt
    (s : Subst) {v : Nat} {t : Ty} (hv : v ∈ t.vars) :
    t = .var v ∨ (s.apply (.var v)).size < (s.apply t).size := by
  have hall : ∀ ts : List Ty,
      (∀ t ∈ ts, v ∈ t.vars → t = .var v ∨ (s.apply (.var v)).size < (s.apply t).size) →
      v ∈ Ty.varsAll ts → (s.apply (.var v)).size ≤ Ty.sizeAll (ts.map s.apply) := by
    intro ts ih hv
    obtain ⟨t, ht, hvt⟩ := Ty.mem_varsAll.1 hv
    have hle : (s.apply t).size ≤ Ty.sizeAll (ts.map s.apply) :=
      size_le_sizeAll (List.mem_map_of_mem ht)
    rcases ih t ht hvt with rfl | hlt
    · exact hle
    · omega
  induction t with
  | con name args ih =>
      right
      have hle := hall args ih hv
      rw [apply_con, Ty.size.eq_1]
      omega
  | var w =>
      left
      rw [show v = w by simpa [Ty.vars] using hv]
  | arrow params result ihp ihr =>
      right
      rw [apply_arrow, Ty.size.eq_3]
      rcases List.mem_append.1 hv with hv | hv
      · have hle := hall params ihp hv
        omega
      · rcases ihr hv with rfl | hlt
        · omega
        · omega
  | tuple elems ih =>
      right
      have hle := hall elems ih hv
      rw [apply_tuple, Ty.size.eq_4]
      omega

theorem bindVar_sound
    {v : Nat} {t : Ty} {u : Subst} (h : bindVar v t = .ok u) :
    u.apply (.var v) = u.apply t := by
  unfold bindVar at h
  split at h
  · rename_i hvar
    rw [Ty.isBareVar_iff.1 hvar]
  · split at h
    · cases h
    · rename_i hv
      cases h
      have hkeep : (Subst.singleton v t).apply t = t := by
        apply Subst.apply_eq_self
        intro w hw
        have hne : w ≠ v := fun heq => hv (Ty.occurs_iff.2 (heq ▸ hw))
        exact Subst.apply_var_of_unbound (by rw [Subst.find?_singleton, if_neg hne])
      rw [hkeep]
      exact Subst.apply_var_of_find? (by rw [Subst.find?_singleton, if_pos rfl])

theorem bindVar_complete
    {v : Nat} {t : Ty} {s : Subst} (h : s.apply (.var v) = s.apply t) :
    ∃ u, bindVar v t = .ok u ∧ s.Absorbs u := by
  by_cases hv : v ∈ t.vars
  · rcases Subst.size_apply_var_lt s hv with rfl | hlt
    · exact ⟨.empty, by rw [bindVar, if_pos (Ty.isBareVar_iff.2 rfl)], s.absorbs_empty⟩
    · rw [h] at hlt
      omega
  · have hbare : ¬ t.isBareVar v = true := by
      intro hvar
      rw [Ty.isBareVar_iff.1 hvar, Ty.vars, List.mem_singleton] at hv
      exact hv rfl
    refine ⟨.singleton v t, by rw [bindVar, if_neg hbare, if_neg (mt Ty.occurs_iff.1 hv)], ?_⟩
    apply Subst.absorbs_of_vars
    intro w
    rw [Subst.apply_var (.singleton v t), Subst.find?_singleton]
    split
    · rename_i hw
      rw [Option.getD_some, hw, h]
    · rfl

/-! ## Two types -/

theorem unify_solvedOver {l r : Ty} {u : Subst} (h : unify l r = .ok u) :
    u.SolvedOver (l.vars ++ r.vars) := by
  obtain ⟨hu, -⟩ := unify_eq_ok h
  exact hu

theorem unifyAll_solvedOver {ls rs : List Ty} {u : Subst} (h : unifyAll ls rs = .ok u) :
    u.SolvedOver (Ty.varsAll ls ++ Ty.varsAll rs) := by
  obtain ⟨hu, -⟩ := unifyAll_eq_ok h
  exact hu

/-- A solved substitution binds none of the variables that it leaves in two types. -/
theorem Subst.Solved.find?_eq_none_of_sides {s : Subst} (hs : s.Solved) {l r : Ty} :
    ∀ w ∈ (s.apply l).vars ++ (s.apply r).vars, s.find? w = none := by
  intro w hw
  rcases List.mem_append.1 hw with hw | hw
  · exact hs.find?_eq_none hw
  · exact hs.find?_eq_none hw

theorem Subst.Solved.find?_eq_none_of_sidesAll {s : Subst} (hs : s.Solved) {ls rs : List Ty} :
    ∀ w ∈ Ty.varsAll (s.applyAll ls) ++ Ty.varsAll (s.applyAll rs), s.find? w = none := by
  intro w hw
  obtain ⟨vs, hs⟩ := hs
  rcases List.mem_append.1 hw with hw | hw
  · exact (hs.mem_varsAll_applyAll hw).2
  · exact (hs.mem_varsAll_applyAll hw).2

theorem solved_compose_unifier
    {s u : Subst} {l r : Ty} (hs : s.Solved) (h : unify (s.apply l) (s.apply r) = .ok u) :
    (u.compose s).Solved :=
  hs.compose (unify_solvedOver h) hs.find?_eq_none_of_sides

/-- A unifier of what comes after `s` is composed with `s` as function composition. -/
theorem apply_compose_unifier
    {s u : Subst} {l r : Ty} (hs : s.Solved) (h : unify (s.apply l) (s.apply r) = .ok u)
    (t : Ty) :
    (u.compose s).apply t = u.apply (s.apply t) :=
  Subst.apply_compose_of_solvedOver (unify_solvedOver h) hs.find?_eq_none_of_sides t

theorem apply_compose_unifierAll
    {s u : Subst} {ls rs : List Ty} (hs : s.Solved)
    (h : unifyAll (s.applyAll ls) (s.applyAll rs) = .ok u) (t : Ty) :
    (u.compose s).apply t = u.apply (s.apply t) :=
  Subst.apply_compose_of_solvedOver (unifyAll_solvedOver h) hs.find?_eq_none_of_sidesAll t

theorem unify_sound_and_unifyAll_sound :
    (∀ l r u, unify l r = .ok u → u.apply l = u.apply r) ∧
      ∀ ls rs, ls.length = rs.length → ∀ u, unifyAll ls rs = .ok u →
        ls.map u.apply = rs.map u.apply := by
  refine unify_induction ?_ ?_ ?_ ?_ ?_ ?_ ?_ ?_ ?_
  · intro v t u h
    rw [unify_var_left] at h
    exact bindVar_sound h
  · intro t v ht u h
    rw [unify_var_right ht] at h
    exact (bindVar_sound h).symm
  · intro name other as bs ih u h
    rw [unify_con] at h
    split at h
    · rename_i hsame
      split at h
      · rename_i s hs
        cases h
        rw [Subst.apply_con, Subst.apply_con, hsame.1, ih hsame hsame.2 u hs]
      · cases h
      · cases h
    · cases h
  · intro ps qs a b ihs ih u h
    rw [unify_arrow] at h
    split at h
    · rename_i hlen
      split at h
      · cases h
      · rename_i s hs
        split at h
        · cases h
        · rename_i w hw
          cases h
          have hcomp := apply_compose_unifier ⟨_, unifyAll_solvedOver hs⟩ hw
          have hparams : ps.map (w.compose s).apply = qs.map (w.compose s).apply := by
            have hunder := congrArg (List.map w.apply) (ihs hlen hlen s hs)
            rw [List.map_map, List.map_map] at hunder
            rwa [show (w.compose s).apply = w.apply ∘ s.apply from funext hcomp]
          rw [Subst.apply_arrow, Subst.apply_arrow, hparams, hcomp, hcomp, ih s hlen hs w hw]
    · cases h
  · intro as bs ih u h
    rw [unify_tuple] at h
    split at h
    · rename_i hlen
      rw [Subst.apply_tuple, Subst.apply_tuple, ih hlen hlen u h]
    · cases h
  · intro l r hclash _ u h
    rw [hclash] at h
    cases h
  · intro _ u _
    rfl
  · intro l r ls rs ih ihs hlen u h
    rw [unifyAll_cons] at h
    split at h
    · cases h
    · rename_i s hs
      split at h
      · cases h
      · rename_i w hw
        cases h
        have hcomp := apply_compose_unifierAll ⟨_, unify_solvedOver hs⟩ hw
        have hrest : ls.map (w.compose s).apply = rs.map (w.compose s).apply := by
          have hunder := ihs s hs (by simpa [Subst.applyAll_eq_map] using hlen) w hw
          rw [Subst.applyAll_eq_map, Subst.applyAll_eq_map, List.map_map, List.map_map]
            at hunder
          rwa [show (w.compose s).apply = w.apply ∘ s.apply from funext hcomp]
        rw [List.map_cons, List.map_cons, hrest, hcomp, hcomp, ih s hs]
  · intro ls rs hne hlen
    exact absurd hlen hne

theorem unify_sound {l r : Ty} {u : Subst} (h : unify l r = .ok u) :
    u.apply l = u.apply r :=
  unify_sound_and_unifyAll_sound.1 l r u h

theorem unify_complete_and_unifyAll_complete (s : Subst) :
    (∀ l r, s.apply l = s.apply r → ∃ u, unify l r = .ok u ∧ s.Absorbs u) ∧
      ∀ ls rs, ls.map s.apply = rs.map s.apply →
        ∃ u, unifyAll ls rs = .ok u ∧ s.Absorbs u := by
  refine unify_induction ?_ ?_ ?_ ?_ ?_ ?_ ?_ ?_ ?_
  · intro v t h
    rw [unify_var_left]
    exact bindVar_complete h
  · intro t v ht h
    rw [unify_var_right ht]
    exact bindVar_complete h.symm
  · intro name other as bs ih h
    rw [Subst.apply_con, Subst.apply_con] at h
    injection h with hname hargs
    have hlen : as.length = bs.length := by simpa using congrArg List.length hargs
    obtain ⟨u, hu, habs⟩ := ih ⟨hname, hlen⟩ hargs
    exact ⟨u, by rw [unify_con, if_pos ⟨hname, hlen⟩, hu], habs⟩
  · intro ps qs a b ihs ih h
    rw [Subst.apply_arrow, Subst.apply_arrow] at h
    injection h with hparams hresult
    have hlen : ps.length = qs.length := by simpa using congrArg List.length hparams
    obtain ⟨u, hu, habs⟩ := ihs hlen hparams
    obtain ⟨w, hw, habs'⟩ := ih u hlen hu (by rw [habs, habs, hresult])
    refine ⟨w.compose u, ?_, habs'.compose habs⟩
    simp only [unify_arrow, if_pos hlen, hu, hw]
  · intro as bs ih h
    rw [Subst.apply_tuple, Subst.apply_tuple] at h
    injection h with helems
    have hlen : as.length = bs.length := by simpa using congrArg List.length helems
    rw [unify_tuple, if_pos hlen]
    exact ih hlen helems
  · intro l r _ hne h
    exact absurd h (hne s)
  · intro _
    exact ⟨.empty, unifyAll_nil, s.absorbs_empty⟩
  · intro l r ls rs ih ihs h
    rw [List.map_cons, List.map_cons] at h
    injection h with hhead htail
    obtain ⟨u, hu, habs⟩ := ih hhead
    have hrest : (u.applyAll ls).map s.apply = (u.applyAll rs).map s.apply := by
      simpa [Subst.applyAll_eq_map, Function.comp_def, habs _] using htail
    obtain ⟨w, hw, habs'⟩ := ihs u hu hrest
    refine ⟨w.compose u, ?_, habs'.compose habs⟩
    simp only [unifyAll_cons, hu, hw]
  · intro ls rs hne h
    exact absurd (by simpa using congrArg List.length h) hne

/-- Two types that some substitution makes equal unify, and that substitution absorbs their
unifier. -/
theorem unify_complete
    {l r : Ty} {s : Subst} (h : s.apply l = s.apply r) :
    ∃ u, unify l r = .ok u ∧ s.Absorbs u :=
  (unify_complete_and_unifyAll_complete s).1 l r h

/-! ## Most general unifiers -/

/-- Two types unify exactly when some substitution makes them equal.  Their unifier makes
them equal, and every substitution that does so absorbs it. -/
theorem unify_mostGeneral (l r : Ty) :
    ((∃ u, unify l r = .ok u) ↔ ∃ s : Subst, s.apply l = s.apply r) ∧
      ∀ u, unify l r = .ok u →
        u.apply l = u.apply r ∧
          ∀ s : Subst, s.apply l = s.apply r → ∀ t, s.apply (u.apply t) = s.apply t := by
  refine ⟨⟨?_, ?_⟩, ?_⟩
  · rintro ⟨u, hu⟩
    exact ⟨u, unify_sound hu⟩
  · rintro ⟨s, hs⟩
    obtain ⟨u, hu, -⟩ := unify_complete hs
    exact ⟨u, hu⟩
  · intro u hu
    refine ⟨unify_sound hu, ?_⟩
    intro s hs
    obtain ⟨u', hu', habs⟩ := unify_complete hs
    rw [hu] at hu'
    cases hu'
    exact habs

/-- A function type whose parameters and result share a variable. -/
def crossedLeft : Ty :=
  .arrow [.var 0, .var 1] (.var 0)

/-- A function type that shares a variable with `crossedLeft` and repeats another one in
all three positions. -/
def crossedRight : Ty :=
  .arrow [.tuple [.var 1, .var 2], .var 2] (.tuple [.var 2, .var 3])

theorem unify_crossed :
    unify crossedLeft crossedRight =
      .ok (.ofList [(0, .tuple [.var 3, .var 3]), (1, .var 3), (2, .var 3)]) := by
  cbv

theorem unify_mostGeneral_crossed :
    ∃ u, unify crossedLeft crossedRight = .ok u ∧
      u.apply crossedLeft = u.apply crossedRight ∧
      ∀ t, (Subst.ofList [(0, .tuple [.int, .int]), (1, .int), (2, .int), (3, .int),
          (4, .bool)]).apply (u.apply t) =
        (Subst.ofList [(0, .tuple [.int, .int]), (1, .int), (2, .int), (3, .int),
          (4, .bool)]).apply t := by
  obtain ⟨hequal, hgeneral⟩ :=
    (unify_mostGeneral crossedLeft crossedRight).2 _ unify_crossed
  exact ⟨_, unify_crossed, hequal, hgeneral _ (by cbv)⟩

/-- A unifier is in solved form.  It binds and mentions only variables of the two types, and
mentions none of those that it binds.  So it absorbs itself. -/
theorem unify_solvedForm {l r : Ty} {u : Subst} (h : unify l r = .ok u) :
    (∀ v t, u.find? v = some t →
      (v ∈ l.vars ∨ v ∈ r.vars) ∧
        ∀ w ∈ t.vars, (w ∈ l.vars ∨ w ∈ r.vars) ∧ u.find? w = none) ∧
      ∀ t, u.apply (u.apply t) = u.apply t := by
  have hsolved := unify_solvedOver h
  refine ⟨?_, Subst.Solved.absorbs_self ⟨_, hsolved⟩⟩
  intro v t hv
  refine ⟨List.mem_append.1 (hsolved.bound hv), ?_⟩
  intro w hw
  obtain ⟨hmem, hunbound⟩ := hsolved.mentioned hv hw
  exact ⟨List.mem_append.1 hmem, hunbound⟩

theorem unify_solvedForm_crossed :
    ∃ u, unify crossedLeft crossedRight = .ok u ∧
      u.find? 0 = some (.tuple [.var 3, .var 3]) ∧ u.find? 3 = none ∧
      ∀ t, u.apply (u.apply t) = u.apply t := by
  obtain ⟨hform, hidem⟩ := unify_solvedForm unify_crossed
  have hbound := hform 0 (.tuple [.var 3, .var 3]) (by cbv)
  exact ⟨_, unify_crossed, by cbv, (hbound.2 3 (by decide)).2, hidem⟩

end Ascribe
