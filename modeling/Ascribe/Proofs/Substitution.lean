import Ascribe.Ty.Supply
import Ascribe.Ty.Unify

/-!
# Substitutions as maps on types

A substitution is determined on a type by what it does to the variables of the type.  One
substitution absorbs another when applying the other one first makes no difference; a
solved substitution absorbs itself.

An instance of a scheme replaces the quantified variables.  The variables that the scheme
leaves free are read by a substitution of the enclosing scope, and instantiating a scheme
with fresh variables yields the instance of which all others are obtained by extending
that substitution on the fresh variables only (`Supply.exists_instantiate`).
-/

namespace Ascribe

namespace Ty

theorem exists_eq_var {t : Ty} (h : t.isVar = true) :
    ∃ v, t = .var v := by
  cases t with
  | var v => exact ⟨v, rfl⟩
  | con | arrow | tuple => cases h

/-- Every variable of a type lies below a bound. -/
def Below (n : Nat) (t : Ty) : Prop :=
  ∀ v ∈ t.vars, v < n

theorem Below.mono
    {n m : Nat} {t : Ty} (h : t.Below n) (hnm : n ≤ m) :
    t.Below m := by
  intro v hv
  exact Nat.lt_of_lt_of_le (h v hv) hnm

@[simp]
theorem below_var {n v : Nat} :
    (var v).Below n ↔ v < n := by
  simp [Below, vars]

@[simp]
theorem below_con {n : Nat} {name : String} {args : List Ty} :
    (con name args).Below n ↔ ∀ t ∈ args, t.Below n := by
  simp only [Below, vars, mem_varsAll]
  grind

@[simp]
theorem below_tuple {n : Nat} {elems : List Ty} :
    (tuple elems).Below n ↔ ∀ t ∈ elems, t.Below n := by
  simp only [Below, vars, mem_varsAll]
  grind

@[simp]
theorem below_arrow {n : Nat} {params : List Ty} {result : Ty} :
    (arrow params result).Below n ↔ (∀ t ∈ params, t.Below n) ∧ result.Below n := by
  simp only [Below, vars, List.mem_append, mem_varsAll]
  grind

/-- A type without variables lies below every bound. -/
theorem below_of_vars_eq_nil {n : Nat} {t : Ty} (h : t.vars = []) :
    t.Below n := by
  intro v hv
  simp [h] at hv

end Ty

namespace Subst

theorem apply_var (s : Subst) (v : Nat) :
    s.apply (.var v) = (s.find? v).getD (.var v) := by
  rw [apply]

@[simp]
theorem apply_con (s : Subst) (name : String) (args : List Ty) :
    s.apply (.con name args) = .con name (args.map s.apply) := by
  rw [apply, applyAll_eq_map]

@[simp]
theorem apply_arrow (s : Subst) (params : List Ty) (result : Ty) :
    s.apply (.arrow params result) = .arrow (params.map s.apply) (s.apply result) := by
  rw [apply, applyAll_eq_map]

@[simp]
theorem apply_tuple (s : Subst) (elems : List Ty) :
    s.apply (.tuple elems) = .tuple (elems.map s.apply) := by
  rw [apply, applyAll_eq_map]

theorem apply_var_of_find? {s : Subst} {v : Nat} {t : Ty} (h : s.find? v = some t) :
    s.apply (.var v) = t := by
  rw [apply_var, h, Option.getD_some]

theorem apply_var_of_unbound {s : Subst} {v : Nat} (h : s.find? v = none) :
    s.apply (.var v) = .var v := by
  rw [apply_var, h, Option.getD_none]

/-! ## Equality on the variables of a type -/

/-- Two pairs of substitutions, each applied in turn, agree on a type when they agree on
its variables. -/
theorem apply_apply_congr
    {s u s' u' : Subst} {t : Ty}
    (h : ∀ v ∈ t.vars, s.apply (u.apply (.var v)) = s'.apply (u'.apply (.var v))) :
    s.apply (u.apply t) = s'.apply (u'.apply t) := by
  have hall : ∀ ts : List Ty,
      (∀ t ∈ ts,
        (∀ v ∈ t.vars, s.apply (u.apply (.var v)) = s'.apply (u'.apply (.var v))) →
        s.apply (u.apply t) = s'.apply (u'.apply t)) →
      (∀ v ∈ Ty.varsAll ts, s.apply (u.apply (.var v)) = s'.apply (u'.apply (.var v))) →
      (ts.map u.apply).map s.apply = (ts.map u'.apply).map s'.apply := by
    intro ts ih hvars
    rw [List.map_map, List.map_map]
    refine List.map_congr_left fun t ht => ih t ht fun v hv => hvars v ?_
    exact Ty.mem_varsAll.2 ⟨t, ht, hv⟩
  induction t with
  | con name args ih => simp only [apply_con, hall args ih h]
  | var v => exact h v (by simp [Ty.vars])
  | arrow params result ihp ihr =>
      simp only [Ty.vars, List.mem_append] at h
      have hparams := hall params ihp fun v hv => h v (.inl hv)
      have hresult := ihr fun v hv => h v (.inr hv)
      simp only [apply_arrow, hparams, hresult]
  | tuple elems ih => simp only [apply_tuple, hall elems ih h]

theorem apply_apply_eq
    {s u w : Subst} {t : Ty}
    (h : ∀ v ∈ t.vars, s.apply (u.apply (.var v)) = w.apply (.var v)) :
    s.apply (u.apply t) = w.apply t := by
  have hsame : s.apply (u.apply t) = w.apply (empty.apply t) :=
    apply_apply_congr (by simpa using h)
  simpa using hsame

/-- Substitutions that agree on the variables of a type agree on the type. -/
theorem apply_congr
    {s u : Subst} {t : Ty}
    (h : ∀ v ∈ t.vars, s.apply (.var v) = u.apply (.var v)) :
    s.apply t = u.apply t := by
  have hsame : s.apply (empty.apply t) = u.apply t := apply_apply_eq (by simpa using h)
  simpa using hsame

/-- Substitutions that agree on a type agree on its variables. -/
theorem apply_var_eq_of_apply_eq
    {s u : Subst} {t : Ty} (h : s.apply t = u.apply t) :
    ∀ v ∈ t.vars, s.apply (.var v) = u.apply (.var v) := by
  have hall : ∀ ts : List Ty,
      (∀ t ∈ ts, s.apply t = u.apply t →
        ∀ v ∈ t.vars, s.apply (.var v) = u.apply (.var v)) →
      ts.map s.apply = ts.map u.apply →
      ∀ v ∈ Ty.varsAll ts, s.apply (.var v) = u.apply (.var v) := by
    intro ts ih heq v hv
    obtain ⟨t, ht, hvt⟩ := Ty.mem_varsAll.1 hv
    exact ih t ht (List.map_inj_left.1 heq t ht) v hvt
  induction t with
  | con name args ih =>
      simp only [apply_con, Ty.con.injEq, true_and] at h
      exact hall args ih h
  | var v =>
      intro w hw
      obtain rfl : w = v := by simpa [Ty.vars] using hw
      exact h
  | arrow params result ihp ihr =>
      simp only [apply_arrow, Ty.arrow.injEq] at h
      intro v hv
      simp only [Ty.vars, List.mem_append] at hv
      rcases hv with hv | hv
      · exact hall params ihp h.1 v hv
      · exact ihr h.2 v hv
  | tuple elems ih =>
      simp only [apply_tuple, Ty.tuple.injEq] at h
      exact hall elems ih h

/-- A substitution that keeps the variables of a type keeps the type. -/
theorem apply_eq_self
    {s : Subst} {t : Ty} (h : ∀ v ∈ t.vars, s.apply (.var v) = .var v) :
    s.apply t = t := by
  have hsame : s.apply t = empty.apply t := apply_congr (by simpa using h)
  simpa using hsame

theorem apply_of_vars_eq_nil {t : Ty} (h : t.vars = []) (s : Subst) :
    s.apply t = t := by
  apply apply_eq_self
  intro v hv
  simp [h] at hv

/-- Two substitutions agree on the variables below a bound. -/
def AgreesBelow (n : Nat) (s u : Subst) : Prop :=
  ∀ v < n, s.apply (.var v) = u.apply (.var v)

theorem AgreesBelow.refl (n : Nat) (s : Subst) :
    AgreesBelow n s s :=
  fun _ _ => rfl

theorem AgreesBelow.trans
    {n m : Nat} {s u w : Subst}
    (h : AgreesBelow n s u) (hnm : n ≤ m) (h' : AgreesBelow m u w) :
    AgreesBelow n s w := by
  intro v hv
  exact (h v hv).trans (h' v (Nat.lt_of_lt_of_le hv hnm))

theorem AgreesBelow.apply
    {n : Nat} {s u : Subst} (h : AgreesBelow n s u) {t : Ty} (ht : t.Below n) :
    s.apply t = u.apply t :=
  apply_congr fun v hv => h v (ht v hv)

/-! ## Absorption -/

/-- Applying `u` before `s` makes no difference. -/
def Absorbs (s u : Subst) : Prop :=
  ∀ t, s.apply (u.apply t) = s.apply t

theorem absorbs_of_vars
    {s u : Subst} (h : ∀ v, s.apply (u.apply (.var v)) = s.apply (.var v)) :
    s.Absorbs u :=
  fun _ => apply_apply_eq fun v _ => h v

theorem absorbs_empty (s : Subst) :
    s.Absorbs empty := by
  intro t
  rw [apply_empty]

/-- What absorbs two substitutions absorbs their composition, whichever entry wins. -/
theorem Absorbs.compose
    {s newer older : Subst} (hn : s.Absorbs newer) (ho : s.Absorbs older) :
    s.Absorbs (newer.compose older) := by
  refine absorbs_of_vars fun v => ?_
  rw [apply_var (newer.compose older), find?_compose]
  cases hv : newer.find? v with
  | some t =>
      rw [Option.some_or, Option.getD_some, ← hn (.var v), apply_var_of_find? hv]
  | none =>
      rw [Option.none_or]
      cases hw : older.find? v with
      | none => rfl
      | some t =>
          rw [Option.map_some, Option.getD_some, hn t, ← ho (.var v), apply_var_of_find? hw]

/-- Every variable that a substitution binds or mentions lies below a bound. -/
def Below (n : Nat) (s : Subst) : Prop :=
  ∀ v t, s.find? v = some t → v < n ∧ t.Below n

theorem below_empty (n : Nat) :
    empty.Below n := by
  intro v t h
  simp at h

theorem Below.mono
    {n m : Nat} {s : Subst} (h : s.Below n) (hnm : n ≤ m) :
    s.Below m := by
  intro v t hv
  exact ⟨Nat.lt_of_lt_of_le (h v t hv).1 hnm, (h v t hv).2.mono hnm⟩

theorem Below.apply
    {n : Nat} {s : Subst} (h : s.Below n) {t : Ty} (ht : t.Below n) :
    (s.apply t).Below n := by
  intro w hw
  obtain ⟨v, hv, hwv⟩ := mem_vars_apply.1 hw
  cases hfind : s.find? v with
  | none =>
      obtain rfl : w = v := by simpa [hfind, Ty.vars] using hwv
      exact ht w hv
  | some u =>
      rw [hfind] at hwv
      exact (h v u hfind).2 w hwv

theorem Below.compose
    {n : Nat} {newer older : Subst} (hn : newer.Below n) (ho : older.Below n) :
    (newer.compose older).Below n := by
  intro v t h
  rw [find?_compose] at h
  cases hv : newer.find? v with
  | some u =>
      rw [hv, Option.some_or] at h
      cases h
      exact hn v t hv
  | none =>
      rw [hv, Option.none_or] at h
      obtain ⟨u, hu, rfl⟩ := Option.map_eq_some_iff.1 h
      exact ⟨(ho v u hu).1, hn.apply (ho v u hu).2⟩

theorem SolvedOver.below
    {n : Nat} {s : Subst} {vs : List Nat} (h : s.SolvedOver vs) (hvs : ∀ v ∈ vs, v < n) :
    s.Below n := by
  intro v t hv
  exact ⟨hvs v (h.bound hv), fun w hw => hvs w (h.mentioned hv hw).1⟩

theorem Absorbs.of_agreesBelow
    {n : Nat} {s s' u : Subst} (h : s.Absorbs u) (hu : u.Below n)
    (hagree : AgreesBelow n s s') :
    s'.Absorbs u := by
  refine absorbs_of_vars fun v => ?_
  cases hv : u.find? v with
  | none => rw [apply_var_of_unbound hv]
  | some t =>
      obtain ⟨hvn, ht⟩ := hu v t hv
      have hvar := h (.var v)
      rw [apply_var_of_find? hv] at hvar ⊢
      rw [← hagree.apply ht, ← hagree v hvn, hvar]

/-- A substitution in solved form: no bound variable is mentioned in a bound type. -/
def Solved (s : Subst) : Prop :=
  ∃ vs, s.SolvedOver vs

theorem solved_empty :
    empty.Solved :=
  ⟨[], solvedOver_empty []⟩

theorem Solved.find?_eq_none
    {s : Subst} (h : s.Solved) {t : Ty} {v : Nat} (hv : v ∈ (s.apply t).vars) :
    s.find? v = none := by
  obtain ⟨vs, hs⟩ := h
  exact (hs.mem_vars_apply hv).2

theorem Solved.absorbs_self {s : Subst} (h : s.Solved) :
    s.Absorbs s := by
  intro t
  apply apply_eq_self
  intro v hv
  exact apply_var_of_unbound (h.find?_eq_none hv)

/-- A solved substitution extended by a solved one over variables that it leaves. -/
theorem Solved.compose
    {newer older : Subst} {ws : List Nat}
    (ho : older.Solved) (hn : newer.SolvedOver ws)
    (hws : ∀ w ∈ ws, older.find? w = none) :
    (newer.compose older).Solved := by
  obtain ⟨vs, hs⟩ := ho
  refine ⟨vs ++ ws, SolvedOver.compose (hs.mono ?_) hn ?_⟩
  · intro v hv
    exact List.mem_append_left ws hv
  · intro w hw
    exact ⟨List.mem_append_right vs hw, hws w hw⟩

theorem apply_compose_of_solvedOver
    {newer older : Subst} {ws : List Nat}
    (hn : newer.SolvedOver ws) (hws : ∀ w ∈ ws, older.find? w = none) (t : Ty) :
    (newer.compose older).apply t = newer.apply (older.apply t) := by
  apply apply_compose
  intro v hv
  cases hu : newer.find? v with
  | none => rfl
  | some u =>
      rw [hws v (hn.bound hu)] at hv
      cases hv

/-! ## Extension -/

/-- Bind the variables of a list by a function, replacing what they were bound to. -/
def extend (s : Subst) (f : Nat → Ty) : List Nat → Subst
  | [] => s
  | v :: vs => (s.extend f vs).insert v (f v)

theorem find?_extend (s : Subst) (f : Nat → Ty) (vs : List Nat) (v : Nat) :
    (s.extend f vs).find? v = if v ∈ vs then some (f v) else s.find? v := by
  induction vs with
  | nil => simp [extend]
  | cons w vs ih =>
      rw [extend, find?_insert, ih]
      by_cases hvw : v = w
      · subst hvw
        simp
      · simp [hvw]

theorem apply_extend_of_mem
    {s : Subst} {f : Nat → Ty} {vs : List Nat} {v : Nat} (hv : v ∈ vs) :
    (s.extend f vs).apply (.var v) = f v := by
  apply apply_var_of_find?
  rw [find?_extend, if_pos hv]

theorem apply_extend_of_not_mem
    {s : Subst} {f : Nat → Ty} {vs : List Nat} {v : Nat} (hv : v ∉ vs) :
    (s.extend f vs).apply (.var v) = s.apply (.var v) := by
  rw [apply_var, apply_var, find?_extend, if_neg hv]

end Subst

/-! ## Instances of schemes -/

namespace Scheme

/-- A type is an instance of a scheme: its quantified variables, and only these, are
replaced. -/
def HasInstance (scheme : Scheme) (t : Ty) : Prop :=
  ∃ ρ : Subst, (∀ v, v ∉ scheme.vars → ρ.find? v = none) ∧ t = ρ.apply scheme.ty

/-- A type is an instance of a scheme whose free variables are read by a substitution. -/
def InstanceUnder (s : Subst) (scheme : Scheme) (t : Ty) : Prop :=
  ∃ ρ : Subst, (∀ v, v ∉ scheme.vars → ρ.apply (.var v) = s.apply (.var v)) ∧
    t = ρ.apply scheme.ty

/-- Every variable of the type is quantified. -/
def Closed (scheme : Scheme) : Prop :=
  ∀ v ∈ scheme.ty.vars, v ∈ scheme.vars

theorem closed_generalize (t : Ty) :
    (generalize t).Closed := by
  intro v hv
  exact VarSet.mem_ofList.2 hv

theorem closed_mono {t : Ty} (h : t.vars = []) :
    (mono t).Closed := by
  intro v hv
  rw [mono, h] at hv
  cases hv

theorem Closed.freeVars_lt {scheme : Scheme} (h : scheme.Closed) (n : Nat) :
    ∀ v ∈ scheme.freeVars, v < n := by
  intro v hv
  obtain ⟨hmem, hnot⟩ := mem_freeVars.1 hv
  exact absurd (h v hmem) hnot

theorem hasInstance_mono {t u : Ty} :
    (mono t).HasInstance u ↔ u = t := by
  constructor
  · rintro ⟨ρ, hρ, rfl⟩
    apply Subst.apply_eq_self
    intro v _
    exact Subst.apply_var_of_unbound (hρ v (List.not_mem_nil))
  · rintro rfl
    exact ⟨.empty, fun _ _ => rfl, (Subst.apply_empty u).symm⟩

theorem instanceUnder_mono {s : Subst} {t u : Ty} :
    (mono t).InstanceUnder s u ↔ u = s.apply t := by
  constructor
  · rintro ⟨ρ, hρ, rfl⟩
    exact Subst.apply_congr fun v _ => hρ v List.not_mem_nil
  · rintro rfl
    exact ⟨s, fun _ _ => rfl, rfl⟩

/-- In a closed scheme there is nothing that the enclosing scope could read. -/
theorem Closed.instanceUnder_iff
    {scheme : Scheme} (h : scheme.Closed) {s : Subst} {t : Ty} :
    scheme.InstanceUnder s t ↔ scheme.HasInstance t := by
  constructor
  · rintro ⟨ρ, -, rfl⟩
    refine ⟨Subst.empty.extend (fun v => ρ.apply (.var v)) scheme.vars, ?_, ?_⟩
    · intro v hv
      rw [Subst.find?_extend, if_neg hv, Subst.find?_empty]
    · apply Subst.apply_congr
      intro v hv
      rw [Subst.apply_extend_of_mem (h v hv)]
  · rintro ⟨ρ, -, rfl⟩
    refine ⟨s.extend (fun v => ρ.apply (.var v)) scheme.vars, ?_, ?_⟩
    · intro v hv
      exact Subst.apply_extend_of_not_mem hv
    · apply Subst.apply_congr
      intro v hv
      rw [Subst.apply_extend_of_mem (h v hv)]

/-- Instances of a closed scheme stay instances when a substitution is applied to them. -/
theorem HasInstance.apply
    {scheme : Scheme} (closed : scheme.Closed) {t : Ty} (h : scheme.HasInstance t)
    (s : Subst) : scheme.HasInstance (s.apply t) := by
  obtain ⟨ρ, -, rfl⟩ := h
  refine ⟨Subst.empty.extend (fun v => s.apply (ρ.apply (.var v))) scheme.vars, ?_, ?_⟩
  · intro v hv
    rw [Subst.find?_extend, if_neg hv, Subst.find?_empty]
  · apply Subst.apply_apply_eq
    intro v hv
    rw [Subst.apply_extend_of_mem (closed v hv)]

theorem InstanceUnder.of_agreesBelow
    {n : Nat} {s s' : Subst} {scheme : Scheme} {t : Ty}
    (h : scheme.InstanceUnder s t) (hfree : ∀ v ∈ scheme.freeVars, v < n)
    (hagree : Subst.AgreesBelow n s s') :
    scheme.InstanceUnder s' t := by
  obtain ⟨ρ, hρ, rfl⟩ := h
  refine ⟨s'.extend (fun v => ρ.apply (.var v)) scheme.vars, ?_, ?_⟩
  · intro v hv
    exact Subst.apply_extend_of_not_mem hv
  · apply Subst.apply_congr
    intro v hv
    by_cases hmem : v ∈ scheme.vars
    · rw [Subst.apply_extend_of_mem hmem]
    · rw [Subst.apply_extend_of_not_mem hmem, hρ v hmem]
      exact hagree v (hfree v (mem_freeVars.2 ⟨hv, hmem⟩))

/-- A substitution that absorbs itself may be applied after the quantified variables of a
scheme were replaced. -/
theorem InstanceUnder.exists_apply_apply
    {s : Subst} (idem : s.Absorbs s) {scheme : Scheme} {t : Ty}
    (h : scheme.InstanceUnder s (s.apply t)) :
    ∃ ρ : Subst, (∀ v, v ∉ scheme.vars → ρ.find? v = none) ∧
      s.apply t = s.apply (ρ.apply scheme.ty) := by
  obtain ⟨ρ, hρ, heq⟩ := h
  refine ⟨Subst.empty.extend (fun v => ρ.apply (.var v)) scheme.vars, ?_, ?_⟩
  · intro v hv
    rw [Subst.find?_extend, if_neg hv, Subst.find?_empty]
  · rw [← idem t, heq]
    apply Subst.apply_apply_congr
    intro v _
    by_cases hv : v ∈ scheme.vars
    · rw [Subst.apply_extend_of_mem hv]
    · rw [Subst.apply_extend_of_not_mem hv, Subst.apply_empty, hρ v hv, idem]

end Scheme

/-! ## Fresh instances -/

namespace Supply

/-- A quantified variable is replaced by the fresh variable at one of its positions, and
every other variable stays. -/
theorem freshFor_cases (first : Nat) (vs : List Nat) (v : Nat) :
    (v ∉ vs ∧ (Subst.ofList (freshFor first vs)).find? v = none) ∨
      ∃ i, vs[i]? = some v ∧
        (Subst.ofList (freshFor first vs)).find? v = some (.var (first + i)) := by
  have hfold : ∀ (vs : List Nat) (first : Nat) (s : Subst),
      let u := (freshFor first vs).foldl (fun s e => s.insert e.1 e.2) s
      (v ∉ vs ∧ u.find? v = s.find? v) ∨
        ∃ i, vs[i]? = some v ∧ u.find? v = some (.var (first + i)) := by
    intro vs
    induction vs with
    | nil =>
        intro first s
        exact .inl ⟨List.not_mem_nil, rfl⟩
    | cons w vs ih =>
        intro first s
        simp only [freshFor, List.foldl_cons]
        rcases ih (first + 1) (s.insert w (.var first)) with ⟨hv, hfind⟩ | ⟨i, hi, hfind⟩
        · by_cases hvw : v = w
          · subst hvw
            refine .inr ⟨0, rfl, ?_⟩
            rw [hfind, Subst.find?_insert, if_pos rfl, Nat.add_zero]
          · refine .inl ⟨by simp [hvw, hv], ?_⟩
            rw [hfind, Subst.find?_insert, if_neg hvw]
        · refine .inr ⟨i + 1, by simpa using hi, ?_⟩
          rw [hfind]
          congr 2
          omega
  exact hfold vs first .empty

/-- Instantiation replaces the quantified variables all at once, also when there are none. -/
theorem instantiate_fst (supply : Supply) (scheme : Scheme) :
    (supply.instantiate scheme).1 =
      (Subst.ofList (freshFor (max supply.next scheme.ceiling) scheme.vars)).apply
        scheme.ty := by
  unfold instantiate
  split
  · rename_i hvars
    rw [List.isEmpty_iff.1 hvars]
    exact (Subst.apply_empty scheme.ty).symm
  · rfl

theorem instantiate_instanceUnder (supply : Supply) (scheme : Scheme) (s : Subst) :
    scheme.InstanceUnder s (s.apply (supply.instantiate scheme).1) := by
  rw [instantiate_fst]
  generalize max supply.next scheme.ceiling = first
  refine ⟨s.extend (fun v => s.apply
    ((Subst.ofList (freshFor first scheme.vars)).apply (.var v))) scheme.vars, ?_, ?_⟩
  · intro v hv
    exact Subst.apply_extend_of_not_mem hv
  · apply Subst.apply_apply_eq
    intro v _
    by_cases hv : v ∈ scheme.vars
    · rw [Subst.apply_extend_of_mem hv]
    · rcases freshFor_cases first scheme.vars v with ⟨-, hnone⟩ | ⟨i, hi, -⟩
      · rw [Subst.apply_var_of_unbound hnone, Subst.apply_extend_of_not_mem hv]
      · exact absurd (List.mem_of_getElem? hi) hv

theorem instantiate_below
    {supply : Supply} {scheme : Scheme} (hfree : ∀ v ∈ scheme.freeVars, v < supply.next) :
    (supply.instantiate scheme).1.Below (supply.instantiate scheme).2.next := by
  have hnext := supply.next_le_instantiate scheme
  rw [instantiate_fst]
  intro w hw
  obtain ⟨v, hv, hwv⟩ := Subst.mem_vars_apply.1 hw
  rcases freshFor_cases (max supply.next scheme.ceiling) scheme.vars v with
    ⟨hnot, hnone⟩ | ⟨i, hi, hsome⟩
  · obtain rfl : w = v := by simpa [hnone, Ty.vars] using hwv
    have hlt := hfree w (Scheme.mem_freeVars.2 ⟨hv, hnot⟩)
    omega
  · obtain rfl : w = max supply.next scheme.ceiling + i := by
      simpa [hsome, Ty.vars] using hwv
    have hlt : i < scheme.vars.length := (List.getElem?_eq_some_iff.1 hi).1
    have hne : scheme.vars.isEmpty = false := by
      cases hvars : scheme.vars with
      | nil => simp [hvars] at hlt
      | cons v vs => rfl
    simp only [instantiate, hne, Bool.false_eq_true, if_false]
    omega

/-- Every instance of a scheme is what the fresh instance becomes when the fresh variables
are bound suitably.  Nothing below the supply has to change. -/
theorem exists_instantiate
    {supply : Supply} {scheme : Scheme} {s : Subst} {t : Ty}
    (h : scheme.InstanceUnder s t) (hfree : ∀ v ∈ scheme.freeVars, v < supply.next) :
    ∃ s' : Subst, Subst.AgreesBelow supply.next s s' ∧
      s'.apply (supply.instantiate scheme).1 = t := by
  obtain ⟨ρ, hρ, rfl⟩ := h
  rw [instantiate_fst]
  generalize hfirst : max supply.next scheme.ceiling = first
  have hle : supply.next ≤ first := by omega
  refine ⟨s.extend (fun w => ρ.apply (.var (scheme.vars.getD (w - first) 0)))
    (List.range' first scheme.vars.length), ?_, ?_⟩
  · intro v hv
    rw [Subst.apply_extend_of_not_mem]
    rw [List.mem_range'_1]
    omega
  · apply Subst.apply_apply_eq
    intro v hv
    rcases freshFor_cases first scheme.vars v with ⟨hnot, hnone⟩ | ⟨i, hi, hsome⟩
    · have hlt : v < supply.next := hfree v (Scheme.mem_freeVars.2 ⟨hv, hnot⟩)
      rw [Subst.apply_var_of_unbound hnone, Subst.apply_extend_of_not_mem, hρ v hnot]
      rw [List.mem_range'_1]
      omega
    · have hlt : i < scheme.vars.length := (List.getElem?_eq_some_iff.1 hi).1
      rw [Subst.apply_var_of_find? hsome, Subst.apply_extend_of_mem]
      · simp [hi]
      · rw [List.mem_range'_1]
        omega

end Supply

end Ascribe
