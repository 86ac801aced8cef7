import Ascribe.Ty.Subst
import Ascribe.Ty.VarSet

/-!
# Unification

`unify l r` looks for a substitution that makes two types equal.  Lists are
unified from left to right, and what one position yields is applied to the
positions after it before they are compared.

The recursion is well founded although applying a substitution may enlarge a
type.  A unifier that binds something removes a variable from everything that is
compared later, and one that binds nothing leaves the later types as they were.
The recursion therefore returns each unifier together with the proof that it is
solved over the variables of its two sides (`Subst.SolvedOver`), and
`unify` and `unifyAll` forget that proof.
-/

namespace Ascribe

/-- Why two types have no unifier. -/
inductive UnifyError where
  | mismatch (expected found : Ty)
  | occursCheck (var : Nat) (ty : Ty)

def UnifyError.message : UnifyError → String
  | .mismatch expected found =>
      "type mismatch: expected " ++ expected.render ++ ", found " ++ found.render
  | .occursCheck var ty =>
      "occurs check: cannot construct infinite type " ++ Ty.renderVar var ++ " = " ++ ty.render

namespace Subst

/-- A substitution in solved form over some variables: it binds only them, the
types it binds mention only them, and no bound variable is mentioned. -/
structure SolvedOver (s : Subst) (vs : List Nat) : Prop where
  bound : ∀ {v t}, s.find? v = some t → v ∈ vs
  mentioned : ∀ {v t w}, s.find? v = some t → w ∈ t.vars → w ∈ vs ∧ s.find? w = none

theorem solvedOver_empty (vs : List Nat) :
    empty.SolvedOver vs :=
  ⟨fun h => by simp at h, fun h => by simp at h⟩

theorem SolvedOver.mono
    {s : Subst} {vs ws : List Nat} (h : s.SolvedOver vs) (sub : ∀ v ∈ vs, v ∈ ws) :
    s.SolvedOver ws :=
  ⟨fun hv => sub _ (h.bound hv),
    fun hv hw => ⟨sub _ (h.mentioned hv hw).1, (h.mentioned hv hw).2⟩⟩

theorem solvedOver_singleton
    {v : Nat} {t : Ty} (notIn : v ∉ t.vars) :
    (singleton v t).SolvedOver (v :: t.vars) := by
  refine ⟨?_, ?_⟩
  · intro u s h
    rw [find?_singleton] at h
    split at h
    · rename_i hu
      exact hu ▸ List.mem_cons_self
    · cases h
  · intro u s w h hw
    rw [find?_singleton] at h
    split at h
    · cases h
      have hne : w ≠ v := fun eq => notIn (eq ▸ hw)
      exact ⟨List.mem_cons_of_mem v hw, by rw [find?_singleton, if_neg hne]⟩
    · cases h

/-- What a solved substitution leaves of some variables: none of the bound ones. -/
theorem SolvedOver.mem_vars_getD
    {s : Subst} {vs : List Nat} (h : s.SolvedOver vs) {v w : Nat}
    (hw : w ∈ ((s.find? v).getD (.var v)).vars) :
    (w = v ∨ w ∈ vs) ∧ s.find? w = none := by
  cases hv : s.find? v with
  | none =>
      rw [hv] at hw
      simp only [Option.getD_none, Ty.vars, List.mem_singleton] at hw
      exact ⟨.inl hw, hw ▸ hv⟩
  | some t =>
      rw [hv] at hw
      exact ⟨.inr (h.mentioned hv hw).1, (h.mentioned hv hw).2⟩

theorem SolvedOver.mem_vars_apply
    {s : Subst} {vs : List Nat} (h : s.SolvedOver vs) {t : Ty} {w : Nat}
    (hw : w ∈ (s.apply t).vars) :
    (w ∈ t.vars ∨ w ∈ vs) ∧ s.find? w = none := by
  obtain ⟨v, hv, hwv⟩ := Subst.mem_vars_apply.1 hw
  obtain ⟨hor, hnone⟩ := h.mem_vars_getD hwv
  refine ⟨?_, hnone⟩
  rcases hor with rfl | hvs
  · exact .inl hv
  · exact .inr hvs

theorem SolvedOver.mem_varsAll_applyAll
    {s : Subst} {vs : List Nat} (h : s.SolvedOver vs) {ts : List Ty} {w : Nat}
    (hw : w ∈ Ty.varsAll (s.applyAll ts)) :
    (w ∈ Ty.varsAll ts ∨ w ∈ vs) ∧ s.find? w = none := by
  obtain ⟨v, hv, hwv⟩ := Subst.mem_varsAll_applyAll.1 hw
  obtain ⟨hor, hnone⟩ := h.mem_vars_getD hwv
  refine ⟨?_, hnone⟩
  rcases hor with rfl | hvs
  · exact .inl hv
  · exact .inr hvs

/-- Solved substitutions compose when the newer one avoids what the older binds. -/
theorem SolvedOver.compose
    {newer older : Subst} {vs ws : List Nat}
    (ho : older.SolvedOver vs) (hn : newer.SolvedOver ws)
    (avoid : ∀ w ∈ ws, w ∈ vs ∧ older.find? w = none) :
    (newer.compose older).SolvedOver vs := by
  have hunbound : ∀ {w}, newer.find? w = none → older.find? w = none →
      (newer.compose older).find? w = none := by
    intro w h1 h2
    rw [find?_compose, h1, h2]
    rfl
  refine ⟨?_, ?_⟩
  · intro v t h
    rw [find?_compose] at h
    cases hv : newer.find? v with
    | some u => exact (avoid v (hn.bound hv)).1
    | none =>
        rw [hv, Option.none_or] at h
        obtain ⟨u, hu, _⟩ := Option.map_eq_some_iff.1 h
        exact ho.bound hu
  · intro v t w h hw
    rw [find?_compose] at h
    cases hv : newer.find? v with
    | some u =>
        rw [hv, Option.some_or] at h
        cases h
        have hm := hn.mentioned hv hw
        have ha := avoid w hm.1
        exact ⟨ha.1, hunbound hm.2 ha.2⟩
    | none =>
        rw [hv, Option.none_or] at h
        obtain ⟨u, hu, rfl⟩ := Option.map_eq_some_iff.1 h
        obtain ⟨x, hx, hwx⟩ := Subst.mem_vars_apply.1 hw
        have hox := ho.mentioned hu hx
        cases hnx : newer.find? x with
        | none =>
            rw [hnx] at hwx
            simp only [Option.getD_none, Ty.vars, List.mem_singleton] at hwx
            subst hwx
            exact ⟨hox.1, hunbound hnx hox.2⟩
        | some y =>
            rw [hnx] at hwx
            have hm := hn.mentioned hnx hwx
            have ha := avoid w hm.1
            exact ⟨ha.1, hunbound hm.2 ha.2⟩

end Subst

namespace Unify

/-- A pair drops when its first part does not grow and its second part drops. -/
theorem lex_of_le_of_lt {a b c d : Nat} (first : a ≤ c) (second : b < d) :
    Prod.Lex (· < ·) (· < ·) (a, b) (c, d) := by
  rcases Nat.lt_or_eq_of_le first with h | h
  · exact .left _ _ h
  · subst h
    exact .right _ second

/-- What is compared after a solved substitution was applied is a smaller problem. -/
theorem lex_of_solvedOver
    {s : Subst} {vs before after : List Nat} {m n : Nat}
    (solved : s.SolvedOver vs) (sub : ∀ v ∈ vs, v ∈ before)
    (left : ∀ w ∈ after, w ∈ before ∧ s.find? w = none)
    (unbound : s = .empty → m < n) :
    Prod.Lex (· < ·) (· < ·) (VarSet.count after, m) (VarSet.count before, n) := by
  by_cases h : s = .empty
  · exact lex_of_le_of_lt (VarSet.count_le fun w hw => (left w hw).1) (unbound h)
  · rw [Subst.eq_empty_iff] at h
    obtain ⟨v, hv⟩ := Classical.not_forall.1 h
    obtain ⟨t, ht⟩ := Option.ne_none_iff_exists'.1 hv
    refine .left _ _ (VarSet.count_lt (fun w hw => (left w hw).1) (sub v (solved.bound ht)) ?_)
    intro hmem
    rw [(left v hmem).2] at ht
    cases ht

/-- Bind a variable to a type, unless it is that type or occurs inside it. -/
def bind (v : Nat) (t : Ty) :
    Except UnifyError {s : Subst // s.SolvedOver (v :: t.vars)} :=
  if t.isBareVar v then .ok ⟨.empty, Subst.solvedOver_empty _⟩
  else if h : t.occurs v then .error (.occursCheck v t)
  else .ok ⟨.singleton v t, Subst.solvedOver_singleton (mt Ty.occurs_iff.2 h)⟩

mutual

/-- The unifier of two types with the proof that it is solved over their variables. -/
def solved (l r : Ty) :
    Except UnifyError {s : Subst // s.SolvedOver (l.vars ++ r.vars)} :=
  match l, r with
  | .var v, t =>
      match bind v t with
      | .ok ⟨s, hs⟩ => .ok ⟨s, hs.mono (by simp [Ty.vars])⟩
      | .error e => .error e
  | t, .var v =>
      match bind v t with
      | .ok ⟨s, hs⟩ => .ok ⟨s, hs.mono (by simp [Ty.vars]; grind)⟩
      | .error e => .error e
  | .con name as, .con other bs =>
      if name = other ∧ as.length = bs.length then
        match solvedAll as bs with
        | .ok ⟨s, hs⟩ => .ok ⟨s, hs⟩
        | .error (.mismatch _ _) => .error (.mismatch (.con name as) (.con other bs))
        | .error e => .error e
      else .error (.mismatch (.con name as) (.con other bs))
  | .arrow ps a, .arrow qs b =>
      if ps.length = qs.length then
        match solvedAll ps qs with
        | .error e => .error e
        | .ok ⟨s, hs⟩ =>
            have hleft : ∀ w ∈ (s.apply a).vars ++ (s.apply b).vars,
                w ∈ (Ty.arrow ps a).vars ++ (Ty.arrow qs b).vars ∧ s.find? w = none := by
              intro w hw
              simp only [Ty.vars, List.mem_append] at hw ⊢
              rcases hw with hw | hw
              · have := hs.mem_vars_apply hw
                simp only [List.mem_append] at this
                grind
              · have := hs.mem_vars_apply hw
                simp only [List.mem_append] at this
                grind
            match solved (s.apply a) (s.apply b) with
            | .error e => .error e
            | .ok ⟨u, hu⟩ =>
                .ok ⟨u.compose s,
                  (hs.mono (by simp only [Ty.vars, List.mem_append]; grind)).compose hu hleft⟩
      else .error (.mismatch (.arrow ps a) (.arrow qs b))
  | .tuple as, .tuple bs =>
      if as.length = bs.length then
        match solvedAll as bs with
        | .ok ⟨s, hs⟩ => .ok ⟨s, hs⟩
        | .error e => .error e
      else .error (.mismatch (.tuple as) (.tuple bs))
  | l, r => .error (.mismatch l r)
termination_by (VarSet.count (l.vars ++ r.vars), l.size + r.size)
decreasing_by
  · exact lex_of_le_of_lt (Nat.le_refl _) (by simp only [Ty.size]; omega)
  · exact lex_of_le_of_lt
      (VarSet.count_le (by simp only [Ty.vars, List.mem_append]; grind))
      (by simp only [Ty.size]; omega)
  · refine lex_of_solvedOver hs (by simp only [Ty.vars, List.mem_append]; grind) hleft ?_
    intro hempty
    subst hempty
    simp only [Subst.apply_empty, Ty.size]
    omega
  · exact lex_of_le_of_lt (Nat.le_refl _) (by simp only [Ty.size]; omega)

/-- The unifier of two lists of types, position by position. -/
def solvedAll (ls rs : List Ty) :
    Except UnifyError {s : Subst // s.SolvedOver (Ty.varsAll ls ++ Ty.varsAll rs)} :=
  match ls, rs with
  | l :: ls, r :: rs =>
      match solved l r with
      | .error e => .error e
      | .ok ⟨s, hs⟩ =>
          have hleft : ∀ w ∈ Ty.varsAll (s.applyAll ls) ++ Ty.varsAll (s.applyAll rs),
              w ∈ Ty.varsAll (l :: ls) ++ Ty.varsAll (r :: rs) ∧ s.find? w = none := by
            intro w hw
            simp only [Ty.varsAll, List.mem_append] at hw ⊢
            rcases hw with hw | hw
            · have := hs.mem_varsAll_applyAll hw
              simp only [List.mem_append] at this
              grind
            · have := hs.mem_varsAll_applyAll hw
              simp only [List.mem_append] at this
              grind
          match solvedAll (s.applyAll ls) (s.applyAll rs) with
          | .error e => .error e
          | .ok ⟨u, hu⟩ =>
              .ok ⟨u.compose s,
                (hs.mono (by simp only [Ty.varsAll, List.mem_append]; grind)).compose hu hleft⟩
  | _, _ => .ok ⟨.empty, Subst.solvedOver_empty _⟩
termination_by (VarSet.count (Ty.varsAll ls ++ Ty.varsAll rs), Ty.sizeAll ls + Ty.sizeAll rs)
decreasing_by
  · exact lex_of_le_of_lt
      (VarSet.count_le (by simp only [Ty.varsAll, List.mem_append]; grind))
      (by simp only [Ty.sizeAll]; omega)
  · refine lex_of_solvedOver hs (by simp only [Ty.varsAll, List.mem_append]; grind) hleft ?_
    intro hempty
    subst hempty
    simp only [Subst.applyAll_empty, Ty.sizeAll]
    omega

end

end Unify

/-- The most general substitution that makes two types equal. -/
def unify (l r : Ty) : Except UnifyError Subst :=
  (Unify.solved l r).map Subtype.val

/-- The most general substitution that makes two lists of types equal. -/
def unifyAll (ls rs : List Ty) : Except UnifyError Subst :=
  (Unify.solvedAll ls rs).map Subtype.val

/-! ## The unifier step by step -/

/-- A variable against a type on its other side. -/
def bindVar (v : Nat) (t : Ty) : Except UnifyError Subst :=
  if t.isBareVar v then .ok .empty
  else if t.occurs v then .error (.occursCheck v t)
  else .ok (.singleton v t)

private theorem map_bind (v : Nat) (t : Ty) :
    (Unify.bind v t).map Subtype.val = bindVar v t := by
  unfold Unify.bind bindVar
  split
  · rfl
  · split <;> rfl

theorem unify_var_left (v : Nat) (t : Ty) :
    unify (.var v) t = bindVar v t := by
  rw [← map_bind, unify, Unify.solved]
  cases Unify.bind v t <;> rfl

theorem unify_var_right
    {t : Ty} (notVar : t.isVar = false) (v : Nat) :
    unify t (.var v) = bindVar v t := by
  rw [← map_bind]
  cases t with
  | var w => simp [Ty.isVar] at notVar
  | con name args =>
      rw [unify, Unify.solved]
      · cases Unify.bind v (.con name args) <;> rfl
      · simp
  | arrow params result =>
      rw [unify, Unify.solved]
      · cases Unify.bind v (.arrow params result) <;> rfl
      · simp
  | tuple elems =>
      rw [unify, Unify.solved]
      · cases Unify.bind v (.tuple elems) <;> rfl
      · simp

/-- Below a constructor a mismatch is reported for the whole constructor pair. -/
theorem unify_con (name other : String) (as bs : List Ty) :
    unify (.con name as) (.con other bs) =
      if name = other ∧ as.length = bs.length then
        match unifyAll as bs with
        | .ok s => .ok s
        | .error (.mismatch _ _) => .error (.mismatch (.con name as) (.con other bs))
        | .error e => .error e
      else .error (.mismatch (.con name as) (.con other bs)) := by
  rw [unify, Unify.solved, unifyAll]
  split
  · rcases Unify.solvedAll as bs with e | s
    · cases e <;> rfl
    · rfl
  · rfl

/-- Function types unify their parameters first and their results under that unifier. -/
theorem unify_arrow (ps qs : List Ty) (a b : Ty) :
    unify (.arrow ps a) (.arrow qs b) =
      if ps.length = qs.length then
        match unifyAll ps qs with
        | .error e => .error e
        | .ok s =>
            match unify (s.apply a) (s.apply b) with
            | .error e => .error e
            | .ok u => .ok (u.compose s)
      else .error (.mismatch (.arrow ps a) (.arrow qs b)) := by
  rw [unify, Unify.solved, unifyAll]
  split
  · rcases Unify.solvedAll ps qs with e | ⟨s, hs⟩
    · rfl
    · simp only [Except.map, unify]
      rcases Unify.solved (s.apply a) (s.apply b) with e | u
      · rfl
      · rfl
  · rfl

theorem unify_tuple (as bs : List Ty) :
    unify (.tuple as) (.tuple bs) =
      if as.length = bs.length then unifyAll as bs
      else .error (.mismatch (.tuple as) (.tuple bs)) := by
  rw [unify, Unify.solved, unifyAll]
  by_cases h : as.length = bs.length
  · rw [if_pos h, if_pos h]
    cases Unify.solvedAll as bs <;> rfl
  · rw [if_neg h, if_neg h]
    rfl

@[simp]
theorem unifyAll_nil :
    unifyAll [] [] = .ok .empty := by
  rw [unifyAll, Unify.solvedAll]
  · rfl
  · simp

/-- What the first position yields is applied to the rest before it is compared. -/
theorem unifyAll_cons (l r : Ty) (ls rs : List Ty) :
    unifyAll (l :: ls) (r :: rs) =
      match unify l r with
      | .error e => .error e
      | .ok s =>
          match unifyAll (s.applyAll ls) (s.applyAll rs) with
          | .error e => .error e
          | .ok u => .ok (u.compose s) := by
  rw [unifyAll, Unify.solvedAll, unify]
  rcases Unify.solved l r with e | ⟨s, hs⟩
  · rfl
  · simp only [Except.map, unifyAll]
    rcases Unify.solvedAll (s.applyAll ls) (s.applyAll rs) with e | u
    · rfl
    · rfl

end Ascribe
