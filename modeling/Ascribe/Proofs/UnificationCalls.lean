import Ascribe.Proofs.Clashes
import Ascribe.Proofs.Unification

/-!
# Calls of unification

Unification compares the positions of two types one after the other, and what it has found so far
is put into the types of a position before they are compared.  They need not be parts of the two
types then, and they may be larger than both.

Here one call of unification is separated from the calls that it makes.  `Unify.call` says what a
call does with the answers to its calls, and `Unify.within` runs it with calls nested to a given
depth only, so that nothing about the two presupposes that unification ends.  `Unify.calls` lists
the calls that are made.  Each of them is smaller than the call that makes it
(`Unify.smaller_of_mem_calls`): either nothing has been bound so far, and parts of the two types
are compared, or a variable has been bound and occurs in nothing that is compared from then on.
-/

namespace Ascribe

namespace Subst

theorem empty_compose (s : Subst) : empty.compose s = s := by
  apply ext_find?
  intro v
  rw [find?_compose, find?_empty, Option.none_or]
  cases s.find? v with
  | none => rfl
  | some t => rw [Option.map_some, apply_empty]

theorem compose_empty (s : Subst) : s.compose empty = s := by
  apply ext_find?
  intro v
  rw [find?_compose, find?_empty, Option.map_none, Option.or_none]

/-- Grouping does not matter when the newest substitution avoids what the one before it binds. -/
theorem compose_assoc_of_solvedOver
    {newest newer : Subst} {ws : List Nat} (hn : newest.SolvedOver ws)
    (hws : ∀ w ∈ ws, newer.find? w = none) (older : Subst) :
    (newest.compose newer).compose older = newest.compose (newer.compose older) := by
  apply ext_find?
  intro v
  rw [find?_compose_assoc_iff]
  rintro t - - - w - ⟨a, b, ha, hb, -⟩
  rw [hws w (hn.bound hb)] at ha
  cases ha

end Subst

namespace Unify

/-! ## One call -/

/-- An attempt to unify.  It has no outcome when it is cut off. -/
abbrev Attempt :=
  ExceptT UnifyError Option

theorem bind_of_ok
    {α β : Type} {x : Attempt α} {a : α} (h : x = some (.ok a)) (f : α → Attempt β) :
    x >>= f = f a := by
  rw [h]
  rfl

theorem bind_of_error
    {α β : Type} {x : Attempt α} {e : UnifyError} (h : x = some (.error e))
    (f : α → Attempt β) :
    x >>= f = some (.error e) := by
  rw [h]
  rfl

/-- Compare two lists position by position, given how two types are compared and what was found
before. -/
def loop (compare : Ty → Ty → Attempt Subst) : Subst → List Ty → List Ty → Attempt Subst
  | s, l :: ls, r :: rs => do
      let u ← compare (s.apply l) (s.apply r)
      loop compare (u.compose s) ls rs
  | s, _, _ => return s

/-- Compare two types, given how the types in them are compared. -/
def call (compare : Ty → Ty → Attempt Subst) : Ty → Ty → Attempt Subst
  | .var v, t => ExceptT.mk (some (bindVar v t))
  | t, .var v => ExceptT.mk (some (bindVar v t))
  | .con name as, .con other bs =>
      if name = other ∧ as.length = bs.length then
        tryCatch (loop compare .empty as bs) fun
          | .mismatch _ _ => throw (.mismatch (.con name as) (.con other bs))
          | e => throw e
      else throw (.mismatch (.con name as) (.con other bs))
  | .arrow ps a, .arrow qs b =>
      if ps.length = qs.length then do
        let s ← loop compare .empty ps qs
        let u ← compare (s.apply a) (s.apply b)
        return u.compose s
      else throw (.mismatch (.arrow ps a) (.arrow qs b))
  | .tuple as, .tuple bs =>
      if as.length = bs.length then loop compare .empty as bs
      else throw (.mismatch (.tuple as) (.tuple bs))
  | l, r => throw (.mismatch l r)

/-- Unification cut off where its calls are nested deeper than the given depth. -/
def within : Nat → Ty → Ty → Attempt Subst
  | 0, _, _ => ExceptT.mk none
  | depth + 1, l, r => call (within depth) l r

/-! ## The calls that are made -/

/-- The pairs that are compared along two lists, in order, given what was found before. -/
def loopCalls : Subst → List Ty → List Ty → List (Ty × Ty)
  | s, l :: ls, r :: rs =>
      (s.apply l, s.apply r) ::
        match unify (s.apply l) (s.apply r) with
        | .ok u => loopCalls (u.compose s) ls rs
        | .error _ => []
  | _, _, _ => []

/-- The calls that a call of unification makes, in order. -/
def calls : Ty → Ty → List (Ty × Ty)
  | .con name as, .con other bs =>
      if name = other ∧ as.length = bs.length then loopCalls .empty as bs else []
  | .arrow ps a, .arrow qs b =>
      if ps.length = qs.length then
        loopCalls .empty ps qs ++
          match unifyAll ps qs with
          | .ok s => [(s.apply a, s.apply b)]
          | .error _ => []
      else []
  | .tuple as, .tuple bs =>
      if as.length = bs.length then loopCalls .empty as bs else []
  | _, _ => []

/-- A loop whose calls are answered rightly ends in the unifier of what it was left to compare,
put on top of what was found before. -/
theorem loop_eq
    {compare : Ty → Ty → Attempt Subst} {s : Subst} {ls rs : List Ty} (hs : s.Solved)
    (hlength : ls.length = rs.length)
    (h : ∀ q ∈ loopCalls s ls rs, compare q.1 q.2 = some (unify q.1 q.2)) :
    loop compare s ls rs =
      some ((unifyAll (s.applyAll ls) (s.applyAll rs)).map fun u => u.compose s) := by
  induction ls generalizing s rs with
  | nil =>
      obtain rfl : rs = [] := List.length_eq_zero_iff.1 hlength.symm
      simp only [Subst.applyAll, unifyAll_nil, Except.map, Subst.empty_compose]
      rfl
  | cons l ls ih =>
      cases rs with
      | nil => cases hlength
      | cons r rs =>
          rw [loopCalls, List.forall_mem_cons] at h
          obtain ⟨hhead, hrest⟩ := h
          rw [loop, Subst.applyAll, Subst.applyAll, unifyAll_cons]
          cases hunify : unify (s.apply l) (s.apply r) with
          | error e =>
              rw [hunify] at hhead
              rw [bind_of_error hhead]
              rfl
          | ok u =>
              rw [hunify] at hhead
              simp only [hunify] at hrest
              have happly : ∀ ts : List Ty,
                  (u.compose s).applyAll ts = u.applyAll (s.applyAll ts) := by
                intro ts
                simp only [Subst.applyAll_eq_map, List.map_map]
                exact List.map_congr_left fun t _ => apply_compose_unifier hs hunify t
              rw [bind_of_ok hhead,
                ih (solved_compose_unifier hs hunify) (Nat.succ.inj hlength) hrest, happly ls,
                happly rs]
              cases hw : unifyAll (u.applyAll (s.applyAll ls)) (u.applyAll (s.applyAll rs)) with
              | error e => simp only [hw, Except.map]
              | ok w =>
                  have hu : u.Solved := ⟨_, unify_solvedOver hunify⟩
                  simp only [hw, Except.map]
                  rw [Subst.compose_assoc_of_solvedOver (unifyAll_solvedOver hw)
                    hu.find?_eq_none_of_sidesAll]

theorem loop_empty_eq
    {compare : Ty → Ty → Attempt Subst} {ls rs : List Ty} (hlength : ls.length = rs.length)
    (h : ∀ q ∈ loopCalls .empty ls rs, compare q.1 q.2 = some (unify q.1 q.2)) :
    loop compare .empty ls rs = some (unifyAll ls rs) := by
  rw [loop_eq Subst.solved_empty hlength h, Subst.applyAll_empty, Subst.applyAll_empty]
  cases unifyAll ls rs with
  | error e => rfl
  | ok u => rw [Except.map, Subst.compose_empty]

/-- A call whose calls are answered rightly ends in the unifier. -/
theorem call_eq
    {compare : Ty → Ty → Attempt Subst} {l r : Ty}
    (h : ∀ q ∈ calls l r, compare q.1 q.2 = some (unify q.1 q.2)) :
    call compare l r = some (unify l r) := by
  fun_cases call compare l r with
  | case1 v t =>
      rw [unify_var_left]
      rfl
  | case2 _ v notVar =>
      have hvar : l.isVar = false := by
        cases l with
        | var w => exact (notVar w rfl).elim
        | con | arrow | tuple => rfl
      rw [unify_var_right hvar]
      rfl
  | case3 name as other bs hsame =>
      rw [calls, if_pos hsame] at h
      rw [loop_empty_eq hsame.2 h, unify_con, if_pos hsame]
      cases unifyAll as bs with
      | ok s => rfl
      | error e =>
          cases e with
          | mismatch | occursCheck => rfl
  | case4 name as other bs hdiffer =>
      rw [unify_con, if_neg hdiffer]
      rfl
  | case5 ps a qs b hlength =>
      rw [calls, if_pos hlength, List.forall_mem_append] at h
      have hparams := loop_empty_eq hlength h.1
      rw [unify_arrow, if_pos hlength]
      cases hs : unifyAll ps qs with
      | error e =>
          rw [hs] at hparams
          exact bind_of_error hparams _
      | ok s =>
          rw [hs] at hparams
          have hresult : compare (s.apply a) (s.apply b) =
              some (unify (s.apply a) (s.apply b)) := by
            apply h.2 (s.apply a, s.apply b)
            simp only [hs, List.mem_singleton]
          rw [bind_of_ok hparams]
          cases hu : unify (s.apply a) (s.apply b) with
          | error e =>
              rw [hu] at hresult
              simp only [hu]
              exact bind_of_error hresult _
          | ok u =>
              rw [hu] at hresult
              simp only [hu]
              exact bind_of_ok hresult _
  | case6 ps a qs b hlength =>
      rw [unify_arrow, if_neg hlength]
      rfl
  | case7 as bs hlength =>
      rw [calls, if_pos hlength] at h
      rw [loop_empty_eq hlength h, unify_tuple, if_pos hlength]
  | case8 as bs hlength =>
      rw [unify_tuple, if_neg hlength]
      rfl
  | case9 notLeft notRight notCon notArrow notTuple =>
      rw [unify, solved]
      · rfl
      all_goals assumption

/-! ## Every call is smaller than the call that makes it -/

/-- What gets smaller from a call to the calls that it makes: the number of variables or the
size. -/
def rank (p : Ty × Ty) : Nat × Nat :=
  (VarSet.count (p.1.vars ++ p.2.vars), p.1.size + p.2.size)

/-- A call is smaller than another one. -/
def Smaller (q p : Ty × Ty) : Prop :=
  Prod.Lex (· < ·) (· < ·) (rank q) (rank p)

theorem wellFounded_smaller : WellFounded Smaller :=
  InvImage.wf rank (Prod.lex Nat.lt_wfRel Nat.lt_wfRel).wf

/-- What is left of two types after a substitution that is solved over their variables: some of
these variables, none of them bound. -/
theorem mem_of_sides
    {s : Subst} {vs : List Nat} {l r : Ty} (hs : s.SolvedOver vs)
    (hl : ∀ w ∈ l.vars, w ∈ vs) (hr : ∀ w ∈ r.vars, w ∈ vs) :
    ∀ w ∈ (s.apply l).vars ++ (s.apply r).vars, w ∈ vs ∧ s.find? w = none := by
  intro w hw
  rcases List.mem_append.1 hw with hw | hw
  · obtain ⟨hmem, hnone⟩ := hs.mem_vars_apply hw
    exact ⟨hmem.elim (hl w) id, hnone⟩
  · obtain ⟨hmem, hnone⟩ := hs.mem_vars_apply hw
    exact ⟨hmem.elim (hr w) id, hnone⟩

/-- Two types are a smaller problem under a substitution that is solved over the variables of the
problem around them. -/
theorem lex_rank_apply
    {s : Subst} {vs : List Nat} {n : Nat} {l r : Ty} (hs : s.SolvedOver vs)
    (hl : ∀ w ∈ l.vars, w ∈ vs) (hr : ∀ w ∈ r.vars, w ∈ vs) (hsize : l.size + r.size < n) :
    Prod.Lex (· < ·) (· < ·) (rank (s.apply l, s.apply r)) (VarSet.count vs, n) := by
  refine lex_of_solvedOver hs (fun _ hv => hv) (mem_of_sides hs hl hr) ?_
  rintro rfl
  rwa [Subst.apply_empty, Subst.apply_empty]

/-- Every pair that is compared along two lists is a smaller problem than the one around the
lists.  What is found on the way stays solved over the variables of that problem. -/
theorem lex_rank_of_mem_loopCalls
    {s : Subst} {vs : List Nat} {n : Nat} {ls rs : List Ty} {q : Ty × Ty} (hs : s.SolvedOver vs)
    (hls : ∀ w ∈ Ty.varsAll ls, w ∈ vs) (hrs : ∀ w ∈ Ty.varsAll rs, w ∈ vs)
    (hsize : Ty.sizeAll ls + Ty.sizeAll rs < n) (hq : q ∈ loopCalls s ls rs) :
    Prod.Lex (· < ·) (· < ·) (rank q) (VarSet.count vs, n) := by
  induction ls generalizing s rs with
  | nil => cases hq
  | cons l ls ih =>
      cases rs with
      | nil => cases hq
      | cons r rs =>
          rw [Ty.varsAll, List.forall_mem_append] at hls hrs
          rw [Ty.sizeAll, Ty.sizeAll] at hsize
          rw [loopCalls] at hq
          rcases List.mem_cons.1 hq with rfl | hq
          · exact lex_rank_apply hs hls.1 hrs.1 (by omega)
          · split at hq
            · rename_i u hu
              have hsolved : (u.compose s).SolvedOver vs :=
                hs.compose (unify_solvedOver hu) (mem_of_sides hs hls.1 hrs.1)
              exact ih hsolved hls.2 hrs.2 (by omega) hq
            · cases hq

/-- A call that is made along lists of parts is smaller than the call of the whole types. -/
theorem smaller_of_mem_loopCalls
    {l r : Ty} {ls rs : List Ty} {q : Ty × Ty} (hl : ∀ w ∈ Ty.varsAll ls, w ∈ l.vars)
    (hr : ∀ w ∈ Ty.varsAll rs, w ∈ r.vars)
    (hsize : Ty.sizeAll ls + Ty.sizeAll rs < l.size + r.size) (hq : q ∈ loopCalls .empty ls rs) :
    Smaller q (l, r) := by
  refine lex_rank_of_mem_loopCalls (Subst.solvedOver_empty _) ?_ ?_ hsize hq
  · exact fun w hw => List.mem_append_left _ (hl w hw)
  · exact fun w hw => List.mem_append_right _ (hr w hw)

/-- Every call is smaller than the call that makes it. -/
theorem smaller_of_mem_calls {l r : Ty} {q : Ty × Ty} (h : q ∈ calls l r) : Smaller q (l, r) := by
  fun_cases calls l r with
  | case1 name as other bs hsame =>
      rw [calls, if_pos hsame] at h
      refine smaller_of_mem_loopCalls (fun _ hw => hw) (fun _ hw => hw) ?_ h
      simp only [Ty.size]
      omega
  | case2 name as other bs hdiffer =>
      rw [calls, if_neg hdiffer] at h
      cases h
  | case3 ps a qs b hlength =>
      rw [calls, if_pos hlength] at h
      have hps : ∀ w ∈ Ty.varsAll ps, w ∈ (Ty.arrow ps a).vars :=
        fun w hw => List.mem_append_left _ hw
      have hqs : ∀ w ∈ Ty.varsAll qs, w ∈ (Ty.arrow qs b).vars :=
        fun w hw => List.mem_append_left _ hw
      rcases List.mem_append.1 h with h | h
      · refine smaller_of_mem_loopCalls hps hqs ?_ h
        simp only [Ty.size]
        omega
      · split at h
        · rename_i s hs
          obtain rfl := List.mem_singleton.1 h
          refine lex_rank_apply ((unifyAll_solvedOver hs).mono ?_) ?_ ?_ ?_
          · exact List.forall_mem_append.2
              ⟨fun w hw => List.mem_append_left _ (hps w hw),
                fun w hw => List.mem_append_right _ (hqs w hw)⟩
          · exact fun w hw => List.mem_append_left _ (List.mem_append_right _ hw)
          · exact fun w hw => List.mem_append_right _ (List.mem_append_right _ hw)
          · simp only [Ty.size]
            omega
        · cases h
  | case4 ps a qs b hlength =>
      rw [calls, if_neg hlength] at h
      cases h
  | case5 as bs hlength =>
      rw [calls, if_pos hlength] at h
      refine smaller_of_mem_loopCalls (fun _ hw => hw) (fun _ hw => hw) ?_ h
      simp only [Ty.size]
      omega
  | case6 as bs hlength =>
      rw [calls, if_neg hlength] at h
      cases h
  | case7 _ _ notCon notArrow notTuple =>
      rw [calls] at h
      · cases h
      all_goals assumption

-- The second call has three copies of the tuple of the first one in it.  The types that are
-- compared by the call around have size 22 together.
example :
    (calls (.tuple [.var 0, .tuple [.var 0, .var 0, .var 0]])
      (.tuple [.tuple [.bool, .bool, .bool], .var 1])).map (fun q => q.1.size + q.2.size) =
        [8, 26] := by
  cbv

/-! ## Unification ends -/

theorem exists_depth_forall
    {qs : List (Ty × Ty)}
    (h : ∀ q ∈ qs, ∃ depth, ∀ n, depth ≤ n → within n q.1 q.2 = some (unify q.1 q.2)) :
    ∃ depth, ∀ n, depth ≤ n → ∀ q ∈ qs, within n q.1 q.2 = some (unify q.1 q.2) := by
  induction qs with
  | nil => exact ⟨0, fun n _ q hq => absurd hq List.not_mem_nil⟩
  | cons q qs ih =>
      rw [List.forall_mem_cons] at h
      obtain ⟨⟨first, hfirst⟩, hrest⟩ := h
      obtain ⟨others, hothers⟩ := ih hrest
      refine ⟨max first others, fun n hn => List.forall_mem_cons.2 ⟨?_, ?_⟩⟩
      · exact hfirst n (by omega)
      · exact hothers n (by omega)

theorem wellFounded_calls : WellFounded fun q p : Ty × Ty => q ∈ calls p.1 p.2 :=
  Subrelation.wf smaller_of_mem_calls wellFounded_smaller

theorem exists_depth (p : Ty × Ty) :
    ∃ depth, ∀ n, depth ≤ n → within n p.1 p.2 = some (unify p.1 p.2) := by
  induction p using wellFounded_calls.induction with
  | _ p ih =>
    obtain ⟨depth, hcalls⟩ := exists_depth_forall ih
    refine ⟨depth + 1, fun n hn => ?_⟩
    obtain ⟨m, rfl⟩ := Nat.exists_eq_add_of_le' hn
    exact call_eq (hcalls (m + depth) (Nat.le_add_left depth m))

end Unify

/-- Unification ends on every two types.  The calls that it makes, from a call to the calls that
this one makes and so on, never go on for ever; and there is a depth of nested calls from which
on cutting it off there makes no difference, with the unifier or the error as its outcome. -/
theorem unify_ends :
    WellFounded (fun q p : Ty × Ty => q ∈ Unify.calls p.1 p.2) ∧
      ∀ l r, ∃ depth, ∀ n, depth ≤ n → Unify.within n l r = some (unify l r) :=
  ⟨Unify.wellFounded_calls, fun l r => Unify.exists_depth (l, r)⟩

end Ascribe
