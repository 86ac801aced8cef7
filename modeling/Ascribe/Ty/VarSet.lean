/-!
# Sets of type variables

A set of variables is a list in strictly ascending order.  Besides giving the
order in which variables are listed and quantified, its length counts the
variables of a unification problem: the count never grows when the variables
shrink, and it drops when one of them disappears.
-/

namespace Ascribe.VarSet

/-- Add a variable to an ascending list. -/
def insert (v : Nat) : List Nat → List Nat
  | [] => [v]
  | w :: rest =>
      if v < w then v :: w :: rest
      else if v = w then w :: rest
      else w :: insert v rest

/-- The ascending list of the variables in a list. -/
def ofList : List Nat → List Nat
  | [] => []
  | v :: rest => insert v (ofList rest)

theorem mem_insert {v w : Nat} {vs : List Nat} :
    v ∈ insert w vs ↔ v = w ∨ v ∈ vs := by
  induction vs with
  | nil => simp [insert]
  | cons u vs ih =>
      unfold insert
      split
      · simp
      · split
        · rename_i h
          subst h
          simp
        · simp only [List.mem_cons, ih]
          grind

theorem mem_ofList {v : Nat} {vs : List Nat} :
    v ∈ ofList vs ↔ v ∈ vs := by
  induction vs with
  | nil => simp [ofList]
  | cons u vs ih => simp [ofList, mem_insert, ih]

theorem ascending_insert
    (v : Nat) {vs : List Nat} (h : vs.Pairwise (· < ·)) :
    (insert v vs).Pairwise (· < ·) := by
  induction vs with
  | nil => simp [insert]
  | cons u vs ih =>
      rw [List.pairwise_cons] at h
      unfold insert
      split
      · rename_i hlt
        refine List.pairwise_cons.2 ⟨?_, List.pairwise_cons.2 h⟩
        intro w hw
        rcases List.mem_cons.1 hw with rfl | hw
        · exact hlt
        · exact Nat.lt_trans hlt (h.1 w hw)
      · split
        · exact List.pairwise_cons.2 h
        · refine List.pairwise_cons.2 ⟨?_, ih h.2⟩
          intro w hw
          rcases mem_insert.1 hw with rfl | hw
          · omega
          · exact h.1 w hw

theorem ascending_ofList (vs : List Nat) :
    (ofList vs).Pairwise (· < ·) := by
  induction vs with
  | nil => exact List.Pairwise.nil
  | cons v vs ih => exact ascending_insert v ih

/-- The number of different variables in a list. -/
def count (vs : List Nat) : Nat :=
  (ofList vs).length

theorem length_le_of_subset
    {as bs : List Nat} (nodup : as.Nodup) (sub : ∀ v ∈ as, v ∈ bs) :
    as.length ≤ bs.length := by
  induction as generalizing bs with
  | nil => simp
  | cons a as ih =>
      rw [List.nodup_cons] at nodup
      have ha : a ∈ bs := sub a List.mem_cons_self
      have hrest : ∀ v ∈ as, v ∈ bs.erase a := by
        intro v hv
        have hne : v ≠ a := by
          intro eq
          exact nodup.1 (eq ▸ hv)
        exact (List.mem_erase_of_ne hne).2 (sub v (List.mem_cons_of_mem a hv))
      have hlen := ih nodup.2 hrest
      rw [List.length_erase_of_mem ha] at hlen
      have hpos := List.length_pos_of_mem ha
      simp only [List.length_cons]
      omega

theorem nodup_ofList (vs : List Nat) :
    (ofList vs).Nodup :=
  (ascending_ofList vs).imp fun h => Nat.ne_of_lt h

/-- Fewer variables are not counted higher. -/
theorem count_le
    {as bs : List Nat} (sub : ∀ v ∈ as, v ∈ bs) :
    count as ≤ count bs :=
  length_le_of_subset (nodup_ofList as) fun v hv =>
    mem_ofList.2 (sub v (mem_ofList.1 hv))

/-- Losing a variable lowers the count. -/
theorem count_lt
    {as bs : List Nat} {v : Nat} (sub : ∀ w ∈ as, w ∈ bs)
    (mem : v ∈ bs) (missing : v ∉ as) :
    count as < count bs := by
  have nodup : (v :: ofList as).Nodup :=
    List.nodup_cons.2 ⟨fun h => missing (mem_ofList.1 h), nodup_ofList as⟩
  have hle : (v :: ofList as).length ≤ (ofList bs).length := by
    refine length_le_of_subset nodup ?_
    intro w hw
    rcases List.mem_cons.1 hw with rfl | hw
    · exact mem_ofList.2 mem
    · exact mem_ofList.2 (sub w (mem_ofList.1 hw))
  simp only [List.length_cons] at hle
  exact hle

/-! ## Ceiling -/

/-- One more than the largest variable of a list, and zero when there is none. -/
def ceiling : List Nat → Nat
  | [] => 0
  | v :: rest => max (v + 1) (ceiling rest)

end Ascribe.VarSet
