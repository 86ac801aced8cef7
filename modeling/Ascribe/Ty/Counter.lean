import Ascribe.Ty.Supply

/-!
# Type variables in a word

A counter hands out fresh variables as a supply does, but it counts in a word of 64 bits: after
the last variable comes the first one again.  What has been handed out once may then be handed
out again, and a fresh variable may be one that a scheme leaves free.

Besides the next variable, a counter records the variables that it has handed out and whether
one of the additions on the way has gone past the end of the word.
-/

namespace Ascribe

namespace VarSet

/-- Whether a variable has no successor in a word. -/
def isLast (v : Nat) : Bool :=
  UInt64.size ≤ v + 1

def larger (a b : UInt64) : UInt64 :=
  if a.toNat ≤ b.toNat then b else a

/-- One more than the largest variable of a list, where each sum is cut to a word. -/
def wordCeiling : List Nat → UInt64
  | [] => 0
  | v :: rest => larger (UInt64.ofNat v + 1) (wordCeiling rest)

theorem toNat_larger (a b : UInt64) : (larger a b).toNat = max a.toNat b.toNat := by
  unfold larger
  split
  · omega
  · omega

theorem toNat_succ {a : UInt64} (h : isLast a.toNat = false) :
    (a + 1).toNat = a.toNat + 1 := by
  have hlt : ¬ UInt64.size ≤ a.toNat + 1 := of_decide_eq_false h
  have hsize : UInt64.size = 2 ^ 64 := rfl
  have hone : (1 : UInt64).toNat = 1 := rfl
  rw [UInt64.toNat_add, hone]
  omega

/-- When every variable has a successor, nothing is cut. -/
theorem toNat_wordCeiling {vs : List Nat} (h : vs.any isLast = false) :
    (wordCeiling vs).toNat = ceiling vs := by
  induction vs with
  | nil => rfl
  | cons v vs ih =>
      rw [List.any_cons, Bool.or_eq_false_iff] at h
      have hlt : ¬ UInt64.size ≤ v + 1 := of_decide_eq_false h.1
      have hsize : UInt64.size = 2 ^ 64 := rfl
      have hv : (UInt64.ofNat v).toNat = v := by
        rw [UInt64.toNat_ofNat']
        omega
      have hsucc : (UInt64.ofNat v + 1).toNat = v + 1 := by
        rw [toNat_succ (by rw [hv]; exact h.1), hv]
      rw [wordCeiling, ceiling, toNat_larger, hsucc, ih h.2]

end VarSet

/-- A source of fresh variables that counts in a word, with the variables that were handed out, in
order, and whether an addition has gone past the end of the word. -/
structure Counter where
  next : UInt64
  issued : List Nat
  overflowed : Bool

namespace Counter

def fresh (counter : Counter) : Ty × Counter :=
  (.var counter.next.toNat,
    ⟨counter.next + 1, counter.issued ++ [counter.next.toNat],
      counter.overflowed || VarSet.isLast counter.next.toNat⟩)

/-- The variables of a list, each with the fresh variable that replaces it. -/
def freshFor (counter : Counter) : List Nat → List (Nat × Ty) × Counter
  | [] => ([], counter)
  | v :: rest =>
      let (t, counter) := counter.fresh
      let (pairs, counter) := counter.freshFor rest
      ((v, t) :: pairs, counter)

/-- The counter above all variables that a scheme mentions. -/
def above (counter : Counter) (scheme : Scheme) : Counter :=
  { counter with
    next := VarSet.larger counter.next (VarSet.wordCeiling scheme.mentioned)
    overflowed := counter.overflowed || scheme.mentioned.any VarSet.isLast }

/-- The type of a scheme with its quantified variables replaced by fresh ones. -/
def instantiate (counter : Counter) (scheme : Scheme) : Ty × Counter :=
  if scheme.vars.isEmpty then (scheme.ty, counter)
  else
    let (pairs, counter) := (counter.above scheme).freshFor scheme.vars
    ((Subst.ofList pairs).apply scheme.ty, counter)

instance : VarSource Counter :=
  ⟨fresh, instantiate⟩

end Counter

end Ascribe
