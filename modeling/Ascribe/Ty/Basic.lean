import Ascribe.Text.Separated

/-!
# Types

A type is a named constructor with arguments, a type variable, a function type
or a tuple.  The empty tuple is the unit type.  Two one-component forms are kept
apart: a tuple of one type is not that type.

Recursion over a type runs through lists of types, so most functions come with a
companion on lists; a lemma beside each companion restates it with `List.map` or
membership, and `Ty.induction` gives the matching induction principle.
-/

namespace Ascribe

open Text

/-- The types of the language. -/
inductive Ty where
  | con (name : String) (args : List Ty)
  | var (id : Nat)
  | arrow (params : List Ty) (result : Ty)
  | tuple (elems : List Ty)
  deriving Inhabited

namespace Ty

mutual

/-- Induction on types, with the hypothesis for every member of an argument list. -/
@[induction_eliminator]
theorem induction
    {P : Ty → Prop}
    (con : ∀ name args, (∀ t ∈ args, P t) → P (.con name args))
    (var : ∀ id, P (.var id))
    (arrow : ∀ params result, (∀ t ∈ params, P t) → P result → P (.arrow params result))
    (tuple : ∀ elems, (∀ t ∈ elems, P t) → P (.tuple elems)) :
    ∀ t, P t
  | .con name args => con name args (inductionAll con var arrow tuple args)
  | .var id => var id
  | .arrow params result =>
      arrow params result (inductionAll con var arrow tuple params)
        (induction con var arrow tuple result)
  | .tuple elems => tuple elems (inductionAll con var arrow tuple elems)

/-- The list half of `Ty.induction`. -/
theorem inductionAll
    {P : Ty → Prop}
    (con : ∀ name args, (∀ t ∈ args, P t) → P (.con name args))
    (var : ∀ id, P (.var id))
    (arrow : ∀ params result, (∀ t ∈ params, P t) → P result → P (.arrow params result))
    (tuple : ∀ elems, (∀ t ∈ elems, P t) → P (.tuple elems)) :
    ∀ ts : List Ty, ∀ t ∈ ts, P t
  | [], _, h => nomatch h
  | head :: rest, t, h =>
      (List.mem_cons.1 h).elim
        (fun eq => eq ▸ induction con var arrow tuple head)
        (fun mem => inductionAll con var arrow tuple rest t mem)

end

def named (name : String) : Ty :=
  .con name []

/-- The unit type, which is the empty tuple. -/
def unit : Ty :=
  .tuple []

def int : Ty :=
  named "Int32"

def float : Ty :=
  named "Float64"

/-- The type of conditions. -/
def bool : Ty :=
  named "Bool"

def string : Ty :=
  named "String"

def isVar : Ty → Bool
  | .var _ => true
  | _ => false

/-- Whether the type is the given variable and nothing else. -/
def isBareVar (v : Nat) : Ty → Bool
  | .var id => id == v
  | _ => false

theorem isBareVar_iff {v : Nat} {t : Ty} : t.isBareVar v = true ↔ t = .var v := by
  cases t <;> simp [isBareVar]

/-! ## Variables -/

mutual

/-- The variables of a type, in reading order and with repetitions. -/
def vars : Ty → List Nat
  | .con _ args => varsAll args
  | .var id => [id]
  | .arrow params result => varsAll params ++ result.vars
  | .tuple elems => varsAll elems

def varsAll : List Ty → List Nat
  | [] => []
  | t :: ts => t.vars ++ varsAll ts

end

theorem mem_varsAll {v : Nat} {ts : List Ty} :
    v ∈ varsAll ts ↔ ∃ t ∈ ts, v ∈ t.vars := by
  induction ts with
  | nil => simp [varsAll]
  | cons t ts ih => simp [varsAll, ih]

mutual

def occurs (v : Nat) : Ty → Bool
  | .con _ args => occursAny v args
  | .var id => id == v
  | .arrow params result => occursAny v params || result.occurs v
  | .tuple elems => occursAny v elems

def occursAny (v : Nat) : List Ty → Bool
  | [] => false
  | t :: ts => t.occurs v || occursAny v ts

end

mutual

theorem occurs_iff {v : Nat} : ∀ {t : Ty}, t.occurs v = true ↔ v ∈ t.vars
  | .con name args => by rw [occurs, vars, occursAny_iff]
  | .var id => by rw [occurs, vars, beq_iff_eq, List.mem_singleton, eq_comm]
  | .arrow params result => by
      rw [occurs, vars, Bool.or_eq_true, List.mem_append, occursAny_iff, occurs_iff]
  | .tuple elems => by rw [occurs, vars, occursAny_iff]

theorem occursAny_iff {v : Nat} : ∀ {ts : List Ty}, occursAny v ts = true ↔ v ∈ varsAll ts
  | [] => by simp [occursAny, varsAll]
  | t :: ts => by
      rw [occursAny, varsAll, Bool.or_eq_true, List.mem_append, occurs_iff, occursAny_iff]

end

/-! ## Size -/

mutual

def size : Ty → Nat
  | .con _ args => sizeAll args + 1
  | .var _ => 1
  | .arrow params result => sizeAll params + result.size + 1
  | .tuple elems => sizeAll elems + 1

/-- The number of nodes of a list of types, one more for each entry. -/
def sizeAll : List Ty → Nat
  | [] => 0
  | t :: ts => t.size + sizeAll ts + 1

end

/-! ## Printed form -/

/-- Whether a type prints without an outer bracket or arrow. -/
def isAtomic : Ty → Bool
  | .con _ _ => true
  | .var _ => true
  | _ => false

/-- A parameter list prints without parentheses when it is one atomic type. -/
def bareParams : List Ty → Bool
  | [param] => param.isAtomic
  | _ => false

def renderVar (id : Nat) : String :=
  "'t" ++ toString id

mutual

/-- The printed form of a type. -/
def render : Ty → String
  | .con name args =>
      if args.isEmpty then name
      else name ++ "<" ++ commaSeparated (renderAll args) ++ ">"
  | .var id => renderVar id
  | .arrow params result =>
      (if bareParams params then commaSeparated (renderAll params)
        else "(" ++ commaSeparated (renderAll params) ++ ")")
      ++ " -> " ++ result.render
  | .tuple elems => "(" ++ commaSeparated (renderAll elems) ++ ")"

def renderAll : List Ty → List String
  | [] => []
  | t :: ts => t.render :: renderAll ts

end

end Ty

end Ascribe
