import Ascribe.Expr.Substitute
import Ascribe.NormalForm.Basic

/-!
# The weight of an expression

The weight of an expression is the number of its block items outside closure bodies.
Evaluating a block puts the value of a local name into the items after it, which may make
them larger, but it does not make them heavier: a normal form read back as an expression
weighs nothing (`NormalForm.weight_quote`), and replacing names by weightless expressions
keeps the weight (`Expr.weightItems_substituteItems`).
-/

namespace Ascribe

namespace Expr

mutual

/-- The number of block items outside closure bodies. -/
def weight : Expr → Nat
  | .literal _ _ => 0
  | .ident _ _ => 0
  | .closure _ _ _ => 0
  | .app fn args _ => fn.weight + weightAll args
  | .cond condition thenBranch none _ => condition.weight + thenBranch.weight
  | .cond condition thenBranch (some elseBranch) _ =>
      condition.weight + thenBranch.weight + elseBranch.weight
  | .member base _ _ => base.weight
  | .tuple elems _ => weightAll elems
  | .structLit _ fields _ => weightFields fields
  | .tycon _ args _ => weightAll args
  | .arrow params result _ => weightAll params + result.weight
  | .block items _ => weightItems items

def weightAll : List Expr → Nat
  | [] => 0
  | e :: es => e.weight + weightAll es

def weightFields : List (String × Expr) → Nat
  | [] => 0
  | (_, value) :: rest => value.weight + weightFields rest

/-- The weight of block items, one for each and the weight of what is in them. -/
def weightItems : List (Item Expr Expr) → Nat
  | [] => 0
  | .binding ⟨_, _, _, none, _⟩ :: rest => weightItems rest + 1
  | .binding ⟨_, _, _, some value, _⟩ :: rest => value.weight + weightItems rest + 1
  | .expr e :: rest => e.weight + weightItems rest + 1

end

/-- Every replacing expression weighs nothing. -/
def Weightless (r : Replacements) : Prop :=
  ∀ name e, r.find? name = some e → e.weight = 0

theorem weightless_without
    {r : Replacements} (h : Weightless r) (names : List String) :
    Weightless (r.without names) := by
  intro name e he
  rw [Table.find?_without] at he
  split at he
  · cases he
  · exact h name e he

mutual

/-- Replacing names by weightless expressions keeps the weight. -/
theorem weight_substitute
    (r : Replacements) (h : Weightless r) :
    ∀ e : Expr, (e.substitute r).weight = e.weight
  | .literal _ _ => rfl
  | .ident name span => by
      simp only [substitute, weight]
      cases hfind : r.find? name with
      | none => simp [weight]
      | some e => simp [h name e hfind]
  | .closure _ _ _ => rfl
  | .app fn args _ => by
      simp only [substitute, weight, weight_substitute r h fn, weightAll_substituteAll r h args]
  | .cond condition thenBranch none _ => by
      simp only [substitute, weight, weight_substitute r h condition,
        weight_substitute r h thenBranch]
  | .cond condition thenBranch (some elseBranch) _ => by
      simp only [substitute, weight, weight_substitute r h condition,
        weight_substitute r h thenBranch, weight_substitute r h elseBranch]
  | .member base _ _ => by
      simp only [substitute, weight, weight_substitute r h base]
  | .tuple elems _ => by
      simp only [substitute, weight, weightAll_substituteAll r h elems]
  | .structLit _ fields _ => by
      simp only [substitute, weight, weightFields_substituteFields r h fields]
  | .tycon _ args _ => by
      simp only [substitute, weight, weightAll_substituteAll r h args]
  | .arrow params result _ => by
      simp only [substitute, weight, weightAll_substituteAll r h params,
        weight_substitute r h result]
  | .block items _ => by
      simp only [substitute, weight, weightItems_substituteItems r h items]
termination_by structural e => e

theorem weightAll_substituteAll
    (r : Replacements) (h : Weightless r) :
    ∀ es : List Expr, weightAll (substituteAll r es) = weightAll es
  | [] => rfl
  | e :: es => by
      simp only [substituteAll, weightAll, weight_substitute r h e,
        weightAll_substituteAll r h es]
termination_by structural es => es

theorem weightFields_substituteFields
    (r : Replacements) (h : Weightless r) :
    ∀ fields : List (String × Expr), weightFields (substituteFields r fields) = weightFields fields
  | [] => rfl
  | (_, value) :: rest => by
      simp only [substituteFields, weightFields, weight_substitute r h value,
        weightFields_substituteFields r h rest]
termination_by structural fields => fields

theorem weightItems_substituteItems
    (r : Replacements) (h : Weightless r) :
    ∀ items : List (Item Expr Expr), weightItems (substituteItems r items) = weightItems items
  | [] => rfl
  | .binding ⟨name, _, _, none, _⟩ :: rest => by
      simp only [substituteItems, weightItems,
        weightItems_substituteItems (r.without [name]) (weightless_without h [name]) rest]
  | .binding ⟨name, _, _, some value, _⟩ :: rest => by
      simp only [substituteItems, weightItems, weight_substitute r h value,
        weightItems_substituteItems (r.without [name]) (weightless_without h [name]) rest]
  | .expr e :: rest => by
      simp only [substituteItems, weightItems, weight_substitute r h e,
        weightItems_substituteItems r h rest]
termination_by structural items => items

end

end Expr

namespace NormalForm

mutual

/-- A normal form read back as an expression weighs nothing. -/
theorem weight_quote : ∀ form : NormalForm, form.quote.weight = 0
  | .closure _ _ => rfl
  | .literal _ => rfl
  | .cond _ thenBranch none => by
      simp only [quote, Expr.weight, weight_quote thenBranch]
  | .cond _ thenBranch (some elseBranch) => by
      simp only [quote, Expr.weight, weight_quote thenBranch, weight_quote elseBranch]
  | .tuple elems => by
      simp only [quote, Expr.weight, weightAll_quoteAll elems]
  | .structLit _ fields => by
      simp only [quote, Expr.weight, weightFields_quoteFields fields]
  | .tycon _ args => by
      simp only [quote, Expr.weight, weightAll_quoteAll args]
  | .arrow params result => by
      simp only [quote, Expr.weight, weightAll_quoteAll params, weight_quote result]
  | .ident _ => rfl
  | .app fn args => by
      simp only [quote, Expr.weight, weight_quote fn, weightAll_quoteAll args]
  | .member base _ => by
      simp only [quote, Expr.weight, weight_quote base]

theorem weightAll_quoteAll : ∀ forms : List NormalForm, Expr.weightAll (quoteAll forms) = 0
  | [] => rfl
  | form :: forms => by
      simp only [quoteAll, Expr.weightAll, weight_quote form, weightAll_quoteAll forms]

theorem weightFields_quoteFields :
    ∀ fields : List (String × NormalForm), Expr.weightFields (quoteFields fields) = 0
  | [] => rfl
  | (_, value) :: rest => by
      simp only [quoteFields, Expr.weightFields, weight_quote value,
        weightFields_quoteFields rest]

end

/-- Replacing one name by a normal form keeps the weight of block items. -/
theorem weightItems_substituteItems_quote
    (name : String) (form : NormalForm) (items : List (Item Expr Expr)) :
    Expr.weightItems (Expr.substituteItems [(name, form.quote)] items) =
      Expr.weightItems items := by
  refine Expr.weightItems_substituteItems _ ?_ items
  intro other e he
  simp only [Table.find?] at he
  split at he
  · cases he
    exact weight_quote form
  · cases he

end NormalForm

end Ascribe
