import Ascribe.Proofs.Solving
import Ascribe.Proofs.Typing

/-!
# What look-ups reach

A look-up in a scope ends in a frame of the scope or, for the member of a type, in a table
that hangs below a frame at some depth.  The variables of a scope are collected over all of
these tables, shadowed ones included, so a scheme that some look-up reaches mentions only
variables of the scope.
-/

namespace Ascribe

namespace Scope

/-! ## Tables of types -/

theorem forall_of_descend
    {P : Definition → Prop}
    (nested : ∀ {d inner : Definition} {name : String},
      P d → d.nested? name = some inner → P inner)
    {found final : String × Definition} {segments : List String} (start : P found.2)
    (h : descend found segments = some final) :
    P final.2 := by
  induction segments generalizing found with
  | nil =>
      cases h
      exact start
  | cons segment rest ih =>
      rw [descend] at h
      split at h
      · rename_i inner hinner
        have hstart : P inner := nested start hinner
        exact ih hstart h
      · cases h

/-- What holds of the tables in the frames and passes to nested tables holds of every table
that a type name resolves to. -/
theorem forall_of_resolveType
    {P : Definition → Prop}
    (nested : ∀ {d inner : Definition} {name : String},
      P d → d.nested? name = some inner → P inner)
    {scope : Scope} (frames : ∀ frame ∈ scope.frames, ∀ p ∈ frame.types, P p.2)
    {name owner : String} {d : Definition} (h : scope.resolveType name = some (owner, d)) :
    P d := by
  simp only [resolveType] at h
  split at h
  · rename_i head hhead
    obtain ⟨frame, hframe, hfind⟩ := List.exists_of_findSome?_eq_some hhead
    obtain ⟨top, htop, rfl⟩ := Option.map_eq_some_iff.1 hfind
    have hstart : P top := frames frame hframe _ (Table.mem_of_find? htop)
    exact forall_of_descend nested hstart h
  · cases h

end Scope

/-! ## Variables -/

theorem Entry.mem_mentioned
    {table : Table Entry} {p : String × Entry} {v : Nat} (h : p ∈ table)
    (hv : v ∈ p.2.scheme.mentioned) :
    v ∈ Entry.mentioned table :=
  List.mem_flatMap.2 ⟨p, h, hv⟩

namespace Definition

theorem mem_mentionedAll
    {table : Table Definition} {p : String × Definition} {v : Nat} (h : p ∈ table)
    (hv : v ∈ p.2.mentioned) :
    v ∈ mentionedAll table := by
  induction table with
  | nil => cases h
  | cons head rest ih =>
      rw [mentionedAll]
      rcases List.mem_cons.1 h with rfl | h
      · exact List.mem_append_left _ hv
      · exact List.mem_append_right _ (ih h)

/-- A table mentions what its three parts mention, for structs and enums alike. -/
theorem mem_mentioned {d : Definition} {v : Nat} :
    v ∈ d.mentioned ↔
      v ∈ Entry.mentioned d.members.values ∨ v ∈ Entry.mentioned d.members.statics ∨
        v ∈ mentionedAll d.members.types := by
  cases d with
  | struct members => simp [mentioned, Definition.members]
  | enum members cases => simp [mentioned, Definition.members]

end Definition

namespace Scope

variable {scope : Scope}

theorem mem_mentioned_of_lookup
    {name : String} {entry : Entry} {v : Nat} (h : scope.lookup name = some entry)
    (hv : v ∈ entry.scheme.mentioned) :
    v ∈ scope.mentioned := by
  obtain ⟨frame, hframe, hfind⟩ := List.exists_of_findSome?_eq_some h
  have hvalues : v ∈ Entry.mentioned frame.values :=
    Entry.mem_mentioned (Table.mem_of_find? hfind) hv
  exact List.mem_flatMap.2 ⟨frame, hframe, List.mem_append_left _ hvalues⟩

theorem mem_mentioned_of_lookupType
    {name : String} {d : Definition} {v : Nat} (h : scope.lookupType name = some d)
    (hv : v ∈ d.mentioned) :
    v ∈ scope.mentioned := by
  obtain ⟨⟨owner, d'⟩, hresolve, rfl⟩ := Option.map_eq_some_iff.1 h
  refine forall_of_resolveType (P := fun d => v ∈ d.mentioned → v ∈ scope.mentioned) ?_ ?_
    hresolve hv
  · intro d inner name hd hnested hinner
    have hall := Definition.mem_mentionedAll (Table.mem_of_find? hnested) hinner
    exact hd (Definition.mem_mentioned.2 (.inr (.inr hall)))
  · intro frame hframe p hp hmem
    have hall := Definition.mem_mentionedAll hp hmem
    exact List.mem_flatMap.2 ⟨frame, hframe, List.mem_append_right _ hall⟩

/-- A scheme is the scheme of a name, of a member of the values of a type, or of a member of
a type itself. -/
inductive Finds (scope : Scope) : Scheme → Prop where
  | lookup {name : String} {entry : Entry}
      (found : scope.lookup name = some entry) :
      Finds scope entry.scheme
  | instanceMember {owner : Ty} {name : String} {selector : Selector} {span : Span}
      {scheme : Scheme}
      (found : scope.instanceMember owner name selector span = .ok scheme) :
      Finds scope scheme
  | staticMember {owner : Ty} {name : String} {selector : Selector} {span : Span}
      {scheme : Scheme}
      (found : scope.staticMember owner name selector span = .ok scheme) :
      Finds scope scheme

/-- Whatever a look-up reaches mentions variables of the scope only. -/
theorem Finds.mem_mentioned {scheme : Scheme} {v : Nat} (h : scope.Finds scheme)
    (hv : v ∈ scheme.mentioned) :
    v ∈ scope.mentioned := by
  cases h with
  | lookup found => exact mem_mentioned_of_lookup found hv
  | instanceMember found =>
      obtain ⟨d, member, entry, hd, -, hentry, rfl⟩ := memberOf_eq_ok.1 found
      have hvalues := Entry.mem_mentioned (Table.mem_of_find? hentry) hv
      exact mem_mentioned_of_lookupType hd (Definition.mem_mentioned.2 (.inl hvalues))
  | staticMember found =>
      obtain ⟨d, member, entry, hd, -, hentry, rfl⟩ := memberOf_eq_ok.1 found
      have hstatics := Entry.mem_mentioned (Table.mem_of_find? hentry) hv
      exact mem_mentioned_of_lookupType hd (Definition.mem_mentioned.2 (.inr (.inl hstatics)))

end Scope

end Ascribe
