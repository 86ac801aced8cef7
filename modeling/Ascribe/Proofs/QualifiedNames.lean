import Ascribe.Module
import Ascribe.Proofs.Tables

/-!
# Qualified names

A type name resolves to a qualified name and a table.  The qualified name leads to the same
table from the module, but a scope need not agree: in the scope it is looked up from the
innermost frame again.

* A type in a body may have the name with which the qualified name begins.  It captures the
  qualified name, which then leads elsewhere or nowhere.
* While the body of a type is read, the type has no members yet.  The types of the body are in
  reach under their own names only.

So a qualified name is stable in the scopes in which a module is checked as long as it is not
captured, and in the scope of a body that is being read only if it is no name of that body.
-/

namespace Ascribe

/-! ## Segments -/

namespace Name

/-- All segments of a dotted name. -/
def path (name : String) : List String :=
  (segments name).1 :: (segments name).2

theorem splitDots_cons (c : Char) (cs : List Char) :
    splitDots (c :: cs) =
      if c = '.' then ([], (splitDots cs).1 :: (splitDots cs).2)
      else (c :: (splitDots cs).1, (splitDots cs).2) :=
  rfl

theorem splitDots_append (first second : List Char) :
    splitDots (first ++ '.' :: second) =
      ((splitDots first).1,
        (splitDots first).2 ++ (splitDots second).1 :: (splitDots second).2) := by
  induction first with
  | nil => simp [splitDots]
  | cons c first ih =>
      rw [List.cons_append, splitDots_cons, ih, splitDots_cons]
      split
      · rfl
      · rfl

theorem segments_qualified (owner name : String) :
    segments (qualified owner name) = ((segments owner).1, (segments owner).2 ++ path name) := by
  have hlist : (qualified owner name).toList = owner.toList ++ '.' :: name.toList := by
    simp [qualified]
  simp [path, segments, hlist, splitDots_append]

theorem splitDots_of_not_mem {cs : List Char} (h : '.' ∉ cs) :
    splitDots cs = (cs, []) := by
  induction cs with
  | nil => rfl
  | cons c cs ih =>
      rw [List.mem_cons, not_or] at h
      rw [splitDots_cons, ih h.2]
      exact if_neg fun heq => h.1 heq.symm

theorem segments_of_not_mem {name : String} (h : '.' ∉ name.toList) :
    segments name = (name, []) := by
  simp [segments, splitDots_of_not_mem h]

theorem qualified_append (front owner name : String) :
    qualified (front ++ owner) name = front ++ qualified owner name := by
  simp [qualified, String.append_assoc]

theorem foldl_qualified_append (front : String) (names : List String) (owner : String) :
    names.foldl qualified (front ++ owner) = front ++ names.foldl qualified owner := by
  induction names generalizing owner with
  | nil => rfl
  | cons name names ih => rw [List.foldl_cons, qualified_append, ih, List.foldl_cons]

theorem foldl_qualified_splitDots (cs : List Char) :
    ((splitDots cs).2.map String.ofList).foldl qualified (String.ofList (splitDots cs).1) =
      String.ofList cs := by
  induction cs with
  | nil => rfl
  | cons c cs ih =>
      rw [String.ofList_cons, ← ih, ← foldl_qualified_append, splitDots_cons]
      split
      · rename_i hdot
        rw [hdot]
        rfl
      · rw [← String.ofList_cons]

/-- The segments of a name make up the name again. -/
theorem foldl_qualified_segments (name : String) :
    (segments name).2.foldl qualified (segments name).1 = name := by
  rw [segments, foldl_qualified_splitDots, String.ofList_toList]

end Name

/-! ## Where a name leads -/

/-- The table at the end of a path through nested types. -/
def Definition.at? (d : Definition) : List String → Option Definition
  | [] => some d
  | name :: rest => (d.nested? name).bind fun inner => inner.at? rest

theorem Definition.at?_append (d : Definition) (front rest : List String) :
    d.at? (front ++ rest) = (d.at? front).bind fun inner => inner.at? rest := by
  induction front generalizing d with
  | nil => rfl
  | cons name front ih =>
      rw [List.cons_append, at?, at?, Option.bind_assoc]
      exact congrArg _ (funext ih)

theorem Definition.at?_empty {kind : TypeKind} {path : List String} (h : path ≠ []) :
    (empty kind).at? path = none := by
  cases path with
  | nil => exact absurd rfl h
  | cons name rest =>
      cases kind with
      | struct | enum => rfl

namespace Frame

/-- The table to which a dotted name leads from the types of a frame. -/
def at? (frame : Frame) (name : String) : Option Definition :=
  (frame.types.find? (Name.segments name).1).bind fun d => d.at? (Name.segments name).2

/-- Whether a frame has the type with which a dotted name begins. -/
def begins (frame : Frame) (name : String) : Bool :=
  frame.types.contains (Name.segments name).1

variable {frame : Frame}

theorem begins_qualified (owner name : String) :
    frame.begins (Name.qualified owner name) = frame.begins owner := by
  rw [begins, begins, Name.segments_qualified]

theorem at?_qualified (owner name : String) :
    frame.at? (Name.qualified owner name) =
      (frame.at? owner).bind fun d => d.at? (Name.path name) := by
  simp only [at?, Name.segments_qualified, Option.bind_assoc, Definition.at?_append]

theorem qualify_qualified (owner name : String) :
    frame.qualify (Name.qualified owner name) = Name.qualified (frame.qualify owner) name := by
  unfold qualify
  split
  · simp [Name.qualified, String.append_assoc]
  · rfl

theorem foldl_qualified_qualify (name : String) :
    (Name.segments name).2.foldl Name.qualified (frame.qualify (Name.segments name).1) =
      frame.qualify name := by
  unfold qualify
  split
  · rw [Name.qualified, Name.foldl_qualified_append, Name.foldl_qualified_segments]
    rfl
  · exact Name.foldl_qualified_segments name

/-- A name of a body is never its own qualified name. -/
theorem qualify_eq_self_iff {name : String} :
    frame.qualify name = name ↔ frame.qualifier = none := by
  unfold qualify
  cases frame.qualifier with
  | none => simp
  | some owner =>
      simp only [reduceCtorEq, iff_false]
      intro h
      have hlength := congrArg String.length h
      simp only [Name.qualified, String.length_append] at hlength
      have hdot : ".".length = 1 := rfl
      omega

end Frame

namespace Scope

/-- The frame in which a dotted name is looked up: the innermost one that has the type with
which the name begins. -/
def frameOf? (scope : Scope) (name : String) : Option Frame :=
  scope.frames.find? fun frame => frame.begins name

theorem descend_eq (found : String × Definition) (segments : List String) :
    descend found segments =
      (found.2.at? segments).map fun d => (segments.foldl Name.qualified found.1, d) := by
  induction segments generalizing found with
  | nil => rfl
  | cons segment rest ih =>
      rw [descend, Definition.at?]
      cases found.2.nested? segment with
      | none => rfl
      | some inner => exact ih (Name.qualified found.1 segment, inner)

theorem resolveHead_eq (scope : Scope) (name : String) :
    scope.resolveHead (Name.segments name).1 =
      (scope.frameOf? name).bind fun frame =>
        (frame.types.find? (Name.segments name).1).map fun d =>
          (frame.qualify (Name.segments name).1, d) := by
  rw [resolveHead, frameOf?]
  induction scope.frames with
  | nil => rfl
  | cons frame frames ih =>
      rw [List.findSome?_cons, List.find?_cons, Frame.begins, Table.contains]
      cases hfind : frame.types.find? (Name.segments name).1 with
      | none => exact ih
      | some d => simp [hfind]

/-- A type name leads to what it leads to in its frame, under the name behind the qualifier of
the frame. -/
theorem resolveType_eq (scope : Scope) (name : String) :
    scope.resolveType name =
      (scope.frameOf? name).bind fun frame =>
        (frame.at? name).map fun d => (frame.qualify name, d) := by
  have hresolve : scope.resolveType name =
      (scope.resolveHead (Name.segments name).1).bind fun found =>
        descend found (Name.segments name).2 := by
    rw [resolveType]
    generalize Name.segments name = parts
    obtain ⟨first, others⟩ := parts
    cases hhead : scope.resolveHead first with
    | none => simp only [hhead, Option.bind_none]
    | some found => simp only [hhead, Option.bind_some]
  rw [hresolve, resolveHead_eq, Option.bind_assoc]
  refine congrArg _ (funext fun frame => ?_)
  rw [Frame.at?]
  cases frame.types.find? (Name.segments name).1 with
  | none => rfl
  | some d =>
      simp only [Option.map_some, Option.bind_some, descend_eq, Frame.foldl_qualified_qualify]

theorem resolveType_eq_some
    {scope : Scope} {name q : String} {d : Definition} :
    scope.resolveType name = some (q, d) ↔
      ∃ frame, scope.frameOf? name = some frame ∧ q = frame.qualify name ∧
        frame.at? name = some d := by
  rw [resolveType_eq, Option.bind_eq_some_iff]
  simp only [Option.map_eq_some_iff, Prod.mk.injEq]
  constructor
  · rintro ⟨frame, hframe, d', hd, rfl, rfl⟩
    exact ⟨frame, hframe, rfl, hd⟩
  · rintro ⟨frame, hframe, rfl, hd⟩
    exact ⟨frame, hframe, d, hd, rfl, rfl⟩

/-- A name stands for itself when it leads to the table from a frame that is no body. -/
theorem resolveType_self_iff
    {scope : Scope} {q : String} {d : Definition} :
    scope.resolveType q = some (q, d) ↔
      ∃ frame, scope.frameOf? q = some frame ∧ frame.qualifier = none ∧
        frame.at? q = some d := by
  rw [resolveType_eq_some]
  refine exists_congr fun frame => and_congr_right fun _ => and_congr_left fun _ => ?_
  rw [eq_comm, Frame.qualify_eq_self_iff]

/-- From what a name leads to, a path leads on. -/
theorem resolveType_qualified
    {scope : Scope} {owner q : String} {e : Definition}
    (h : scope.resolveType owner = some (q, e)) (name : String) :
    scope.resolveType (Name.qualified owner name) =
      (e.at? (Name.path name)).map fun d => (Name.qualified q name, d) := by
  obtain ⟨frame, hframe, rfl, he⟩ := resolveType_eq_some.1 h
  have hframe' : scope.frameOf? (Name.qualified owner name) = some frame := by
    rw [← hframe]
    simp only [frameOf?, Frame.begins_qualified]
  rw [resolveType_eq, hframe', Option.bind_some, Frame.at?_qualified, he, Option.bind_some,
    Frame.qualify_qualified]

/-! ## Bodies in a module -/

/-- The first segment of a name is the name of a type of one of the bodies around. -/
def Captures (scope : Scope) (name : String) : Prop :=
  ∃ frame ∈ scope.frames, frame.qualifier ≠ none ∧ frame.begins name = true

instance (scope : Scope) (name : String) : Decidable (scope.Captures name) :=
  inferInstanceAs (Decidable
    (∃ frame ∈ scope.frames, frame.qualifier ≠ none ∧ frame.begins name = true))

/-- The frames of a scope are those of bodies, which have qualifiers, and then those of the
module, which have none. -/
structure Inside (module scope : Scope) (bodies : List Frame) : Prop where
  frames : scope.frames = bodies ++ module.frames
  body : ∀ frame ∈ bodies, frame.qualifier ≠ none
  base : ∀ frame ∈ module.frames, frame.qualifier = none

namespace Inside

variable {module scope : Scope} {bodies : List Frame}

theorem frameOf?_eq (h : Inside module scope bodies) (name : String) :
    scope.frameOf? name =
      (bodies.find? fun frame => frame.begins name).or (module.frameOf? name) := by
  rw [frameOf?, h.frames, List.find?_append]
  rfl

theorem not_captures_iff (h : Inside module scope bodies) {name : String} :
    ¬ scope.Captures name ↔ (bodies.find? fun frame => frame.begins name) = none := by
  rw [List.find?_eq_none]
  constructor
  · intro hfree frame hframe hbegins
    refine hfree ⟨frame, ?_, h.body frame hframe, hbegins⟩
    rw [h.frames]
    exact List.mem_append_left _ hframe
  · rintro hfree ⟨frame, hframe, hqualifier, hbegins⟩
    rw [h.frames] at hframe
    rcases List.mem_append.1 hframe with hframe | hframe
    · exact hfree frame hframe hbegins
    · exact hqualifier (h.base frame hframe)

/-- A name is found in a body, or no body has the type with which it begins and it is found in
the module. -/
theorem resolveType_cases
    (h : Inside module scope bodies) {name q : String} {d : Definition}
    (found : scope.resolveType name = some (q, d)) :
    (∃ frame ∈ bodies, q = frame.qualify name ∧ frame.at? name = some d) ∨
      (q = name ∧ ¬ scope.Captures name ∧ module.resolveType name = some (name, d)) := by
  obtain ⟨frame, hframe, rfl, hd⟩ := resolveType_eq_some.1 found
  rw [h.frameOf?_eq] at hframe
  cases hbody : bodies.find? fun frame => frame.begins name with
  | some body =>
      rw [hbody, Option.some_or] at hframe
      cases hframe
      exact .inl ⟨frame, List.mem_of_find?_eq_some hbody, rfl, hd⟩
  | none =>
      rw [hbody, Option.none_or] at hframe
      have hbase : frame.qualifier = none := h.base frame (List.mem_of_find?_eq_some hframe)
      exact .inr ⟨Frame.qualify_eq_self_iff.2 hbase, h.not_captures_iff.2 hbody,
        resolveType_self_iff.2 ⟨frame, hframe, hbase, hd⟩⟩

/-- A name stands for itself when it does so in the module and is not captured. -/
theorem resolveType_self_iff
    (h : Inside module scope bodies) {q : String} {d : Definition} :
    scope.resolveType q = some (q, d) ↔
      ¬ scope.Captures q ∧ module.resolveType q = some (q, d) := by
  constructor
  · intro hself
    rcases h.resolveType_cases hself with ⟨frame, hframe, hq, -⟩ | ⟨-, hfree, hmodule⟩
    · exact absurd (Frame.qualify_eq_self_iff.1 hq.symm) (h.body frame hframe)
    · exact ⟨hfree, hmodule⟩
  · rintro ⟨hfree, hmodule⟩
    obtain ⟨frame, hframe, hq, hd⟩ := resolveType_eq_some.1 hmodule
    refine resolveType_eq_some.2 ⟨frame, ?_, hq, hd⟩
    rw [h.frameOf?_eq, h.not_captures_iff.1 hfree, Option.none_or, hframe]

end Inside

/-! ## The scopes in which a module is checked -/

/-- The scopes that are entered from the scope of a module, one body after the other. -/
inductive Within (module : Scope) : Scope → Prop where
  | here : Within module module
  | body {scope inner : Scope} {name : String}
      (around : Within module scope) (entered : scope.typeScope name = some inner) :
      Within module inner

/-- A frame is the body of a type of a module: its types are those of the table to which its
qualifier leads. -/
def IsBody (module : Scope) (frame : Frame) : Prop :=
  ∃ owner table, frame.qualifier = some owner ∧
    module.resolveType owner = some (owner, table) ∧ frame.types = table.members.types

/-- From the module, the qualified name leads to the table to which the name leads from a
scope of bodies. -/
theorem Inside.resolveType_module
    {module scope : Scope} {bodies : List Frame} (h : Inside module scope bodies)
    (hbodies : ∀ frame ∈ bodies, module.IsBody frame) {name q : String} {d : Definition}
    (found : scope.resolveType name = some (q, d)) :
    module.resolveType q = some (q, d) := by
  rcases h.resolveType_cases found with ⟨frame, hframe, rfl, hd⟩ | ⟨rfl, -, hmodule⟩
  · obtain ⟨owner, table, hqualifier, howner, htypes⟩ := hbodies frame hframe
    have htable : table.at? (Name.path name) = some d := by
      rw [← hd, Frame.at?, htypes]
      rfl
    rw [Frame.qualify, hqualifier]
    simp only [resolveType_qualified howner, htable, Option.map_some]
  · exact hmodule

theorem Within.inside
    {module scope : Scope} (h : Within module scope)
    (hbase : ∀ frame ∈ module.frames, frame.qualifier = none) :
    ∃ bodies, Inside module scope bodies ∧ ∀ frame ∈ bodies, module.IsBody frame := by
  induction h with
  | here => exact ⟨[], ⟨rfl, by simp, hbase⟩, by simp⟩
  | body around entered ih =>
      obtain ⟨bodies, hinside, hbodies⟩ := ih
      obtain ⟨⟨owner, table⟩, hfound, rfl⟩ := Option.map_eq_some_iff.1 entered
      have hbody : module.IsBody ⟨some owner, [], table.members.types⟩ :=
        ⟨owner, table, rfl, hinside.resolveType_module hbodies hfound, rfl⟩
      refine ⟨⟨some owner, [], table.members.types⟩ :: bodies, ⟨?_, ?_, hbase⟩, ?_⟩
      · exact congrArg (List.cons _) hinside.frames
      · exact List.forall_mem_cons.2 ⟨by simp, hinside.body⟩
      · exact List.forall_mem_cons.2 ⟨hbody, hbodies⟩

theorem build_base
    {options : Options} {ds : List (Declaration Expr)} {module : Scope}
    (h : build options ds = .ok module) :
    ∀ frame ∈ module.frames, frame.qualifier = none := by
  obtain ⟨hqualifier, houter⟩ := build_frames h
  rw [frames, houter]
  simp [hqualifier, Frame.prelude]

/-! ## The scopes in which bodies are read -/

/-- The scopes in which bodies are read.  A body is entered once its type has been announced,
and the types declared in it so far are in reach.  The module is given as it is at that time:
its outermost type, whose body is being read, has no members yet. -/
inductive Reading (options : Options) : String → Scope → Scope → Prop where
  | body {before : List (Declaration Expr)} {module inner : Scope} {kind : TypeKind}
      {name : String} {types : List (Declaration Expr)}
      (built : build options before = .ok module)
      (free : module.frame.types.contains name = false)
      (read : insertTypes types
        ((module.announce kind name).enter (some (module.qualify name))) = .ok () inner) :
      Reading options name (module.announce kind name) inner
  | nested {outermost : String} {module scope inner : Scope} {kind : TypeKind} {name : String}
      {types : List (Declaration Expr)} (around : Reading options outermost module scope)
      (free : scope.frame.types.contains name = false)
      (read : insertTypes types
        ((scope.announce kind name).enter (some (scope.qualify name))) = .ok () inner) :
      Reading options outermost module inner

/-- The qualifier of a frame begins as a name does. -/
def Under (outermost : String) (frame : Frame) : Prop :=
  ∃ owner, frame.qualifier = some owner ∧
    (Name.segments owner).1 = (Name.segments outermost).1

theorem Reading.inside
    {options : Options} {outermost : String} {module scope : Scope}
    (h : Reading options outermost module scope) :
    ∃ bodies, Inside module scope (scope.frame :: bodies) ∧
      ∀ frame ∈ scope.frame :: bodies, Under outermost frame := by
  induction h with
  | @body before module inner kind name types built free read =>
      have hplace := samePlace_of_insertTypes read
      have hqualifier : inner.frame.qualifier = some name := by
        rw [hplace.qualifier]
        exact congrArg some (Frame.qualify_eq_self_iff.2 (build_frames built).1)
      refine ⟨[], ⟨?_, ?_, ?_⟩, ?_⟩
      · rw [frames, hplace.outer]
        rfl
      · simp [hqualifier]
      · exact List.forall_mem_cons.2 (List.forall_mem_cons.1 (build_base built))
      · exact List.forall_mem_singleton.2 ⟨name, hqualifier, rfl⟩
  | @nested outermost module scope inner kind name types around free read ih =>
      obtain ⟨bodies, hinside, hunder⟩ := ih
      obtain ⟨⟨owner, howner, hsegments⟩, hrest⟩ := List.forall_mem_cons.1 hunder
      have hplace := samePlace_of_insertTypes read
      have hqualifier : inner.frame.qualifier = some (Name.qualified owner name) := by
        rw [hplace.qualifier]
        change some (scope.frame.qualify name) = _
        rw [Frame.qualify, howner]
      have houter : scope.outer = bodies ++ module.frames := (List.cons.inj hinside.frames).2
      -- the announced type is in the frame around, which keeps its qualifier
      refine ⟨(scope.announce kind name).frame :: bodies, ⟨?_, ?_, hinside.base⟩, ?_⟩
      · rw [frames, hplace.outer]
        exact congrArg (fun outer => _ :: _ :: outer) houter
      · exact List.forall_mem_cons.2 ⟨by simp [hqualifier],
          List.forall_mem_cons.2 (List.forall_mem_cons.1 hinside.body)⟩
      · refine List.forall_mem_cons.2 ⟨⟨_, hqualifier, ?_⟩,
          List.forall_mem_cons.2 ⟨⟨owner, howner, hsegments⟩, hrest⟩⟩
        rw [Name.segments_qualified, hsegments]

theorem Reading.find?_outermost
    {options : Options} {outermost : String} {module scope : Scope}
    (h : Reading options outermost module scope) :
    ∃ kind, module.frame.types.find? outermost = some (.empty kind) := by
  induction h with
  | @body before module inner kind name types built free read =>
      exact ⟨kind, Table.find?_add_self _ free⟩
  | nested around free read ih => exact ih

/-- No name leads into a type whose body is being read. -/
theorem Reading.resolveType_module_eq_none
    {options : Options} {outermost : String} {module scope : Scope}
    (h : Reading options outermost module scope) (hdot : '.' ∉ outermost.toList)
    {owner : String} (howner : (Name.segments owner).1 = (Name.segments outermost).1)
    (name : String) :
    module.resolveType (Name.qualified owner name) = none := by
  obtain ⟨kind, hkind⟩ := h.find?_outermost
  rw [Name.segments_of_not_mem hdot] at howner
  have hframe : module.frameOf? (Name.qualified owner name) = some module.frame := by
    have hbegins : module.frame.begins (Name.qualified owner name) = true := by
      rw [Frame.begins, Name.segments_qualified, howner, Table.contains, hkind]
      rfl
    rw [frameOf?, frames, List.find?_cons, hbegins]
  have hpath : (Name.segments owner).2 ++ Name.path name ≠ [] := by simp [Name.path]
  rw [resolveType_eq, hframe, Option.bind_some, Frame.at?, Name.segments_qualified, howner,
    hkind, Option.bind_some, Definition.at?_empty hpath, Option.map_none]

/-! ## Stable names -/

/-- Members are found under a name and under its qualified name alike when the qualified name
stands for itself. -/
theorem memberOf_eq_of_resolveType_self
    {scope : Scope} {name q : String} {d : Definition}
    (found : scope.resolveType name = some (q, d)) (hself : scope.resolveType q = some (q, d))
    (owner : Ty) (selector : Selector) (span : Span)
    (find : Definition → String → Option Entry) :
    scope.memberOf owner q selector span find = scope.memberOf owner name selector span find := by
  simp only [memberOf, lookupType, found, hself, Option.map_some]

/-- When the qualified name of a type stands for itself.

In the scopes in which a module is checked, it leads from the module to the table that the name
leads to, and it leads there from the scope exactly when it is not captured.  In the scope of a
body that is being read, it also has to lead there from the module, whose outermost type has no
members yet.  If the name of that type has no dot, then no name found in a body can, and only the
names that are already qualified remain.

Where the qualified name stands for itself, members are found under both names alike. -/
theorem resolveType_qualified_iff
    {options : Options} {module scope : Scope} {name q : String} {d : Definition}
    (found : scope.resolveType name = some (q, d)) :
    (∀ ds, build options ds = .ok module → Within module scope →
      module.resolveType q = some (q, d) ∧
        (scope.resolveType q = some (q, d) ↔ ¬ scope.Captures q)) ∧
    (∀ outermost, Reading options outermost module scope →
      (scope.resolveType q = some (q, d) ↔
        ¬ scope.Captures q ∧ module.resolveType q = some (q, d)) ∧
      ('.' ∉ outermost.toList → (scope.resolveType q = some (q, d) ↔ q = name))) ∧
    (scope.resolveType q = some (q, d) → ∀ owner selector span find,
      scope.memberOf owner q selector span find =
        scope.memberOf owner name selector span find) := by
  refine ⟨?_, ?_, memberOf_eq_of_resolveType_self found⟩
  · intro ds hbuild hwithin
    obtain ⟨bodies, hinside, hbodies⟩ := hwithin.inside (build_base hbuild)
    have hmodule := hinside.resolveType_module hbodies found
    refine ⟨hmodule, ?_⟩
    rw [hinside.resolveType_self_iff]
    exact and_iff_left hmodule
  · intro outermost hreading
    obtain ⟨bodies, hinside, hunder⟩ := hreading.inside
    refine ⟨hinside.resolveType_self_iff, ?_⟩
    intro hdot
    constructor
    · intro hself
      obtain ⟨-, hmodule⟩ := hinside.resolveType_self_iff.1 hself
      rcases hinside.resolveType_cases found with ⟨frame, hframe, rfl, -⟩ | ⟨hname, -, -⟩
      · obtain ⟨owner, hqualifier, howner⟩ := hunder frame hframe
        have hnone := hreading.resolveType_module_eq_none hdot howner name
        rw [Frame.qualify, hqualifier] at hmodule
        rw [hnone] at hmodule
        cases hmodule
      · exact hname
    · rintro rfl
      exact found

/-- The scope of the counter while its body is read. -/
def counterReading : Scope :=
  ⟨⟨some "Counter", [], [("Step", stepTable)]⟩,
    ((empty .standard).announce .struct "Counter").frames, .standard⟩

theorem reading_counterReading :
    Reading .standard "Counter" ((empty .standard).announce .struct "Counter")
      counterReading := by
  have hread : insertTypes [counterStep]
      (((empty .standard).announce .struct "Counter").enter (some "Counter")) =
        .ok () counterReading := by
    cbv
  exact .body (show build .standard [] = .ok (empty .standard) from rfl) rfl hread

/-- The qualified name of the step stands for itself while the body of the counter is checked,
and does not while it is read. -/
theorem resolveType_qualified_iff_counterModule :
    counterBody.resolveType "Step" = some ("Counter.Step", stepTable) ∧
      counterBody.resolveType "Counter.Step" = some ("Counter.Step", stepTable) ∧
      counterReading.resolveType "Step" = some ("Counter.Step", stepTable) ∧
      counterReading.resolveType "Counter.Step" ≠ some ("Counter.Step", stepTable) := by
  have hchecking : counterBody.resolveType "Step" = some ("Counter.Step", stepTable) := by cbv
  have hreading : counterReading.resolveType "Step" = some ("Counter.Step", stepTable) := by cbv
  have hfree : ¬ counterBody.Captures "Counter.Step" := by decide +kernel
  obtain ⟨-, hstable⟩ :=
    (resolveType_qualified_iff hchecking).1 counterModule build_counterModule
      (.body .here typeScope_counterScope)
  obtain ⟨-, hunstable⟩ :=
    (resolveType_qualified_iff hreading).2.1 "Counter" reading_counterReading
  refine ⟨hchecking, hstable.2 hfree, hreading, ?_⟩
  intro hself
  exact absurd ((hunstable (by decide)).1 hself) (by decide)

/-- A type in the body of a type of the same name. -/
def sameNameModule : List (Declaration Expr) :=
  [.type .struct "A" [] [.type .struct "A" [] [] default] default]

def sameNameScope : Scope :=
  ⟨⟨none, [], [("A", .struct ⟨[], [], [("A", .empty .struct)]⟩)]⟩, [.prelude], .standard⟩

def sameNameBody : Scope :=
  ⟨⟨some "A", [], [("A", .empty .struct)]⟩, sameNameScope.frames, .standard⟩

/-- The inner type captures its own qualified name, which then leads nowhere in the body.  The
module is refused because of it. -/
theorem resolveType_captured_sameNameModule :
    build .standard sameNameModule = .ok sameNameScope ∧
      sameNameScope.typeScope "A" = some sameNameBody ∧
      sameNameBody.resolveType "A" = some ("A.A", .empty .struct) ∧
      sameNameBody.resolveType "A.A" = none ∧
      checkModule .standard sameNameModule = .error [⟨.typeMissing "A.A", default⟩] := by
  refine ⟨by cbv, by cbv, by cbv, by cbv, by cbv⟩

end Scope

end Ascribe
