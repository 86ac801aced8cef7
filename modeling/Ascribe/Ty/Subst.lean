import Ascribe.Ty.Basic

/-!
# Substitutions

A substitution is a finite map from type variables to types.  It is kept as a
list of entries with strictly ascending variables, so two substitutions that
agree on every variable are equal (`Subst.ext_find?`).

`compose newer older` applies `newer` to the types of `older` and lets the
entries of `newer` win.  It agrees with applying `older` first and `newer` after
it when no variable is bound by both (`apply_compose`).
-/

namespace Ascribe

/-- A finite map from type variables to types. -/
structure Subst where
  entries : List (Nat × Ty)
  ascending : entries.Pairwise fun a b => a.1 < b.1

namespace Subst

/-! ## Entries -/

/-- Put an entry into an ascending list, replacing one for the same variable. -/
def insertEntry (v : Nat) (t : Ty) : List (Nat × Ty) → List (Nat × Ty)
  | [] => [(v, t)]
  | (w, u) :: rest =>
      if v < w then (v, t) :: (w, u) :: rest
      else if v = w then (v, t) :: rest
      else (w, u) :: insertEntry v t rest

/-- The type that a list of entries gives for a variable. -/
def findEntry (v : Nat) : List (Nat × Ty) → Option Ty
  | [] => none
  | (w, u) :: rest => if v = w then some u else findEntry v rest

theorem mem_insertEntry
    {v : Nat} {t : Ty} {e : Nat × Ty} {es : List (Nat × Ty)}
    (h : e ∈ insertEntry v t es) : e = (v, t) ∨ e ∈ es := by
  induction es with
  | nil => simpa [insertEntry] using h
  | cons d es ih =>
      obtain ⟨w, u⟩ := d
      unfold insertEntry at h
      split at h
      · simpa using h
      · split at h
        · rcases List.mem_cons.1 h with h | h
          · exact .inl h
          · exact .inr (List.mem_cons_of_mem _ h)
        · rcases List.mem_cons.1 h with h | h
          · exact .inr (h ▸ List.mem_cons_self)
          · exact (ih h).imp id (List.mem_cons_of_mem _)

theorem ascending_insertEntry
    (v : Nat) (t : Ty) {es : List (Nat × Ty)}
    (h : es.Pairwise fun a b => a.1 < b.1) :
    (insertEntry v t es).Pairwise fun a b => a.1 < b.1 := by
  induction es with
  | nil => simp [insertEntry]
  | cons d es ih =>
      obtain ⟨w, u⟩ := d
      rw [List.pairwise_cons] at h
      unfold insertEntry
      split
      · rename_i hlt
        refine List.pairwise_cons.2 ⟨?_, List.pairwise_cons.2 h⟩
        intro e he
        rcases List.mem_cons.1 he with rfl | he
        · exact hlt
        · exact Nat.lt_trans hlt (h.1 e he)
      · split
        · rename_i heq
          exact List.pairwise_cons.2 ⟨fun e he => heq ▸ h.1 e he, h.2⟩
        · refine List.pairwise_cons.2 ⟨?_, ih h.2⟩
          intro e he
          rcases mem_insertEntry he with rfl | he
          · simp only
            omega
          · exact h.1 e he

theorem findEntry_eq_none_of_lt
    {v : Nat} {es : List (Nat × Ty)} (h : ∀ e ∈ es, v < e.1) :
    findEntry v es = none := by
  induction es with
  | nil => rfl
  | cons d es ih =>
      have hd := h d List.mem_cons_self
      have hne : v ≠ d.1 := Nat.ne_of_lt hd
      simp only [findEntry, hne, if_false]
      exact ih fun e he => h e (List.mem_cons_of_mem d he)

theorem findEntry_insertEntry
    (v w : Nat) (t : Ty) (es : List (Nat × Ty)) :
    findEntry w (insertEntry v t es) = if w = v then some t else findEntry w es := by
  induction es with
  | nil => simp [insertEntry, findEntry]
  | cons d es ih =>
      obtain ⟨u, s⟩ := d
      unfold insertEntry
      split
      · simp [findEntry]
      · split
        · rename_i heq
          subst heq
          simp only [findEntry]
          split <;> rfl
        · rename_i hne
          simp only [findEntry, ih]
          by_cases hwu : w = u
          · have hwv : w ≠ v := fun h => hne (h ▸ hwu)
            simp [hwu, show u ≠ v from fun h => hne h.symm]
          · simp [hwu]

theorem findEntry_isSome_iff {v : Nat} {es : List (Nat × Ty)} :
    (findEntry v es).isSome ↔ v ∈ es.map Prod.fst := by
  induction es with
  | nil => simp [findEntry]
  | cons d es ih =>
      simp only [findEntry, List.map_cons, List.mem_cons]
      split
      · rename_i h
        simp [h]
      · rename_i h
        simp [h, ih]

/-! ## Substitutions -/

/-- The substitution that binds nothing. -/
def empty : Subst :=
  ⟨[], List.Pairwise.nil⟩

def find? (s : Subst) (v : Nat) : Option Ty :=
  findEntry v s.entries

/-- Bind a variable, replacing what it was bound to. -/
def insert (s : Subst) (v : Nat) (t : Ty) : Subst :=
  ⟨insertEntry v t s.entries, ascending_insertEntry v t s.ascending⟩

def singleton (v : Nat) (t : Ty) : Subst :=
  ⟨[(v, t)], List.pairwise_singleton _ _⟩

/-- Bind the variables of a list in turn, so the last entry of a variable counts. -/
def ofList (es : List (Nat × Ty)) : Subst :=
  es.foldl (fun s e => s.insert e.1 e.2) empty

/-- The bound variables, ascending. -/
def domain (s : Subst) : List Nat :=
  s.entries.map Prod.fst

def size (s : Subst) : Nat :=
  s.entries.length

def isEmpty (s : Subst) : Bool :=
  s.entries.isEmpty

/-- Forget what a variable was bound to. -/
def erase (s : Subst) (v : Nat) : Subst :=
  ⟨s.entries.filter (fun e => e.1 != v), s.ascending.filter _⟩

@[simp]
theorem find?_empty (v : Nat) :
    empty.find? v = none :=
  rfl

theorem find?_insert (s : Subst) (v w : Nat) (t : Ty) :
    (s.insert v t).find? w = if w = v then some t else s.find? w :=
  findEntry_insertEntry v w t s.entries

theorem find?_singleton (v w : Nat) (t : Ty) :
    (singleton v t).find? w = if w = v then some t else none :=
  rfl

theorem find?_erase (s : Subst) (v w : Nat) :
    (s.erase v).find? w = if w = v then none else s.find? w := by
  obtain ⟨es, hes⟩ := s
  simp only [erase, find?]
  clear hes
  induction es with
  | nil => simp [findEntry]
  | cons d es ih =>
      obtain ⟨u, t⟩ := d
      by_cases hu : u = v
      · subst hu
        simp only [bne_self_eq_false, Bool.false_eq_true, not_false_eq_true,
          List.filter_cons_of_neg, findEntry, ih]
        split <;> rfl
      · simp only [ne_eq, hu, not_false_eq_true, bne_iff_ne, List.filter_cons_of_pos, findEntry,
          ih]
        by_cases hw : w = u
        · simp [hw, hu]
        · simp [hw]

theorem mem_domain_iff {s : Subst} {v : Nat} :
    v ∈ s.domain ↔ (s.find? v).isSome :=
  findEntry_isSome_iff.symm

private theorem entries_eq_of_findEntry
    {as bs : List (Nat × Ty)}
    (ha : as.Pairwise fun a b => a.1 < b.1) (hb : bs.Pairwise fun a b => a.1 < b.1)
    (h : ∀ v, findEntry v as = findEntry v bs) : as = bs := by
  induction as generalizing bs with
  | nil =>
      cases bs with
      | nil => rfl
      | cons b bs =>
          have := h b.1
          simp [findEntry] at this
  | cons a as ih =>
      cases bs with
      | nil =>
          have := h a.1
          simp [findEntry] at this
      | cons b bs =>
          obtain ⟨v, t⟩ := a
          obtain ⟨w, u⟩ := b
          rw [List.pairwise_cons] at ha hb
          have hv := h v
          have hw := h w
          simp only [findEntry, if_true] at hv hw
          have hvw : v = w := by
            rcases Nat.lt_trichotomy v w with hlt | heq | hgt
            · rw [if_neg (Nat.ne_of_lt hlt), findEntry_eq_none_of_lt] at hv
              · cases hv
              · exact fun e he => Nat.lt_trans hlt (hb.1 e he)
            · exact heq
            · rw [if_neg (Nat.ne_of_lt hgt), findEntry_eq_none_of_lt] at hw
              · cases hw
              · exact fun e he => Nat.lt_trans hgt (ha.1 e he)
          subst hvw
          rw [if_pos rfl] at hv
          cases hv
          congr 1
          refine ih ha.2 hb.2 fun x => ?_
          have hx := h x
          simp only [findEntry] at hx
          by_cases hxv : x = v
          · subst hxv
            rw [findEntry_eq_none_of_lt fun e he => ha.1 e he,
              findEntry_eq_none_of_lt fun e he => hb.1 e he]
          · simpa [hxv] using hx

/-- Substitutions that bind the same variables to the same types are equal. -/
theorem ext_find? {s u : Subst} (h : ∀ v, s.find? v = u.find? v) : s = u := by
  obtain ⟨es, hes⟩ := s
  obtain ⟨ds, hds⟩ := u
  have : es = ds := entries_eq_of_findEntry hes hds h
  subst this
  rfl

theorem eq_empty_iff {s : Subst} :
    s = empty ↔ ∀ v, s.find? v = none := by
  constructor
  · rintro rfl v
    rfl
  · intro h
    exact ext_find? h

/-! ## Application -/

mutual

/-- Replace the bound variables of a type. -/
def apply (s : Subst) : Ty → Ty
  | .con name args => .con name (applyAll s args)
  | .var v => (s.find? v).getD (.var v)
  | .arrow params result => .arrow (applyAll s params) (apply s result)
  | .tuple elems => .tuple (applyAll s elems)

def applyAll (s : Subst) : List Ty → List Ty
  | [] => []
  | t :: ts => apply s t :: applyAll s ts

end

theorem applyAll_eq_map (s : Subst) (ts : List Ty) :
    s.applyAll ts = ts.map s.apply := by
  induction ts with
  | nil => rfl
  | cons t ts ih => simp [applyAll, ih]

@[simp]
theorem apply_empty (t : Ty) :
    empty.apply t = t := by
  induction t with
  | con name args ih =>
      rw [apply, applyAll_eq_map, List.map_congr_left ih, List.map_id']
  | var v => rfl
  | arrow params result ihp ihr =>
      rw [apply, applyAll_eq_map, List.map_congr_left ihp, List.map_id', ihr]
  | tuple elems ih =>
      rw [apply, applyAll_eq_map, List.map_congr_left ih, List.map_id']

@[simp]
theorem applyAll_empty (ts : List Ty) :
    empty.applyAll ts = ts := by
  rw [applyAll_eq_map, List.map_congr_left fun t _ => apply_empty t, List.map_id']

/-- A variable of the result comes from a bound type or was left in place. -/
theorem mem_vars_apply {s : Subst} {w : Nat} {t : Ty} :
    w ∈ (s.apply t).vars ↔
      ∃ v ∈ t.vars, w ∈ ((s.find? v).getD (.var v)).vars := by
  have hall : ∀ ts : List Ty,
      (∀ t ∈ ts, w ∈ (s.apply t).vars ↔
        ∃ v ∈ t.vars, w ∈ ((s.find? v).getD (.var v)).vars) →
      (w ∈ Ty.varsAll (s.applyAll ts) ↔
        ∃ v ∈ Ty.varsAll ts, w ∈ ((s.find? v).getD (.var v)).vars) := by
    intro ts ih
    rw [applyAll_eq_map, Ty.mem_varsAll]
    simp only [List.mem_map, Ty.mem_varsAll]
    constructor
    · rintro ⟨_, ⟨t, ht, rfl⟩, hw⟩
      obtain ⟨v, hv, hwv⟩ := (ih t ht).1 hw
      exact ⟨v, ⟨t, ht, hv⟩, hwv⟩
    · rintro ⟨v, ⟨t, ht, hv⟩, hwv⟩
      exact ⟨s.apply t, ⟨t, ht, rfl⟩, (ih t ht).2 ⟨v, hv, hwv⟩⟩
  induction t with
  | con name args ih => exact hall args ih
  | var v => simp [apply, Ty.vars]
  | arrow params result ihp ihr =>
      simp only [apply, Ty.vars, List.mem_append, hall params ihp, ihr]
      constructor
      · rintro (⟨v, hv, hw⟩ | ⟨v, hv, hw⟩)
        · exact ⟨v, .inl hv, hw⟩
        · exact ⟨v, .inr hv, hw⟩
      · rintro ⟨v, hv | hv, hw⟩
        · exact .inl ⟨v, hv, hw⟩
        · exact .inr ⟨v, hv, hw⟩
  | tuple elems ih => exact hall elems ih

theorem mem_varsAll_applyAll {s : Subst} {w : Nat} {ts : List Ty} :
    w ∈ Ty.varsAll (s.applyAll ts) ↔
      ∃ v ∈ Ty.varsAll ts, w ∈ ((s.find? v).getD (.var v)).vars := by
  have h := mem_vars_apply (s := s) (w := w) (t := .tuple ts)
  simpa [apply, Ty.vars] using h

/-! ## Composition -/

/-- Apply a newer substitution to the types of an older one and merge the two.
The entries of the newer one win. -/
def compose (newer older : Subst) : Subst :=
  newer.entries.foldl (fun s e => s.insert e.1 e.2)
    ⟨older.entries.map fun e => (e.1, newer.apply e.2), by
      rw [List.pairwise_map]
      exact older.ascending⟩

private theorem find?_foldl_insert
    (es : List (Nat × Ty)) (hes : es.Pairwise fun a b => a.1 < b.1) (s : Subst) (v : Nat) :
    (es.foldl (fun s e => s.insert e.1 e.2) s).find? v =
      (findEntry v es).or (s.find? v) := by
  induction es generalizing s with
  | nil => rfl
  | cons d es ih =>
      obtain ⟨w, u⟩ := d
      rw [List.pairwise_cons] at hes
      rw [List.foldl_cons, ih hes.2, find?_insert]
      simp only [findEntry]
      by_cases hv : v = w
      · subst hv
        rw [findEntry_eq_none_of_lt fun e he => hes.1 e he]
        simp
      · simp [hv]

theorem find?_compose (newer older : Subst) (v : Nat) :
    (compose newer older).find? v =
      (newer.find? v).or ((older.find? v).map newer.apply) := by
  rw [compose, find?_foldl_insert newer.entries newer.ascending]
  congr 1
  simp only [find?]
  generalize older.entries = es
  induction es with
  | nil => rfl
  | cons d es ih =>
      simp only [List.map_cons, findEntry, ih]
      split <;> rfl

/-- Composition is application in turn when no variable is bound by both. -/
theorem apply_compose
    {newer older : Subst}
    (disjoint : ∀ v, (older.find? v).isSome → newer.find? v = none) (t : Ty) :
    (compose newer older).apply t = newer.apply (older.apply t) := by
  have hall : ∀ ts : List Ty,
      (∀ t ∈ ts, (compose newer older).apply t = newer.apply (older.apply t)) →
      (compose newer older).applyAll ts = newer.applyAll (older.applyAll ts) := by
    intro ts ih
    simp only [applyAll_eq_map, List.map_map]
    exact List.map_congr_left ih
  induction t with
  | con name args ih => simp only [apply, hall args ih]
  | var v =>
      simp only [apply, find?_compose]
      cases hold : older.find? v with
      | none =>
          simp [apply]
      | some u =>
          rw [disjoint v (by simp [hold])]
          simp
  | arrow params result ihp ihr => simp only [apply, hall params ihp, ihr]
  | tuple elems ih => simp only [apply, hall elems ih]

end Subst

end Ascribe
