import Ascribe.Proofs.Annotations
import Ascribe.Proofs.Formatting

/-!
# Printed forms

A type can be read off its printed form, provided that the names in it are made of letters,
digits, underscores and dots.  Parentheses are left out around a single atomic parameter, and a
tuple of one type prints like a type in parentheses.  Still nothing is lost.  A printed type
begins with its front, which is a name with arguments, a variable or a list in parentheses, and
an arrow follows or not.  When it does, a list in parentheses is the list of parameters, and
anything else is the only parameter (`Ty.front`, `Ty.result?`).

The proof reads from left to right: when two printed types begin texts that are equal, and what
comes after each of them cannot belong to it, the types and the rests of the texts are the same
(`Ty.Reads`).

A normal form prints as the expression that reads as it does.  The one printer joins texts, the
other writes to a formatter, and they walk over different trees.  But closures are the only normal
forms with an expression inside, and that expression prints at the left margin in both
(`NormalForm.render_quote`).
-/

namespace Ascribe

open Text

/-! ## Names -/

/-- Letters, digits, the underscore and the dot.  Beyond ASCII every character counts as a
letter. -/
def Text.isNameChar (c : Char) : Bool :=
  c.isAlphanum || c == '_' || c == '.' || 128 ≤ c.toNat

/-- A name has characters, and only those that names are made of. -/
def Text.IsName (name : String) : Prop :=
  name ≠ "" ∧ ∀ c ∈ name.toList, isNameChar c = true

instance (name : String) : Decidable (IsName name) :=
  decidable_of_iff (name ≠ "" ∧ name.toList.all isNameChar = true)
    (and_congr_right fun _ => List.all_eq_true)

theorem Text.IsName.exists_toList {name : String} (h : IsName name) :
    ∃ c cs, name.toList = c :: cs ∧ isNameChar c = true := by
  cases hname : name.toList with
  | nil => exact absurd (String.toList_eq_nil_iff.1 hname) h.1
  | cons c cs => exact ⟨c, cs, rfl, h.2 c (hname ▸ List.mem_cons_self)⟩

/-- Two stretches of characters of one class at the beginning of equal texts are the same when
neither is followed by a further character of the class. -/
theorem Text.append_cancel_of_class
    {p : Char → Bool} {xs ys x y : List Char}
    (hxs : ∀ c ∈ xs, p c = true) (hys : ∀ c ∈ ys, p c = true)
    (hx : ∀ c ∈ x.head?, p c = false) (hy : ∀ c ∈ y.head?, p c = false)
    (h : xs ++ x = ys ++ y) :
    xs = ys ∧ x = y := by
  induction xs generalizing ys with
  | nil =>
      cases ys with
      | nil => exact ⟨rfl, h⟩
      | cons c ys =>
          rw [List.nil_append, List.cons_append] at h
          have hc := hx c (by rw [h]; rfl)
          rw [hys c List.mem_cons_self] at hc
          cases hc
  | cons c xs ih =>
      cases ys with
      | nil =>
          rw [List.nil_append, List.cons_append] at h
          have hc := hy c (by rw [← h]; rfl)
          rw [hxs c List.mem_cons_self] at hc
          cases hc
      | cons d ys =>
          rw [List.cons_append, List.cons_append, List.cons.injEq] at h
          obtain ⟨rfl, h⟩ := h
          obtain ⟨rfl, rfl⟩ := ih (List.forall_mem_cons.1 hxs).2 (List.forall_mem_cons.1 hys).2 h
          exact ⟨rfl, rfl⟩

namespace Ty

/-! ## The characters of a printed type -/

/-- The characters of the printed form. -/
def text (t : Ty) : List Char :=
  t.render.toList

/-- A type that is not the first in a list, with the separator before it. -/
def itemText (t : Ty) : List Char :=
  ',' :: ' ' :: t.text

/-- The characters of a list of types. -/
def listText : List Ty → List Char
  | [] => []
  | t :: ts => t.text ++ ts.flatMap itemText

/-- The characters of the arguments of a type name. -/
def argsText : List Ty → List Char
  | [] => []
  | t :: ts => '<' :: (listText (t :: ts) ++ ['>'])

/-- The characters after the front of a type. -/
def arrowText : Option Ty → List Char
  | none => []
  | some result => ' ' :: '-' :: '>' :: ' ' :: result.text

theorem toList_commaSeparated (ts : List Ty) :
    (commaSeparated (renderAll ts)).toList = listText ts := by
  induction ts with
  | nil => rfl
  | cons t ts ih =>
      cases ts with
      | nil => simp [renderAll, commaSeparated, listText, text]
      | cons u us =>
          simp only [renderAll] at ih
          simp only [renderAll, commaSeparated, String.toList_append, ih, listText, text,
            List.flatMap_cons, itemText, List.append_assoc]
          rfl

theorem text_con (name : String) (args : List Ty) :
    (con name args).text = name.toList ++ argsText args := by
  cases args with
  | nil => simp [text, render, argsText]
  | cons t ts =>
      rw [text, render, if_neg (by simp)]
      simp [toList_commaSeparated, argsText]

theorem text_var (id : Nat) :
    (var id).text = '\x27' :: 't' :: Nat.toDigits 10 id := by
  rw [text, render, renderVar, String.toList_append, Nat.toString_eq_repr, Nat.toList_repr]
  rfl

theorem text_tuple (elems : List Ty) :
    (tuple elems).text = '(' :: (listText elems ++ [')']) := by
  rw [text, render, String.toList_append, String.toList_append, toList_commaSeparated]
  rfl

/-! ## The front of a type -/

def isArrow : Ty → Bool
  | .arrow _ _ => true
  | _ => false

/-- What stands before the arrow of a function type, and any other type itself.  A list of
parameters prints as a tuple, but for a single atomic one. -/
def front : Ty → Ty
  | .arrow params _ => if bareParams params then params.headD .unit else .tuple params
  | t => t

/-- What stands after the arrow of a function type. -/
def result? : Ty → Option Ty
  | .arrow _ result => some result
  | _ => none

/-- The parameters that print as the given type before an arrow. -/
def frontParams : Ty → List Ty
  | .tuple elems => elems
  | t => [t]

/-- A list of parameters prints without parentheses only when it is one type that is a name or
a variable. -/
theorem front_arrow_cases (params : List Ty) (result : Ty) :
    (∃ param, params = [param] ∧ param.isAtomic = true ∧
        (arrow params result).front = param) ∨
      (bareParams params = false ∧ (arrow params result).front = .tuple params) := by
  cases hbare : bareParams params with
  | false => exact .inr ⟨rfl, by simp [front, hbare]⟩
  | true =>
      left
      cases params with
      | nil => cases hbare
      | cons param rest =>
          cases rest with
          | nil => exact ⟨param, rfl, hbare, by simp [front, hbare]⟩
          | cons next rest => cases hbare

theorem text_eq_front (t : Ty) :
    t.text = t.front.text ++ arrowText t.result? := by
  cases t with
  | con | var | tuple => exact (List.append_nil _).symm
  | arrow params result =>
      rcases front_arrow_cases params result with ⟨param, rfl, hatomic, hfront⟩ | ⟨hbare, hfront⟩
      · rw [hfront, text, render, if_pos (show bareParams [param] = true from hatomic)]
        simp [toList_commaSeparated, listText, result?, arrowText, text]
      · rw [hfront, text_tuple, text, render, hbare]
        simp [toList_commaSeparated, result?, arrowText, text]

theorem front_of_isAtomic {t : Ty} (h : t.isAtomic = true) :
    t.front = t ∧ t.isArrow = false ∧ t.frontParams = [t] := by
  cases t with
  | con | var => exact ⟨rfl, rfl, rfl⟩
  | arrow | tuple => cases h

theorem isArrow_front (t : Ty) : t.front.isArrow = false := by
  cases t with
  | con | var | tuple => rfl
  | arrow params result =>
      rcases front_arrow_cases params result with ⟨param, rfl, hatomic, hfront⟩ | ⟨-, hfront⟩
      · rw [hfront]
        exact (front_of_isAtomic hatomic).2.1
      · rw [hfront]
        rfl

theorem frontParams_front (params : List Ty) (result : Ty) :
    (arrow params result).front.frontParams = params := by
  rcases front_arrow_cases params result with ⟨param, rfl, hatomic, hfront⟩ | ⟨-, hfront⟩
  · rw [hfront]
    exact (front_of_isAtomic hatomic).2.2
  · rw [hfront]
    rfl

/-- A type is known when its front is known and what stands after its arrow, if it has one. -/
theorem eq_of_front_eq {t u : Ty} (hfront : t.front = u.front) (hresult : t.result? = u.result?) :
    t = u := by
  cases t with
  | arrow params result =>
      cases u with
      | arrow params' result' =>
          have hparams := congrArg frontParams hfront
          rw [frontParams_front, frontParams_front] at hparams
          rw [hparams, Option.some.inj hresult]
      | con | var | tuple => cases hresult
  | con | var | tuple =>
      cases u with
      | arrow params' result' => cases hresult
      | con | var | tuple => exact hfront

/-! ## Reading from left to right -/

/-- The names in a type are made of letters, digits, underscores and dots. -/
def WellNamed (t : Ty) : Prop :=
  ∀ name ∈ t.names, IsName name

theorem WellNamed.front {t : Ty} (h : t.WellNamed) : t.front.WellNamed := by
  cases t with
  | con | var | tuple => exact h
  | arrow params result =>
      have hparams : ∀ p ∈ params, p.WellNamed :=
        forall_mem_namesAll.1 (List.forall_mem_append.1 h).1
      rcases front_arrow_cases params result with ⟨param, rfl, -, hfront⟩ | ⟨-, hfront⟩
      · rw [hfront]
        exact hparams param List.mem_cons_self
      · rw [hfront]
        exact forall_mem_namesAll.2 hparams

theorem WellNamed.result {t : Ty} (h : t.WellNamed) : ∀ r ∈ t.result?, r.WellNamed := by
  intro r hr
  cases t with
  | con | var | tuple => cases hr
  | arrow params result =>
      cases hr
      exact (List.forall_mem_append.1 h).2

/-- A text cannot go on with a type: it is at its end, or at a comma or a closing bracket. -/
def AfterType (rest : List Char) : Prop :=
  ∀ c ∈ rest.head?, c ∈ [',', ')', '>']

/-- A text cannot go on with the front of a type: it is as after a type, or an arrow follows. -/
def AfterFront (rest : List Char) : Prop :=
  ∀ c ∈ rest.head?, c ∈ [',', ')', '>', ' ']

/-- The type can be told from any other one by what a text begins with. -/
def Reads (t : Ty) : Prop :=
  ∀ u : Ty, u.WellNamed → ∀ x y, AfterType x → AfterType y →
    t.text ++ x = u.text ++ y → t = u ∧ x = y

/-- The front of a type can be told from any other one by what a text begins with. -/
def FrontReads (t : Ty) : Prop :=
  ∀ u : Ty, u.WellNamed → u.isArrow = false → ∀ x y, AfterFront x → AfterFront y →
    t.text ++ x = u.text ++ y → t = u ∧ x = y

theorem AfterType.afterFront {x : List Char} (h : AfterType x) (result : Option Ty) :
    AfterFront (arrowText result ++ x) := by
  cases result with
  | none => exact fun c hc => List.mem_append_left [' '] (h c hc)
  | some result =>
      intro c hc
      cases hc
      simp

/-- Whether the front of a type that is made like the given one may begin with a character. -/
def opens : Ty → Char → Bool
  | .con _ _, c => isNameChar c
  | .var _, c => c == '\x27'
  | .tuple _, c => c == '('
  | .arrow _ _, _ => false

theorem exists_opens {t : Ty} (h : t.WellNamed) (harrow : t.isArrow = false) :
    ∃ c cs, t.text = c :: cs ∧ t.opens c = true := by
  cases t with
  | con name args =>
      obtain ⟨c, cs, hname, hc⟩ := (h name List.mem_cons_self).exists_toList
      exact ⟨c, cs ++ argsText args, by rw [text_con, hname]; rfl, hc⟩
  | var id => exact ⟨'\x27', _, text_var id, rfl⟩
  | tuple elems => exact ⟨'(', _, text_tuple elems, rfl⟩
  | arrow params result => cases harrow

/-- Fronts at the beginning of equal texts begin with the same character. -/
theorem exists_opens_of_append_eq
    {t u : Ty} (ht : t.WellNamed) (hu : u.WellNamed) (harrow : t.isArrow = false)
    (harrow' : u.isArrow = false) {x y : List Char} (h : t.text ++ x = u.text ++ y) :
    ∃ c, t.opens c = true ∧ u.opens c = true := by
  obtain ⟨c, cs, htext, hc⟩ := exists_opens ht harrow
  obtain ⟨c', cs', htext', hc'⟩ := exists_opens hu harrow'
  rw [htext, htext'] at h
  obtain rfl := (List.cons.inj h).1
  exact ⟨c, hc, hc'⟩

/-- A type whose front can be read can be read when what comes after its arrow can be. -/
theorem reads_of_frontReads
    {t : Ty} (hfront : t.front.FrontReads) (hresult : ∀ r ∈ t.result?, r.Reads) :
    t.Reads := by
  intro u hu x y hx hy h
  rw [text_eq_front t, text_eq_front u, List.append_assoc, List.append_assoc] at h
  obtain ⟨hfronts, hrests⟩ := hfront u.front hu.front u.isArrow_front _ _
    (hx.afterFront _) (hy.afterFront _) h
  suffices hresults : t.result? = u.result? ∧ x = y from
    ⟨eq_of_front_eq hfronts hresults.1, hresults.2⟩
  cases ht : t.result? with
  | none =>
      cases hu' : u.result? with
      | none =>
          rw [ht, hu'] at hrests
          exact ⟨rfl, hrests⟩
      | some r' =>
          -- the text of the first type is over, and an arrow follows in that of the second
          rw [ht, hu', arrowText, arrowText, List.nil_append] at hrests
          exact absurd (hx ' ' (by rw [hrests]; rfl)) (by decide)
  | some r =>
      cases hu' : u.result? with
      | none =>
          rw [ht, hu', arrowText, arrowText, List.nil_append] at hrests
          exact absurd (hy ' ' (by rw [← hrests]; rfl)) (by decide)
      | some r' =>
          rw [ht, hu'] at hrests
          simp only [arrowText, List.cons_append, List.cons.injEq, true_and] at hrests
          obtain ⟨rfl, rfl⟩ := hresult r ht r' (hu.result r' hu') x y hx hy hrests
          exact ⟨rfl, rfl⟩

/-! ## Lists of types -/

/-- The closing brackets of lists. -/
def Closes (c : Char) : Prop :=
  c = ')' ∨ c = '>'

theorem afterType_items {close : Char} (hclose : Closes close) (ts : List Ty) (x : List Char) :
    AfterType (ts.flatMap itemText ++ close :: x) := by
  intro c hc
  cases ts with
  | nil =>
      cases hc
      rcases hclose with rfl | rfl <;> decide
  | cons t ts =>
      cases hc
      decide

theorem items_cancel
    {close : Char} (hclose : Closes close) {ts us : List Ty} {x y : List Char}
    (hreads : ∀ t ∈ ts, t.Reads) (hus : ∀ u ∈ us, u.WellNamed)
    (h : ts.flatMap itemText ++ close :: x = us.flatMap itemText ++ close :: y) :
    ts = us ∧ x = y := by
  induction ts generalizing us with
  | nil =>
      cases us with
      | nil => exact ⟨rfl, (List.cons.inj h).2⟩
      | cons u us =>
          have hcomma : close = ',' := (List.cons.inj h).1
          rcases hclose with rfl | rfl <;> cases hcomma
  | cons t ts ih =>
      cases us with
      | nil =>
          have hcomma : ',' = close := (List.cons.inj h).1
          rcases hclose with rfl | rfl <;> cases hcomma
      | cons u us =>
          obtain ⟨hu, hothers⟩ := List.forall_mem_cons.1 hus
          obtain ⟨hread, hreadOthers⟩ := List.forall_mem_cons.1 hreads
          simp only [List.flatMap_cons, itemText, List.cons_append, List.append_assoc,
            List.cons.injEq, true_and] at h
          obtain ⟨rfl, hrest⟩ := hread u hu _ _ (afterType_items hclose ts x)
            (afterType_items hclose us y) h
          obtain ⟨rfl, rfl⟩ := ih hreadOthers hothers hrest
          exact ⟨rfl, rfl⟩

/-- No type begins with a closing bracket. -/
theorem Closes.ne_append
    {close : Char} (hclose : Closes close) {t : Ty} (ht : t.WellNamed) {x y : List Char} :
    close :: x ≠ t.text ++ y := by
  intro h
  obtain ⟨c, cs, htext, hc⟩ := exists_opens ht.front t.isArrow_front
  rw [text_eq_front, htext] at h
  obtain rfl : close = c := (List.cons.inj h).1
  generalize t.front = front at hc
  cases front with
  | con | var | tuple => rcases hclose with rfl | rfl <;> cases hc
  | arrow params result => cases hc

/-- Lists of types up to the same closing bracket can be told apart when the types in one of
them can be read. -/
theorem listText_cancel
    {close : Char} (hclose : Closes close) {ts us : List Ty} {x y : List Char}
    (hts : ∀ t ∈ ts, t.WellNamed) (hus : ∀ u ∈ us, u.WellNamed) (hreads : ∀ t ∈ ts, t.Reads)
    (h : listText ts ++ close :: x = listText us ++ close :: y) :
    ts = us ∧ x = y := by
  cases ts with
  | nil =>
      cases us with
      | nil => exact ⟨rfl, (List.cons.inj h).2⟩
      | cons u us =>
          rw [listText, listText, List.nil_append, List.append_assoc] at h
          exact (hclose.ne_append (hus u List.mem_cons_self) h).elim
  | cons t ts =>
      cases us with
      | nil =>
          rw [listText, listText, List.nil_append, List.append_assoc] at h
          exact (hclose.ne_append (hts t List.mem_cons_self) h.symm).elim
      | cons u us =>
          obtain ⟨hu, hothers⟩ := List.forall_mem_cons.1 hus
          obtain ⟨hread, hreadOthers⟩ := List.forall_mem_cons.1 hreads
          rw [listText, listText, List.append_assoc, List.append_assoc] at h
          obtain ⟨rfl, hrest⟩ := hread u hu _ _ (afterType_items hclose ts x)
            (afterType_items hclose us y) h
          obtain ⟨rfl, rfl⟩ := items_cancel hclose hreadOthers hothers hrest
          exact ⟨rfl, rfl⟩

/-! ## Fronts -/

theorem argsText_cancel
    {args args' : List Ty} {x y : List Char}
    (hargs : ∀ t ∈ args, t.WellNamed) (hargs' : ∀ t ∈ args', t.WellNamed)
    (hreads : ∀ t ∈ args, t.Reads) (hx : AfterFront x) (hy : AfterFront y)
    (h : argsText args ++ x = argsText args' ++ y) :
    args = args' ∧ x = y := by
  cases args with
  | nil =>
      cases args' with
      | nil => exact ⟨rfl, h⟩
      | cons u us =>
          rw [argsText, argsText, List.nil_append] at h
          exact absurd (hx '<' (by rw [h]; rfl)) (by decide)
  | cons t ts =>
      cases args' with
      | nil =>
          rw [argsText, argsText, List.nil_append] at h
          exact absurd (hy '<' (by rw [← h]; rfl)) (by decide)
      | cons u us =>
          simp only [argsText, List.cons_append, List.append_assoc, List.nil_append,
            List.cons.injEq, true_and] at h
          exact listText_cancel (.inr rfl) hargs hargs' hreads h

/-- After a front there is no character of a class that has none of the characters that may
come there. -/
theorem AfterFront.head_eq_false
    {x : List Char} (h : AfterFront x) {p : Char → Bool}
    (hp : p ',' = false ∧ p ')' = false ∧ p '>' = false ∧ p ' ' = false) :
    ∀ c ∈ x.head?, p c = false := by
  obtain ⟨hcomma, hparen, hangle, hblank⟩ := hp
  intro c hc
  have hmem := h c hc
  simp only [List.mem_cons, List.not_mem_nil, or_false] at hmem
  rcases hmem with rfl | rfl | rfl | rfl <;> assumption

theorem AfterFront.head_argsText {x : List Char} (h : AfterFront x) (args : List Ty) :
    ∀ c ∈ (argsText args ++ x).head?, isNameChar c = false := by
  cases args with
  | nil => exact h.head_eq_false (by decide)
  | cons t ts =>
      intro c hc
      cases hc
      rfl

/-- A name ends where its arguments begin or the front ends. -/
theorem frontReads_con
    {name : String} {args : List Ty} (hnamed : (con name args).WellNamed)
    (hreads : ∀ t ∈ args, t.Reads) :
    (con name args).FrontReads := by
  intro u hu harrow x y hx hy h
  cases u with
  | con name' args' =>
      obtain ⟨hname, hargs⟩ := List.forall_mem_cons.1 hnamed
      obtain ⟨hname', hargs'⟩ := List.forall_mem_cons.1 hu
      rw [text_con, text_con, List.append_assoc, List.append_assoc] at h
      obtain ⟨hnames, hrests⟩ := append_cancel_of_class hname.2 hname'.2
        (hx.head_argsText args) (hy.head_argsText args') h
      obtain ⟨rfl, rfl⟩ := argsText_cancel (forall_mem_namesAll.1 hargs)
        (forall_mem_namesAll.1 hargs') hreads hx hy hrests
      exact ⟨by rw [String.toList_inj.1 hnames], rfl⟩
  | var | tuple =>
      obtain ⟨c, hc, hc'⟩ := exists_opens_of_append_eq hnamed hu rfl harrow h
      obtain rfl := eq_of_beq hc'
      cases hc
  | arrow params result => cases harrow

/-- A variable ends where its digits end. -/
theorem frontReads_var {id : Nat} (hnamed : (var id).WellNamed) : (var id).FrontReads := by
  intro u hu harrow x y hx hy h
  cases u with
  | var id' =>
      have hdigits : ∀ n : Nat, ∀ c ∈ Nat.toDigits 10 n, c.isDigit = true :=
        fun n c hc => Nat.isDigit_of_mem_toDigits (by decide) (by decide) hc
      simp only [text_var, List.cons_append, List.cons.injEq, true_and] at h
      obtain ⟨hids, rfl⟩ := append_cancel_of_class (hdigits id) (hdigits id')
        (hx.head_eq_false (by decide)) (hy.head_eq_false (by decide)) h
      have hvalues : id = id' := by
        rw [← Nat.ofDigitChars_ten_toDigits (n := id), hids, Nat.ofDigitChars_ten_toDigits]
      exact ⟨by rw [hvalues], rfl⟩
  | con | tuple =>
      obtain ⟨c, hc, hc'⟩ := exists_opens_of_append_eq hnamed hu rfl harrow h
      obtain rfl := eq_of_beq hc
      cases hc'
  | arrow params result => cases harrow

/-- A list in parentheses ends where the parenthesis closes. -/
theorem frontReads_tuple
    {elems : List Ty} (hnamed : (tuple elems).WellNamed) (hreads : ∀ t ∈ elems, t.Reads) :
    (tuple elems).FrontReads := by
  intro u hu harrow x y hx hy h
  cases u with
  | tuple elems' =>
      simp only [text_tuple, List.cons_append, List.append_assoc, List.nil_append,
        List.cons.injEq, true_and] at h
      obtain ⟨rfl, rfl⟩ := listText_cancel (.inl rfl) (forall_mem_namesAll.1 hnamed)
        (forall_mem_namesAll.1 hu) hreads h
      exact ⟨rfl, rfl⟩
  | con | var =>
      obtain ⟨c, hc, hc'⟩ := exists_opens_of_append_eq hnamed hu rfl harrow h
      obtain rfl := eq_of_beq hc
      cases hc'
  | arrow params result => cases harrow

/-! ## Types -/

/-- Every type with names of the right kind can be read, and so can its front. -/
theorem WellNamed.reads_and_frontReads {t : Ty} (h : t.WellNamed) :
    t.Reads ∧ t.front.FrontReads := by
  induction t with
  | con name args ih =>
      have hargs := forall_mem_namesAll.1 (List.forall_mem_cons.1 h).2
      have hfront := frontReads_con h fun t ht => (ih t ht (hargs t ht)).1
      exact ⟨reads_of_frontReads hfront (fun r hr => by cases hr), hfront⟩
  | var id =>
      have hfront := frontReads_var h
      exact ⟨reads_of_frontReads hfront (fun r hr => by cases hr), hfront⟩
  | tuple elems ih =>
      have helems := forall_mem_namesAll.1 h
      have hfront := frontReads_tuple h fun t ht => (ih t ht (helems t ht)).1
      exact ⟨reads_of_frontReads hfront (fun r hr => by cases hr), hfront⟩
  | arrow params result ihParams ihResult =>
      obtain ⟨hparams, hresult⟩ := List.forall_mem_append.1 h
      have hparams := forall_mem_namesAll.1 hparams
      have hfront : (arrow params result).front.FrontReads := by
        rcases front_arrow_cases params result with ⟨param, rfl, hatomic, hfront⟩ | ⟨-, hfront⟩
        · -- a single atomic parameter is its own front
          rw [hfront, ← (front_of_isAtomic hatomic).1]
          exact (ihParams param List.mem_cons_self (hparams param List.mem_cons_self)).2
        · have hnamed := h.front
          rw [hfront] at hnamed ⊢
          exact frontReads_tuple hnamed fun t ht => (ihParams t ht (hparams t ht)).1
      refine ⟨reads_of_frontReads hfront ?_, hfront⟩
      intro r hr
      cases hr
      exact (ihResult hresult).1

/-- Printed types are unambiguous.  Two types whose names are not empty and are made of letters,
digits, underscores and dots are the same when they print alike. -/
theorem eq_of_render_eq
    {t u : Ty} (ht : ∀ name ∈ t.names, IsName name) (hu : ∀ name ∈ u.names, IsName name)
    (h : t.render = u.render) :
    t = u := by
  have hreads : t.Reads := (WellNamed.reads_and_frontReads ht).1
  have hend : AfterType [] := fun c hc => by cases hc
  have htext : t.text ++ [] = u.text ++ [] := by rw [text, text, h]
  exact (hreads u hu [] [] hend hend htext).1

/-- A name with a bracket in it may print like a name with arguments. -/
example : (named "Array<Int32>").render = (con "Array" [int]).render := by decide

/-- A function that takes a tuple of one type and a function, and returns an array. -/
def nestedArrow (elem : Ty) : Ty :=
  .arrow [.tuple [.named "Outer.Inner"], .arrow [elem] .unit] (.con "Array" [elem])

theorem eq_of_render_eq_nestedArrow :
    (nestedArrow (.var 12)).render = "((Outer.Inner), 't12 -> ()) -> Array<'t12>" ∧
      nestedArrow (.var 12) = (Subst.ofList [(3, .var 12)]).apply (nestedArrow (.var 3)) := by
  refine ⟨by decide, eq_of_render_eq ?_ ?_ ?_⟩
  · decide
  · decide
  · decide

end Ty

/-! ## Normal forms -/

namespace NormalForm

theorem renderParams_map (level : Nat) (params : List String) :
    Expr.renderParams level (params.map fun name => ⟨name, none, .blank⟩) = params := by
  induction params with
  | nil => rfl
  | cons name rest ih =>
      rw [List.map_cons, Expr.renderParams, ih, Expr.renderOptional, String.append_empty]

mutual

theorem renderAt_quote :
    ∀ form : NormalForm, form.quote.renderAt 0 = form.render
  | .closure params body => by
      rw [quote, Expr.renderAt, renderParams_map, render, Expr.render_eq_renderAt]
  | .literal value => rfl
  | .cond condition thenBranch none => by
      rw [quote, Expr.renderAt, renderAt_quote thenBranch]
      rfl
  | .cond condition thenBranch (some elseBranch) => by
      rw [quote, Expr.renderAt, renderAt_quote thenBranch, renderAt_quote elseBranch]
      rfl
  | .tuple elems => by rw [quote, Expr.renderAt, renderAll_quoteAll elems, render]
  | .structLit type fields => by
      rw [quote, Expr.renderAt, renderFields_quoteFields fields, render]
  | .tycon name args => by
      rw [quote, Expr.renderAt, renderAll_quoteAll args, quoteAll_eq_map, List.isEmpty_map,
        render]
  | .arrow params result => by
      rw [quote, Expr.renderAt, renderAll_quoteAll params, renderAt_quote result, render]
  | .ident name => rfl
  | .app fn args => by
      rw [quote, Expr.renderAt, renderAt_quote fn, renderAll_quoteAll args, render]
  | .member base selector => by rw [quote, Expr.renderAt, renderAt_quote base, render]

theorem renderAll_quoteAll :
    ∀ forms : List NormalForm, Expr.renderAll 0 (quoteAll forms) = renderAll forms
  | [] => rfl
  | form :: forms => by
      rw [quoteAll, Expr.renderAll, renderAt_quote form, renderAll_quoteAll forms, renderAll]

theorem renderFields_quoteFields :
    ∀ fields : List (String × NormalForm),
      Expr.renderFields 0 (quoteFields fields) = renderFields fields
  | [] => rfl
  | (name, value) :: rest => by
      rw [quoteFields, Expr.renderFields, renderAt_quote value, renderFields_quoteFields rest,
        renderFields]

end

/-- A normal form prints as the expression that reads as it does. -/
theorem render_quote (form : NormalForm) : form.quote.render = form.render := by
  rw [Expr.render_eq_renderAt]
  exact renderAt_quote form

end NormalForm

end Ascribe
