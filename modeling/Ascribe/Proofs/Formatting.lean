import Ascribe.Declaration.Render

/-!
# What is written at a depth of indentation

Writers share a formatter, so what one of them adds could depend on all that was done before.  Here
the text of an expression or a declaration is given as a function of the depth of indentation
alone.  Writing appends exactly this text and leaves the depth as it was
(`Expr.appends_write`, `Declaration.appends_write`), and so the printed form is the text at
depth zero (`Expr.render_eq_renderAt`, `Declaration.render_eq_renderAt`).
-/

namespace Ascribe

open Text

/-! ## The text -/

/-- The blanks before a line at a depth of indentation. -/
def indentation : Nat → String
  | 0 => ""
  | level + 1 => "    " ++ indentation level

/-- The text of modifiers, a blank after each. -/
def renderModifiers : List Modifier → String
  | [] => ""
  | modifier :: rest => modifier.render ++ " " ++ renderModifiers rest

/-- The text of a binding, given that of its annotation with the colon and that of its value with
the equals sign. -/
def renderBinding (modifiers : List Modifier) (name ascription value : String) : String :=
  renderModifiers modifiers ++ "let " ++ name ++ ascription ++ value

/-- Lines between braces. -/
def renderSection (level : Nat) (lines : String) : String :=
  "\x7b\n" ++ lines ++ indentation level ++ "\x7d"

namespace Expr

mutual

/-- The text of an expression inside blocks of the given depth. -/
def renderAt (level : Nat) : Expr → String
  | .literal value _ => value.render
  | .ident name _ => name
  | .closure params body _ =>
      "\x7b " ++ commaSeparated (renderParams level params) ++ " in " ++
        body.renderAt level ++ " \x7d"
  | .app fn args _ =>
      fn.renderAt level ++ "(" ++ commaSeparated (renderAll level args) ++ ")"
  | .cond condition thenBranch none _ =>
      "if " ++ condition.renderAt level ++ " \x7b " ++ thenBranch.renderAt level ++ " \x7d"
  | .cond condition thenBranch (some elseBranch) _ =>
      "if " ++ condition.renderAt level ++ " \x7b " ++ thenBranch.renderAt level ++
        " \x7d" ++ " else \x7b " ++ elseBranch.renderAt level ++ " \x7d"
  | .member base selector _ => base.renderAt level ++ "." ++ selector.render
  | .tuple elems _ => "(" ++ commaSeparated (renderAll level elems) ++ ")"
  | .structLit type fields _ =>
      type ++ " \x7b " ++ commaSeparated (renderFields level fields) ++ " \x7d"
  | .tycon name args _ =>
      if args.isEmpty then name
      else name ++ "<" ++ commaSeparated (renderAll level args) ++ ">"
  | .arrow params result _ =>
      "(" ++ commaSeparated (renderAll level params) ++ ") -> " ++ result.renderAt level
  | .block items _ =>
      if items.isEmpty then "\x7b\x7d" else renderSection level (renderItems (level + 1) items)
termination_by structural e => e

def renderAll (level : Nat) : List Expr → List String
  | [] => []
  | e :: es => e.renderAt level :: renderAll level es
termination_by structural es => es

/-- The text of an expression that may be left out, with what comes before it. -/
def renderOptional (level : Nat) (lead : String) : Option Expr → String
  | none => ""
  | some e => lead ++ e.renderAt level
termination_by structural e => e

def renderParams (level : Nat) : List (Param Expr) → List String
  | [] => []
  | ⟨name, ascription, _⟩ :: rest =>
      (name ++ renderOptional level ": " ascription) :: renderParams level rest
termination_by structural params => params

def renderFields (level : Nat) : List (String × Expr) → List String
  | [] => []
  | (name, value) :: rest => (name ++ ": " ++ value.renderAt level) :: renderFields level rest
termination_by structural fields => fields

/-- The lines of block items. -/
def renderItems (level : Nat) : List (Item Expr Expr) → String
  | [] => ""
  | .binding ⟨name, modifiers, ascription, value, _⟩ :: rest =>
      indentation level ++
        renderBinding modifiers name (renderOptional level ": " ascription)
          (renderOptional level " = " value) ++
        "\n" ++ renderItems level rest
  | .expr e :: rest =>
      indentation level ++ e.renderAt level ++ "\n" ++ renderItems level rest
termination_by structural items => items

end

end Expr

/-- The text of a parameter. -/
def Parameter.renderAt (level : Nat) (p : Parameter) : String :=
  (match p.label with
    | some label => label ++ " "
    | none => "") ++
  p.name ++ ": " ++ p.ascription.renderAt level

/-- The text of a function. -/
def Function.renderAt (level : Nat) (f : Function Expr) : String :=
  renderModifiers f.modifiers ++ "func " ++ f.name ++ "(" ++
    commaSeparated (f.params.map (Parameter.renderAt level)) ++ ")" ++
    Expr.renderOptional level " -> " f.result ++ Expr.renderOptional level " " f.body

namespace Declaration

mutual

/-- The text of a declaration inside bodies of the given depth. -/
def renderAt (level : Nat) : Declaration Expr → String
  | .binding b =>
      renderBinding b.modifiers b.name (Expr.renderOptional level ": " b.ascription)
        (Expr.renderOptional level " = " b.value)
  | .function f => f.renderAt level
  | .type kind name modifiers members _ =>
      renderModifiers modifiers ++ kind.keyword ++ " " ++ name ++ " " ++
        if members.isEmpty then "\x7b\x7d"
        else renderSection level (renderMembers (level + 1) members)
  | .enumCase name _ values _ =>
      "case " ++ name ++
        if values.isEmpty then "" else "(" ++ commaSeparated (Expr.renderAll level values) ++ ")"
  | .trait name modifiers _ => renderModifiers modifiers ++ "trait " ++ name ++ " \x7b\x7d"
termination_by structural d => d

/-- The lines of the members of a type. -/
def renderMembers (level : Nat) : List (Declaration Expr) → String
  | [] => ""
  | d :: ds => indentation level ++ d.renderAt level ++ "\n" ++ renderMembers level ds
termination_by structural ds => ds

end

end Declaration

/-! ## Writing appends the text -/

namespace Writer

/-- At the given depth of indentation, a writer adds the given text and leaves the depth as it
was. -/
def Appends (level : Nat) (writer : Writer) (text : String) : Prop :=
  ∀ buffer, writer.run ⟨buffer, level⟩ = ((), ⟨buffer ++ text, level⟩)

/-- The writers of a list add the texts of another list. -/
inductive AppendsEach (level : Nat) : List Writer → List String → Prop where
  | nil : AppendsEach level [] []
  | cons {writer : Writer} {text : String} {writers : List Writer} {texts : List String}
      (head : Appends level writer text) (tail : AppendsEach level writers texts) :
      AppendsEach level (writer :: writers) (text :: texts)

variable {level : Nat}

theorem appends_pure : Appends level (pure ()) "" := by
  intro buffer
  rw [String.append_empty]
  rfl

theorem appends_emit (text : String) : Appends level (emit text) text :=
  fun _ => rfl

theorem Appends.bind
    {first second : Writer} {text other : String}
    (h : Appends level first text) (h' : Appends level second other) :
    Appends level (do first; second) (text ++ other) := by
  intro buffer
  rw [StateT.run_bind, h buffer]
  exact (h' _).trans (by rw [String.append_assoc])

theorem Appends.finish_eq {writer : Writer} {text : String} (h : Appends 0 writer text) :
    finish writer = text := by
  rw [finish, h ""]
  exact String.empty_append

theorem appends_writeIndent : Appends level writeIndent (indentation level) := by
  have htimes : ∀ n buffer, (writeTimes "    " n).run ⟨buffer, level⟩ =
      ((), ⟨buffer ++ indentation n, level⟩) := by
    intro n
    induction n with
    | zero => exact appends_pure
    | succ n ih => exact (appends_emit "    ").bind ih
  exact htimes level

/-- Every text with a comma and a blank before it. -/
def commaLed : List String → String
  | [] => ""
  | text :: rest => ", " ++ text ++ commaLed rest

theorem commaSeparated_cons (text : String) (rest : List String) :
    commaSeparated (text :: rest) = text ++ commaLed rest := by
  induction rest generalizing text with
  | nil => rw [commaSeparated, commaLed, String.append_empty]
  | cons next rest ih => rw [commaSeparated, ih, commaLed, String.append_assoc, String.append_assoc]

/-- After the first item a list is continued with commas. -/
theorem appends_writeFrom_succ
    {items : List Writer} {texts : List String} (h : AppendsEach level items texts) (index : Nat) :
    Appends level (writeFrom (index + 1) items) (commaLed texts) := by
  induction h generalizing index with
  | nil => exact appends_pure
  | cons head tail ih =>
      have hitem := (appends_emit ", ").bind (head.bind (ih (index + 1)))
      rw [← String.append_assoc] at hitem
      exact hitem

theorem appends_writeList
    {items : List Writer} {texts : List String} (h : AppendsEach level items texts) :
    Appends level (writeList items) (commaSeparated texts) := by
  cases h with
  | nil => exact appends_pure
  | cons head tail =>
      rw [commaSeparated_cons]
      exact head.bind (appends_writeFrom_succ tail 0)

theorem appends_indented {lines : Writer} {text : String} (h : Appends (level + 1) lines text) :
    Appends level (indented lines) text := by
  intro buffer
  have hlines : (indented lines).run ⟨buffer, level⟩ =
      dedent.run (lines.run ⟨buffer, level + 1⟩).2 := rfl
  rw [hlines, h buffer]
  rfl

theorem appends_writeSection {lines : Writer} {text : String} (h : Appends (level + 1) lines text) :
    Appends level (writeSection lines) (renderSection level text) := by
  have hsection := (appends_emit "\x7b").bind ((appends_emit "\n").bind
    ((appends_indented h).bind (appends_writeIndent.bind (appends_emit "\x7d"))))
  rw [← String.append_assoc, ← String.append_assoc, ← String.append_assoc] at hsection
  exact hsection

end Writer

open Writer

theorem appends_writeModifiers (level : Nat) (modifiers : List Modifier) :
    Appends level (writeModifiers modifiers) (renderModifiers modifiers) := by
  induction modifiers with
  | nil => exact appends_pure
  | cons modifier rest ih => exact (appends_emit _).bind ih

theorem appends_writeBinding
    {level : Nat} {ascription value : Writer} {ascriptionText valueText : String}
    (modifiers : List Modifier) (name : String)
    (hascription : Appends level ascription ascriptionText)
    (hvalue : Appends level value valueText) :
    Appends level (writeBinding modifiers name ascription value)
      (renderBinding modifiers name ascriptionText valueText) := by
  have hbinding := (appends_writeModifiers level modifiers).bind ((appends_emit "let ").bind
    ((appends_emit name).bind (hascription.bind hvalue)))
  simpa only [writeBinding, renderBinding, String.append_assoc] using hbinding

/-! ## Expressions -/

namespace Expr

mutual

/-- Writing an expression appends its text at the depth of indentation that has been reached. -/
theorem appends_write : ∀ (e : Expr) (level : Nat), Appends level e.write (e.renderAt level)
  | .literal value span, level => appends_emit _
  | .ident name span, level => appends_emit _
  | .closure params body span, level => by
      have happends := (appends_emit "\x7b ").bind
        ((appends_writeList (appends_writeParams params level)).bind
          ((appends_emit " in ").bind ((appends_write body level).bind (appends_emit " \x7d"))))
      simpa only [write, renderAt, String.append_assoc] using happends
  | .app fn args span, level => by
      have happends := (appends_write fn level).bind ((appends_emit "(").bind
        ((appends_writeList (appends_writeAll args level)).bind (appends_emit ")")))
      simpa only [write, renderAt, String.append_assoc] using happends
  | .cond condition thenBranch none span, level => by
      have happends := (appends_emit "if ").bind ((appends_write condition level).bind
        ((appends_emit " \x7b ").bind ((appends_write thenBranch level).bind
          (appends_emit " \x7d"))))
      simpa only [write, renderAt, String.append_assoc] using happends
  | .cond condition thenBranch (some elseBranch) span, level => by
      have happends := (appends_emit "if ").bind ((appends_write condition level).bind
        ((appends_emit " \x7b ").bind ((appends_write thenBranch level).bind
          ((appends_emit " \x7d").bind ((appends_emit " else \x7b ").bind
            ((appends_write elseBranch level).bind (appends_emit " \x7d")))))))
      simpa only [write, renderAt, String.append_assoc] using happends
  | .member base selector span, level => by
      have happends := (appends_write base level).bind
        ((appends_emit ".").bind (appends_emit selector.render))
      simpa only [write, renderAt, String.append_assoc] using happends
  | .tuple elems span, level => by
      have happends := (appends_emit "(").bind
        ((appends_writeList (appends_writeAll elems level)).bind (appends_emit ")"))
      simpa only [write, renderAt, String.append_assoc] using happends
  | .structLit type fields span, level => by
      have happends := (appends_emit type).bind ((appends_emit " \x7b ").bind
        ((appends_writeList (appends_writeFields fields level)).bind (appends_emit " \x7d")))
      simpa only [write, renderAt, String.append_assoc] using happends
  | .tycon name args span, level => by
      rw [write, renderAt]
      split
      · exact appends_emit name
      · have happends := (appends_emit name).bind ((appends_emit "<").bind
          ((appends_writeList (appends_writeAll args level)).bind (appends_emit ">")))
        simpa only [String.append_assoc] using happends
  | .arrow params result span, level => by
      have happends := (appends_emit "(").bind
        ((appends_writeList (appends_writeAll params level)).bind
          ((appends_emit ") -> ").bind (appends_write result level)))
      simpa only [write, renderAt, String.append_assoc] using happends
  | .block items span, level => by
      rw [write, renderAt]
      split
      · exact appends_emit _
      · exact appends_writeSection (appends_writeItems items (level + 1))
termination_by structural e => e

theorem appends_writeAll :
    ∀ (es : List Expr) (level : Nat), AppendsEach level (writeAll es) (renderAll level es)
  | [], _ => .nil
  | e :: es, level => .cons (appends_write e level) (appends_writeAll es level)
termination_by structural es => es

theorem appends_writeOptional (lead : String) :
    ∀ (e : Option Expr) (level : Nat),
      Appends level (writeOptional lead e) (renderOptional level lead e)
  | none, _ => appends_pure
  | some e, level => (appends_emit lead).bind (appends_write e level)
termination_by structural e => e

theorem appends_writeParams :
    ∀ (params : List (Param Expr)) (level : Nat),
      AppendsEach level (writeParams params) (renderParams level params)
  | [], _ => .nil
  | ⟨name, ascription, _⟩ :: rest, level =>
      .cons ((appends_emit name).bind (appends_writeOptional ": " ascription level))
        (appends_writeParams rest level)
termination_by structural params => params

theorem appends_writeFields :
    ∀ (fields : List (String × Expr)) (level : Nat),
      AppendsEach level (writeFields fields) (renderFields level fields)
  | [], _ => .nil
  | (name, value) :: rest, level => by
      have happends := (appends_emit name).bind
        ((appends_emit ": ").bind (appends_write value level))
      rw [← String.append_assoc] at happends
      exact .cons happends (appends_writeFields rest level)
termination_by structural fields => fields

theorem appends_writeItems :
    ∀ (items : List (Item Expr Expr)) (level : Nat),
      Appends level (writeItems items) (renderItems level items)
  | [], level => appends_pure
  | .binding ⟨name, modifiers, ascription, value, span⟩ :: rest, level => by
      have hbinding := appends_writeBinding modifiers name
        (appends_writeOptional ": " ascription level) (appends_writeOptional " = " value level)
      have happends := appends_writeIndent.bind
        (hbinding.bind ((appends_emit "\n").bind (appends_writeItems rest level)))
      simpa only [writeItems, renderItems, newline, String.append_assoc] using happends
  | .expr e :: rest, level => by
      have happends := appends_writeIndent.bind
        ((appends_write e level).bind ((appends_emit "\n").bind (appends_writeItems rest level)))
      simpa only [writeItems, renderItems, newline, String.append_assoc] using happends
termination_by structural items => items

end

theorem render_eq_renderAt (e : Expr) : e.render = e.renderAt 0 :=
  (appends_write e 0).finish_eq

end Expr

/-! ## Declarations -/

theorem Parameter.appends_write (p : Parameter) (level : Nat) :
    Appends level p.write (p.renderAt level) := by
  have hname := (appends_emit p.name).bind
    ((appends_emit ": ").bind (p.ascription.appends_write level))
  rw [Parameter.write, Parameter.renderAt]
  cases p.label with
  | none => simpa only [String.empty_append, String.append_assoc] using hname
  | some label =>
      have happends := (appends_emit label).bind ((appends_emit " ").bind hname)
      simpa only [String.append_assoc] using happends

theorem Parameter.appends_write_each (params : List Parameter) (level : Nat) :
    AppendsEach level (params.map Parameter.write) (params.map (Parameter.renderAt level)) := by
  induction params with
  | nil => exact .nil
  | cons p rest ih => exact .cons (p.appends_write level) ih

theorem Function.appends_write (f : Function Expr) (level : Nat) :
    Appends level f.write (f.renderAt level) := by
  have happends := (appends_writeModifiers level f.modifiers).bind ((appends_emit "func ").bind
    ((appends_emit f.name).bind ((appends_emit "(").bind
      ((appends_writeList (Parameter.appends_write_each f.params level)).bind
        ((appends_emit ")").bind ((Expr.appends_writeOptional " -> " f.result level).bind
          (Expr.appends_writeOptional " " f.body level)))))))
  simpa only [Function.write, Function.renderAt, String.append_assoc] using happends

namespace Declaration

mutual

/-- Writing a declaration appends its text at the depth of indentation that has been reached. -/
theorem appends_write :
    ∀ (d : Declaration Expr) (level : Nat), Appends level d.write (d.renderAt level)
  | .binding b, level =>
      appends_writeBinding b.modifiers b.name (Expr.appends_writeOptional ": " b.ascription level)
        (Expr.appends_writeOptional " = " b.value level)
  | .function f, level => f.appends_write level
  | .type kind name modifiers members span, level => by
      have hbody : Appends level
          (if members.isEmpty then emit "\x7b\x7d" else writeSection (writeMembers members))
          (if members.isEmpty then "\x7b\x7d"
            else renderSection level (renderMembers (level + 1) members)) := by
        split
        · exact appends_emit _
        · exact appends_writeSection (appends_writeMembers members (level + 1))
      have happends := (appends_writeModifiers level modifiers).bind
        ((appends_emit kind.keyword).bind ((appends_emit " ").bind ((appends_emit name).bind
          ((appends_emit " ").bind hbody))))
      simpa only [write, renderAt, String.append_assoc] using happends
  | .enumCase name modifiers values span, level => by
      have hvalues : Appends level
          (if values.isEmpty then pure ()
            else do emit "("; writeList (Expr.writeAll values); emit ")")
          (if values.isEmpty then ""
            else "(" ++ commaSeparated (Expr.renderAll level values) ++ ")") := by
        split
        · exact appends_pure
        · have happends := (appends_emit "(").bind
            ((appends_writeList (Expr.appends_writeAll values level)).bind (appends_emit ")"))
          rwa [← String.append_assoc] at happends
      have happends := (appends_emit "case ").bind ((appends_emit name).bind hvalues)
      rw [← String.append_assoc] at happends
      exact happends
  | .trait name modifiers span, level => by
      have happends := (appends_writeModifiers level modifiers).bind
        ((appends_emit "trait ").bind ((appends_emit name).bind (appends_emit " \x7b\x7d")))
      simpa only [write, renderAt, String.append_assoc] using happends
termination_by structural d => d

theorem appends_writeMembers :
    ∀ (ds : List (Declaration Expr)) (level : Nat),
      Appends level (writeMembers ds) (renderMembers level ds)
  | [], level => appends_pure
  | d :: ds, level => by
      have happends := appends_writeIndent.bind
        ((appends_write d level).bind ((appends_emit "\n").bind (appends_writeMembers ds level)))
      simpa only [writeMembers, renderMembers, newline, String.append_assoc] using happends
termination_by structural ds => ds

end

theorem render_eq_renderAt (d : Declaration Expr) : d.render = d.renderAt 0 :=
  (appends_write d 0).finish_eq

end Declaration

end Ascribe
