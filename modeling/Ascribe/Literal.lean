import Ascribe.Number.Binary64
import Ascribe.Text.Quoted
import Ascribe.Ty.Basic

/-!
# Literals
-/

namespace Ascribe

/-- The constants of the language. -/
inductive Literal where
  | int (value : Int)
  | float (value : Number.Binary64)
  | bool (value : Bool)
  | string (value : String)
  deriving Inhabited, DecidableEq

namespace Literal

def ty : Literal → Ty
  | .int _ => .int
  | .float _ => .float
  | .bool _ => .bool
  | .string _ => .string

def render : Literal → String
  | .int value => toString value
  | .float value => value.render
  | .bool value => if value then "true" else "false"
  | .string value => Text.quoted value

end Literal

end Ascribe
