/-!
# Comma separated text

Every list that is printed (arguments, parameters, components, fields) puts a
comma and a blank between neighbours and nothing around the whole.
-/

namespace Ascribe.Text

/-- The given pieces with a comma and a blank between neighbours. -/
def commaSeparated : List String → String
  | [] => ""
  | [piece] => piece
  | piece :: next :: rest => piece ++ ", " ++ commaSeparated (next :: rest)

end Ascribe.Text
