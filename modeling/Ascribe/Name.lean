/-!
# Dotted names

A nested type is named by the name of its owner, a dot and its own name.
-/

namespace Ascribe.Name

/-- The name of something declared inside an owner. -/
def qualified (owner name : String) : String :=
  owner ++ "." ++ name

/-- The parts of a text between its dots: the first part and the parts after it. -/
def splitDots : List Char → List Char × List (List Char)
  | [] => ([], [])
  | c :: rest =>
      let (first, others) := splitDots rest
      if c = '.' then ([], first :: others) else (c :: first, others)

/-- The first segment of a dotted name and the segments after it. -/
def segments (name : String) : String × List String :=
  let (first, others) := splitDots name.toList
  (String.ofList first, others.map String.ofList)

end Ascribe.Name
