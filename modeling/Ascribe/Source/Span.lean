/-!
# Spans

A span is a stretch of a source text, from a line and column up to but not including
another.  Lines and columns count from zero, columns in bytes.  A node that was made
by the program and not read from a text has the blank span.
-/

namespace Ascribe

/-- A stretch of a source text, which is kept as a whole. -/
structure Span where
  startLine : Nat
  startCol : Nat
  endLine : Nat
  endCol : Nat
  source : String
  deriving Inhabited, DecidableEq

/-- The span of a node that comes from no source text. -/
def Span.blank : Span :=
  ⟨0, 0, 0, 0, ""⟩

end Ascribe
