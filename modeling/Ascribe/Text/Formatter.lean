/-!
# Writing indented text

A formatter holds what has been written so far and the depth of indentation.  A writer adds to the
text, piece by piece, and may change the depth on the way.
-/

namespace Ascribe

/-- What has been written, and how deep the next line is indented. -/
structure Formatter where
  buffer : String
  level : Nat

abbrev Writer :=
  StateM Formatter Unit

namespace Writer

def emit (text : String) : Writer :=
  modify fun f => { f with buffer := f.buffer ++ text }

def newline : Writer :=
  emit "\n"

def indent : Writer :=
  modify fun f => { f with level := f.level + 1 }

def dedent : Writer :=
  modify fun f => { f with level := f.level - 1 }

/-- Write a text several times. -/
def writeTimes (text : String) : Nat → Writer
  | 0 => pure ()
  | n + 1 => do
      emit text
      writeTimes text n

/-- Write the blanks before a line. -/
def writeIndent : Writer := do
  writeTimes "    " (← get).level

/-- Write one item after the other, given the number of items before them. -/
def writeFrom : Nat → List Writer → Writer
  | _, [] => pure ()
  | 0, item :: rest => do
      item
      writeFrom 1 rest
  | index + 1, item :: rest => do
      emit ", "
      item
      writeFrom (index + 2) rest

/-- Write a list, with a comma and a blank before every item but the first. -/
def writeList (items : List Writer) : Writer :=
  writeFrom 0 items

/-- Write one level deeper. -/
def indented (lines : Writer) : Writer := do
  indent
  lines
  dedent

/-- Write indented lines between braces. -/
def writeSection (lines : Writer) : Writer := do
  emit "\x7b"
  newline
  indented lines
  writeIndent
  emit "\x7d"

/-- What is written when there is nothing before it. -/
def finish (writer : Writer) : String :=
  (writer.run ⟨"", 0⟩).2.buffer

end Writer

end Ascribe
