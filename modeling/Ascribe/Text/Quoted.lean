import Ascribe.Text.Unprinted

/-!
# Quoted text

A text is shown between double quotes.  The quote, the backslash and the common
controls have short escapes; any other character without a printed shape is written
with its number in braces.
-/

namespace Ascribe.Text

/-- A character by its number: a backslash, `u` and lower case hexadecimal digits in
braces. -/
def escapeByNumber (c : Char) : List Char :=
  '\\' :: 'u' :: '\x7b' :: Nat.toDigits 16 c.toNat ++ ['\x7d']

/-- A character as it stands inside a quoted text. -/
def escapeChar (c : Char) : List Char :=
  if c = '"' then ['\\', '"']
  else if c = '\\' then ['\\', '\\']
  else if c = '\n' then ['\\', 'n']
  else if c = '\r' then ['\\', 'r']
  else if c = '\t' then ['\\', 't']
  else if c.toNat = 0 then ['\\', '0']
  else if isUnprinted c then escapeByNumber c
  else [c]

/-- A text between double quotes. -/
def quoted (text : String) : String :=
  String.ofList ('"' :: text.toList.flatMap escapeChar ++ ['"'])

end Ascribe.Text
