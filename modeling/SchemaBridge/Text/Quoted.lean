import SchemaBridge.Text.Extending
import SchemaBridge.Text.Hexadecimal
import SchemaBridge.Text.Invisible
import SchemaBridge.Text.Unassigned

/-!
# Quoted text

A text between double quotes as it appears inside messages: the quote and the backslash are
escaped, and so is every character that a reader could not make out by itself.

* `isLegible`: characters that are shown as they are;
* `quoted`: the quoted form of a text.
-/

namespace SchemaBridge.Text

/-- Whether a character has a look of its own. -/
def isLegible (c : Char) : Bool :=
  !(isExtendingMark c || isInvisible c || isUnassigned c)

/-- One character of a quoted text. -/
def quotedChar (c : Char) : String :=
  if c = '"' then "\\\""
  else if c = '\\' then "\\\\"
  else if c = '\n' then "\\n"
  else if c = '\r' then "\\r"
  else if c = '\t' then "\\t"
  else if c.toNat = 0 then "\\0"
  else if isLegible c then c.toString
  else "\\u\x7b" ++ hexText 1 c.toNat ++ "\x7d"

/-- The text between double quotes, with quotes, backslashes and illegible characters
escaped. -/
def quoted (s : String) : String :=
  "\"" ++ String.join (s.toList.map quotedChar) ++ "\""

end SchemaBridge.Text
