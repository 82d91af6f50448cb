import SchemaBridge.Decimal.Layout
import SchemaBridge.Json.Value
import SchemaBridge.Text.Hexadecimal

/-!
# JSON text

* `Number.text`: integers in decimal; floating-point numbers with the fewest digits that read
  back, positionally from `0.00001` up to seventeen digits before the point, always with a point
  or an exponent;
* `Value.compact`: a value on one line without blanks;
* `Value.pretty`: one entry or item a line, two spaces a level, empty arrays and objects closed
  at once.
-/

namespace SchemaBridge.Json

/-- The layout of floating-point numbers. Whole numbers keep a fraction digit. -/
def floatLayout : Layout where
  positional := some (-4, 16)
  wholeSuffix := ".0"
  tie := .toEven

/-- The text of a number. -/
def Number.text : Number → String
  | .int n => Text.intText n
  | .float x => floatLayout.write x

/-- One character of a string: quote, backslash and control characters are escaped. -/
def escapedChar (c : Char) : String :=
  if c = '"' then "\\\""
  else if c = '\\' then "\\\\"
  else if c = '\n' then "\\n"
  else if c = '\r' then "\\r"
  else if c = '\t' then "\\t"
  else if c.toNat = 8 then "\\b"
  else if c.toNat = 12 then "\\f"
  else if c.toNat < 32 then "\\u" ++ Text.hexText 4 c.toNat
  else c.toString

/-- The text of a string. -/
def stringText (s : String) : String :=
  "\"" ++ String.join (s.toList.map escapedChar) ++ "\""

mutual

/-- The text of a value without blanks. -/
def Value.compact : Value → String
  | .null => "null"
  | .boolean b => if b then "true" else "false"
  | .number n => n.text
  | .string s => stringText s
  | .array items => "[" ++ ",".intercalate (compactItems items) ++ "]"
  | .object entries => "\x7b" ++ ",".intercalate (compactEntries entries) ++ "\x7d"

/-- The texts of the items. -/
def compactItems : List Value → List String
  | [] => []
  | v :: rest => v.compact :: compactItems rest

/-- The texts of the entries. -/
def compactEntries : List (String × Value) → List String
  | [] => []
  | (k, v) :: rest => (stringText k ++ ":" ++ v.compact) :: compactEntries rest

end

/-- A line break and the indentation of a level. -/
def lineBreak (level : Nat) : String :=
  "\n" ++ String.ofList (List.replicate (2 * level) ' ')

mutual

/-- The text of a value over several lines, at a level of indentation. -/
def Value.prettyAt (level : Nat) : Value → String
  | .null => "null"
  | .boolean b => if b then "true" else "false"
  | .number n => n.text
  | .string s => stringText s
  | .array [] => "[]"
  | .array items =>
    "[" ++ ",".intercalate (prettyItems (level + 1) items) ++ lineBreak level ++ "]"
  | .object [] => "\x7b\x7d"
  | .object entries =>
    "\x7b" ++ ",".intercalate (prettyEntries (level + 1) entries) ++ lineBreak level ++ "\x7d"

/-- The items, each on lines of its own. -/
def prettyItems (level : Nat) : List Value → List String
  | [] => []
  | v :: rest => (lineBreak level ++ v.prettyAt level) :: prettyItems level rest

/-- The entries, each on lines of its own. -/
def prettyEntries (level : Nat) : List (String × Value) → List String
  | [] => []
  | (k, v) :: rest =>
    (lineBreak level ++ stringText k ++ ": " ++ v.prettyAt level) :: prettyEntries level rest

end

/-- The text of a value over several lines. -/
def Value.pretty (v : Value) : String :=
  v.prettyAt 0

end SchemaBridge.Json
