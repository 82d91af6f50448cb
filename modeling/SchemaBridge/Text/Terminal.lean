import SchemaBridge.Text.Hexadecimal

/-!
# Text for a terminal

A line of a log is shown on a terminal, which acts on some control characters. These are written
out instead.

* `terminalText`: the text with such control characters written out.
-/

namespace SchemaBridge.Text

/-- The single-byte control characters that begin or steer terminal sequences: bell, backspace,
form feed, escape and delete. -/
def steersTerminal (c : Char) : Bool :=
  [0x07, 0x08, 0x0C, 0x1B, 0x7F].contains c.toNat

/-- One character for a terminal. -/
def terminalChar (c : Char) : String :=
  if steersTerminal c then "\\x" ++ hexText 2 c.toNat
  else if 0x80 ≤ c.toNat && c.toNat ≤ 0x9F then
    "\\u\x7b" ++ hexText 1 c.toNat ++ "\x7d"
  else c.toString

/-- The text with control characters that a terminal acts on written out. -/
def terminalText (s : String) : String :=
  String.join (s.toList.map terminalChar)

end SchemaBridge.Text
