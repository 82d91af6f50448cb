/-!
# Lines

A line ends at a line feed, and a carriage return right before it belongs to the line end. A
line end at the end of a text begins no further line.

* `lines`: the lines of a text.
-/

namespace SchemaBridge.Text

/-- The lines of a text, where `line` holds the characters of the current line, last one
first. -/
def linesFrom (line : List Char) : List Char → List (List Char)
  | [] => if line.isEmpty then [] else [line.reverse]
  | '\r' :: '\n' :: rest => line.reverse :: linesFrom [] rest
  | '\n' :: rest => line.reverse :: linesFrom [] rest
  | c :: rest => linesFrom (c :: line) rest

/-- The lines of a text. -/
def lines (cs : List Char) : List (List Char) :=
  linesFrom [] cs

end SchemaBridge.Text
