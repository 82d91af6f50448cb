import SchemaBridge.Text.Blank
import SchemaBridge.Text.Delimited
import SchemaBridge.Text.Digit
import SchemaBridge.Text.Hexadecimal
import SchemaBridge.Text.Lines

/-!
# String literals

A string is written on one line with escapes, or as a block between triple quotes.

* `unescapeLine?`: the characters of a string on one line;
* `blockBody?`, `blockText`: the text between triple quotes and the characters it stands for,
  without the indentation that its lines share and without blank lines at either end;
* `stringText`: the written form of a string, a block if it has several lines of ordinary
  characters.
-/

namespace SchemaBridge.Graphql

/-! ### Strings on one line -/

/-- The character that four characters after `\u` denote; the first may be a plus sign. -/
def codeEscape? (a b c d : Char) : Option Char :=
  (Text.hexNumber? (if a = '+' then [b, c, d] else [a, b, c, d])).bind Text.charOfCode?

/-- The character after a backslash that stands for one character. -/
def simpleEscape? (c : Char) : Option Char :=
  if c = '"' ∨ c = '\\' ∨ c = '/' then some c
  else if c = 'b' then some (Char.ofNat 0x10)
  else if c = 'f' then some (Char.ofNat 0x0C)
  else if c = 'n' then some '\n'
  else if c = 'r' then some '\r'
  else if c = 't' then some '\t'
  else none

/-- The characters of a string without its escapes. A line feed and an unknown escape are
refused. -/
def unescapeLine? : List Char → Option (List Char)
  | [] => some []
  | '\\' :: 'u' :: a :: b :: c :: d :: rest => do
    let single ← codeEscape? a b c d
    return single :: (← unescapeLine? rest)
  | '\\' :: c :: rest => do
    let single ← simpleEscape? c
    return single :: (← unescapeLine? rest)
  | c :: rest => do
    if c = '\n' ∨ c = '\\' then none
    return c :: (← unescapeLine? rest)

/-! ### Blocks -/

/-- The characters up to the closing triple quote and what follows it. A triple quote right
after a backslash belongs to the text; `escaped` says whether one precedes. -/
def blockBody? (escaped : Bool) : List Char → Option (List Char × List Char)
  | [] => none
  | '"' :: '"' :: '"' :: rest =>
    if escaped then
      (blockBody? false rest).map fun (body, after) => ('"' :: '"' :: '"' :: body, after)
    else some ([], rest)
  | c :: rest => (blockBody? (c = '\\') rest).map fun (body, after) => (c :: body, after)

/-- What follows a block is shorter than the text from the opening quotes on. -/
theorem length_after_blockBody {escaped : Bool} {cs body after : List Char}
    (h : blockBody? escaped cs = some (body, after)) : after.length < cs.length := by
  fun_induction blockBody? escaped cs generalizing body after with
  | case1 => simp at h
  | case2 rest ih =>
    simp only [Option.map_eq_some_iff, Prod.mk.injEq] at h
    obtain ⟨⟨b, a⟩, hb, -, rfl⟩ := h
    have := ih hb
    simp only [List.length_cons]
    omega
  | case3 escaped rest =>
    simp only [Option.some.injEq, Prod.mk.injEq] at h
    simp only [← h.2, List.length_cons]
    omega
  | case4 escaped c rest _ ih =>
    simp only [Option.map_eq_some_iff, Prod.mk.injEq] at h
    obtain ⟨⟨b, a⟩, hb, -, rfl⟩ := h
    have := ih hb
    simp only [List.length_cons]
    omega

/-- The number of bytes of a text. -/
def byteLength (cs : List Char) : Nat :=
  cs.foldr (fun c bytes => c.utf8Size + bytes) 0

/-- The text without as many leading characters as fill a number of bytes. -/
def dropBytes (bytes : Nat) : List Char → List Char
  | [] => []
  | c :: rest => if bytes = 0 then c :: rest else dropBytes (bytes - c.utf8Size) rest

/-- Whether a line has nothing but blank characters. -/
def isBlankLine (line : List Char) : Bool :=
  line.all Text.isBlank

/-- The indentation of a line in bytes. -/
def lineIndent (line : List Char) : Nat :=
  byteLength (line.takeWhile Text.isBlank)

/-- The least indentation of the lines that are not blank; zero if all are. -/
def commonIndent (lines : List (List Char)) : Nat :=
  (((lines.filter fun line => !isBlankLine line).map lineIndent).min?).getD 0

/-- A line without the shared indentation, if it is long enough. -/
def unindent (indent : Nat) (line : List Char) : List Char :=
  if indent ≤ byteLength line then dropBytes indent line else line

/-- A text with every escaped triple quote replaced by a plain one. -/
def unescapeBlock : List Char → List Char
  | [] => []
  | '\\' :: '"' :: '"' :: '"' :: rest => '"' :: '"' :: '"' :: unescapeBlock rest
  | c :: rest => c :: unescapeBlock rest

/-- The lines without blank ones at either end. -/
def trimBlankLines (lines : List (List Char)) : List (List Char) :=
  ((lines.dropWhile isBlankLine).reverse.dropWhile isBlankLine).reverse

/-- The text that the characters between triple quotes stand for. The first line takes no part
in the shared indentation. -/
def blockText (body : List Char) : List Char :=
  match Text.lines body with
  | [] => []
  | first :: rest =>
    let indented := first :: rest.map (unindent (commonIndent rest))
    unescapeBlock (['\n'].intercalate (trimBlankLines indented))

/-! ### Writing -/

/-- A character that a block can hold as it is, and a string on one line as well. -/
def isPlain (c : Char) : Bool :=
  0x20 ≤ c.toNat && c.toNat ≤ 0xFFFF

/-- Whether a string is written as a block: it has a line feed, and all its characters are
plain, line feeds, carriage returns or tabs. -/
def isBlockText (cs : List Char) : Bool :=
  cs.contains '\n' && cs.all fun c => c = '\n' || c = '\r' || c = '\t' || isPlain c

/-- One character of a string on one line. A character that is not plain is written with its
code in decimal, in at least four digits. -/
def escapedChar (c : Char) : String :=
  if c = '\r' then "\\r"
  else if c = '\n' then "\\n"
  else if c = '\t' then "\\t"
  else if c = '"' then "\\\""
  else if c = '\\' then "\\\\"
  else if isPlain c then c.toString
  else
    let digits := Text.digitsOf c.toNat
    "\\u" ++ String.ofList (List.replicate (4 - digits.length) '0' ++ digits)

/-- A text with every triple quote escaped. -/
def escapeBlock : List Char → List Char
  | [] => []
  | '"' :: '"' :: '"' :: rest => '\\' :: '"' :: '"' :: '"' :: escapeBlock rest
  | c :: rest => c :: escapeBlock rest

/-- A run of spaces. -/
def spaces (n : Nat) : String :=
  String.ofList (List.replicate n ' ')

/-- One line of a block; a blank line is empty. -/
def blockLine (indent : Nat) (line : List Char) : String :=
  (if isBlankLine line then "" else spaces indent ++ String.ofList (escapeBlock line)) ++ "\n"

/-- The written form of a string on a line with an indentation. -/
def stringText (indent : Nat) (s : String) : String :=
  if isBlockText s.toList then
    "\"\"\"\n" ++ String.join ((Text.lines s.toList).map (blockLine (indent + 2))) ++
      spaces indent ++ "\"\"\""
  else "\"" ++ String.join (s.toList.map escapedChar) ++ "\""

end SchemaBridge.Graphql
