import SchemaBridge.Text.CharRanges

/-!
# Blank characters

The characters with the Unicode property `White_Space`, and the trimming of text by that
property. Zero-width spaces and the byte order mark do not have the property and stay.

* `isBlank`: the 25 code points of the property;
* `trimStart`, `trimEnd`, `trim`: drop blank characters at the ends of a text.
-/

namespace SchemaBridge.Text

/-- The code points of `White_Space`, in ascending order. -/
def blankRanges : CharRanges :=
  [(0x09, 0x0D), (0x20, 0x20), (0x85, 0x85), (0xA0, 0xA0), (0x1680, 0x1680),
    (0x2000, 0x200A), (0x2028, 0x2029), (0x202F, 0x202F), (0x205F, 0x205F), (0x3000, 0x3000)]

/-- Whether a character has the Unicode property `White_Space`. -/
def isBlank (c : Char) : Bool :=
  blankRanges.contains c

/-- The text without its leading blank characters. -/
def trimStart (cs : List Char) : List Char :=
  cs.dropWhile isBlank

/-- The text without its trailing blank characters. -/
def trimEnd (cs : List Char) : List Char :=
  (cs.reverse.dropWhile isBlank).reverse

/-- The text without blank characters at either end. -/
def trim (cs : List Char) : List Char :=
  trimEnd (trimStart cs)

/-- Whether a text has nothing but blank characters. -/
def isBlankText (s : String) : Bool :=
  s.toList.all isBlank

/-! ### Trimming only shortens -/

/-- Dropping leading characters does not lengthen a list. -/
theorem length_dropWhile_le {α : Type} (p : α → Bool) (l : List α) :
    (l.dropWhile p).length ≤ l.length :=
  (List.dropWhile_sublist p).length_le

/-- Trimming at the front does not lengthen a text. -/
theorem length_trimStart_le (cs : List Char) : (trimStart cs).length ≤ cs.length :=
  length_dropWhile_le _ _

/-- Trimming at the back does not lengthen a text. -/
theorem length_trimEnd_le (cs : List Char) : (trimEnd cs).length ≤ cs.length := by
  have h := length_dropWhile_le isBlank cs.reverse
  simpa [trimEnd] using h

/-- Trimming does not lengthen a text. -/
theorem length_trim_le (cs : List Char) : (trim cs).length ≤ cs.length :=
  Nat.le_trans (length_trimEnd_le _) (length_trimStart_le _)

end SchemaBridge.Text
