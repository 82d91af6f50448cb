/-!
# Ranges of characters

A set of characters as the inclusive ranges of their code points.

* `CharRanges.contains`: whether a character is in one of the ranges.
-/

namespace SchemaBridge.Text

/-- Inclusive ranges of code points. -/
abbrev CharRanges := List (Nat × Nat)

/-- Whether a character is in one of the ranges. -/
def CharRanges.contains (ranges : CharRanges) (c : Char) : Bool :=
  ranges.any fun (first, last) => first ≤ c.toNat && c.toNat ≤ last

end SchemaBridge.Text
