import SchemaBridge.Text.Digit

/-!
# Names

GraphQL names are ASCII: a letter or an underscore, then letters, digits and underscores.

* `isNameStart`, `isNamePart`: the two character classes;
* `isName`: whether a text is a name.
-/

namespace SchemaBridge.Graphql

/-- A character that may begin a name. -/
def isNameStart (c : Char) : Bool :=
  c = '_' || ('a' ≤ c && c ≤ 'z') || ('A' ≤ c && c ≤ 'Z')

/-- A character that may follow in a name. -/
def isNamePart (c : Char) : Bool :=
  isNameStart c || Text.isDigit c

/-- Whether the characters form a name. -/
def isName : List Char → Bool
  | [] => false
  | c :: cs => isNameStart c && cs.all isNamePart

end SchemaBridge.Graphql
