import SchemaBridge.Json.Token
import SchemaBridge.Text.Front

/-!
# Reading JSON

* `readOrdered?`: the value that a text denotes, with the entries of every object in the order
  of the text and none dropped;
* `read?`: the canonical value that a text denotes.

A text nests at most `maxDepth` arrays and objects, and nothing but blanks follows the value.
-/

namespace SchemaBridge.Json

/-- How many arrays and objects may be open at once. -/
def maxDepth : Nat := 127

mutual

/-- Reads one value; `depth` is how many arrays and objects may still be opened. -/
def readValue? (depth : Nat) (ts : List Token) : Option (Text.Front Token Value ts.length) :=
  match ts with
  | .null :: rest => some ⟨.null, rest, Text.length_lt_cons _ rest⟩
  | .boolean b :: rest => some ⟨.boolean b, rest, Text.length_lt_cons _ rest⟩
  | .number n :: rest => some ⟨.number n, rest, Text.length_lt_cons _ rest⟩
  | .string s :: rest => some ⟨.string s, rest, Text.length_lt_cons _ rest⟩
  | .beginArray :: .endArray :: rest =>
    if depth = 0 then none else some ⟨.array [], rest, Text.length_lt_cons_cons _ _ rest⟩
  | .beginObject :: .endObject :: rest =>
    if depth = 0 then none else some ⟨.object [], rest, Text.length_lt_cons_cons _ _ rest⟩
  | .beginArray :: rest =>
    if depth = 0 then none
    else
      (readItems? (depth - 1) rest).map fun r =>
        (r.map .array).widen (Text.length_le_cons _ rest)
  | .beginObject :: rest =>
    if depth = 0 then none
    else
      (readEntries? (depth - 1) rest).map fun r =>
        (r.map .object).widen (Text.length_le_cons _ rest)
  | _ => none
termination_by (ts.length, 0)

/-- Reads the items of an array and its closing bracket. -/
def readItems? (depth : Nat) (ts : List Token) : Option (Text.Front Token (List Value) ts.length) :=
  match readValue? depth ts with
  | none => none
  | some ⟨v, .endArray :: rest, h⟩ => some ⟨[v], rest, by grind⟩
  | some ⟨v, .comma :: rest, h⟩ =>
    have : rest.length < ts.length := by grind
    (readItems? depth rest).map fun r => (r.map (v :: ·)).widen (by omega)
  | some _ => none
termination_by (ts.length, 1)

/-- Reads the entries of an object and its closing bracket. -/
def readEntries? (depth : Nat) (ts : List Token) :
    Option (Text.Front Token (List (String × Value)) ts.length) :=
  match ts with
  | .string key :: .colon :: rest =>
    match readValue? depth rest with
    | none => none
    | some ⟨v, .endObject :: rest', h⟩ => some ⟨[(key, v)], rest', by grind⟩
    | some ⟨v, .comma :: rest', h⟩ =>
      have : rest'.length < rest.length := by grind
      (readEntries? depth rest').map fun r => (r.map ((key, v) :: ·)).widen (by grind)
    | some _ => none
  | _ => none
termination_by (ts.length, 1)

end

/-- The value that a text denotes, with the entries of objects as they stand in the text. -/
def readOrdered? (text : String) : Option Value := do
  let tokens ← Token.scan? text.toList
  let r ← readValue? maxDepth tokens
  if r.rest.isEmpty then some r.value else none

/-- The canonical value that a text denotes. -/
def read? (text : String) : Option Value :=
  (readOrdered? text).map Value.canonical

end SchemaBridge.Json
