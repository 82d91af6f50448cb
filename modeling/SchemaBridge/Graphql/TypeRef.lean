import SchemaBridge.Graphql.Name
import SchemaBridge.Text.Blank

/-!
# Type references

The type of a variable or argument: a named type, a list of a type, or a type that admits no
`null`.

* `TypeRef.display`: the text of a type, without blanks;
* `TypeRef.parse`: the type that a text denotes. Blanks may stand around the name, the
  brackets and the mark `!`; one type carries at most one mark;
* `TypeRefError.message`: the whole text and the reason why it denotes no type.
-/

namespace SchemaBridge.Graphql

/-- A reference to a type. -/
inductive TypeRef where
  | named (name : String)
  | list (item : TypeRef)
  | nonNull (inner : TypeRef)
deriving DecidableEq, Repr, Inhabited

/-- The text of a type: `Name`, `[item]` or `inner!`. -/
def TypeRef.display : TypeRef → String
  | .named name => name
  | .list item => "[" ++ item.display ++ "]"
  | .nonNull inner => inner.display ++ "!"

/-- Why a text denotes no type. -/
inductive TypeRefFault where
  | doubledMark
  | unclosedList
  | missingName
  | malformedName
deriving DecidableEq, Repr

/-- The wording of a fault. -/
def TypeRefFault.message : TypeRefFault → String
  | .doubledMark => "a type may only be marked non-null once"
  | .unclosedList => "unclosed `[` in list type"
  | .missingName => "missing type name"
  | .malformedName => "type names must match /[_A-Za-z][_0-9A-Za-z]*/"

/-- A text that denotes no type, kept as it was given, with the first fault found in it. -/
structure TypeRefError where
  input : String
  fault : TypeRefFault
deriving DecidableEq, Repr

/-- The wording of the error. -/
def TypeRefError.message (e : TypeRefError) : String :=
  "Invalid GraphQL type reference `" ++ e.input ++ "`: " ++ e.fault.message

/-- What stands before a mark `!` is shorter than the text. -/
theorem length_before_mark_lt {cs : List Char} (h : (Text.trim cs).getLast? = some '!') :
    (Text.trimEnd (Text.trim cs).dropLast).length < cs.length := by
  have h₁ := Text.length_trim_le cs
  have h₂ := Text.length_trimEnd_le (Text.trim cs).dropLast
  have h₃ : Text.trim cs ≠ [] := by
    intro e
    simp [e] at h
  have h₄ := List.length_pos_iff.mpr h₃
  rw [List.length_dropLast] at h₂
  omega

/-- What stands between brackets is shorter than the text. -/
theorem length_between_brackets_lt {cs rest : List Char} (h : Text.trim cs = '[' :: rest) :
    rest.dropLast.length < cs.length := by
  have h₁ := Text.length_trim_le cs
  rw [h, List.length_cons] at h₁
  rw [List.length_dropLast]
  omega

/-- Reads the type that the characters denote. The mark of the whole text is looked at before
its brackets, and the brackets before the name. -/
def TypeRef.read (cs : List Char) : Except TypeRefFault TypeRef :=
  if marked : (Text.trim cs).getLast? = some '!' then
    have := length_before_mark_lt marked
    if (Text.trimEnd (Text.trim cs).dropLast).getLast? = some '!' then .error .doubledMark
    else (TypeRef.read (Text.trimEnd (Text.trim cs).dropLast)).map .nonNull
  else
    match opened : Text.trim cs with
    | [] => .error .missingName
    | '[' :: rest =>
      have := length_between_brackets_lt opened
      if rest.getLast? = some ']' then (TypeRef.read rest.dropLast).map .list
      else .error .unclosedList
    | c :: rest =>
      if isName (c :: rest) then .ok (.named (String.ofList (c :: rest)))
      else .error .malformedName
termination_by cs.length
decreasing_by all_goals assumption

/-- Reads a type; an error carries the whole text. -/
def TypeRef.parse (s : String) : Except TypeRefError TypeRef :=
  match TypeRef.read s.toList with
  | .ok type => .ok type
  | .error fault => .error ⟨s, fault⟩

end SchemaBridge.Graphql
