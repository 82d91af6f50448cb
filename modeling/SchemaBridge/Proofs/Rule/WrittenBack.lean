import SchemaBridge.Command.Session
import SchemaBridge.Proofs.Json.Written
import SchemaBridge.Proofs.Rule.Spelling

/-!
# Rules that are written back

A list of rules that was read from a text can be written down and read again. The same rules are
read, and the same exchange is made of them.

* `RuleSpec.encodeAll`: what is written down for a list of rules;
* `RuleSpec.readAll?_compact`, `RuleSpec.readAll?_pretty`: the rules are read from its texts, and
  from those of any other values that spell them.
-/

namespace SchemaBridge

open Json (Value)

namespace RuleSpec

/-- What is written down for a list of rules. -/
def encodeAll (specs : List RuleSpec) : Value :=
  .array (specs.map encode)

/-! ### Lists of rules -/

/-- A list of values describes the rules that the values spell. -/
theorem decodeAll?_eq_some_iff {values : List Value} {specs : List RuleSpec} :
    decodeAll? (.array values) = some specs ↔
      List.Forall₂ (fun v spec => spec.Spells v) values specs := by
  rw [decodeAll?, mapM_eq_some_iff]
  simp only [decode?_eq_some_iff]

/-- What is written down for a list of rules describes them. -/
theorem decodeAll?_encodeAll (specs : List RuleSpec) :
    decodeAll? (encodeAll specs) = some specs := by
  rw [encodeAll, decodeAll?_eq_some_iff, List.forall₂_map_left_iff, List.forall₂_same]
  exact fun spec _ => spells_encode spec

/-! ### Texts -/

/-- An object for a rule holds strings only. -/
theorem plain_encode (spec : RuleSpec) (depth : Nat) : spec.encode.Plain (depth + 1) := by
  rw [encode_eq]
  refine .object fun e he => ?_
  have hown := (perm_encode spec).subset he
  rw [ownEntries_eq, encodedCoercion, List.cons_append, List.mem_cons, List.mem_append,
    List.zip_map_right, List.map_map, List.mem_map, List.mem_map] at hown
  rcases hown with rfl | ⟨⟨key, text⟩, -, rfl⟩ | ⟨c, -, rfl⟩ <;> exact .string _

/-- Two levels are enough for a list of rules. -/
theorem plain_encodeAll (specs : List RuleSpec) : (encodeAll specs).Plain Json.maxDepth := by
  refine .array fun v hv => ?_
  obtain ⟨spec, -, rfl⟩ := List.mem_map.mp hv
  exact plain_encode spec 125

section Texts

variable {specs : List RuleSpec} {v : Value}

/-- Rules are read from a text on one line of what describes them. -/
theorem readAll?_compact (h : decodeAll? v = some specs) (hplain : v.Plain Json.maxDepth) :
    readAll? v.compact = some specs := by
  rw [readAll?, Json.readOrdered?_compact hplain, Option.bind_some, h]

/-- Rules are read from a text over several lines of what describes them. -/
theorem readAll?_pretty (h : decodeAll? v = some specs) (hplain : v.Plain Json.maxDepth) :
    readAll? v.pretty = some specs := by
  rw [readAll?, Json.readOrdered?_pretty hplain, Option.bind_some, h]

end Texts

/-! ### Written back -/

/-- Texts of the same rules lead to the same exchange, or to the same failure. -/
theorem loadRules_congr {text other : String} (h : readAll? text = readAll? other) :
    Command.loadRules text = Command.loadRules other := by
  rw [Command.loadRules, h, Command.loadRules]

/-- **Rules survive being written down.** What is written down for a rule describes it, and so does
every other value that spells it. Of a list of rules that was read and is written back, on one line
or over several, the same exchange is made. -/
theorem written_back :
    (∀ spec : RuleSpec, decode? spec.encode = some spec) ∧
      (∀ (spec : RuleSpec) (v : Value), decode? v = some spec ↔ spec.Spells v) ∧
        ∀ (text : String) (specs : List RuleSpec), readAll? text = some specs →
          Command.loadRules (encodeAll specs).compact = Command.loadRules text ∧
            Command.loadRules (encodeAll specs).pretty = Command.loadRules text := by
  refine ⟨fun spec => decode?_eq_some_iff.mpr (spells_encode spec),
    fun _ _ => decode?_eq_some_iff, fun text specs hread => ?_⟩
  have hall := decodeAll?_encodeAll specs
  have hplain := plain_encodeAll specs
  exact ⟨loadRules_congr ((readAll?_compact hall hplain).trans hread.symm),
    loadRules_congr ((readAll?_pretty hall hplain).trans hread.symm)⟩

/-- A rule with a further entry, the entries in reverse order and the name of the coercion as a key,
and a text with one rule as an object and one as an array. -/
theorem written_back_spelled :
    decode? (.object [("note", .array []), ("coerceVariable", .object [("parseInt", .null)]),
        ("newType", .string "Int"), ("oldType", .string "String"), ("argName", .string "id"),
        ("fieldName", .string "user"), ("kind", .string "fieldArgType")]) =
      some (.argumentType "user" "id" "String" "Int" (some .toInteger)) ∧
    Command.loadRules (encodeAll [.fieldName "a" "b", .argumentName "f" "x" "y"]).pretty =
      Command.loadRules ("[\x7b\"newFieldName\": \"b\", \"kind\": \"fieldName\", " ++
        "\"oldFieldName\": \"a\"\x7d, [\"fieldArgName\", \"f\", \"x\", \"y\"]]") := by
  obtain ⟨-, hspells, hback⟩ := written_back
  have hothers : ∀ e ∈ [("note", Value.array [])], e.1 ∉ RuleKind.argumentType.keys := by decide
  refine ⟨(hspells _ _).mpr ?_, (hback _ _ ?_).2⟩
  · have horder := List.reverse_perm
      ((argumentType "user" "id" "String" "Int" (some .toInteger)).ownEntries
        [.object [("parseInt", .null)]] ++ [("note", .array [])])
    exact .object (.given rfl (.object .toInteger)) hothers horder
  · have hordered : Json.readOrdered? ("[\x7b\"newFieldName\": \"b\", \"kind\": \"fieldName\", " ++
        "\"oldFieldName\": \"a\"\x7d, [\"fieldArgName\", \"f\", \"x\", \"y\"]]") =
        some (.array [.object [("newFieldName", .string "b"), ("kind", .string "fieldName"),
            ("oldFieldName", .string "a")],
          .array [.string "fieldArgName", .string "f", .string "x", .string "y"]]) := by cbv
    rw [readAll?, hordered]
    rfl

end RuleSpec

end SchemaBridge
