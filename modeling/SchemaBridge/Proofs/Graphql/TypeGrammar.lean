import Mathlib.Data.List.Basic
import SchemaBridge.Graphql.TypeRef
import SchemaBridge.Proofs.Outcome
import SchemaBridge.Proofs.Text.Trim

/-!
# The grammar of type references

A type reference is read by peeling marks and brackets off a text. The grammar says which texts
denote a type without reading them:

    type ::= blanks core blanks | blanks core blanks ! blanks
    core ::= name | [ type ]

* `Written`, `WrittenCore`: the two nouns of the grammar;
* `TypeRef.WellNamed`, `TypeRef.MarkedOnce`: all names of a type are names, and no mark follows
  another one;
* `TypeRef.read_eq_ok_iff`: reading accepts exactly the texts of the grammar;
* `TypeRef.written_display`: what is displayed is in the grammar;
* `TypeRef.parse_iff_written`: both together, with the errors and the displayed text of a type.
-/

namespace SchemaBridge.Graphql

open Text (Blank Trimmed trim trimEnd)

/-! ### The grammar -/

mutual

/-- The characters are written for a type: a core with a mark or without one, and blanks around
them. -/
inductive Written : List Char → TypeRef → Prop where
  | nullable {ws ws' core : List Char} {type : TypeRef} (before : Blank ws) (after : Blank ws')
      (inner : WrittenCore core type) : Written (ws ++ core ++ ws') type
  | nonNull {ws ws' ws'' core : List Char} {type : TypeRef} (before : Blank ws)
      (between : Blank ws') (after : Blank ws'') (inner : WrittenCore core type) :
      Written (ws ++ (core ++ ws' ++ ['!']) ++ ws'') (.nonNull type)

/-- The characters are written for a type that is named or a list, without blanks around them. -/
inductive WrittenCore : List Char → TypeRef → Prop where
  | named {cs : List Char} (name : isName cs = true) :
      WrittenCore cs (.named (String.ofList cs))
  | list {cs : List Char} {item : TypeRef} (inner : Written cs item) :
      WrittenCore ('[' :: (cs ++ [']'])) (.list item)

end

/-- All names that stand in a type are names. -/
def TypeRef.WellNamed : TypeRef → Prop
  | .named name => isName name.toList = true
  | .list item => item.WellNamed
  | .nonNull inner => inner.WellNamed

/-- A mark stands before this type already. -/
def TypeRef.isNonNull : TypeRef → Bool
  | .nonNull _ => true
  | _ => false

/-- No mark stands right after another one. -/
def TypeRef.MarkedOnce : TypeRef → Prop
  | .named _ => True
  | .list item => item.MarkedOnce
  | .nonNull inner => inner.isNonNull = false ∧ inner.MarkedOnce

/-! ### Characters of a core -/

/-- The code of a character of a name. -/
theorem toNat_of_isNamePart {c : Char} (h : isNamePart c = true) :
    (0x30 ≤ c.toNat ∧ c.toNat ≤ 0x39) ∨ (0x41 ≤ c.toNat ∧ c.toNat ≤ 0x5A) ∨ c.toNat = 0x5F ∨
      (0x61 ≤ c.toNat ∧ c.toNat ≤ 0x7A) := by
  simp only [isNamePart, isNameStart, Text.isDigit, Bool.or_eq_true, decide_eq_true_eq,
    Bool.and_eq_true, Char.le_def, UInt32.le_iff_toNat_le, Char.toNat_val] at h
  rcases h with ((rfl | h) | h) | h
  · simp
  · exact .inr (.inr (.inr h))
  · exact .inr (.inl h)
  · exact .inl h

/-- No character of a name is blank. -/
theorem isBlank_of_isNamePart {c : Char} (h : isNamePart c = true) : Text.isBlank c = false := by
  have hcode := toNat_of_isNamePart h
  exact Text.isBlank_of_visible (by omega)

/-- The characters of a name are parts of names. -/
theorem isNamePart_of_mem {cs : List Char} (h : isName cs = true) {c : Char} (hc : c ∈ cs) :
    isNamePart c = true := by
  cases cs with
  | nil => exact absurd hc List.not_mem_nil
  | cons first rest =>
      simp only [isName, Bool.and_eq_true, List.all_eq_true] at h
      rcases List.mem_cons.mp hc with rfl | hc
      · rw [isNamePart, h.1, Bool.true_or]
      · exact h.2 c hc

/-- A core begins and ends with no blank. -/
theorem WrittenCore.trimmed {cs : List Char} {type : TypeRef} (h : WrittenCore cs type) :
    Trimmed cs := by
  cases h with
  | named name =>
      exact ⟨fun c hc => isBlank_of_isNamePart (isNamePart_of_mem name (List.mem_of_mem_head? hc)),
        fun c hc => isBlank_of_isNamePart (isNamePart_of_mem name (List.mem_of_getLast? hc))⟩
  | @list cs item inner =>
      refine ⟨fun c hc => ?_, fun c hc => ?_⟩
      · obtain rfl : '[' = c := Option.some.inj hc
        decide
      · rw [← List.cons_append, List.getLast?_concat] at hc
        obtain rfl : ']' = c := Option.some.inj hc
        decide

/-- A core has at least one character. -/
theorem WrittenCore.ne_nil {cs : List Char} {type : TypeRef} (h : WrittenCore cs type) :
    cs ≠ [] := by
  rintro rfl
  cases h with
  | named name => exact absurd name (by decide)

/-- A core does not end with a mark. -/
theorem WrittenCore.getLast?_ne {cs : List Char} {type : TypeRef} (h : WrittenCore cs type) :
    cs.getLast? ≠ some '!' := by
  intro hlast
  cases h with
  | named name =>
      exact absurd (isNamePart_of_mem name (List.mem_of_getLast? hlast)) (by decide)
  | @list cs item inner =>
      rw [← List.cons_append, List.getLast?_concat] at hlast
      exact absurd (Option.some.inj hlast) (by decide)

/-! ### Reading, step by step -/

/-- A text with one mark is read as what stands before the mark. -/
theorem TypeRef.read_of_marked {cs : List Char} (marked : (trim cs).getLast? = some '!')
    (once : (trimEnd (trim cs).dropLast).getLast? ≠ some '!') :
    TypeRef.read cs = (TypeRef.read (trimEnd (trim cs).dropLast)).map .nonNull := by
  rw [TypeRef.read, dif_pos marked, if_neg once]

/-- A text between brackets is read as the list of what stands between them. -/
theorem TypeRef.read_of_bracketed {cs inner : List Char}
    (h : trim cs = '[' :: (inner ++ [']'])) :
    TypeRef.read cs = (TypeRef.read inner).map .list := by
  have unmarked : ¬ (trim cs).getLast? = some '!' := by
    rw [h, ← List.cons_append, List.getLast?_concat]
    decide
  rw [TypeRef.read, dif_neg unmarked]
  split
  · next opened => exact absurd (h.symm.trans opened) (by simp)
  · next rest opened =>
      obtain rfl : inner ++ [']'] = rest := (List.cons.inj (h.symm.trans opened)).2
      rw [if_pos List.getLast?_concat, List.dropLast_concat]
  · next c rest hne opened => exact absurd (List.cons.inj (h.symm.trans opened)).1.symm hne

/-- A text that is a name is read as the type of that name. -/
theorem TypeRef.read_of_name {cs : List Char} (h : isName (trim cs) = true) :
    TypeRef.read cs = .ok (.named (String.ofList (trim cs))) := by
  have unmarked := (WrittenCore.named h).getLast?_ne
  rw [TypeRef.read, dif_neg unmarked]
  split
  · next opened => exact absurd (opened ▸ h) (by decide)
  · next rest opened =>
      have : isNamePart '[' = true := isNamePart_of_mem h (opened ▸ List.mem_cons_self)
      exact absurd this (by decide)
  · next c rest _ opened => rw [← opened, if_pos h]

/-! ### Reading and the grammar -/

/-- What stands before a mark is written without one, if it ends neither with a mark nor with a
blank. -/
theorem Written.exists_core {cs : List Char} {type : TypeRef} (h : Written cs type)
    (unmarked : cs.getLast? ≠ some '!') (solid : ∀ c ∈ cs.getLast?, Text.isBlank c = false) :
    ∃ ws ws' core, Blank ws ∧ Blank ws' ∧ WrittenCore core type ∧ cs = ws ++ core ++ ws' := by
  cases h with
  | nullable before after inner => exact ⟨_, _, _, before, after, inner, rfl⟩
  | @nonNull ws ws' ws'' core type before between after inner =>
      -- the text would end with its mark, or with a blank after it
      obtain rfl | ⟨ws'', c, rfl⟩ := List.eq_nil_or_concat' ws''
      · rw [List.append_nil, ← List.append_assoc, List.getLast?_concat] at unmarked
        exact absurd rfl unmarked
      · have hblank : Text.isBlank c = true := after c (by simp)
        rw [← List.append_assoc, List.getLast?_concat] at solid
        exact absurd hblank (by simp [solid c rfl])

/-- A text that is read as a type is written for it. -/
theorem TypeRef.written_of_read {cs : List Char} {type : TypeRef}
    (h : TypeRef.read cs = .ok type) : Written cs type := by
  obtain ⟨ws, ws', hws, hws', hcs⟩ := Text.exists_eq_append_trim cs
  fun_induction TypeRef.read cs generalizing type ws ws' with
  | case1 => cases h
  | case2 cs marked _ once ih =>
      obtain ⟨inner, hinner, rfl⟩ := map_eq_ok_iff.mp h
      obtain ⟨body, hbody⟩ := List.getLast?_eq_some_iff.mp marked
      rw [hbody, List.dropLast_concat] at ih once hinner
      -- the inner type is written before the mark, with blanks between them
      obtain ⟨ws₁, ws₂, hws₁, hws₂, htrim⟩ := Text.exists_eq_append_trim (trimEnd body)
      obtain ⟨ws₃, ws₄, core, hws₃, hws₄, hcore, heq⟩ :=
        (ih hinner ws₁ ws₂ hws₁ hws₂ htrim).exists_core once (Text.last_trimEnd body)
      obtain ⟨ws₅, hws₅, hend⟩ := Text.exists_eq_append_trimEnd body
      have := Written.nonNull (hws.append hws₃) (hws₄.append hws₅) hws' hcore
      rw [hcs, hbody, hend, heq]
      simpa only [List.append_assoc] using this
  | case3 => cases h
  | case4 cs unmarked rest opened _ closed ih =>
      obtain ⟨item, hitem, rfl⟩ := map_eq_ok_iff.mp h
      obtain ⟨inner, rfl⟩ := List.getLast?_eq_some_iff.mp closed
      rw [List.dropLast_concat] at ih hitem
      obtain ⟨ws₁, ws₂, hws₁, hws₂, htrim⟩ := Text.exists_eq_append_trim inner
      rw [hcs, opened]
      exact .nullable hws hws' (.list (ih hitem ws₁ ws₂ hws₁ hws₂ htrim))
  | case5 => cases h
  | case6 cs unmarked c rest hne opened name =>
      obtain rfl := Except.ok.inj h
      rw [hcs, opened]
      exact .nullable hws hws' (.named name)
  | case7 => cases h

mutual

/-- A text that is written for a type is read as that type. -/
theorem Written.read_eq {cs : List Char} {type : TypeRef} :
    Written cs type → TypeRef.read cs = .ok type
  | .nullable before after inner => inner.read_append before after
  | @Written.nonNull _ ws' _ core _ before between after inner => by
      have htrimmed : Trimmed (core ++ ws' ++ ['!']) := by
        refine ⟨fun c hc => ?_, fun c hc => ?_⟩
        · obtain ⟨first, rest, rfl⟩ := List.exists_cons_of_ne_nil inner.ne_nil
          exact inner.trimmed.head c hc
        · rw [List.getLast?_concat] at hc
          obtain rfl : '!' = c := Option.some.inj hc
          decide
      have htrim := Text.trim_append before htrimmed after
      have hcore : trimEnd (core ++ ws') = core := by
        rw [Text.trimEnd_append between, Text.trimEnd_eq_self inner.trimmed.last]
      rw [TypeRef.read_of_marked (by rw [htrim, List.getLast?_concat])] <;>
        rw [htrim, List.dropLast_concat, hcore]
      · have := inner.read_append Text.blank_nil Text.blank_nil
        rw [List.append_nil, List.nil_append] at this
        rw [this]
        rfl
      · exact inner.getLast?_ne

/-- A core between blanks is read as its type. -/
theorem WrittenCore.read_append {cs ws ws' : List Char} {type : TypeRef} :
    WrittenCore cs type → Blank ws → Blank ws' → TypeRef.read (ws ++ cs ++ ws') = .ok type
  | .named name, before, after => by
      have htrim := Text.trim_append before (WrittenCore.named name).trimmed after
      rw [TypeRef.read_of_name (by rwa [htrim]), htrim]
  | .list inner, before, after => by
      have htrim := Text.trim_append before (WrittenCore.list inner).trimmed after
      rw [TypeRef.read_of_bracketed htrim, inner.read_eq]
      rfl

end

/-- **Reading accepts the grammar.** A text is read as a type exactly if it is written for it. -/
theorem TypeRef.read_eq_ok_iff {cs : List Char} {type : TypeRef} :
    TypeRef.read cs = .ok type ↔ Written cs type :=
  ⟨TypeRef.written_of_read, Written.read_eq⟩

/-! ### Types that are written -/

mutual

/-- A type that is written has names that are names, and no doubled mark. -/
theorem Written.wellNamed_markedOnce {cs : List Char} {type : TypeRef} :
    Written cs type → type.WellNamed ∧ type.MarkedOnce
  | .nullable _ _ inner => ⟨inner.wellNamed_markedOnce.1, inner.wellNamed_markedOnce.2.2⟩
  | .nonNull _ _ _ inner => inner.wellNamed_markedOnce

/-- A type that is written as a core has names that are names, no doubled mark, and no mark at its
end. -/
theorem WrittenCore.wellNamed_markedOnce {cs : List Char} {type : TypeRef} :
    WrittenCore cs type → type.WellNamed ∧ type.isNonNull = false ∧ type.MarkedOnce
  | .named name => ⟨by rwa [TypeRef.WellNamed, String.toList_ofList], rfl, trivial⟩
  | .list inner => ⟨inner.wellNamed_markedOnce.1, rfl, inner.wellNamed_markedOnce.2⟩

end

/-- The text of a type is written for it, and without its mark as a core. -/
theorem TypeRef.written_display {type : TypeRef} (named : type.WellNamed)
    (once : type.MarkedOnce) :
    Written type.display.toList type ∧
      (type.isNonNull = false → WrittenCore type.display.toList type) := by
  have of_core : ∀ {cs : List Char} {t : TypeRef}, WrittenCore cs t → Written cs t := by
    intro cs t h
    have := Written.nullable Text.blank_nil Text.blank_nil h
    rwa [List.nil_append, List.append_nil] at this
  induction type with
  | named name =>
      have hcore := WrittenCore.named named
      rw [String.ofList_toList] at hcore
      exact ⟨of_core hcore, fun _ => hcore⟩
  | list item ih =>
      have hcore := WrittenCore.list (ih named once).1
      have htext : (TypeRef.list item).display.toList = '[' :: (item.display.toList ++ [']']) := by
        rw [display, String.toList_append, String.toList_append]
        rfl
      rw [htext]
      exact ⟨of_core hcore, fun _ => hcore⟩
  | nonNull inner ih =>
      have hcore := (ih named once.2).2 once.1
      have := Written.nonNull Text.blank_nil Text.blank_nil Text.blank_nil hcore
      have htext : (TypeRef.nonNull inner).display.toList = inner.display.toList ++ ['!'] := by
        rw [display, String.toList_append]
        rfl
      rw [htext]
      exact ⟨by simpa using this, fun h => Bool.noConfusion h⟩

/-! ### Whole texts -/

/-- A text is parsed as what its characters are read as. -/
theorem TypeRef.parse_eq_ok_iff {s : String} {type : TypeRef} :
    TypeRef.parse s = .ok type ↔ Written s.toList type := by
  rw [← TypeRef.read_eq_ok_iff, TypeRef.parse]
  cases TypeRef.read s.toList with
  | error fault => simp
  | ok read => simp

/-- **Parsing and the grammar of types.** A text is parsed as a type exactly if it is written for
it, and any other text is refused with an error that carries it. So no text stands for two types,
and no type that is parsed has a doubled mark. The text displayed for a type whose names are names
and that has no doubled mark is parsed as that type. -/
theorem TypeRef.parse_iff_written :
    (∀ s : String,
      (∀ type, TypeRef.parse s = .ok type ↔ Written s.toList type) ∧
      ((∃ fault, TypeRef.parse s = .error ⟨s, fault⟩) ↔ ∀ type, ¬ Written s.toList type) ∧
      (∀ type type', Written s.toList type → Written s.toList type' → type = type') ∧
      ∀ type, TypeRef.parse s = .ok type → type.WellNamed ∧ type.MarkedOnce) ∧
    ∀ type : TypeRef, type.WellNamed → type.MarkedOnce → TypeRef.parse type.display = .ok type := by
  refine ⟨fun s => ⟨fun type => parse_eq_ok_iff, ?_, fun type type' h h' => ?_, fun type h => ?_⟩,
    fun type named once => ?_⟩
  · simp only [← read_eq_ok_iff, parse]
    cases TypeRef.read s.toList with
    | error fault => simp
    | ok type => simp
  · exact Except.ok.inj (h.read_eq.symm.trans h'.read_eq)
  · exact (parse_eq_ok_iff.mp h).wellNamed_markedOnce
  · exact parse_eq_ok_iff.mpr (written_display named once).1

/-- A type with blanks at every level, its text without them, and a text in which the brackets close
too early. -/
theorem TypeRef.parse_iff_written_integers :
    TypeRef.parse " [ Int ! ] ! " = .ok (.nonNull (.list (.nonNull (.named "Int")))) ∧
      TypeRef.parse "[Int!]!" = .ok (.nonNull (.list (.nonNull (.named "Int")))) ∧
      ∀ type, ¬ Written "[A] [B]".toList type := by
  have blank : Blank [' '] := fun c hc => by
    rw [List.mem_singleton.mp hc]
    decide
  have hcore : WrittenCore "Int".toList (.named "Int") := .named (by decide)
  have hitem : Written " Int ! ".toList (.nonNull (.named "Int")) :=
    .nonNull blank blank blank hcore
  have hwritten : Written " [ Int ! ] ! ".toList (.nonNull (.list (.nonNull (.named "Int")))) :=
    .nonNull blank blank blank (.list hitem)
  refine ⟨((parse_iff_written.1 _).1 _).mpr hwritten,
    parse_iff_written.2 (.nonNull (.list (.nonNull (.named "Int")))) ?_ ?_,
    (parse_iff_written.1 _).2.1.mp ⟨.malformedName, ?_⟩⟩
  · show isName "Int".toList = true
    decide
  · exact ⟨rfl, rfl, trivial⟩
  · cbv

end SchemaBridge.Graphql
