import SchemaBridge.Graphql.Reader
import SchemaBridge.Proofs.Graphql.Scan
import SchemaBridge.Proofs.Graphql.Formed
import SchemaBridge.Proofs.Json.Entries

/-!
# What is read is formed

Whatever a document is read from, it is as the grammar forms it: the tokens of a text have names
that are names, and every reader puts them where names stand.

* `Named`: all names among some tokens are names; `named_of_scan?`: those of a text are;
* `Gives`: what a reader takes has a property, and what it leaves has names that are names;
* `gives_literal`, …, `gives_definition`: what the readers of the nouns give;
* `formed_of_read?`: a document that was read is formed by the grammar.
-/

namespace SchemaBridge.Graphql

open SchemaBridge.Text (Front)

/-! ### Tokens -/

/-- All names among the tokens are names. -/
def Named (ts : List Token) : Prop :=
  ∀ text, .name text ∈ ts → IsName text

/-- No tokens. -/
theorem named_nil : Named [] := fun _ h => absurd h List.not_mem_nil

/-- A token after which names are names. -/
theorem named_cons {t : Token} {ts : List Token} :
    Named (t :: ts) ↔ (∀ text, t = .name text → IsName text) ∧ Named ts := by
  constructor
  · exact fun h => ⟨fun text ht => h text (ht ▸ List.mem_cons_self),
      fun text htext => h text (List.mem_cons_of_mem t htext)⟩
  · rintro ⟨ht, hts⟩ text htext
    rcases List.mem_cons.mp htext with heq | htext
    · exact ht text heq.symm
    · exact hts text htext

/-- What follows a token has names that are names. -/
theorem Named.tail {t : Token} {ts : List Token} (h : Named (t :: ts)) : Named ts :=
  (named_cons.mp h).2

/-- A name that stands first is a name. -/
theorem Named.isName {text : String} {ts : List Token} (h : Named (.name text :: ts)) :
    IsName text :=
  h text List.mem_cons_self

/-- The characters of a name, taken as long as they may belong to it. -/
theorem isName_takeWhile {c : Char} (h : isNameStart c = true) (rest : List Char) :
    IsName (String.ofList (c :: rest.takeWhile isNamePart)) := by
  rw [IsName, String.toList_ofList, isName.eq_2, h, Bool.true_and, List.all_eq_true]
  intro d hd
  exact List.mem_takeWhile_imp hd

/-- Names are names after one more token. -/
theorem named_of_cons_eq_some {t : Token} {x : Option (List Token)}
    (ht : ∀ text, t = .name text → IsName text) (hx : ∀ {ts}, x = some ts → Named ts)
    {ts : List Token} (h : (do return t :: (← x)) = some ts) : Named ts := by
  obtain ⟨rest, hrest, heq⟩ := Option.bind_eq_some_iff.mp h
  obtain rfl := Option.some.inj heq
  exact named_cons.mpr ⟨ht, hx hrest⟩

/-- The names among the tokens of a text are names. -/
theorem named_of_scan? {cs : List Char} {ts : List Token} (h : Token.scan? cs = some ts) :
    Named ts := by
  fun_induction Token.scan? cs generalizing ts with
  | case1 => exact Option.some.inj h ▸ named_nil
  | case2 rest ih => exact named_of_cons_eq_some (by simp) ih h
  | case3 rest hnone => cases h
  | case4 rest body after hfound hlength ih => exact named_of_cons_eq_some (by simp) ih h
  | case5 rest hopen hnone => cases h
  | case6 rest hopen body after hfound hlength ih =>
      obtain ⟨line, -, h⟩ := Option.bind_eq_some_iff.mp h
      exact named_of_cons_eq_some (by simp) ih h
  | case7 rest hlength ih => exact ih h
  | case8 c rest hdot hblock hquote hhash hignored ih => exact ih h
  | case9 c rest hdot hblock hquote hhash hignored hmark ih =>
      exact named_of_cons_eq_some (by simp) ih h
  | case10 c rest hdot hblock hquote hhash hignored hmark hstart hlength ih =>
      refine named_of_cons_eq_some (fun text heq => ?_) ih h
      exact Token.name.inj heq ▸ isName_takeWhile hstart rest
  | case11 c rest hdot hblock hquote hhash hignored hmark hstart hnumber hlength ih =>
      obtain ⟨n, -, h⟩ := Option.bind_eq_some_iff.mp h
      exact named_of_cons_eq_some (by simp) ih h
  | case12 c rest hdot hblock hquote hhash hignored hmark hstart hnumber => cases h

/-! ### Readers -/

/-- Whatever a reader takes has a property, and the names in what it leaves are names. -/
def Gives {α : Type} {bound : Nat} (r : Option (Front Token α bound)) (p : α → Prop) : Prop :=
  ∀ front, r = some front → p front.value ∧ Named front.rest

section Gives

variable {α β : Type} {bound bound' : Nat} {p : α → Prop} {q : β → Prop}

/-- A reader that refuses takes nothing. -/
theorem gives_none : Gives (none : Option (Front Token α bound)) p :=
  fun _ h => by cases h

/-- A reader that takes a value. -/
theorem gives_some {v : α} {rest : List Token} {below : rest.length < bound} (hv : p v)
    (hrest : Named rest) : Gives (some ⟨v, rest, below⟩) p :=
  fun _ h => Option.some.inj h ▸ ⟨hv, hrest⟩

/-- A reader that goes on with what another one takes. -/
theorem Gives.bind {r : Option (Front Token α bound)} (h : Gives r p)
    {f : Front Token α bound → Option (Front Token β bound')}
    (hf : ∀ v rest below, p v → Named rest → Gives (f ⟨v, rest, below⟩) q) : Gives (r >>= f) q := by
  intro front hfront
  obtain ⟨⟨v, rest, below⟩, hr, hfront⟩ := Option.bind_eq_some_iff.mp hfront
  obtain ⟨hv, hrest⟩ := h _ hr
  exact hf v rest below hv hrest front hfront

/-- A reader whose value is changed, with a greater bound on the rest. -/
theorem Gives.map_widen {r : Option (Front Token α bound)} (h : Gives r p) {g : α → β}
    (hg : ∀ v, p v → q (g v)) (hle : bound ≤ bound') :
    Gives (r.map fun front => (front.map g).widen hle) q := by
  intro front hfront
  obtain ⟨before, hr, rfl⟩ := Option.map_eq_some_iff.mp hfront
  obtain ⟨hv, hrest⟩ := h before hr
  exact ⟨hg _ hv, hrest⟩

/-- A reader with a greater bound on the rest. -/
theorem Gives.widen {r : Option (Front Token α bound)} (h : Gives r p) (hle : bound ≤ bound') :
    Gives (r.map fun front => front.widen hle) p := by
  intro front hfront
  obtain ⟨before, hr, rfl⟩ := Option.map_eq_some_iff.mp hfront
  exact h before hr

/-- A property that what is taken has implies others. -/
theorem Gives.imp {r : Option (Front Token α bound)} (h : Gives r p) {p' : α → Prop}
    (himp : ∀ v, p v → p' v) : Gives r p' :=
  fun front hfront => (h front hfront).imp_left (himp _)

end Gives

/-! ### Literals -/

/-- The literal that a name denotes. -/
theorem formed_ofName {constant : Bool} {text : String} (h : IsName text) :
    (Literal.ofName text).Formed constant := by
  rw [Literal.ofName]
  split_ifs
  · exact .boolean true
  · exact .boolean false
  · exact .null
  · exact .enumeration h

/-- The literal that a number denotes. -/
theorem formed_toLiteral {constant : Bool} (n : Numeral) : n.toLiteral.Formed constant := by
  cases n with
  | int value => exact .int value
  | float value => exact .float value
  | infinite negative => exact .infinite negative

/-- Named literals as the grammar forms them. -/
def FormedEntries (constant : Bool) (entries : List (String × Literal)) : Prop :=
  ∀ entry ∈ entries, IsName entry.1 ∧ entry.2.Formed constant

mutual

/-- A literal that is read is formed by the grammar. -/
theorem gives_literal {constant : Bool} {ts : List Token} (h : Named ts) :
    Gives (readLiteral? constant ts) (Literal.Formed constant) := by
  rw [readLiteral?.eq_def]
  split
  · next text rest => exact gives_some (formed_ofName h.isName) h.tail
  · next n rest => exact gives_some (formed_toLiteral n) h.tail
  · next s rest => exact gives_some (.string s) h.tail
  · next text rest =>
      split_ifs with hconstant
      · exact gives_none
      · exact gives_some (.reference (by simpa using hconstant) h.tail.isName) h.tail.tail
  · next rest => exact (gives_items h.tail).map_widen (fun _ => .list) _
  · next rest =>
      refine (gives_entries h.tail).map_widen (fun entries hentries => ?_) _
      exact .object (fun e he => (hentries e (Entries.mem_of_mem_ofList he)).1)
        fun e he => (hentries e (Entries.mem_of_mem_ofList he)).2
  · exact gives_none
termination_by (ts.length, 0)

/-- The items of a list that are read are formed by the grammar. -/
theorem gives_items {constant : Bool} {ts : List Token} (h : Named ts) :
    Gives (readItems? constant ts) fun items => ∀ item ∈ items, item.Formed constant := by
  rw [readItems?.eq_def]
  split
  · next rest => exact gives_some (by simp) h.tail
  · split
    · exact gives_none
    · next item rest shorter hitem =>
        obtain ⟨hformed, hrest⟩ := gives_literal h _ hitem
        refine (gives_items hrest).map_widen (fun items hitems => ?_) _
        exact List.forall_mem_cons.mpr ⟨hformed, hitems⟩
termination_by (ts.length, 1)

/-- The entries of an object that are read are formed by the grammar. -/
theorem gives_entries {constant : Bool} {ts : List Token} (h : Named ts) :
    Gives (readEntries? constant ts) (FormedEntries constant) := by
  rw [readEntries?.eq_def]
  split
  · next rest => exact gives_some (by simp [FormedEntries]) h.tail
  · next key rest =>
      split
      · exact gives_none
      · next value rest' shorter hvalue =>
          obtain ⟨hformed, hrest⟩ := gives_literal h.tail.tail _ hvalue
          refine (gives_entries hrest).map_widen (fun entries hentries => ?_) _
          exact List.forall_mem_cons.mpr ⟨⟨h.isName, hformed⟩, hentries⟩
  · exact gives_none
termination_by (ts.length, 1)
decreasing_by
  all_goals subst_vars
  all_goals grind

end

/-! ### Arguments and directives -/

/-- A punctuator that is read leaves names that are names. -/
theorem gives_mark {c : Char} {ts : List Token} (h : Named ts) :
    Gives (readMark? c ts) fun _ => True := by
  rw [readMark?.eq_def]
  split
  · split_ifs
    · exact gives_some trivial h.tail
    · exact gives_none
  · exact gives_none

/-- Named literals are arguments. -/
theorem FormedEntries.arguments {arguments : Arguments} (h : FormedEntries false arguments) :
    Arguments.Formed arguments :=
  ⟨fun a ha => (h a ha).1, fun a ha => (h a ha).2⟩

/-- The arguments up to the closing parenthesis are formed by the grammar. -/
theorem gives_argumentList {ts : List Token} (h : Named ts) :
    Gives (readArgumentList? ts) (FormedEntries false) := by
  rw [readArgumentList?.eq_def]
  split
  · next key rest =>
      refine (gives_literal h.tail.tail).bind fun value rest₁ below hvalue hrest₁ => ?_
      dsimp only
      split
      · next rest₂ below₂ hmark =>
          refine gives_some ?_ (gives_mark hrest₁ _ hmark).2
          exact List.forall_mem_singleton.mpr ⟨h.isName, hvalue⟩
      · refine (gives_argumentList hrest₁).bind fun others rest₂ below₂ hothers hrest₂ => ?_
        exact gives_some (List.forall_mem_cons.mpr ⟨⟨h.isName, hvalue⟩, hothers⟩) hrest₂
  · exact gives_none
termination_by ts.length
decreasing_by
  all_goals subst_vars
  all_goals grind

/-- Arguments that are read are formed by the grammar. -/
theorem gives_arguments {ts : List Token} (h : Named ts) :
    Gives (readArguments? ts) Arguments.Formed := by
  rw [readArguments?]
  split
  · next rest below hmark =>
      have hentries := gives_argumentList (gives_mark h _ hmark).2
      exact (hentries.imp fun _ => FormedEntries.arguments).widen _
  · exact gives_some ⟨by simp, by simp⟩ h

/-- Directives that are read are formed by the grammar. -/
theorem gives_directives {ts : List Token} (h : Named ts) :
    Gives (readDirectives? ts) fun ds => ∀ d ∈ ds, d.Formed := by
  rw [readDirectives?.eq_def]
  split
  · next text rest =>
      refine (gives_arguments h.tail.tail).bind fun arguments rest₁ below harguments hrest₁ => ?_
      refine (gives_directives hrest₁).bind fun others rest₂ below₂ hothers hrest₂ => ?_
      exact gives_some (List.forall_mem_cons.mpr ⟨⟨h.tail.isName, harguments⟩, hothers⟩) hrest₂
  · exact gives_none
  · exact gives_some (by simp) h
termination_by ts.length
decreasing_by
  all_goals subst_vars
  all_goals grind

/-! ### Types and variables -/

/-- A type after which a mark may stand, with the mark if it is there. -/
theorem gives_nonNull {type : TypeRef} (named : type.WellNamed) (once : type.MarkedOnce)
    (unmarked : type.isNonNull = false) {ts : List Token} (h : Named ts) :
    Gives (some (readNonNull type ts)) fun t => t.WellNamed ∧ t.MarkedOnce := by
  rw [readNonNull]
  split
  · next rest below hmark =>
      exact gives_some ⟨named, unmarked, once⟩ (gives_mark h _ hmark).2
  · exact gives_some ⟨named, once⟩ h

/-- A type that is read is formed by the grammar. -/
theorem gives_type {ts : List Token} (h : Named ts) :
    Gives (readType? ts) fun t => t.WellNamed ∧ t.MarkedOnce := by
  rw [readType?.eq_def]
  split
  · next text rest =>
      have hname : (TypeRef.named text).WellNamed := h.isName
      exact (gives_nonNull hname trivial rfl h.tail).widen _
  · next rest =>
      refine (gives_type h.tail).bind fun item rest₁ below hitem hrest₁ => ?_
      refine (gives_mark hrest₁).bind fun _ rest₂ below₂ _ hrest₂ => ?_
      have hnames : (TypeRef.list item).WellNamed := hitem.1
      have hmarks : (TypeRef.list item).MarkedOnce := hitem.2
      exact (gives_nonNull hnames hmarks rfl hrest₂).widen _
  · exact gives_none
termination_by ts.length

/-- A default value that is read is formed by the grammar. -/
theorem gives_default {ts : List Token} (h : Named ts) :
    Gives (readDefault? ts) fun default? => ∀ value ∈ default?, value.Formed true := by
  rw [readDefault?]
  split
  · next rest below hmark =>
      refine (gives_literal (gives_mark h _ hmark).2).map_widen (fun value hvalue => ?_) _
      rintro _ ⟨⟩
      exact hvalue
  · exact gives_some (by simp) h

/-- The definition of a variable that is read is formed by the grammar. -/
theorem gives_variable {ts : List Token} (h : Named ts) :
    Gives (readVariable? ts) VariableDefinition.Formed := by
  rw [readVariable?.eq_def]
  split
  · next text rest =>
      refine (gives_type h.tail.tail.tail).bind fun type rest₁ below htype hrest₁ => ?_
      refine (gives_default hrest₁).bind fun default? rest₂ below₂ hdefault hrest₂ => ?_
      exact gives_some ⟨h.tail.isName, htype.1, htype.2, hdefault⟩ hrest₂
  · exact gives_none

/-- The variable definitions up to the closing parenthesis are formed by the grammar. -/
theorem gives_variableList {ts : List Token} (h : Named ts) :
    Gives (readVariableList? ts) fun vs => ∀ v ∈ vs, v.Formed := by
  rw [readVariableList?.eq_def]
  refine (gives_variable h).bind fun v rest₁ below hv hrest₁ => ?_
  dsimp only
  split
  · next rest₂ below₂ hmark =>
      exact gives_some (List.forall_mem_singleton.mpr hv) (gives_mark hrest₁ _ hmark).2
  · refine (gives_variableList hrest₁).bind fun others rest₂ below₂ hothers hrest₂ => ?_
    exact gives_some (List.forall_mem_cons.mpr ⟨hv, hothers⟩) hrest₂
termination_by ts.length

/-- Variable definitions that are read are formed by the grammar. -/
theorem gives_variables {ts : List Token} (h : Named ts) :
    Gives (readVariables? ts) fun vs => ∀ v ∈ vs, v.Formed := by
  rw [readVariables?]
  split
  · next rest below hmark => exact (gives_variableList (gives_mark h _ hmark).2).widen _
  · exact gives_some (by simp) h

/-! ### Selections -/

/-- The name of a field that is read is a name, and so is its alias. -/
theorem gives_fieldName {ts : List Token} (h : Named ts) :
    Gives (readFieldName? ts) fun names => (∀ label ∈ names.1, IsName label) ∧ IsName names.2 := by
  rw [readFieldName?.eq_def]
  split
  · next label text rest =>
      refine gives_some ⟨?_, h.tail.tail.isName⟩ h.tail.tail.tail
      rintro _ ⟨⟩
      exact h.isName
  · exact gives_none
  · exact gives_some ⟨by simp, h.isName⟩ h.tail
  · exact gives_none

/-- A field that is read is formed by the grammar. -/
theorem gives_field {ts : List Token} (h : Named ts) : Gives (readField? ts) Field.Formed := by
  rw [readField?]
  refine (gives_fieldName h).bind fun names rest₁ below₁ hnames hrest₁ => ?_
  refine (gives_arguments hrest₁).bind fun arguments rest₂ below₂ harguments hrest₂ => ?_
  refine (gives_directives hrest₂).bind fun directives rest₃ below₃ hdirectives hrest₃ => ?_
  exact gives_some ⟨hnames.1, hnames.2, harguments, hdirectives⟩ hrest₃

/-- Whether a property holds of a tree shows in its first selection and in the others. -/
theorem everySelection_cons {p : Selection → Prop} {s : Selection} {others : List Selection} :
    EverySelection p (s :: others) ↔ EverySelection p [s] ∧ EverySelection p others := by
  cases s with
  | field head selections => simp only [EverySelection, and_true, and_assoc]
  | spread fragment ds => simp only [EverySelection, and_true]
  | inlineFragment condition? ds selections => simp only [EverySelection, and_true, and_assoc]

mutual

/-- A selection that is read is formed by the grammar. -/
theorem gives_selection {ts : List Token} (h : Named ts) :
    Gives (readSelection? ts) fun s => EverySelection Selection.Formed [s] := by
  rw [readSelection?.eq_def]
  split
  · next condition rest =>
      refine (gives_directives h.tail.tail.tail).bind fun ds rest₁ below₁ hds hrest₁ => ?_
      refine (gives_mark hrest₁).bind fun _ rest₂ below₂ _ hrest₂ => ?_
      refine (gives_selections hrest₂).bind fun selections rest₃ below₃ hselections hrest₃ => ?_
      have hone : EverySelection Selection.Formed
          [.inlineFragment (some condition) ds selections] := by
        simp only [EverySelection, and_true]
        exact ⟨⟨by simpa using h.tail.tail.isName, hds, hselections.nonempty⟩, hselections.every⟩
      exact gives_some hone hrest₃
  · exact gives_none
  · next fragment rest _ hon =>
      refine (gives_directives h.tail.tail).map_widen (fun ds hds => ?_) _
      simp only [EverySelection, and_true]
      exact ⟨h.tail.isName, hon, hds⟩
  · next rest _ _ _ =>
      refine (gives_directives h.tail).bind fun ds rest₁ below₁ hds hrest₁ => ?_
      refine (gives_mark hrest₁).bind fun _ rest₂ below₂ _ hrest₂ => ?_
      refine (gives_selections hrest₂).bind fun selections rest₃ below₃ hselections hrest₃ => ?_
      have hone : EverySelection Selection.Formed [.inlineFragment none ds selections] := by
        simp only [EverySelection, and_true]
        exact ⟨⟨by simp, hds, hselections.nonempty⟩, hselections.every⟩
      exact gives_some hone hrest₃
  · refine (gives_field h).bind fun head rest₁ below₁ hhead hrest₁ => ?_
    dsimp only
    split
    · next rest₂ below₂ hmark =>
        refine (gives_selections (gives_mark hrest₁ _ hmark).2).bind
          fun selections rest₃ below₃ hselections hrest₃ => ?_
        have hone : EverySelection Selection.Formed [.field head selections] := by
          simp only [EverySelection, and_true]
          exact ⟨hhead, hselections.every⟩
        exact gives_some hone hrest₃
    · have hone : EverySelection Selection.Formed [.field head []] := by
        simp only [EverySelection, and_true]
        exact hhead
      exact gives_some hone hrest₁
termination_by (ts.length, 0)
decreasing_by
  all_goals subst_vars
  all_goals grind

/-- Selections that are read up to the closing brace are formed by the grammar. -/
theorem gives_selections {ts : List Token} (h : Named ts) :
    Gives (readSelections? ts) SelectionSet.Formed := by
  rw [readSelections?.eq_def]
  refine (gives_selection h).bind fun s rest₁ below₁ hs hrest₁ => ?_
  dsimp only
  split
  · next rest₂ below₂ hmark =>
      exact gives_some ⟨hs, List.cons_ne_nil _ _⟩ (gives_mark hrest₁ _ hmark).2
  · refine (gives_selections hrest₁).bind fun others rest₂ below₂ hothers hrest₂ => ?_
    exact gives_some ⟨everySelection_cons.mpr ⟨hs, hothers.every⟩, List.cons_ne_nil _ _⟩ hrest₂
termination_by (ts.length, 1)

end

/-- Selections between braces that are read are formed by the grammar. -/
theorem gives_selectionSet {ts : List Token} (h : Named ts) :
    Gives (readSelectionSet? ts) SelectionSet.Formed := by
  rw [readSelectionSet?]
  refine (gives_mark h).bind fun _ rest₁ below₁ _ hrest₁ => ?_
  refine (gives_selections hrest₁).bind fun selections rest₂ below₂ hselections hrest₂ => ?_
  exact gives_some hselections hrest₂

/-! ### Definitions -/

/-- A name that is read is a name. -/
theorem gives_name {ts : List Token} (h : Named ts) :
    Gives (some (readName ts)) fun name? => ∀ name ∈ name?, IsName name := by
  rw [readName.eq_def]
  split
  · next text rest =>
      refine gives_some ?_ h.tail
      rintro _ ⟨⟩
      exact h.isName
  · exact gives_some (by simp) h

/-- An operation that is read is formed by the grammar. -/
theorem gives_operation {kind : OperationKind} {ts : List Token} (h : Named ts) :
    Gives (readOperation? kind ts) Operation.Formed := by
  rw [readOperation?]
  obtain ⟨hname, hrest₁⟩ := gives_name h _ rfl
  generalize readName ts = front at hname hrest₁
  obtain ⟨name?, rest₁, below₁⟩ := front
  refine (gives_variables hrest₁).bind fun vs rest₂ below₂ hvs hrest₂ => ?_
  refine (gives_directives hrest₂).bind fun ds rest₃ below₃ hds hrest₃ => ?_
  refine (gives_selectionSet hrest₃).bind fun selections rest₄ below₄ hselections hrest₄ => ?_
  refine gives_some ⟨?_, hselections⟩ hrest₄
  rintro _ ⟨⟩
  exact ⟨hname, hvs, hds⟩

/-- A fragment that is read is formed by the grammar. -/
theorem gives_fragment {ts : List Token} (h : Named ts) :
    Gives (readFragment? ts) Fragment.Formed := by
  rw [readFragment?.eq_def]
  split
  · next text condition rest =>
      refine (gives_directives h.tail.tail.tail).bind fun ds rest₁ below₁ hds hrest₁ => ?_
      refine (gives_selectionSet hrest₁).bind fun selections rest₂ below₂ hselections hrest₂ => ?_
      exact gives_some ⟨h.isName, h.tail.tail.isName, hds, hselections⟩ hrest₂
  · exact gives_none

/-- A definition that is read is formed by the grammar. -/
theorem gives_definition {ts : List Token} (h : Named ts) :
    Gives (readDefinition? ts) Definition.Formed := by
  rw [readDefinition?.eq_def]
  split
  · next rest =>
      exact (gives_fragment h.tail).map_widen (g := Definition.fragment) (fun _ hf => hf) _
  · next word rest _ =>
      cases hkind : OperationKind.ofName? word with
      | none => exact gives_none
      | some kind =>
          refine (gives_operation h.tail).bind fun o rest₁ below₁ ho hrest₁ => ?_
          exact gives_some ho hrest₁
  · intro front hfront
    obtain ⟨before, hread, rfl⟩ := Option.map_eq_some_iff.mp hfront
    obtain ⟨hselections, hrest⟩ := gives_selectionSet h before hread
    exact ⟨⟨by simp, hselections⟩, hrest⟩

/-- Definitions that are read are formed by the grammar, and there is at least one. -/
theorem formed_of_readDefinitions? {ts : List Token} (h : Named ts) {definitions : List Definition}
    (hread : readDefinitions? ts = some definitions) :
    (∀ d ∈ definitions, d.Formed) ∧ definitions ≠ [] := by
  rw [readDefinitions?.eq_def] at hread
  obtain ⟨⟨d, rest, below⟩, hd, hread⟩ := Option.bind_eq_some_iff.mp hread
  obtain ⟨hformed, hrest⟩ := gives_definition h _ hd
  dsimp only at hread
  split_ifs at hread with hend
  · obtain rfl := Option.some.inj hread
    exact ⟨List.forall_mem_singleton.mpr hformed, List.cons_ne_nil _ _⟩
  · obtain ⟨others, hothers, heq⟩ := Option.bind_eq_some_iff.mp hread
    obtain rfl := Option.some.inj heq
    exact ⟨List.forall_mem_cons.mpr ⟨hformed, (formed_of_readDefinitions? hrest hothers).1⟩,
      List.cons_ne_nil _ _⟩
termination_by ts.length

/-- **A document that was read is formed by the grammar.** In particular all its names are names. -/
theorem Document.formed_of_read? {text : String} {d : Document}
    (h : Document.read? text = some d) : d.Formed := by
  obtain ⟨ts, hscan, h⟩ := Option.bind_eq_some_iff.mp h
  split_ifs at h with hnesting
  obtain ⟨definitions, hread, rfl⟩ := Option.map_eq_some_iff.mp h
  obtain ⟨hformed, hne⟩ := formed_of_readDefinitions? (named_of_scan? hscan) hread
  exact ⟨hformed, hne⟩

end SchemaBridge.Graphql
