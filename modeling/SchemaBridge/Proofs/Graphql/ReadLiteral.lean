import SchemaBridge.Graphql.Reader
import SchemaBridge.Proofs.Graphql.Printed

/-!
# Reading printed literals

The tokens of a printed literal are read from the front, and what is read is known before: the same
literal, but for one whose text denotes another value. So are the tokens of arguments and
directives.

* `Takes`: a reader takes a value off the front of some tokens;
* `Literal.reread`, `Directive.reread`: what the tokens are read as;
* `Literal.Formed.takes`, `Arguments.Formed.takes`, `takes_directives`: that they are.
-/

namespace SchemaBridge.Graphql

open SchemaBridge.Text (Front)

/-! ### Readers -/

/-- A reader takes a value and leaves the rest. -/
def Takes {α : Type} {bound : Nat} (r : Option (Front Token α bound)) (v : α) (rest : List Token) :
    Prop :=
  ∃ below, r = some ⟨v, rest, below⟩

/-- The bound on the rest may grow. -/
theorem Takes.widen {α : Type} {bound greater : Nat} {r : Option (Front Token α bound)} {v : α}
    {rest : List Token} (h : Takes r v rest) (hle : bound ≤ greater) :
    Takes (r.map fun f => f.widen hle) v rest := by
  obtain ⟨below, rfl⟩ := h
  exact ⟨Nat.lt_of_lt_of_le below hle, rfl⟩

/-- What is taken may be changed, and the bound on the rest may grow. -/
theorem Takes.map_widen {α β : Type} {bound greater : Nat} {r : Option (Front Token α bound)}
    {v : α} {rest : List Token} (h : Takes r v rest) {g : α → β} (hle : bound ≤ greater) :
    Takes (r.map fun f => (f.map g).widen hle) (g v) rest := by
  obtain ⟨below, rfl⟩ := h
  exact ⟨Nat.lt_of_lt_of_le below hle, rfl⟩

/-- A reader that goes on with what another one takes. -/
theorem Takes.bind {α β : Type} {bound bound' : Nat} {r : Option (Front Token α bound)} {v : α}
    {rest : List Token} (h : Takes r v rest)
    {f : Front Token α bound → Option (Front Token β bound')} {w : β} {rest' : List Token}
    (hf : ∀ below, Takes (f ⟨v, rest, below⟩) w rest') :
    Takes (r >>= f) w rest' := by
  obtain ⟨below, rfl⟩ := h
  exact hf below

/-- The first token is none of the punctuators. -/
def Avoids (marks : List Char) (ts : List Token) : Prop :=
  ∀ c ∈ marks, ts.head? ≠ some (.punctuator c)

/-- A punctuator that is none of them. -/
theorem avoids_cons {marks : List Char} {c : Char} {rest : List Token} :
    Avoids marks (.punctuator c :: rest) ↔ c ∉ marks := by
  constructor
  · exact fun h hc => h c hc rfl
  · rintro h d hd heq
    rw [List.head?_cons, Option.some.injEq, Token.punctuator.injEq] at heq
    exact h (heq ▸ hd)

/-- What avoids punctuators avoids some of them. -/
theorem Avoids.subset {marks fewer : List Char} {ts : List Token} (h : Avoids marks ts)
    (hsubset : fewer ⊆ marks) : Avoids fewer ts :=
  fun c hc => h c (hsubset hc)

/-- A punctuator is taken where it stands. -/
theorem takes_readMark? (c : Char) (rest : List Token) :
    Takes (readMark? c (.punctuator c :: rest)) () rest := by
  rw [readMark?, if_pos rfl]
  exact ⟨_, rfl⟩

/-- A punctuator is not taken where another token stands. -/
theorem readMark?_eq_none {marks : List Char} {ts : List Token} (h : Avoids marks ts) {c : Char}
    (hc : c ∈ marks) : readMark? c ts = none := by
  cases ts with
  | nil => rfl
  | cons t rest =>
      cases t with
      | punctuator d =>
          have hne : d ≠ c := fun heq => h c hc (heq ▸ rfl)
          rw [readMark?, if_neg hne]
      | ellipsis => rfl
      | name text => rfl
      | number value => rfl
      | string value => rfl

/-- The first token is no name. -/
def Nameless (ts : List Token) : Prop :=
  ∀ text rest, ts ≠ .name text :: rest

/-- A punctuator is no name. -/
theorem nameless_cons (c : Char) (rest : List Token) : Nameless (.punctuator c :: rest) :=
  fun _ _ h => by cases h

/-- A reader of values takes them one by one: the last one stands before a closing punctuator, and
any other one before further values. -/
structure OneByOne {α : Type} (close : Char)
    (readOne : (ts : List Token) → Option (Front Token α ts.length))
    (readMany : (ts : List Token) → Option (Front Token (List α) ts.length)) : Prop where
  last {before after rest : List Token} {v : α} (one : Takes (readOne before) v after)
    (closed : Takes (readMark? close after) () rest) : Takes (readMany before) [v] rest
  more {before after rest : List Token} {v : α} {others : List α}
    (one : Takes (readOne before) v after) (opened : readMark? close after = none)
    (many : Takes (readMany after) others rest) : Takes (readMany before) (v :: others) rest

/-- Values are taken up to a closing punctuator by taking the first one, and the others if there are
any. -/
theorem OneByOne.cons {α : Type} {close : Char}
    {readOne : (ts : List Token) → Option (Front Token α ts.length)}
    {readMany : (ts : List Token) → Option (Front Token (List α) ts.length)}
    (hmany : OneByOne close readOne readMany) {before ts rest : List Token} {v : α}
    {others : List α} (hv : Takes (readOne before) v (ts ++ .punctuator close :: rest))
    (hothers : (others = [] ∧ ts = []) ∨ (Avoids [close] (ts ++ .punctuator close :: rest) ∧
      Takes (readMany (ts ++ .punctuator close :: rest)) others rest)) :
    Takes (readMany before) (v :: others) rest := by
  rcases hothers with ⟨rfl, rfl⟩ | ⟨havoids, hothers⟩
  · exact hmany.last hv (takes_readMark? close rest)
  · exact hmany.more hv (readMark?_eq_none havoids List.mem_cons_self) hothers

/-! ### Literals -/

/-- The literal that the text of a number is read as. -/
def rereadNumber (text : String) (v : Literal) : Literal :=
  ((Numeral.read? text.toList).map Numeral.toLiteral).getD v

mutual

/-- The literal that the text of a literal is read as, if it can be read. -/
def Literal.reread (indent : Nat) : Literal → Literal
  | .reference variableName => .reference variableName
  | .int n => rereadNumber (Text.intText n) (.int n)
  | .float x => rereadNumber (floatLayout.write x) (.float x)
  | .infinite negative =>
    if negative then rereadNumber "-inf" (.infinite true) else .enumeration "inf"
  | .string s => .string ((writtenString? indent s).getD s)
  | .boolean b => .boolean b
  | .null => .null
  | .enumeration name => .ofName name
  | .list items => .list (rereadItems indent items)
  | .object entries => .object (Entries.ofList (rereadEntries indent entries))

/-- The literals that the texts of literals are read as. -/
def rereadItems (indent : Nat) : List Literal → List Literal
  | [] => []
  | v :: rest => v.reread indent :: rereadItems indent rest

/-- The named literals that the texts of named literals are read as. -/
def rereadEntries (indent : Nat) : List (String × Literal) → List (String × Literal)
  | [] => []
  | (k, v) :: rest => (k, v.reread indent) :: rereadEntries indent rest

end

/-- The literal is read off the front of its tokens. -/
def Literal.Read (constant : Bool) (indent : Nat) (v : Literal) : Prop :=
  ∀ ts, v.scan indent = some ts → ∀ rest,
    Takes (readLiteral? constant (ts ++ rest)) (v.reread indent) rest

/-- A number is read off the front of its tokens. -/
theorem takes_number {constant : Bool} {text : String} {v : Literal} {ts : List Token}
    (h : Scanned.number text = some ts) (rest : List Token) :
    Takes (readLiteral? constant (ts ++ rest)) (rereadNumber text v) rest := by
  obtain ⟨token, htoken, rfl⟩ := Scanned.ofToken?_eq_some_iff.mp h
  obtain ⟨n, hn, rfl⟩ := Option.map_eq_some_iff.mp htoken
  rw [List.singleton_append, readLiteral?, rereadNumber, hn]
  exact ⟨_, rfl⟩

/-- A name is read as the literal that it denotes. -/
theorem takes_ofName {constant : Bool} {text : String} {ts : List Token}
    (h : Scanned.name text = some ts) (rest : List Token) :
    Takes (readLiteral? constant (ts ++ rest)) (.ofName text) rest := by
  obtain rfl := Scanned.name_eq_some_iff.mp h
  rw [List.singleton_append, readLiteral?]
  exact ⟨_, rfl⟩

/-- Where a literal is taken, no closing bracket stands. -/
theorem readItems?_of_takes {constant : Bool} {ts rest : List Token} {v : Literal}
    (h : Takes (readLiteral? constant ts) v rest) {items : List Literal} {after : List Token}
    (hrest : Takes (readItems? constant rest) items after) :
    Takes (readItems? constant ts) (v :: items) after := by
  obtain ⟨below, h⟩ := h
  rw [readItems?.eq_2, h]
  · exact hrest.map_widen _
  · rintro rest' rfl
    have hnone : readLiteral? constant (.punctuator ']' :: rest') = none := by
      rw [readLiteral?] <;> simp
    exact absurd (hnone.symm.trans h) (by simp)

/-- Literals are read up to the closing bracket. -/
theorem takes_items {constant : Bool} {indent : Nat} {items : List Literal}
    (h : ∀ item ∈ items, item.Read constant indent) {ts : List Token}
    (hts : literalScans indent items = some ts) (rest : List Token) :
    Takes (readItems? constant (ts ++ .punctuator ']' :: rest)) (rereadItems indent items)
      rest := by
  induction items generalizing ts with
  | nil =>
      rw [literalScans, Scanned.nil_eq_some_iff] at hts
      subst hts
      rw [List.nil_append, readItems?, rereadItems]
      exact ⟨_, rfl⟩
  | cons v items ih =>
      rw [literalScans, Scanned.append_eq_some_iff] at hts
      obtain ⟨ts₁, ts₂, hv, hitems, rfl⟩ := hts
      rw [List.append_assoc, rereadItems]
      exact readItems?_of_takes (h v List.mem_cons_self ts₁ hv _)
        (ih (fun item hitem => h item (List.mem_cons_of_mem _ hitem)) hitems)

/-- Named literals are read up to the closing brace. -/
theorem takes_entries {constant : Bool} {indent : Nat} {entries : List (String × Literal)}
    (h : ∀ entry ∈ entries, entry.2.Read constant indent) {ts : List Token}
    (hts : entryScans indent entries = some ts) (rest : List Token) :
    Takes (readEntries? constant (ts ++ .punctuator '\x7d' :: rest)) (rereadEntries indent entries)
      rest := by
  induction entries generalizing ts with
  | nil =>
      rw [entryScans, Scanned.nil_eq_some_iff] at hts
      subst hts
      rw [List.nil_append, readEntries?, rereadEntries]
      exact ⟨_, rfl⟩
  | cons entry entries ih =>
      obtain ⟨k, v⟩ := entry
      simp only [entryScans, Scanned.append_assoc, Scanned.name_append_eq_some_iff,
        Scanned.mark_append_eq_some_iff] at hts
      simp only [Scanned.append_eq_some_iff] at hts
      obtain ⟨_, ⟨_, ⟨ts₁, ts₂, hv, hentries, rfl⟩, rfl⟩, rfl⟩ := hts
      obtain ⟨below, hread⟩ := h (k, v) List.mem_cons_self ts₁ hv
        (ts₂ ++ .punctuator '\x7d' :: rest)
      rw [List.cons_append, List.cons_append, List.append_assoc, readEntries?, hread, rereadEntries]
      exact (ih (fun entry hentry => h entry (List.mem_cons_of_mem _ hentry)) hentries).map_widen _

/-- A literal that the grammar forms is read off the front of its tokens. -/
theorem Literal.Formed.takes {constant : Bool} {v : Literal} (h : v.Formed constant)
    (indent : Nat) : v.Read constant indent := by
  induction h with
  | reference free _ =>
      intro ts hts rest
      rw [Literal.scan, Scanned.mark_append_eq_some_iff] at hts
      obtain ⟨_, hname, rfl⟩ := hts
      obtain rfl := Scanned.name_eq_some_iff.mp hname
      subst free
      rw [List.cons_append, List.singleton_append, readLiteral?, Literal.reread]
      exact ⟨_, rfl⟩
  | int n =>
      intro ts hts rest
      rw [Literal.scan] at hts
      rw [Literal.reread]
      exact takes_number hts rest
  | float x =>
      intro ts hts rest
      rw [Literal.scan] at hts
      rw [Literal.reread]
      exact takes_number hts rest
  | infinite negative =>
      intro ts hts rest
      rw [Literal.scan] at hts
      rw [Literal.reread]
      cases negative with
      | false => exact takes_ofName hts rest
      | true => exact takes_number hts rest
  | string s =>
      intro ts hts rest
      rw [Literal.scan] at hts
      obtain ⟨token, htoken, rfl⟩ := Scanned.ofToken?_eq_some_iff.mp hts
      obtain ⟨s', hs', rfl⟩ := Option.map_eq_some_iff.mp htoken
      rw [List.singleton_append, readLiteral?, Literal.reread, hs']
      exact ⟨_, rfl⟩
  | boolean b =>
      intro ts hts rest
      rw [Literal.scan] at hts
      rw [Literal.reread]
      cases b <;> exact takes_ofName hts rest
  | null =>
      intro ts hts rest
      rw [Literal.scan] at hts
      rw [Literal.reread]
      exact takes_ofName hts rest
  | enumeration _ =>
      intro ts hts rest
      rw [Literal.scan] at hts
      rw [Literal.reread]
      exact takes_ofName hts rest
  | list _ ih =>
      intro ts hts rest
      rw [Literal.scan] at hts
      obtain ⟨ts₁, hitems, rfl⟩ := Scanned.between_eq_some_iff.mp hts
      rw [List.cons_append, List.append_assoc, List.singleton_append, readLiteral?, Literal.reread]
      exact (takes_items ih hitems rest).map_widen _
  | object _ _ ih =>
      intro ts hts rest
      rw [Literal.scan] at hts
      obtain ⟨ts₁, hentries, rfl⟩ := Scanned.between_eq_some_iff.mp hts
      rw [List.cons_append, List.append_assoc, List.singleton_append, readLiteral?, Literal.reread]
      exact (takes_entries ih hentries rest).map_widen _

/-! ### Arguments and directives -/

/-- Where an argument begins, no punctuator stands. -/
theorem avoids_entries {indent : Nat} {k : String} {v : Literal} {entries : Arguments}
    {ts : List Token} (hts : entryScans indent ((k, v) :: entries) = some ts) (rest : List Token)
    (marks : List Char) : Avoids marks (ts ++ rest) := by
  simp only [entryScans, Scanned.append_assoc, Scanned.name_append_eq_some_iff] at hts
  obtain ⟨_, _, rfl⟩ := hts
  rintro c - h
  cases h

/-- Arguments are read up to the closing parenthesis. -/
theorem takes_argumentList {indent : Nat} {arguments : Arguments} (h : Arguments.Formed arguments)
    (hne : arguments ≠ []) {ts : List Token} (hts : entryScans indent arguments = some ts)
    (rest : List Token) :
    Takes (readArgumentList? (ts ++ .punctuator ')' :: rest)) (rereadEntries indent arguments)
      rest := by
  induction arguments generalizing ts with
  | nil => exact absurd rfl hne
  | cons argument others ih =>
      obtain ⟨k, v⟩ := argument
      simp only [entryScans, Scanned.append_assoc, Scanned.name_append_eq_some_iff,
        Scanned.mark_append_eq_some_iff] at hts
      simp only [Scanned.append_eq_some_iff] at hts
      obtain ⟨_, ⟨_, ⟨ts₁, ts₂, hv, hothers, rfl⟩, rfl⟩, rfl⟩ := hts
      rw [List.cons_append, List.cons_append, List.append_assoc, readArgumentList?, rereadEntries]
      refine ((h.values _ List.mem_cons_self).takes indent ts₁ hv _).bind fun below => ?_
      dsimp only
      cases others with
      | nil =>
          rw [entryScans, Scanned.nil_eq_some_iff] at hothers
          subst hothers
          obtain ⟨below, hclosed⟩ := takes_readMark? ')' rest
          rw [show readMark? ')' ([] ++ .punctuator ')' :: rest) = _ from hclosed, rereadEntries]
          exact ⟨_, rfl⟩
      | cons other others =>
          have hnone : readMark? ')' (ts₂ ++ .punctuator ')' :: rest) = none :=
            readMark?_eq_none (avoids_entries hothers _ [')']) List.mem_cons_self
          rw [hnone]
          have hformed : Arguments.Formed (other :: others) :=
            ⟨fun a ha => h.names a (List.mem_cons_of_mem _ ha),
              fun a ha => h.values a (List.mem_cons_of_mem _ ha)⟩
          refine (ih hformed (List.cons_ne_nil _ _) hothers).bind fun below => ?_
          exact ⟨_, rfl⟩

/-- Arguments between parentheses, or none, are read if no parenthesis follows. -/
theorem Arguments.Formed.takes {indent : Nat} {arguments : Arguments}
    (h : Arguments.Formed arguments) {ts : List Token}
    (hts : argumentsScan indent arguments = some ts) {rest : List Token}
    (hrest : Avoids ['('] rest) :
    Takes (readArguments? (ts ++ rest)) (rereadEntries indent arguments) rest := by
  rw [argumentsScan] at hts
  cases arguments with
  | nil =>
      obtain rfl := Scanned.nil_eq_some_iff.mp hts
      rw [List.nil_append, readArguments?, readMark?_eq_none hrest List.mem_cons_self,
        rereadEntries]
      exact ⟨_, rfl⟩
  | cons argument others =>
      rw [List.isEmpty_cons, if_neg (by simp)] at hts
      obtain ⟨ts₁, hentries, rfl⟩ := Scanned.between_eq_some_iff.mp hts
      obtain ⟨below, hopened⟩ := takes_readMark? '(' (ts₁ ++ .punctuator ')' :: rest)
      rw [List.cons_append, List.append_assoc, List.singleton_append, readArguments?, hopened]
      exact (takes_argumentList h (List.cons_ne_nil _ _) hentries rest).widen _

/-- A directive as its text is read. -/
def Directive.reread (indent : Nat) (d : Directive) : Directive :=
  ⟨d.name, rereadEntries indent d.arguments⟩

/-- Directives are scanned one by one. -/
theorem directivesScan_cons (indent : Nat) (d : Directive) (ds : List Directive) :
    directivesScan indent (d :: ds) = d.scan indent ++ directivesScan indent ds := rfl

/-- Directives begin with the mark of a directive. -/
theorem directivesScan_cons_eq_some {indent : Nat} {d : Directive} {ds : List Directive}
    {ts : List Token} (hts : directivesScan indent (d :: ds) = some ts) :
    ∃ rest, ts = .punctuator '@' :: rest := by
  simp only [directivesScan_cons, Directive.scan, Scanned.append_assoc,
    Scanned.mark_append_eq_some_iff] at hts
  obtain ⟨rest, _, rfl⟩ := hts
  exact ⟨rest, rfl⟩

/-- Directives begin with the mark of a directive, or there are none. -/
theorem avoids_directives {indent : Nat} {ds : List Directive} {ts : List Token}
    (hts : directivesScan indent ds = some ts) {marks : List Char} (hmarks : '@' ∉ marks)
    {rest : List Token} (hrest : Avoids marks rest) : Avoids marks (ts ++ rest) := by
  cases ds with
  | nil =>
      obtain rfl := Scanned.nil_eq_some_iff.mp hts
      exact hrest
  | cons d ds =>
      obtain ⟨_, rfl⟩ := directivesScan_cons_eq_some hts
      exact avoids_cons.mpr hmarks

/-- Directives do not begin with a name. -/
theorem nameless_directives {indent : Nat} {ds : List Directive} {ts : List Token}
    (hts : directivesScan indent ds = some ts) {rest : List Token} (hrest : Nameless rest) :
    Nameless (ts ++ rest) := by
  cases ds with
  | nil =>
      obtain rfl := Scanned.nil_eq_some_iff.mp hts
      exact hrest
  | cons d ds =>
      obtain ⟨_, rfl⟩ := directivesScan_cons_eq_some hts
      exact nameless_cons _ _

/-- Directives are read if neither a parenthesis nor a further directive follows. -/
theorem takes_directives {indent : Nat} {ds : List Directive} (h : ∀ d ∈ ds, d.Formed)
    {ts : List Token} (hts : directivesScan indent ds = some ts) {rest : List Token}
    (hrest : Avoids ['(', '@'] rest) :
    Takes (readDirectives? (ts ++ rest)) (ds.map (Directive.reread indent)) rest := by
  induction ds generalizing ts with
  | nil =>
      obtain rfl := Scanned.nil_eq_some_iff.mp hts
      rw [List.nil_append, readDirectives?.eq_3]
      · exact ⟨_, rfl⟩
      · rintro text rest' rfl
        exact hrest '@' (by simp) rfl
      · rintro rest' rfl
        exact hrest '@' (by simp) rfl
  | cons d ds ih =>
      simp only [directivesScan_cons, Directive.scan, Scanned.append_assoc,
        Scanned.name_append_eq_some_iff, Scanned.mark_append_eq_some_iff] at hts
      simp only [Scanned.append_eq_some_iff] at hts
      obtain ⟨_, ⟨_, ⟨ts₁, ts₂, harguments, hds, rfl⟩, rfl⟩, rfl⟩ := hts
      rw [List.cons_append, List.cons_append, List.append_assoc, readDirectives?]
      have hnext : Avoids ['('] (ts₂ ++ rest) :=
        avoids_directives hds (by decide) (hrest.subset (by decide))
      refine ((h d List.mem_cons_self).arguments.takes harguments hnext).bind fun below => ?_
      refine (ih (fun d hd => h d (List.mem_cons_of_mem _ hd)) hds).bind fun below => ?_
      exact ⟨_, rfl⟩

end SchemaBridge.Graphql
