import SchemaBridge.Json.Printer
import SchemaBridge.Json.Reader
import SchemaBridge.Proofs.Graphql.StringText

/-!
# Written values

A value without numbers is read back from its text, whether it is written on one line or over
several.

* `ReadsAs`: a piece of text is read by itself, whatever follows it;
* `WrittenAs`: how a character may stand in a string. It is read as that character;
* `Value.tokens`: the tokens of a value;
* `Value.Plain`: values without numbers that nest so many arrays and objects at most;
* `hasTokens_compact`, `hasTokens_prettyAt`: both texts of such a value have its tokens;
* `Value.Plain.readBack`: the value is read from its tokens;
* `readOrdered?_compact`, `readOrdered?_pretty`: so it is read back from its texts.
-/

namespace SchemaBridge.Json

open Graphql (PassedOver passedOver_escape passedOver_flatMap passedOver_of_forall
  passedOver_singleton)

/-! ### Reading piece by piece -/

section ReadsAs

variable {α β : Type} {read : List Char → Option (List β)} {cs ds : List Char} {out more : List β}

/-- A piece of text gives something by itself, and what follows is read as if it stood alone. -/
def ReadsAs (read : List Char → Option (List β)) (cs : List Char) (out : List β) : Prop :=
  ∀ rest, read (cs ++ rest) = (read rest).map (out ++ ·)

/-- No text gives nothing. -/
theorem readsAs_nil : ReadsAs read [] [] := fun rest => by
  cases h : read rest <;> simp [h]

/-- One piece after another. -/
theorem ReadsAs.append (hcs : ReadsAs read cs out) (hds : ReadsAs read ds more) :
    ReadsAs read (cs ++ ds) (out ++ more) := by
  intro rest
  rw [List.append_assoc, hcs, hds, Option.map_map]
  refine Option.map_congr fun _ _ => ?_
  simp

/-- Many pieces, one after the other. -/
theorem readsAs_flatMap {f : α → List Char} {g : α → List β} (items : List α)
    (h : ∀ item ∈ items, ReadsAs read (f item) (g item)) :
    ReadsAs read (items.flatMap f) (items.flatMap g) := by
  induction items with
  | nil => exact readsAs_nil
  | cons item rest ih =>
      rw [List.flatMap_cons, List.flatMap_cons]
      exact (h item List.mem_cons_self).append
        (ih fun other hother => h other (List.mem_cons_of_mem _ hother))

/-- Many pieces with a separator between them. -/
theorem readsAs_intercalate {f : α → List Char} {g : α → List β} (hseparator : ReadsAs read cs out)
    (items : List α) (h : ∀ item ∈ items, ReadsAs read (f item) (g item)) :
    ReadsAs read (cs.intercalate (items.map f)) (out.intercalate (items.map g)) := by
  induction items with
  | nil => exact readsAs_nil
  | cons first rest ih =>
      have hfirst := h first List.mem_cons_self
      have hrest := ih fun item hitem => h item (List.mem_cons_of_mem _ hitem)
      cases rest with
      | nil => simpa using hfirst
      | cons second rest =>
          simp only [List.map_cons, List.intercalate_cons_cons] at hrest ⊢
          exact (hfirst.append hseparator).append hrest

/-- A whole text. -/
theorem ReadsAs.read_eq (h : ReadsAs read cs out) (hempty : read [] = some []) :
    read cs = some out := by
  have hread := h []
  rwa [List.append_nil, hempty, Option.map_some, List.append_nil] at hread

end ReadsAs

/-! ### Strings -/

/-- The hexadecimal digits of a control character. -/
def controlDigits (n : Nat) : List Char :=
  ['0', '0', Nat.digitChar (n / 16), Nat.digitChar (n % 16)]

/-- A control character is written with these digits. -/
theorem toList_hexText {n : Nat} (h : n < 32) : (Text.hexText 4 n).toList = controlDigits n := by
  have hall : ∀ n < 32, List.replicate (4 - (Nat.toDigits 16 n).length) '0' ++ Nat.toDigits 16 n =
      controlDigits n := by decide
  rw [Text.hexText, String.toList_ofList]
  exact hall n h

/-- These digits are neither quotes nor backslashes. -/
theorem ne_of_mem_controlDigits {n : Nat} (h : n < 32) {d : Char} (hd : d ∈ controlDigits n) :
    d ≠ '"' ∧ d ≠ '\\' := by
  have hdigit : ∀ m < 16, Nat.digitChar m ≠ '"' ∧ Nat.digitChar m ≠ '\\' := by decide
  simp only [controlDigits, List.mem_cons, List.not_mem_nil, or_false] at hd
  rcases hd with rfl | rfl | rfl | rfl
  · decide
  · decide
  · exact hdigit _ (by omega)
  · exact hdigit _ (Nat.mod_lt _ (by omega))

/-- A character is found under its code point. -/
theorem charOfCode?_toNat (c : Char) : Text.charOfCode? c.toNat = some c := by
  have hvalid : c.toNat.isValidChar := c.valid
  rw [Text.charOfCode?, dif_pos hvalid]
  rfl

/-- How a character may be written in a string: as it is, behind a backslash, or by its code. -/
inductive WrittenAs (c : Char) : List Char → Prop
  | plain (hquote : c ≠ '"') (hslash : c ≠ '\\') (hcontrol : ¬ c.toNat < 32) : WrittenAs c [c]
  | escape (letter : Char) (hletter : letter ≠ 'u') (h : simpleEscape? letter = some c) :
      WrittenAs c ['\\', letter]
  | code (hcontrol : c.toNat < 32) : WrittenAs c ('\\' :: 'u' :: controlDigits c.toNat)

/-- How a character is written in a string. -/
theorem writtenAs_escapedChar (c : Char) : WrittenAs c (escapedChar c).toList := by
  have hchar : ∀ n, c.toNat = n → c = Char.ofNat n := fun n h => by rw [← h, Char.ofNat_toNat]
  rw [escapedChar]
  split_ifs with h₁ h₂ h₃ h₄ h₅ h₆ h₇ h₈
  · exact .escape '"' (by decide) (congrArg some h₁.symm)
  · exact .escape '\\' (by decide) (congrArg some h₂.symm)
  · exact .escape 'n' (by decide) (congrArg some h₃.symm)
  · exact .escape 'r' (by decide) (congrArg some h₄.symm)
  · exact .escape 't' (by decide) (congrArg some h₅.symm)
  · exact .escape 'b' (by decide) (congrArg some (hchar 8 h₆).symm)
  · exact .escape 'f' (by decide) (congrArg some (hchar 12 h₇).symm)
  · rw [String.toList_append, toList_hexText h₈]
    exact .code h₈
  · exact String.toList_singleton c ▸ .plain h₁ h₂ h₈

/-- A written character does not end a string. -/
theorem WrittenAs.passedOver {c : Char} {cs : List Char} (h : WrittenAs c cs) :
    PassedOver Text.quotedBody? cs := by
  cases h with
  | plain hquote hslash hcontrol => exact passedOver_singleton hquote hslash
  | escape letter hletter h => exact passedOver_escape letter
  | code hcontrol =>
      refine (passedOver_escape 'u').append (passedOver_of_forall fun d hd => ?_)
      obtain ⟨hquote, hslash⟩ := ne_of_mem_controlDigits hcontrol hd
      exact passedOver_singleton hquote hslash

/-- A written character is read as that character. -/
theorem WrittenAs.readsAs {c : Char} {cs : List Char} (h : WrittenAs c cs) :
    ReadsAs unescape? cs [c] := by
  intro rest
  cases h with
  | plain hquote hslash hcontrol =>
      rw [List.singleton_append, unescape?.eq_4 c rest (fun _ _ _ _ _ h => absurd h hslash)
        fun _ _ h => absurd h hslash, if_neg (not_or.mpr ⟨hcontrol, hslash⟩)]
      cases unescape? rest <;> rfl
  | escape letter hletter h =>
      rw [List.cons_append, List.singleton_append,
        unescape?.eq_3 letter rest fun _ _ _ _ _ h => absurd h hletter, h]
      cases unescape? rest <;> rfl
  | code hcontrol =>
      have hall : ∀ n < 32, Text.hexNumber? (controlDigits n) = some n := by decide
      have hnumber := hall c.toNat hcontrol
      have hsingle : ¬ (0xD800 ≤ c.toNat ∧ c.toNat ≤ 0xDBFF) := by omega
      rw [controlDigits] at hnumber ⊢
      simp only [List.cons_append, List.nil_append]
      rw [unescape?.eq_2, hnumber]
      simp only [Option.bind_eq_bind, Option.bind_some, if_neg hsingle, charOfCode?_toNat]
      cases unescape? rest <;> rfl

/-- The characters of a string as they are written between its quotes. -/
def writtenBody (s : String) : List Char :=
  s.toList.flatMap fun c => (escapedChar c).toList

/-- The text of a string. -/
theorem toList_stringText (s : String) :
    (stringText s).toList = '"' :: (writtenBody s ++ ['"']) := by
  simp only [stringText, String.toList_append, String.toList_join, writtenBody, List.flatMap_map]
  rfl

/-- A string ends at its closing quote. -/
theorem quotedBody?_writtenBody (s : String) (rest : List Char) :
    Text.quotedBody? (writtenBody s ++ '"' :: rest) = some (writtenBody s, rest) :=
  (passedOver_flatMap s.toList fun c _ => (writtenAs_escapedChar c).passedOver).body?_eq
    (Text.quotedBody?.eq_2 rest)

/-- What is written between the quotes denotes the string. -/
theorem unescape?_writtenBody (s : String) : unescape? (writtenBody s) = some s.toList := by
  have hread := readsAs_flatMap s.toList fun c _ => (writtenAs_escapedChar c).readsAs
  rw [List.flatMap_singleton'] at hread
  exact hread.read_eq rfl

/-! ### Tokens -/

/-- The tokens of a text, also where it is a part of a longer one. -/
def HasTokens (text : String) (ts : List Token) : Prop :=
  ReadsAs Token.scan? text.toList ts

section HasTokens

variable {α : Type} {s t blank : String} {ts us : List Token}

/-- One text after another. -/
theorem HasTokens.append (hs : HasTokens s ts) (ht : HasTokens t us) :
    HasTokens (s ++ t) (ts ++ us) := by
  rw [HasTokens, String.toList_append]
  exact ReadsAs.append hs ht

/-- No text. -/
theorem hasTokens_empty : HasTokens "" [] := readsAs_nil

/-- A text that is one token. -/
theorem hasTokens_singleton {token : Token}
    (h : ∀ rest, Token.scan? (s.toList ++ rest) = do return token :: (← Token.scan? rest)) :
    HasTokens s [token] := by
  intro rest
  rw [h]
  cases Token.scan? rest <;> rfl

/-- Many texts with commas between them. -/
theorem hasTokens_intercalate {f : α → String} {g : α → List Token} (items : List α)
    (h : ∀ item ∈ items, HasTokens (f item) (g item)) :
    HasTokens (",".intercalate (items.map f)) ([.comma].intercalate (items.map g)) := by
  have hcomma : HasTokens "," [.comma] := hasTokens_singleton Token.scan?.eq_7
  rw [HasTokens, String.toList_intercalate, List.map_map]
  exact readsAs_intercalate hcomma items h

/-- A string is one token. -/
theorem hasTokens_stringText (s : String) : HasTokens (stringText s) [.string s] := by
  intro rest
  have hbody := quotedBody?_writtenBody s rest
  rw [toList_stringText, List.cons_append, List.append_assoc, List.singleton_append,
    Token.scan?.eq_11]
  split
  · next found => exact absurd (found.symm.trans hbody) (by simp)
  · next body after found =>
      obtain ⟨rfl, rfl⟩ := Prod.mk.inj (Option.some.inj (found.symm.trans hbody))
      rw [unescape?_writtenBody]
      simp only [Option.bind_eq_bind, Option.bind_some, String.ofList_toList]
      cases Token.scan? after <;> rfl

/-- A space has no token. -/
theorem readsAs_space {c : Char} (h : isSpace c = true) : ReadsAs Token.scan? [c] [] := by
  intro rest
  rw [isSpace] at h
  rw [List.singleton_append, Token.scan?.eq_12, isSpace, if_pos h]
  · cases Token.scan? rest <;> rfl
  all_goals
    intros
    subst_vars
    simp at h

/-- A line break has no token, nor has the indentation after it. -/
theorem hasTokens_lineBreak (level : Nat) : HasTokens (lineBreak level) [] := by
  have hbreak : HasTokens "\n" [] := (readsAs_space rfl : ReadsAs Token.scan? ['\n'] [])
  have hspaces : HasTokens (String.ofList (List.replicate (2 * level) ' ')) [] := by
    have hall := readsAs_flatMap (List.replicate (2 * level) ' ') fun c hc =>
      readsAs_space (List.eq_of_mem_replicate hc ▸ rfl : isSpace c = true)
    rw [List.flatMap_singleton', List.flatMap_eq_nil_iff.mpr fun _ _ => rfl] at hall
    rwa [HasTokens, String.toList_ofList]
  exact hbreak.append hspaces

end HasTokens

mutual

/-- The tokens of a value. -/
def Value.tokens : Value → List Token
  | .null => [.null]
  | .boolean b => [.boolean b]
  | .number n => [.number n]
  | .string s => [.string s]
  | .array items => .beginArray :: ([.comma].intercalate (itemTokens items) ++ [.endArray])
  | .object entries => .beginObject :: ([.comma].intercalate (entryTokens entries) ++ [.endObject])

/-- The tokens of the items. -/
def itemTokens : List Value → List (List Token)
  | [] => []
  | v :: rest => v.tokens :: itemTokens rest

/-- The tokens of the entries. -/
def entryTokens : List (String × Value) → List (List Token)
  | [] => []
  | (k, v) :: rest => (.string k :: .colon :: v.tokens) :: entryTokens rest

end

/-- The tokens of the items, one by one. -/
theorem itemTokens_eq_map (items : List Value) : itemTokens items = items.map Value.tokens := by
  induction items with
  | nil => rfl
  | cons v rest ih => rw [itemTokens, ih, List.map_cons]

/-- The tokens of the entries, one by one. -/
theorem entryTokens_eq_map (entries : List (String × Value)) :
    entryTokens entries = entries.map fun e => .string e.1 :: .colon :: e.2.tokens := by
  induction entries with
  | nil => rfl
  | cons e rest ih => rw [entryTokens, ih, List.map_cons]

/-! ### Texts of values -/

/-- A value without numbers that nests at most so many arrays and objects. -/
inductive Value.Plain : Nat → Value → Prop
  | null {depth : Nat} : Plain depth .null
  | boolean {depth : Nat} (b : Bool) : Plain depth (.boolean b)
  | string {depth : Nat} (s : String) : Plain depth (.string s)
  | array {depth : Nat} {items : List Value} (beneath : ∀ v ∈ items, Plain depth v) :
      Plain (depth + 1) (.array items)
  | object {depth : Nat} {entries : List (String × Value)}
      (beneath : ∀ e ∈ entries, Plain depth e.2) : Plain (depth + 1) (.object entries)

section Texts

variable {depth : Nat} {v : Value} {items : List Value} {entries : List (String × Value)}
  {blank : String}

/-- The text of `null`. -/
theorem hasTokens_null : HasTokens "null" Value.null.tokens :=
  hasTokens_singleton Token.scan?.eq_8

/-- The text of a truth value. -/
theorem hasTokens_boolean (b : Bool) :
    HasTokens (if b then "true" else "false") (Value.boolean b).tokens := by
  cases b with
  | true => exact hasTokens_singleton Token.scan?.eq_9
  | false => exact hasTokens_singleton Token.scan?.eq_10

/-- The text of an array, with blanks before its closing bracket. -/
theorem hasTokens_array {text : Value → String} (hblank : HasTokens blank [])
    (hitems : ∀ v ∈ items, HasTokens (text v) v.tokens) :
    HasTokens ("[" ++ ",".intercalate (items.map text) ++ blank ++ "]")
      (Value.array items).tokens := by
  have hopen : HasTokens "[" [.beginArray] := hasTokens_singleton Token.scan?.eq_2
  have hclose : HasTokens "]" [.endArray] := hasTokens_singleton Token.scan?.eq_3
  have hall := ((hopen.append (hasTokens_intercalate items hitems)).append hblank).append hclose
  rwa [List.append_nil, ← itemTokens_eq_map] at hall

/-- The text of an object, with blanks before its closing brace. -/
theorem hasTokens_object {text : String × Value → String} (hblank : HasTokens blank [])
    (hentries : ∀ e ∈ entries, HasTokens (text e) (.string e.1 :: .colon :: e.2.tokens)) :
    HasTokens ("\x7b" ++ ",".intercalate (entries.map text) ++ blank ++ "\x7d")
      (Value.object entries).tokens := by
  have hopen : HasTokens "\x7b" [.beginObject] := hasTokens_singleton Token.scan?.eq_4
  have hclose : HasTokens "\x7d" [.endObject] := hasTokens_singleton Token.scan?.eq_5
  have hall := ((hopen.append (hasTokens_intercalate entries hentries)).append hblank).append hclose
  rwa [List.append_nil, ← entryTokens_eq_map] at hall

/-- The text of an empty array. -/
theorem hasTokens_emptyArray : HasTokens "[]" (Value.array []).tokens := by
  have hopen : HasTokens "[" [.beginArray] := hasTokens_singleton Token.scan?.eq_2
  have hclose : HasTokens "]" [.endArray] := hasTokens_singleton Token.scan?.eq_3
  exact hopen.append hclose

/-- The text of an empty object. -/
theorem hasTokens_emptyObject : HasTokens "\x7b\x7d" (Value.object []).tokens := by
  have hopen : HasTokens "\x7b" [.beginObject] := hasTokens_singleton Token.scan?.eq_4
  have hclose : HasTokens "\x7d" [.endObject] := hasTokens_singleton Token.scan?.eq_5
  exact hopen.append hclose

/-- The texts of the items, one by one. -/
theorem compactItems_eq_map (items : List Value) :
    compactItems items = items.map Value.compact := by
  induction items with
  | nil => rfl
  | cons v rest ih => rw [compactItems, ih, List.map_cons]

/-- The texts of the entries, one by one. -/
theorem compactEntries_eq_map (entries : List (String × Value)) :
    compactEntries entries = entries.map fun e => stringText e.1 ++ ":" ++ e.2.compact := by
  induction entries with
  | nil => rfl
  | cons e rest ih => rw [compactEntries, ih, List.map_cons]

/-- The texts of the items over several lines, one by one. -/
theorem prettyItems_eq_map (level : Nat) (items : List Value) :
    prettyItems level items = items.map fun v => lineBreak level ++ v.prettyAt level := by
  induction items with
  | nil => rfl
  | cons v rest ih => rw [prettyItems, ih, List.map_cons]

/-- The texts of the entries over several lines, one by one. -/
theorem prettyEntries_eq_map (level : Nat) (entries : List (String × Value)) :
    prettyEntries level entries =
      entries.map fun e => lineBreak level ++ stringText e.1 ++ ": " ++ e.2.prettyAt level := by
  induction entries with
  | nil => rfl
  | cons e rest ih => rw [prettyEntries, ih, List.map_cons]

/-- The text on one line has the tokens of the value. -/
theorem hasTokens_compact (h : v.Plain depth) : HasTokens v.compact v.tokens := by
  induction h with
  | null => exact hasTokens_null
  | boolean b => exact hasTokens_boolean b
  | string s => exact hasTokens_stringText s
  | array _ ih =>
      have hall := hasTokens_array hasTokens_empty ih
      rwa [String.append_empty, ← compactItems_eq_map] at hall
  | @object _ entries _ ih =>
      have hcolon : HasTokens ":" [.colon] := hasTokens_singleton Token.scan?.eq_6
      have hall := hasTokens_object hasTokens_empty fun e he =>
        ((hasTokens_stringText e.1).append hcolon).append (ih e he)
      rwa [String.append_empty, ← compactEntries_eq_map] at hall

/-- The text over several lines has the tokens of the value. -/
theorem hasTokens_prettyAt (h : v.Plain depth) (level : Nat) :
    HasTokens (v.prettyAt level) v.tokens := by
  induction h generalizing level with
  | null => exact hasTokens_null
  | boolean b => exact hasTokens_boolean b
  | string s => exact hasTokens_stringText s
  | @array _ items _ ih =>
      cases items with
      | nil =>
          rw [Value.prettyAt]
          exact hasTokens_emptyArray
      | cons v rest =>
          have hall := hasTokens_array (hasTokens_lineBreak level) fun v hv =>
            (hasTokens_lineBreak (level + 1)).append (ih v hv (level + 1))
          rwa [← prettyItems_eq_map] at hall
  | @object _ entries _ ih =>
      have hmark : HasTokens ":" [.colon] := hasTokens_singleton Token.scan?.eq_6
      have hspace : HasTokens " " [] := (readsAs_space rfl : ReadsAs Token.scan? [' '] [])
      have hcolon : HasTokens ": " [.colon] := hmark.append hspace
      cases entries with
      | nil =>
          rw [Value.prettyAt]
          exact hasTokens_emptyObject
      | cons e rest =>
          have hall := hasTokens_object (hasTokens_lineBreak level) fun e he =>
            (((hasTokens_lineBreak (level + 1)).append (hasTokens_stringText e.1)).append
              hcolon).append (ih e he (level + 1))
          rwa [← prettyEntries_eq_map] at hall

end Texts

/-! ### Reading values back -/

section ReadBack

variable {α : Type} {bound depth : Nat} {v : Value} {items : List Value}
  {entries : List (String × Value)} {ts more rest : List Token}

/-- A reader takes something and leaves the rest. -/
def Takes (r : Option (Text.Front Token α bound)) (a : α) (rest : List Token) : Prop :=
  ∃ below, r = some ⟨a, rest, below⟩

/-- The last item. -/
theorem takes_readItems?_last (h : Takes (readValue? depth ts) v (.endArray :: rest)) :
    Takes (readItems? depth ts) [v] rest := by
  obtain ⟨below, h⟩ := h
  rw [readItems?.eq_1, h]
  exact ⟨_, rfl⟩

/-- An item before others. -/
theorem takes_readItems?_comma (h : Takes (readValue? depth ts) v (.comma :: more))
    (hmore : Takes (readItems? depth more) items rest) :
    Takes (readItems? depth ts) (v :: items) rest := by
  obtain ⟨below, h⟩ := h
  obtain ⟨belowMore, hmore⟩ := hmore
  rw [readItems?.eq_1, h]
  dsimp only
  rw [hmore]
  exact ⟨_, rfl⟩

/-- The last entry. -/
theorem takes_readEntries?_last (key : String)
    (h : Takes (readValue? depth ts) v (.endObject :: rest)) :
    Takes (readEntries? depth (.string key :: .colon :: ts)) [(key, v)] rest := by
  obtain ⟨below, h⟩ := h
  rw [readEntries?.eq_1, h]
  exact ⟨_, rfl⟩

/-- An entry before others. -/
theorem takes_readEntries?_comma (key : String)
    (h : Takes (readValue? depth ts) v (.comma :: more))
    (hmore : Takes (readEntries? depth more) entries rest) :
    Takes (readEntries? depth (.string key :: .colon :: ts)) ((key, v) :: entries) rest := by
  obtain ⟨below, h⟩ := h
  obtain ⟨belowMore, hmore⟩ := hmore
  rw [readEntries?.eq_1, h]
  dsimp only
  rw [hmore]
  exact ⟨_, rfl⟩

/-- A value is taken off its tokens, whatever follows them. -/
def ReadBack (depth : Nat) (v : Value) : Prop :=
  ∀ rest, Takes (readValue? depth (v.tokens ++ rest)) v rest

/-- Items that are read back are read one after the other. -/
theorem takes_readItems? (hne : items ≠ []) (hitems : ∀ v ∈ items, ReadBack depth v)
    (rest : List Token) :
    Takes (readItems? depth
      ([.comma].intercalate (items.map Value.tokens) ++ .endArray :: rest)) items rest := by
  induction items with
  | nil => exact absurd rfl hne
  | cons v others ih =>
      have hv := hitems v List.mem_cons_self
      cases others with
      | nil =>
          rw [List.map_singleton, List.intercalate_singleton]
          exact takes_readItems?_last (hv _)
      | cons w others =>
          have hothers := ih (List.cons_ne_nil w others) fun v hv =>
            hitems v (List.mem_cons_of_mem _ hv)
          rw [List.map_cons, List.map_cons, List.intercalate_cons_cons, List.append_assoc,
            List.append_assoc]
          exact takes_readItems?_comma (hv _) hothers

/-- Entries whose values are read back are read one after the other. -/
theorem takes_readEntries? (hne : entries ≠ []) (hentries : ∀ e ∈ entries, ReadBack depth e.2)
    (rest : List Token) :
    Takes (readEntries? depth
      ([.comma].intercalate (entries.map fun e => .string e.1 :: .colon :: e.2.tokens) ++
        .endObject :: rest)) entries rest := by
  induction entries with
  | nil => exact absurd rfl hne
  | cons e others ih =>
      have hv := hentries e List.mem_cons_self
      cases others with
      | nil =>
          rw [List.map_singleton, List.intercalate_singleton]
          exact takes_readEntries?_last e.1 (hv _)
      | cons f others =>
          have hothers := ih (List.cons_ne_nil f others) fun e he =>
            hentries e (List.mem_cons_of_mem _ he)
          rw [List.map_cons, List.map_cons, List.intercalate_cons_cons, List.append_assoc,
            List.append_assoc]
          exact takes_readEntries?_comma e.1 (hv _) hothers

/-- No value begins with a closing bracket. -/
theorem tokens_append_ne (v : Value) (rest after : List Token) :
    v.tokens ++ rest ≠ .endArray :: after := by
  cases v <;> simp [Value.tokens]

/-- Items are not empty brackets. -/
theorem tokens_items_ne {w : Value} (after : List Token) :
    [.comma].intercalate ((w :: items).map Value.tokens) ++ rest ≠ .endArray :: after := by
  cases items with
  | nil =>
      rw [List.map_singleton, List.intercalate_singleton]
      exact tokens_append_ne w rest after
  | cons v others =>
      rw [List.map_cons, List.map_cons, List.intercalate_cons_cons, List.append_assoc,
        List.append_assoc]
      exact tokens_append_ne w _ after

/-- A value that nests no deeper than is allowed is read back. -/
theorem Value.Plain.readBack (h : v.Plain depth) : ReadBack depth v := by
  induction h with
  | null => exact fun rest => ⟨_, readValue?.eq_1 _ rest⟩
  | boolean b => exact fun rest => ⟨_, readValue?.eq_2 _ b rest⟩
  | string s => exact fun rest => ⟨_, readValue?.eq_4 _ s rest⟩
  | @array depth items _ ih =>
      intro rest
      cases items with
      | nil => exact ⟨_, (readValue?.eq_5 _ rest).trans (if_neg (Nat.succ_ne_zero depth))⟩
      | cons w others =>
          obtain ⟨below, hitems⟩ := takes_readItems? (List.cons_ne_nil w others) ih rest
          rw [Value.tokens, itemTokens_eq_map, List.cons_append, List.append_assoc,
            List.singleton_append, readValue?.eq_7 _ _ fun after => tokens_items_ne after,
            if_neg (Nat.succ_ne_zero depth), Nat.add_sub_cancel, hitems]
          exact ⟨_, rfl⟩
  | @object depth entries _ ih =>
      intro rest
      cases entries with
      | nil => exact ⟨_, (readValue?.eq_6 _ rest).trans (if_neg (Nat.succ_ne_zero depth))⟩
      | cons e others =>
          obtain ⟨below, hentries⟩ := takes_readEntries? (List.cons_ne_nil e others) ih rest
          rw [Value.tokens, entryTokens_eq_map, List.cons_append, List.append_assoc,
            List.singleton_append, readValue?.eq_8, if_neg (Nat.succ_ne_zero depth),
            Nat.add_sub_cancel, hentries]
          · exact ⟨_, rfl⟩
          · cases others <;> simp

/-- A text with the tokens of a value denotes that value. -/
theorem readOrdered?_eq {text : String} (htokens : HasTokens text v.tokens)
    (h : v.Plain maxDepth) : readOrdered? text = some v := by
  have hscan : Token.scan? text.toList = some v.tokens := htokens.read_eq Token.scan?.eq_1
  have hread := h.readBack []
  rw [List.append_nil] at hread
  obtain ⟨below, hread⟩ := hread
  rw [readOrdered?, hscan]
  simp [hread]

/-- A value is read back from its text on one line. -/
theorem readOrdered?_compact (h : v.Plain maxDepth) : readOrdered? v.compact = some v :=
  readOrdered?_eq (hasTokens_compact h) h

/-- A value is read back from its text over several lines. -/
theorem readOrdered?_pretty (h : v.Plain maxDepth) : readOrdered? v.pretty = some v :=
  readOrdered?_eq (hasTokens_prettyAt h 0) h

end ReadBack

end SchemaBridge.Json
