import Mathlib.Data.List.TakeWhile
import SchemaBridge.Graphql.Token
import SchemaBridge.Proofs.Graphql.WellNamed

/-!
# Scanning piece by piece

A text that was put together from pieces is scanned piece by piece, as long as no piece runs into
the one that follows it. A name and a number end where a character stands that can be part of
neither.

* `Scanned`: what scanning makes of a text, with the outcomes of pieces put one after the other;
* `Apart`: a text begins with a character that ends names and numbers;
* `Scans`, `ScansFreely`: a piece is scanned by itself, before a text apart or before any text;
* `scansFreely_marks`, `scans_name`, `scans_number`: the pieces without quotes;
* `scans_intercalate`, `scans_join`: many pieces, with a separator or without one.
-/

namespace SchemaBridge.Graphql

/-! ### Outcomes -/

/-- What scanning makes of a text: its tokens, or nothing if some part of it is no token. -/
def Scanned := Option (List Token)

namespace Scanned

/-- No tokens. -/
def nil : Scanned := some []

/-- One token, if there is one. -/
def ofToken? (token? : Option Token) : Scanned := token?.map ([·])

/-- A punctuator. -/
def mark (c : Char) : Scanned := some [.punctuator c]

/-- Three dots. -/
def ellipsis : Scanned := some [.ellipsis]

/-- A name. -/
def name (text : String) : Scanned := some [.name text]

/-- A number, if the text denotes one. -/
def number (text : String) : Scanned := ofToken? ((Numeral.read? text.toList).map .number)

/-- The outcome of one text after another. -/
def append (x y : Scanned) : Scanned := x.bind fun ts => y.map (ts ++ ·)

instance : Append Scanned := ⟨append⟩

/-- The outcome of a text between braces. -/
def braces (x : Scanned) : Scanned := mark '\x7b' ++ x ++ mark '\x7d'

/-- The outcomes of texts one after the other. -/
def concat (xs : List Scanned) : Scanned := xs.foldr (· ++ ·) nil

/-- One outcome after another has tokens if both have. -/
theorem append_eq_some_iff {x y : Scanned} {ts : List Token} :
    x ++ y = some ts ↔ ∃ ts₁ ts₂, x = some ts₁ ∧ y = some ts₂ ∧ ts = ts₁ ++ ts₂ := by
  show x.bind (fun ts => y.map (ts ++ ·)) = some ts ↔ _
  cases x with
  | none => simp
  | some ts₁ =>
      cases y with
      | none => simp
      | some ts₂ =>
          constructor
          · intro h
            exact ⟨ts₁, ts₂, rfl, rfl, (Option.some.inj h).symm⟩
          · rintro ⟨_, _, h₁, h₂, rfl⟩
            rw [← Option.some.inj h₁, ← Option.some.inj h₂]
            rfl

section Tokens

variable {y : Scanned} {ts : List Token}

/-- Tokens that begin with given ones. -/
theorem some_append_eq_some_iff {first : List Token} :
    append (some first) y = some ts ↔ ∃ rest, y = some rest ∧ ts = first ++ rest := by
  constructor
  · intro h
    obtain ⟨_, rest, hfirst, hy, rfl⟩ := append_eq_some_iff.mp h
    exact ⟨rest, hy, congrArg (· ++ rest) (Option.some.inj hfirst).symm⟩
  · rintro ⟨rest, hy, rfl⟩
    exact append_eq_some_iff.mpr ⟨first, rest, rfl, hy, rfl⟩

/-- Tokens that begin with a punctuator. -/
theorem mark_append_eq_some_iff {c : Char} :
    mark c ++ y = some ts ↔ ∃ rest, y = some rest ∧ ts = .punctuator c :: rest :=
  some_append_eq_some_iff

/-- Tokens that begin with a name. -/
theorem name_append_eq_some_iff {text : String} :
    name text ++ y = some ts ↔ ∃ rest, y = some rest ∧ ts = .name text :: rest :=
  some_append_eq_some_iff

/-- Tokens that begin with three dots. -/
theorem ellipsis_append_eq_some_iff :
    ellipsis ++ y = some ts ↔ ∃ rest, y = some rest ∧ ts = .ellipsis :: rest :=
  some_append_eq_some_iff

/-- A punctuator alone. -/
theorem mark_eq_some_iff {c : Char} : mark c = some ts ↔ ts = [.punctuator c] :=
  Option.some_inj.trans eq_comm

/-- A name alone. -/
theorem name_eq_some_iff {text : String} : name text = some ts ↔ ts = [.name text] :=
  Option.some_inj.trans eq_comm

/-- No tokens. -/
theorem nil_eq_some_iff : nil = some ts ↔ ts = [] :=
  Option.some_inj.trans eq_comm

/-- One token, if there is one. -/
theorem ofToken?_eq_some_iff {token? : Option Token} :
    ofToken? token? = some ts ↔ ∃ token, token? = some token ∧ ts = [token] :=
  Option.map_eq_some_iff.trans (by simp only [eq_comm])

/-- Tokens between two punctuators. -/
theorem between_eq_some_iff {x : Scanned} {o c : Char} :
    mark o ++ x ++ mark c = some ts ↔
      ∃ inner, x = some inner ∧ ts = .punctuator o :: (inner ++ [.punctuator c]) := by
  constructor
  · intro h
    obtain ⟨_, _, hopened, hclosed, rfl⟩ := append_eq_some_iff.mp h
    obtain ⟨inner, hinner, rfl⟩ := mark_append_eq_some_iff.mp hopened
    obtain rfl := mark_eq_some_iff.mp hclosed
    exact ⟨inner, hinner, rfl⟩
  · rintro ⟨inner, hinner, rfl⟩
    exact append_eq_some_iff.mpr ⟨_, _, mark_append_eq_some_iff.mpr ⟨inner, hinner, rfl⟩, rfl, rfl⟩

end Tokens

/-- Nothing comes before. -/
@[simp] theorem nil_append (x : Scanned) : nil ++ x = x := by
  cases x <;> rfl

/-- Nothing comes after. -/
@[simp] theorem append_nil (x : Scanned) : x ++ nil = x := by
  cases x with
  | none => rfl
  | some ts => exact congrArg some (List.append_nil ts)

/-- Outcomes may be put together in any grouping. -/
theorem append_assoc (x y z : Scanned) : x ++ y ++ z = x ++ (y ++ z) := by
  cases x with
  | none => rfl
  | some ts₁ =>
      cases y with
      | none => rfl
      | some ts₂ =>
          cases z with
          | none => rfl
          | some ts₃ => exact congrArg some (List.append_assoc ts₁ ts₂ ts₃)

end Scanned

/-- What scanning makes of characters. -/
def scanned (cs : List Char) : Scanned := Token.scan? cs

/-! ### Pieces -/

/-- The text is empty or begins with a character that ends names and numbers. -/
def Apart (cs : List Char) : Prop :=
  ∀ c ∈ cs.head?, endsNumber c = true

/-- The text of a piece has an outcome of its own, as long as a text apart follows. -/
def Scans (text : String) (x : Scanned) : Prop :=
  ∀ rest, Apart rest → scanned (text.toList ++ rest) = x ++ scanned rest

/-- The text of a piece has an outcome of its own, whatever follows. -/
def ScansFreely (text : String) (x : Scanned) : Prop :=
  ∀ rest, scanned (text.toList ++ rest) = x ++ scanned rest

/-- A text apart may be followed by another one. -/
theorem Apart.append {cs rest : List Char} (h : Apart cs) (hrest : Apart rest) :
    Apart (cs ++ rest) := by
  cases cs with
  | nil => exact hrest
  | cons c cs => exact h

/-- The empty text is apart. -/
theorem apart_nil : Apart [] := fun c hc => by cases hc

/-- Whether a text is apart shows in its first character. -/
theorem apart_cons {c : Char} {cs : List Char} : Apart (c :: cs) ↔ endsNumber c = true := by
  simp [Apart]

variable {a b : String} {x y : Scanned}

/-- What is scanned before any text is scanned before a text apart. -/
theorem ScansFreely.scans (h : ScansFreely a x) : Scans a x := fun rest _ => h rest

/-- The empty text has no tokens. -/
theorem scansFreely_empty : ScansFreely "" .nil := fun _ => (Scanned.nil_append _).symm

/-- Two pieces, of which the second is apart. -/
theorem Scans.append (ha : Scans a x) (hb : Scans b y) (h : Apart b.toList) :
    Scans (a ++ b) (x ++ y) := by
  intro rest hrest
  rw [String.toList_append, List.append_assoc, ha _ (h.append hrest), hb rest hrest,
    Scanned.append_assoc]

/-- Two pieces, of which the first is scanned before any text. -/
theorem ScansFreely.append_scans (ha : ScansFreely a x) (hb : Scans b y) :
    Scans (a ++ b) (x ++ y) := by
  intro rest hrest
  rw [String.toList_append, List.append_assoc, ha, hb rest hrest, Scanned.append_assoc]

/-- Two pieces, each of which is scanned before any text. -/
theorem ScansFreely.append (ha : ScansFreely a x) (hb : ScansFreely b y) :
    ScansFreely (a ++ b) (x ++ y) := by
  intro rest
  rw [String.toList_append, List.append_assoc, ha, hb rest, Scanned.append_assoc]

/-- Two pieces, of which the second separates the first from any text. -/
theorem Scans.closed (ha : Scans a x) (hb : ScansFreely b y)
    (h : b.toList.head?.any endsNumber = true) : ScansFreely (a ++ b) (x ++ y) := by
  intro rest
  obtain ⟨c, hc, hends⟩ := Option.any_eq_true _ _ |>.mp h
  have hapart : Apart (b.toList ++ rest) := by
    intro d hd
    rw [List.head?_append, hc] at hd
    exact Option.some.inj hd ▸ hends
  rw [String.toList_append, List.append_assoc, ha _ hapart, hb rest, Scanned.append_assoc]

/-- A piece is scanned as a text by itself. -/
theorem Scans.scanned_eq (h : Scans a x) : scanned a.toList = x := by
  have hnil : scanned [] = .nil := Token.scan?.eq_1
  have := h [] apart_nil
  rwa [List.append_nil, hnil, Scanned.append_nil] at this

/-! ### Marks -/

/-- The tokens of a character that is blank or a punctuator. -/
def Scanned.ofMark (c : Char) : Scanned :=
  if isIgnored c then .nil else .mark c

/-- The tokens of a text that consists of blanks and punctuators. -/
def Scanned.marks (s : String) : Scanned :=
  concat (s.toList.map ofMark)

/-- A character is blank or a punctuator. -/
def isMark (c : Char) : Bool :=
  isIgnored c || isPunctuator c

/-- A character that begins neither an ellipsis nor a string nor a comment. -/
def BeginsWord (c : Char) : Prop :=
  c ≠ '.' ∧ c ≠ '"' ∧ c ≠ '#'

/-- What is scanned at a character that begins neither an ellipsis nor a string nor a comment. -/
theorem scan?_cons {c : Char} (h : BeginsWord c) (rest : List Char) :
    Token.scan? (c :: rest) =
      if isIgnored c then Token.scan? rest
      else if isPunctuator c then (Token.scan? rest).map (.punctuator c :: ·)
      else if isNameStart c then
        (Token.scan? (rest.dropWhile isNamePart)).map
          (.name (String.ofList (c :: rest.takeWhile isNamePart)) :: ·)
      else if c = '-' || Text.isDigit c then
        (Numeral.read? (c :: rest.takeWhile fun d => !endsNumber d)).bind fun n =>
          (Token.scan? (rest.dropWhile fun d => !endsNumber d)).map (.number n :: ·)
      else none := by
  obtain ⟨hdot, hquote, hhash⟩ := h
  rw [Token.scan?.eq_6 c rest (fun _ h => absurd h hdot) (fun _ h => absurd h hquote) hquote hhash]
  refine if_congr Iff.rfl rfl (if_congr Iff.rfl ?_ (if_congr Iff.rfl ?_ (if_congr Iff.rfl ?_ rfl)))
  · cases Token.scan? rest <;> rfl
  · cases Token.scan? (rest.dropWhile isNamePart) <;> rfl
  · cases Numeral.read? (c :: rest.takeWhile fun d => !endsNumber d) with
    | none => rfl
    | some n => cases Token.scan? (rest.dropWhile fun d => !endsNumber d) <;> rfl

/-- A character that is blank or a punctuator begins neither an ellipsis nor a string nor a
comment. -/
theorem beginsWord_of_isMark {c : Char} (h : isMark c = true) : BeginsWord c := by
  refine ⟨?_, ?_, ?_⟩ <;>
  · rintro rfl
    exact absurd h (by decide)

/-- One character that is blank or a punctuator. -/
theorem scanned_cons_of_isMark {c : Char} (h : isMark c = true) (rest : List Char) :
    scanned (c :: rest) = Scanned.ofMark c ++ scanned rest := by
  rw [scanned, scan?_cons (beginsWord_of_isMark h), Scanned.ofMark]
  by_cases hignored : isIgnored c = true
  · rw [if_pos hignored, if_pos hignored, Scanned.nil_append]
    rfl
  · have hmark : isPunctuator c = true := by simpa [isMark, hignored] using h
    rw [if_neg hignored, if_neg hignored, if_pos hmark]
    rfl

/-- Blanks and punctuators are scanned before any text. -/
theorem scansFreely_marks (s : String) (h : s.toList.all isMark = true) :
    ScansFreely s (.marks s) := by
  intro rest
  rw [Scanned.marks]
  revert h
  generalize s.toList = cs
  intro h
  induction cs with
  | nil => exact (Scanned.nil_append _).symm
  | cons c cs ih =>
      rw [List.all_cons, Bool.and_eq_true] at h
      rw [List.cons_append, scanned_cons_of_isMark h.1, ih h.2, ← Scanned.append_assoc]
      rfl

/-- A text of blanks and punctuators, with the tokens that it has. -/
theorem scansFreely_of_marks {s : String} {x : Scanned} (h : s.toList.all isMark = true)
    (hx : .marks s = x) : ScansFreely s x :=
  hx ▸ scansFreely_marks s h

/-! ### Names and numbers -/

/-- The characters that end a number, one by one. -/
def numberEnds : List Char :=
  [' ', '\t', '\n', '\r', ',', '#', '(', ')', '[', ']', '\x7b', '\x7d', '!', '$', ':', '=', '@',
    '|', '&']

/-- A character ends a number if it is one of these. -/
theorem endsNumber_iff {c : Char} : endsNumber c = true ↔ c ∈ numberEnds := by
  have hmarks : "()[]\x7b\x7d!$:=@|&".toList =
      ['(', ')', '[', ']', '\x7b', '\x7d', '!', '$', ':', '=', '@', '|', '&'] := by rfl
  rw [endsNumber, isPunctuator, hmarks]
  simp [numberEnds, or_assoc]

/-- What holds of these characters holds of a character that ends a number. -/
theorem of_endsNumber {p : Char → Bool} (h : numberEnds.all p = true) {c : Char}
    (hc : endsNumber c = true) : p c = true :=
  List.all_eq_true.mp h c (endsNumber_iff.mp hc)

/-- A character that ends a number is no part of a name. -/
theorem isNamePart_of_endsNumber {c : Char} (h : endsNumber c = true) : isNamePart c = false := by
  have hall : numberEnds.all (fun c => !isNamePart c) = true := by rfl
  simpa using of_endsNumber hall h

/-- A character of a name does not end a number. -/
theorem endsNumber_of_isNamePart {c : Char} (h : isNamePart c = true) : endsNumber c = false := by
  by_contra hends
  rw [isNamePart_of_endsNumber (by simpa using hends)] at h
  exact absurd h (by decide)

/-- What is taken as long as characters have a property is a piece whose characters have it, if the
characters that end a number do not. -/
theorem takeWhile_append_of_apart {p : Char → Bool} (hp : ∀ c, endsNumber c = true → p c = false)
    {cs rest : List Char} (hcs : ∀ c ∈ cs, p c = true) (hrest : Apart rest) :
    (cs ++ rest).takeWhile p = cs ∧ (cs ++ rest).dropWhile p = rest := by
  rw [List.takeWhile_append_of_pos hcs, List.dropWhile_append_of_pos hcs]
  cases rest with
  | nil => simp
  | cons c rest =>
      have hc : p c = false := hp c (apart_cons.mp hrest)
      simp [hc]

/-- A character of a name is no mark, and begins neither an ellipsis nor a string nor a comment. -/
theorem isMark_of_isNamePart {c : Char} (h : isNamePart c = true) :
    isIgnored c = false ∧ isPunctuator c = false ∧ BeginsWord c := by
  have hends := endsNumber_of_isNamePart h
  have hcode := toNat_of_isNamePart h
  simp only [endsNumber, Bool.or_eq_false_iff, decide_eq_false_iff_not] at hends
  obtain ⟨⟨⟨⟨⟨⟨hspace, htab⟩, hfeed⟩, hreturn⟩, hcomma⟩, hhash⟩, hmark⟩ := hends
  refine ⟨?_, hmark, ?_, ?_, hhash⟩
  · have hmarkless : c.toNat ≠ 0xFEFF := by omega
    simp [isIgnored, hspace, htab, hfeed, hreturn, hcomma, hmarkless]
  · rintro rfl
    exact absurd h (by decide)
  · rintro rfl
    exact absurd h (by decide)

/-- A name is scanned as one token. -/
theorem scans_name {s : String} (h : IsName s) : Scans s (.name s) := by
  intro rest hrest
  rw [IsName] at h
  cases hs : s.toList with
  | nil =>
      rw [hs] at h
      exact absurd h (by decide)
  | cons c cs =>
      rw [hs, isName.eq_2, Bool.and_eq_true, List.all_eq_true] at h
      obtain ⟨hstart, hparts⟩ := h
      have hpart : isNamePart c = true := by rw [isNamePart, hstart, Bool.true_or]
      obtain ⟨hignored, hmark, hword⟩ := isMark_of_isNamePart hpart
      obtain ⟨htake, hdrop⟩ := takeWhile_append_of_apart (fun c => isNamePart_of_endsNumber) hparts
        hrest
      have hname : String.ofList (c :: cs) = s := by rw [← hs, String.ofList_toList]
      rw [List.cons_append, scanned, scan?_cons hword, hignored, hmark, hstart, htake, hdrop, hname]
      rfl

/-- A digit begins no name. -/
theorem isNameStart_of_isDigit {c : Char} (h : Text.isDigit c = true) : isNameStart c = false := by
  simp only [Text.isDigit, isNameStart, Bool.and_eq_true, Bool.or_eq_false_iff,
    Bool.and_eq_false_iff, decide_eq_true_eq, decide_eq_false_iff_not, Char.le_def,
    UInt32.le_iff_toNat_le, Char.toNat_val] at h ⊢
  refine ⟨⟨?_, .inl ?_⟩, .inl ?_⟩
  · rintro rfl
    exact absurd h (by decide)
  · have : 'a'.toNat = 97 := rfl
    have : '9'.toNat = 57 := rfl
    omega
  · have : 'A'.toNat = 65 := rfl
    have : '9'.toNat = 57 := rfl
    omega

/-- The text of a number: it begins with a digit or a sign, and no character in it ends a number. -/
structure NumberText (cs : List Char) : Prop where
  head : ∃ c ∈ cs.head?, c = '-' ∨ Text.isDigit c = true
  parts : ∀ c ∈ cs, endsNumber c = false

/-- The text of a number is scanned as one token, if it denotes a number. -/
theorem scans_number {s : String} (h : NumberText s.toList) : Scans s (.number s) := by
  intro rest hrest
  obtain ⟨⟨c, hc, hfirst⟩, hparts⟩ := h
  rw [Scanned.number]
  cases hs : s.toList with
  | nil =>
      rw [hs] at hc
      cases hc
  | cons d cs =>
      rw [hs] at hc hparts
      obtain rfl : d = c := Option.some.inj hc
      have hword : isIgnored d = false ∧ isPunctuator d = false ∧ isNameStart d = false ∧
          BeginsWord d := by
        rcases hfirst with rfl | hdigit
        · exact ⟨by decide, by decide, by decide, by decide, by decide, by decide⟩
        · have hpart : isNamePart d = true := by rw [isNamePart, hdigit, Bool.or_true]
          obtain ⟨hignored, hmark, hword⟩ := isMark_of_isNamePart hpart
          exact ⟨hignored, hmark, isNameStart_of_isDigit hdigit, hword⟩
      obtain ⟨hignored, hmark, hstart, hword⟩ := hword
      have hfirst' : (decide (d = '-') || Text.isDigit d) = true := by simpa using hfirst
      have hends : ∀ e, endsNumber e = true → (fun e => !endsNumber e) e = false := by
        intro e he
        simp [he]
      have hcs : ∀ e ∈ cs, (fun e => !endsNumber e) e = true := by
        intro e he
        simp [hparts e (List.mem_cons_of_mem _ he)]
      obtain ⟨htake, hdrop⟩ := takeWhile_append_of_apart hends hcs hrest
      rw [List.cons_append, scanned, scan?_cons hword, hignored, hmark, hstart, hfirst', htake,
        hdrop]
      cases Numeral.read? (d :: cs) <;> rfl

/-! ### Many pieces -/

section Many

variable {α : Type} {f : α → String} {g : α → Scanned} {items : List α}

/-- Pieces with a separator that has no tokens between them. -/
theorem scans_intercalate {separator : String} (hseparator : ScansFreely separator .nil)
    (hends : separator.toList.head?.any endsNumber = true)
    (h : ∀ item ∈ items, Scans (f item) (g item)) :
    Scans (separator.intercalate (items.map f)) (.concat (items.map g)) := by
  induction items with
  | nil =>
      rw [List.map_nil, String.intercalate_nil]
      exact scansFreely_empty.scans
  | cons first rest ih =>
      have hfirst := h first List.mem_cons_self
      have hrest := ih fun item hitem => h item (List.mem_cons_of_mem _ hitem)
      cases rest with
      | nil =>
          rw [List.map_singleton, String.intercalate_singleton]
          simpa [Scanned.concat] using hfirst
      | cons second rest =>
          rw [List.map_cons, List.map_cons, String.intercalate_cons_cons]
          have := (hfirst.closed hseparator hends).append_scans hrest
          rwa [Scanned.append_nil] at this

/-- Pieces that follow each other are apart if each of them is. -/
theorem apart_join (h : ∀ item ∈ items, Apart (f item).toList) :
    Apart (String.join (items.map f)).toList := by
  induction items with
  | nil => exact apart_nil
  | cons first rest ih =>
      rw [List.map_cons, String.join_cons, String.toList_append]
      exact (h first List.mem_cons_self).append
        (ih fun item hitem => h item (List.mem_cons_of_mem _ hitem))

/-- Pieces that follow each other, each of them apart. -/
theorem scans_join (h : ∀ item ∈ items, Scans (f item) (g item))
    (hapart : ∀ item ∈ items, Apart (f item).toList) :
    Scans (String.join (items.map f)) (.concat (items.map g)) := by
  induction items with
  | nil => exact scansFreely_empty.scans
  | cons first rest ih =>
      have hrest := fun item hitem => hapart item (List.mem_cons_of_mem first hitem)
      rw [List.map_cons, String.join_cons]
      exact (h first List.mem_cons_self).append
        (ih (fun item hitem => h item (List.mem_cons_of_mem _ hitem)) hrest) (apart_join hrest)

end Many

end SchemaBridge.Graphql
