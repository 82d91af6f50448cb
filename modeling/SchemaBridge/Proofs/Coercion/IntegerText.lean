import Mathlib.Data.List.Induction
import Mathlib.Data.Nat.Digits.Defs
import Mathlib.Tactic.NormNum
import SchemaBridge.Proofs.Coercion.Kinds
import SchemaBridge.Proofs.Text.Slice
import SchemaBridge.Proofs.Text.Trim

/-!
# Integers in text

A string is converted to the integer that it begins with, if that has 64 bits with sign.

* `IntegerFront`: how a text begins with an integer;
* `integerPrefix?_of_front`, `integerPrefix?_eq_some_iff`: it is read off the front of the text;
* `integerAtOffsets?_eq`: the same integer is found by byte offsets and with 64-bit arithmetic,
  where no character is cut and no step overflows;
* `apply_toInteger_string`: which strings are converted, and to what;
* `apply_toInteger_intText`: an integer against its text.
-/

namespace SchemaBridge.Coercion

open Json (Value)
open Text (Blank digitValue digitsOf digitsValue intText trimStart)

/-! ### Integers at the front of a text -/

/-- The sign in front of digits, if there is one. -/
inductive Sign where
  | absent
  | plus
  | minus
deriving DecidableEq

namespace Sign

/-- The characters of a sign. -/
def text : Sign → List Char
  | absent => []
  | plus => ['+']
  | minus => ['-']

/-- The integer with a magnitude under a sign. -/
def times : Sign → Nat → Int
  | minus, n => -n
  | _, n => n

end Sign

/-- How a text begins with an integer: blanks, at most one sign, and digits, at least one, after
which no further digit stands. Any text may follow. -/
structure IntegerFront (cs : List Char) where
  blanks : List Char
  sign : Sign
  digits : List Char
  rest : List Char
  parts : cs = blanks ++ (sign.text ++ (digits ++ rest))
  blank : Blank blanks
  digits_ne_nil : digits ≠ []
  isDigit : ∀ c ∈ digits, Text.isDigit c = true
  ended : ∀ c ∈ rest.head?, Text.isDigit c = false

/-- The integer that a text begins with. -/
def IntegerFront.value {cs : List Char} (front : IntegerFront cs) : Int :=
  front.sign.times (Nat.ofDigits 10 (front.digits.reverse.map digitValue))

/-! ### Digits -/

/-- The code point of a digit. -/
theorem toNat_of_isDigit {c : Char} (h : Text.isDigit c = true) : 48 ≤ c.toNat ∧ c.toNat ≤ 57 := by
  rw [Text.isDigit, Bool.and_eq_true, decide_eq_true_eq, decide_eq_true_eq] at h
  exact h

/-- A digit is not blank. -/
theorem isBlank_of_isDigit {c : Char} (h : Text.isDigit c = true) : Text.isBlank c = false := by
  have hcode := toNat_of_isDigit h
  exact Text.isBlank_of_visible (by omega)

/-- A further digit. -/
theorem digitsValue_concat (cs : List Char) (c : Char) :
    digitsValue (cs ++ [c]) = 10 * digitsValue cs + digitValue c := by
  rw [digitsValue, List.foldl_append]
  rfl

/-- Digits that are read one after the other are worth what they are in their places. -/
theorem digitsValue_eq_ofDigits (cs : List Char) :
    digitsValue cs = Nat.ofDigits 10 (cs.reverse.map digitValue) := by
  induction cs using List.reverseRecOn with
  | nil => rfl
  | append_singleton cs c ih =>
      rw [digitsValue_concat, ih, List.reverse_concat, List.map_cons, Nat.ofDigits_cons,
        Nat.add_comm]

/-- The digits of a number are worth that number. -/
theorem digitsValue_digitsOf (n : Nat) : digitsValue (digitsOf n) = n :=
  Nat.ofDigitChars_toDigits (by omega) (by omega)

/-- Integers of 64 bits with sign. -/
theorem isSmall_iff {n : Int} : isSmall n = true ↔ -2 ^ 63 ≤ n ∧ n < 2 ^ 63 := by
  rw [isSmall, Bool.and_eq_true, decide_eq_true_eq, decide_eq_true_eq]
  norm_num

/-- An integer, if it has 64 bits with sign. -/
def small? (n : Int) : Option Int :=
  if isSmall n then some n else none

/-- An integer of 64 bits is itself. -/
theorem small?_eq_some_iff {n m : Int} :
    small? n = some m ↔ (-2 ^ 63 ≤ n ∧ n < 2 ^ 63) ∧ n = m := by
  rw [small?, ← isSmall_iff]
  split_ifs with h <;> simp [h]

/-! ### Signs -/

/-- Whether a sign is a minus. -/
def Sign.isMinus : Sign → Bool
  | .minus => true
  | _ => false

/-- A number under a sign is turned round by a minus only. -/
theorem Sign.times_eq (sign : Sign) (n : Nat) :
    sign.times n = if sign.isMinus then -(n : Int) else n := by
  cases sign <;> rfl

/-- A sign is split off digits. -/
theorem splitSign_append (sign : Sign) {digits : List Char} (hne : digits ≠ [])
    (hdigits : ∀ c ∈ digits, Text.isDigit c = true) (rest : List Char) :
    splitSign (sign.text ++ (digits ++ rest)) = (sign.isMinus, digits ++ rest) := by
  cases sign with
  | plus => rfl
  | minus => rfl
  | absent =>
      obtain ⟨c, tail, rfl⟩ := List.exists_cons_of_ne_nil hne
      have hc := hdigits c List.mem_cons_self
      refine splitSign.eq_3 _ (fun after heq => ?_) fun after heq => ?_
      · rw [(List.cons.inj heq).1] at hc
        exact absurd hc (by decide)
      · rw [(List.cons.inj heq).1] at hc
        exact absurd hc (by decide)

/-- Whether a text begins with a sign. -/
def beginsWithSign : List Char → Bool
  | '-' :: _ => true
  | '+' :: _ => true
  | _ => false

/-- A text is a sign and what is left when it is split off. -/
theorem exists_sign (cs : List Char) :
    ∃ sign : Sign, cs = sign.text ++ (splitSign cs).2 ∧ (splitSign cs).1 = sign.isMinus ∧
      (if beginsWithSign cs then 1 else 0) = Text.byteLength sign.text := by
  cases cs using splitSign.fun_cases with
  | case1 rest => exact ⟨.minus, rfl, rfl, rfl⟩
  | case2 rest => exact ⟨.plus, rfl, rfl, rfl⟩
  | case3 cs hminus hplus =>
      rw [splitSign.eq_3 cs hminus hplus, beginsWithSign.eq_3 cs hminus hplus]
      exact ⟨.absent, rfl, rfl, rfl⟩

/-- Digits after a sign begin with no blank. -/
theorem isBlank_of_sign (sign : Sign) {digits : List Char} (hne : digits ≠ [])
    (hdigits : ∀ c ∈ digits, Text.isDigit c = true) (rest : List Char) :
    ∀ c ∈ (sign.text ++ (digits ++ rest)).head?, Text.isBlank c = false := by
  intro c hc
  cases sign with
  | plus =>
      obtain rfl : '+' = c := Option.some.inj hc
      decide
  | minus =>
      obtain rfl : '-' = c := Option.some.inj hc
      decide
  | absent =>
      obtain ⟨d, tail, rfl⟩ := List.exists_cons_of_ne_nil hne
      obtain rfl : d = c := Option.some.inj hc
      exact isBlank_of_isDigit (hdigits d List.mem_cons_self)

/-! ### The integer that is read -/

/-- The digits that stand after the blanks and the sign. -/
def leadingDigits (cs : List Char) : List Char :=
  (splitSign (trimStart cs)).2.takeWhile Text.isDigit

namespace IntegerFront

variable {cs : List Char}

/-- The magnitude of the integer that a text begins with is the value of its digits. -/
theorem value_eq (front : IntegerFront cs) :
    front.value = front.sign.times (digitsValue front.digits) := by
  rw [value, digitsValue_eq_ofDigits]

/-- What is left of a text without its blanks and its sign. -/
theorem splitSign_trimStart (front : IntegerFront cs) :
    splitSign (trimStart cs) = (front.sign.isMinus, front.digits ++ front.rest) := by
  obtain ⟨blanks, sign, digits, rest, rfl, hblank, hne, hdigits, -⟩ := front
  rw [Text.trimStart_append hblank, Text.trimStart_eq_self (isBlank_of_sign sign hne hdigits rest),
    splitSign_append sign hne hdigits]

/-- The digits are the whole run that stands at their place. -/
theorem leadingDigits_eq (front : IntegerFront cs) : leadingDigits cs = front.digits := by
  have hended : front.rest.takeWhile Text.isDigit = [] := by
    cases hrest : front.rest with
    | nil => rfl
    | cons c tail =>
        have hc := front.ended c (by rw [hrest]; rfl)
        rw [List.takeWhile_cons_of_neg (Bool.eq_false_iff.mp hc)]
  rw [leadingDigits, front.splitSign_trimStart, List.takeWhile_append_of_pos front.isDigit, hended,
    List.append_nil]

/-- A text begins with one integer at most. -/
theorem value_unique (front other : IntegerFront cs) : front.value = other.value := by
  have hsplit := front.splitSign_trimStart.symm.trans other.splitSign_trimStart
  rw [value_eq, value_eq, Sign.times_eq, Sign.times_eq, (Prod.mk.inj hsplit).1,
    front.leadingDigits_eq.symm.trans other.leadingDigits_eq]

end IntegerFront

/-- A text in which digits stand after the blanks and the sign begins with an integer. -/
theorem nonempty_front {cs : List Char} (h : leadingDigits cs ≠ []) :
    Nonempty (IntegerFront cs) := by
  obtain ⟨sign, hsign, -⟩ := exists_sign (trimStart cs)
  refine ⟨⟨cs.takeWhile Text.isBlank, sign, leadingDigits cs,
    (splitSign (trimStart cs)).2.dropWhile Text.isDigit, ?_, fun c => List.mem_takeWhile_imp, h,
    fun c => List.mem_takeWhile_imp, fun c hc => ?_⟩⟩
  · rw [leadingDigits, List.takeWhile_append_dropWhile, ← hsign]
    exact List.takeWhile_append_dropWhile.symm
  · have hhead := List.head?_dropWhile_not Text.isDigit (splitSign (trimStart cs)).2
    rw [Option.mem_def.mp hc] at hhead
    exact hhead

/-- The integer that is read off a text, in terms of its sign and its digits. -/
theorem integerPrefix?_eq {s : String} {sign : Sign}
    (hsign : (splitSign (trimStart s.toList)).1 = sign.isMinus) :
    integerPrefix? s =
      if leadingDigits s.toList = [] then none
      else small? (sign.times (digitsValue (leadingDigits s.toList))) := by
  rw [Sign.times_eq, ← hsign, small?, integerPrefix?, leadingDigits]
  simp only [Bool.or_eq_true, List.isEmpty_iff]
  split_ifs <;> simp_all

/-- The integer that is read off a text is the one that it begins with, if it has 64 bits. -/
theorem integerPrefix?_of_front {s : String} (front : IntegerFront s.toList) :
    integerPrefix? s = small? front.value := by
  have hsign := congrArg Prod.fst front.splitSign_trimStart
  rw [integerPrefix?_eq hsign, front.leadingDigits_eq, if_neg front.digits_ne_nil, front.value_eq]

/-- An integer is read off a text exactly if the text begins with it and it has 64 bits with
sign. -/
theorem integerPrefix?_eq_some_iff {s : String} {n : Int} :
    integerPrefix? s = some n ↔
      ∃ front : IntegerFront s.toList,
        (-2 ^ 63 ≤ front.value ∧ front.value < 2 ^ 63) ∧ front.value = n := by
  constructor
  · intro h
    obtain ⟨sign, -, hsign, -⟩ := exists_sign (trimStart s.toList)
    have hdigits : leadingDigits s.toList ≠ [] := by
      intro hnil
      rw [integerPrefix?_eq hsign, if_pos hnil] at h
      cases h
    obtain ⟨front⟩ := nonempty_front hdigits
    rw [integerPrefix?_of_front front, small?_eq_some_iff] at h
    exact ⟨front, h⟩
  · rintro ⟨front, h⟩
    rw [integerPrefix?_of_front front, small?_eq_some_iff]
    exact h

/-! ### Byte offsets and 64-bit arithmetic -/

/-- A number under a sign with one more digit, where both steps must stay within 64 bits. -/
def withDigit? (negative : Bool) (n : Int) (c : Char) : Option Int := do
  let tenfold ← small? (10 * n)
  small? (if negative then tenfold - digitValue c else tenfold + digitValue c)

/-- The integer that a whole text denotes, computed digit by digit within 64 bits: an optional sign
and digits, at least one. -/
def integer64? (cs : List Char) : Option Int :=
  let (negative, digits) := splitSign cs
  if digits.isEmpty || !digits.all Text.isDigit then none
  else digits.foldlM (withDigit? negative) 0

/-- The integer at the front of a text, read by byte offsets: the ends of the run of digits are
looked for, and the text is cut there. The outer `none` stands for a cut within a character. -/
def integerAtOffsets? (s : String) : Option (Option Int) := do
  let cs := trimStart s.toList
  let first := if beginsWithSign cs then 1 else 0
  let (_, tail) ← Text.cutAt? cs first
  let last := match Text.offset? (fun c => !Text.isDigit c) tail with
    | some offset => first + offset
    | none => Text.byteLength cs
  if last = first then return none
  let (front, _) ← Text.cutAt? cs last
  return integer64? front

/-- One more digit behind a number under a sign. Neither the number nor its tenfold is further from
zero than the result, so they have 64 bits if the result has. -/
theorem small?_bind_withDigit? (sign : Sign) (n : Nat) (c : Char) :
    (small? (sign.times n)).bind (withDigit? sign.isMinus · c) =
      small? (sign.times (10 * n + digitValue c)) := by
  have hstep : sign.times (10 * n + digitValue c) =
      if sign.isMinus then 10 * sign.times n - digitValue c
      else 10 * sign.times n + digitValue c := by
    rw [Sign.times_eq, Sign.times_eq]
    split_ifs <;> push_cast <;> omega
  have hbetween : -2 ^ 63 ≤ sign.times (10 * n + digitValue c) ∧
      sign.times (10 * n + digitValue c) < 2 ^ 63 →
      (-2 ^ 63 ≤ sign.times n ∧ sign.times n < 2 ^ 63) ∧
        -2 ^ 63 ≤ 10 * sign.times n ∧ 10 * sign.times n < 2 ^ 63 := by
    rw [Sign.times_eq, Sign.times_eq]
    split_ifs <;> omega
  ext m
  simp only [Option.bind_eq_some_iff, withDigit?, Option.bind_eq_bind, small?_eq_some_iff]
  constructor
  · rintro ⟨_, ⟨-, rfl⟩, _, ⟨-, rfl⟩, hsmall, rfl⟩
    rw [hstep]
    exact ⟨hsmall, rfl⟩
  · rintro ⟨hsmall, rfl⟩
    obtain ⟨hn, htenfold⟩ := hbetween hsmall
    refine ⟨_, ⟨hn, rfl⟩, _, ⟨htenfold, rfl⟩, ?_⟩
    rw [← hstep]
    exact ⟨hsmall, rfl⟩

/-- What is computed digit by digit is the number under its sign, and it is found if the number has
64 bits: no step goes beyond what they end in. -/
theorem foldlM_withDigit? (sign : Sign) (digits : List Char) :
    digits.foldlM (withDigit? sign.isMinus) 0 = small? (sign.times (digitsValue digits)) := by
  induction digits using List.reverseRecOn with
  | nil => cases sign <;> rfl
  | append_singleton digits c ih =>
      rw [List.foldlM_append, ih, digitsValue_concat, ← small?_bind_withDigit?]
      exact Option.bind_congr fun n _ => bind_pure _

/-- A sign and digits denote their integer. -/
theorem integer64?_sign (sign : Sign) {digits : List Char} (hne : digits ≠ [])
    (hdigits : ∀ c ∈ digits, Text.isDigit c = true) :
    integer64? (sign.text ++ digits) = small? (sign.times (digitsValue digits)) := by
  have hsplit := splitSign_append sign hne hdigits []
  rw [List.append_nil] at hsplit
  rw [integer64?, hsplit, ← foldlM_withDigit?]
  simp [hne, List.all_eq_true.mpr hdigits]

/-- The reading by byte offsets never cuts a character, and it finds the same integer. -/
theorem integerAtOffsets?_eq (s : String) : integerAtOffsets? s = some (integerPrefix? s) := by
  obtain ⟨sign, hparts, hminus, hfirst⟩ := exists_sign (trimStart s.toList)
  have hrun : leadingDigits s.toList ++
      (splitSign (trimStart s.toList)).2.dropWhile Text.isDigit =
        (splitSign (trimStart s.toList)).2 := List.takeWhile_append_dropWhile
  -- the first cut is after the sign
  have hbefore : Text.cutAt? (trimStart s.toList) (Text.byteLength sign.text) =
      some (sign.text, (splitSign (trimStart s.toList)).2) :=
    Text.cutAt?_eq_some_iff.mpr ⟨hparts, rfl⟩
  -- the second one is after the digits
  have hlast :
      (match Text.offset? (fun c => !Text.isDigit c) (splitSign (trimStart s.toList)).2 with
      | some offset => Text.byteLength sign.text + offset
      | none => Text.byteLength (trimStart s.toList)) =
        Text.byteLength (sign.text ++ leadingDigits s.toList) := by
    have hoffset := Text.getD_offset? (fun c => !Text.isDigit c) (splitSign (trimStart s.toList)).2
    simp only [Bool.not_not] at hoffset
    rw [Text.byteLength_append, leadingDigits, ← hoffset]
    split
    · next offset hfound => rw [hfound, Option.getD_some]
    · next hfound =>
        rw [hfound, Option.getD_none, ← Text.byteLength_append, ← hparts]
  have hafter : Text.cutAt? (trimStart s.toList)
      (Text.byteLength (sign.text ++ leadingDigits s.toList)) =
        some (sign.text ++ leadingDigits s.toList,
          (splitSign (trimStart s.toList)).2.dropWhile Text.isDigit) :=
    Text.cutAt?_eq_some_iff.mpr ⟨by rw [List.append_assoc, hrun, ← hparts], rfl⟩
  rw [integerAtOffsets?, integerPrefix?_eq hminus]
  simp only [hfirst, hbefore, hlast, hafter, Option.bind_eq_bind, Option.bind_some]
  by_cases hnil : leadingDigits s.toList = []
  · rw [hnil, List.append_nil, if_pos rfl, if_pos rfl]
    rfl
  · have hne : Text.byteLength (sign.text ++ leadingDigits s.toList) ≠
        Text.byteLength sign.text := by
      intro heq
      rw [Text.byteLength_append, Nat.add_eq_left] at heq
      exact hnil (Text.eq_nil_of_byteLength heq)
    rw [if_neg hne, if_neg hnil, integer64?_sign sign hnil fun c => List.mem_takeWhile_imp]
    rfl

/-! ### Which texts are converted -/

/-- **A string is converted to the integer that it begins with.** Blanks and a sign may stand before
its digits and any text behind them, and it must have 64 bits with sign. All other strings are
refused with an error that carries them. The same comes of reading the text by byte offsets, of
which none lies within a character, with arithmetic of 64 bits that never overflows. -/
theorem apply_toInteger_string (s : String) :
    (∀ w, toInteger.apply (.string s) = .ok w ↔
      ∃ front : IntegerFront s.toList,
        (-2 ^ 63 ≤ front.value ∧ front.value < 2 ^ 63) ∧ w = .number (.int front.value)) ∧
    (∀ e, toInteger.apply (.string s) = .error e ↔
      (∀ front : IntegerFront s.toList, ¬ (-2 ^ 63 ≤ front.value ∧ front.value < 2 ^ 63)) ∧
        e = ⟨.toInteger, .string s⟩) ∧
    (∀ front other : IntegerFront s.toList, front.value = other.value) ∧
    integerAtOffsets? s = some (integerPrefix? s) := by
  have hconvert : toInteger.convert? (.string s) =
      (integerPrefix? s).map fun n => .number (.int n) := rfl
  refine ⟨fun w => ?_, fun e => ?_, IntegerFront.value_unique, integerAtOffsets?_eq s⟩
  · rw [apply_eq_ok_iff, hconvert, Option.map_eq_some_iff]
    constructor
    · rintro ⟨n, hn, rfl⟩
      obtain ⟨front, hsmall, rfl⟩ := integerPrefix?_eq_some_iff.mp hn
      exact ⟨front, hsmall, rfl⟩
    · rintro ⟨front, hsmall, rfl⟩
      exact ⟨_, integerPrefix?_eq_some_iff.mpr ⟨front, hsmall, rfl⟩, rfl⟩
  · rw [apply_eq_error_iff, hconvert, Option.map_eq_none_iff, Option.eq_none_iff_forall_ne_some]
    refine and_congr_left fun _ => ⟨fun h front hsmall => ?_, fun h n hn => ?_⟩
    · exact h _ (integerPrefix?_eq_some_iff.mpr ⟨front, hsmall, rfl⟩)
    · obtain ⟨front, hsmall, -⟩ := integerPrefix?_eq_some_iff.mp hn
      exact h front hsmall

/-- A blank of two bytes, a sign, and the least integer of 64 bits before a character of two
bytes. -/
theorem apply_toInteger_string_leastInteger :
    ∃ front : IntegerFront "\u00A0-9223372036854775808é".toList,
      front.value = -2 ^ 63 ∧
        toInteger.apply (.string "\u00A0-9223372036854775808é") =
          .ok (.number (.int (-2 ^ 63))) := by
  have hread : toInteger.apply (.string "\u00A0-9223372036854775808é") =
      .ok (.number (.int (-2 ^ 63))) := rfl
  obtain ⟨front, -, hvalue⟩ := ((apply_toInteger_string _).1 _).mp hread
  exact ⟨front, (Json.Number.int.inj (Value.number.inj hvalue)).symm, hread⟩

/-! ### Integers and their texts -/

/-- The text of an integer begins with that integer. -/
def IntegerFront.ofInt (n : Int) : IntegerFront (intText n).toList where
  blanks := []
  sign := if n < 0 then .minus else .absent
  digits := digitsOf n.natAbs
  rest := []
  parts := by
    rw [intText, String.toList_append, String.toList_ofList]
    split_ifs <;> simp [Sign.text]
  blank := Text.blank_nil
  digits_ne_nil := Nat.toDigits_ne_nil
  isDigit _ h := Nat.isDigit_of_mem_toDigits (by omega) (by omega) h
  ended _ h := by cases h

/-- The integer that the text of an integer begins with. -/
theorem IntegerFront.value_ofInt (n : Int) : (IntegerFront.ofInt n).value = n := by
  rw [value_eq]
  show (if n < 0 then Sign.minus else Sign.absent).times (digitsValue (digitsOf n.natAbs)) = n
  rw [digitsValue_digitsOf]
  split_ifs with hn
  · show -(n.natAbs : Int) = n
    omega
  · show (n.natAbs : Int) = n
    omega

/-- The text of an integer is read as that integer, if it has 64 bits with sign. -/
theorem integerPrefix?_intText (n : Int) : integerPrefix? (intText n) = small? n := by
  rw [integerPrefix?_of_front (.ofInt n), IntegerFront.value_ofInt]

/-- Two values become the same one, or both are refused. -/
def SameOutcome (c : Coercion) (v w : Value) : Prop :=
  (c.apply v).toOption = (c.apply w).toOption

/-- What becomes of the text of an integer. -/
theorem convert?_intText (n : Int) :
    toInteger.convert? (.string (intText n)) = (small? n).map fun n => .number (.int n) := by
  rw [← integerPrefix?_intText]
  rfl

/-- **An integer and its text are treated alike exactly below `2 ^ 63`.** The integer itself is
always kept. Its text becomes that integer if it has 64 bits with sign, and is refused if it is
greater. -/
theorem apply_toInteger_intText {n : Int} (hleast : Json.leastInt ≤ n) :
    toText.apply (.number (.int n)) = .ok (.string (intText n)) ∧
    toInteger.apply (.number (.int n)) = .ok (.number (.int n)) ∧
    (n < 2 ^ 63 → toInteger.apply (.string (intText n)) = .ok (.number (.int n))) ∧
    (2 ^ 63 ≤ n → toInteger.apply (.string (intText n)) =
      .error ⟨.toInteger, .string (intText n)⟩) ∧
    (toInteger.SameOutcome (.number (.int n)) (.string (intText n)) ↔ n < 2 ^ 63) := by
  have hnumber : toInteger.apply (.number (.int n)) = .ok (.number (.int n)) := rfl
  have hbelow : n < 2 ^ 63 → toInteger.apply (.string (intText n)) = .ok (.number (.int n)) := by
    intro hlt
    have hsmall : small? n = some n := small?_eq_some_iff.mpr ⟨⟨hleast, hlt⟩, rfl⟩
    rw [apply_eq_ok_iff, convert?_intText, hsmall]
    rfl
  have habove : 2 ^ 63 ≤ n →
      toInteger.apply (.string (intText n)) = .error ⟨.toInteger, .string (intText n)⟩ := by
    intro hle
    have hlarge : ¬ isSmall n = true := fun h => absurd (isSmall_iff.mp h).2 (not_lt.mpr hle)
    rw [apply_eq_error_iff, convert?_intText, small?, if_neg hlarge]
    exact ⟨rfl, rfl⟩
  refine ⟨rfl, hnumber, hbelow, habove, fun h => ?_, fun hlt => ?_⟩
  · by_contra hle
    rw [SameOutcome, hnumber, habove (not_lt.mp hle)] at h
    cases h
  · rw [SameOutcome, hnumber, hbelow hlt]

/-- The greatest integer of 64 bits with sign. -/
theorem apply_toInteger_intText_greatest :
    Json.leastInt ≤ 2 ^ 63 - 1 ∧ (2 ^ 63 - 1 : Int) < 2 ^ 63 ∧
      toInteger.apply (.string (intText (2 ^ 63 - 1))) = .ok (.number (.int (2 ^ 63 - 1))) :=
  ⟨by decide, by decide, (apply_toInteger_intText (by decide)).2.2.1 (by decide)⟩

/-- **A number may be taken and its text refused.** The integer after the greatest one of 64 bits
with sign is a number that stays, but its text is not converted. -/
theorem not_sameOutcome :
    ¬ ∀ (n : Int) (s : String), Json.leastInt ≤ n → n ≤ Json.greatestInt →
      toText.apply (.number (.int n)) = .ok (.string s) →
      toInteger.SameOutcome (.number (.int n)) (.string s) := by
  intro h
  have hsame := h (2 ^ 63) (intText (2 ^ 63)) (by decide) (by decide) rfl
  have hrefused : toInteger.convert? (.string (intText (2 ^ 63))) = none := by
    rw [convert?_intText]
    rfl
  rw [SameOutcome, apply_eq_error_iff.mpr ⟨hrefused, rfl⟩] at hsame
  cases hsame

end SchemaBridge.Coercion
