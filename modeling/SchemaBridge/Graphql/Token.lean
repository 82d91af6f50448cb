import SchemaBridge.Decimal.Reader
import SchemaBridge.Graphql.Name
import SchemaBridge.Graphql.StringLiteral
import SchemaBridge.Text.Blank

/-!
# GraphQL tokens

* `Token`: punctuators, names, numbers and strings;
* `Numeral.read?`: the number that a text denotes. An integer has 64 bits with sign; an exponent
  begins with a sign or with a digit from one to eight;
* `Token.scan?`: the tokens of a text, without blanks, commas, byte order marks and comments;
  `none` if some part of it is no token;
* `withinNesting`: whether no more than `maxNesting` brackets are open at once.
-/

namespace SchemaBridge.Graphql

/-- A number as it is written in a document. -/
inductive Numeral where
  | int (value : Int)
  | float (value : Double)
  | infinite (negative : Bool)
deriving DecidableEq, Repr

/-- A token of a document. -/
inductive Token where
  | punctuator (mark : Char)
  | ellipsis
  | name (text : String)
  | number (value : Numeral)
  | string (value : String)
deriving DecidableEq, Repr

/-! ### Numbers -/

/-- The exponent that fills the rest of a number. After the mark stands a sign and digits, or
digits of which the first is neither zero nor nine. -/
def exponent? (cs : List Char) : Option Int :=
  match cs with
  | mark :: '-' :: rest => Decimal.exponent? (mark :: '-' :: rest)
  | mark :: '+' :: rest => Decimal.exponent? (mark :: '+' :: rest)
  | mark :: first :: rest =>
    if '1' ≤ first ∧ first ≤ '8' then Decimal.exponent? (mark :: first :: rest) else none
  | _ => none

/-- The integer with the given digits, if it has 64 bits with sign. -/
def integer? (negative : Bool) (digits : List Char) : Option Numeral :=
  let magnitude : Int := Text.digitsValue digits
  let n := if negative then -magnitude else magnitude
  if -9223372036854775808 ≤ n ∧ n < 9223372036854775808 then some (.int n) else none

/-- The number that an unsigned text denotes, under a sign. -/
def Numeral.readUnsigned? (negative : Bool) (cs : List Char) : Option Numeral := do
  let (whole, rest) ← Decimal.wholeDigits? cs
  if rest.isEmpty then integer? negative whole
  else
    let (fraction, rest) ← Decimal.fractionDigits? rest
    let exponent ← if rest.isEmpty then some 0 else exponent? rest
    match Double.ofDecimal (Decimal.ofParts negative whole fraction exponent) with
    | some x => return .float x
    | none => return .infinite negative

/-- The number that a text denotes. -/
def Numeral.read? (cs : List Char) : Option Numeral :=
  match cs with
  | '-' :: rest => Numeral.readUnsigned? true rest
  | _ => Numeral.readUnsigned? false cs

/-! ### Scanning -/

/-- A character between tokens that has no meaning. -/
def isIgnored (c : Char) : Bool :=
  c = ' ' || c = '\t' || c = '\n' || c = '\r' || c = ',' || c.toNat = 0xFEFF

/-- A character that is a token of its own. -/
def isPunctuator (c : Char) : Bool :=
  "()[]\x7b\x7d!$:=@|&".toList.contains c

/-- A character that ends a number. -/
def endsNumber (c : Char) : Bool :=
  c = ' ' || c = '\t' || c = '\n' || c = '\r' || c = ',' || c = '#' || isPunctuator c

/-- A character within a comment. -/
def isCommentPart (c : Char) : Bool :=
  c ≠ '\n' && c ≠ '\r'

/-- The tokens of a text. -/
def Token.scan? : List Char → Option (List Token)
  | [] => some []
  | '.' :: '.' :: '.' :: rest => do return .ellipsis :: (← scan? rest)
  | '"' :: '"' :: '"' :: rest =>
    match found : blockBody? false rest with
    | none => none
    | some (body, after) => do
      have := length_after_blockBody found
      return .string (String.ofList (blockText body)) :: (← scan? after)
  | '"' :: rest =>
    match found : Text.quotedBody? rest with
    | none => none
    | some (body, after) => do
      have := Text.length_after_quotedBody found
      return .string (String.ofList (← unescapeLine? body)) :: (← scan? after)
  | '#' :: rest => do
    have := Text.length_dropWhile_le isCommentPart rest
    scan? (rest.dropWhile isCommentPart)
  | c :: rest =>
    if isIgnored c then scan? rest
    else if isPunctuator c then do return .punctuator c :: (← scan? rest)
    else if isNameStart c then do
      have := Text.length_dropWhile_le isNamePart rest
      return .name (String.ofList (c :: rest.takeWhile isNamePart)) ::
        (← scan? (rest.dropWhile isNamePart))
    else if c = '-' || Text.isDigit c then do
      have := Text.length_dropWhile_le (fun d => !endsNumber d) rest
      let n ← Numeral.read? (c :: rest.takeWhile fun d => !endsNumber d)
      return .number n :: (← scan? (rest.dropWhile fun d => !endsNumber d))
    else none
termination_by cs => cs.length

/-! ### Nesting -/

/-- How many brackets may be open at once. -/
def maxNesting : Nat := 50

/-- Whether brackets never exceed a number that may still be opened. -/
def withinNesting (budget : Nat) : List Token → Bool
  | [] => true
  | .punctuator c :: rest =>
    if c = '(' ∨ c = '[' ∨ c = '\x7b' then
      match budget with
      | 0 => false
      | budget + 1 => withinNesting budget rest
    else if c = ')' ∨ c = ']' ∨ c = '\x7d' then withinNesting (budget + 1) rest
    else withinNesting budget rest
  | _ :: rest => withinNesting budget rest

end SchemaBridge.Graphql
