import SchemaBridge.Decimal.Reader
import SchemaBridge.Json.Value
import SchemaBridge.Text.Blank
import SchemaBridge.Text.Delimited
import SchemaBridge.Text.Digit
import SchemaBridge.Text.Hexadecimal

/-!
# JSON tokens

* `Token`: brackets, separators, words, numbers and strings;
* `Number.read?`: the number that a text denotes. An integer within the kept range stays an
  integer, minus zero and all others become floating-point numbers, and what is beyond their
  finite range is refused;
* `unescape?`: the characters of a string without its escapes; surrogates come in pairs only;
* `Token.scan?`: the tokens of a text; `none` if some part of it is no token.
-/

namespace SchemaBridge.Json

/-- A token of JSON text. -/
inductive Token where
  | beginArray
  | endArray
  | beginObject
  | endObject
  | colon
  | comma
  | null
  | boolean (value : Bool)
  | number (value : Number)
  | string (value : String)
deriving DecidableEq, Repr

/-! ### Numbers -/

/-- A character that occurs in numbers. -/
def isNumberPart (c : Char) : Bool :=
  Text.isDigit c || c = '-' || c = '+' || c = '.' || c = 'e' || c = 'E'

/-- The number that digits without fraction and exponent denote. -/
def integer? (negative : Bool) (digits : List Char) : Option Number :=
  let magnitude := Text.digitsValue digits
  let n : Int := if negative then -(magnitude : Int) else magnitude
  if negative ∧ magnitude = 0 then some (.float (.zero true))
  else if leastInt ≤ n ∧ n ≤ greatestInt then some (.int n)
  else (Double.ofDecimal ⟨negative, magnitude, 0⟩).map .float

/-- The number that an unsigned text denotes, under a sign. -/
def Number.readUnsigned? (negative : Bool) (cs : List Char) : Option Number := do
  let (whole, rest) ← Decimal.wholeDigits? cs
  if rest.isEmpty then integer? negative whole
  else
    let (fraction, rest) ← Decimal.fractionDigits? rest
    let exponent ← if rest.isEmpty then some 0 else Decimal.exponent? rest
    let x ← Double.ofDecimal (Decimal.ofParts negative whole fraction exponent)
    return .float x

/-- The number that a text denotes. -/
def Number.read? (cs : List Char) : Option Number :=
  match cs with
  | '-' :: rest => Number.readUnsigned? true rest
  | _ => Number.readUnsigned? false cs

/-! ### Strings -/

/-- The character that a pair of surrogates encodes. -/
def surrogatePair? (high low : Nat) : Option Char :=
  if 0xDC00 ≤ low ∧ low ≤ 0xDFFF then
    Text.charOfCode? (0x10000 + (high - 0xD800) * 0x400 + (low - 0xDC00))
  else none

/-- The character after a backslash that stands for one character. -/
def simpleEscape? (c : Char) : Option Char :=
  if c = '"' ∨ c = '\\' ∨ c = '/' then some c
  else if c = 'b' then some (Char.ofNat 8)
  else if c = 'f' then some (Char.ofNat 12)
  else if c = 'n' then some '\n'
  else if c = 'r' then some '\r'
  else if c = 't' then some '\t'
  else none

/-- The characters of a string without its escapes. Raw control characters, unknown escapes and
lone surrogates are refused. -/
def unescape? : List Char → Option (List Char)
  | [] => some []
  | '\\' :: 'u' :: a :: b :: c :: d :: rest => do
    let code ← Text.hexNumber? [a, b, c, d]
    if 0xD800 ≤ code ∧ code ≤ 0xDBFF then
      match rest with
      | '\\' :: 'u' :: e :: f :: g :: h :: rest' =>
        let low ← Text.hexNumber? [e, f, g, h]
        let pair ← surrogatePair? code low
        return pair :: (← unescape? rest')
      | _ => none
    else
      let single ← Text.charOfCode? code
      return single :: (← unescape? rest)
  | '\\' :: c :: rest => do
    let single ← simpleEscape? c
    return single :: (← unescape? rest)
  | c :: rest => do
    if c.toNat < 32 ∨ c = '\\' then none
    return c :: (← unescape? rest)

/-! ### Scanning -/

/-- A character that may stand between tokens. -/
def isSpace (c : Char) : Bool :=
  c = ' ' || c = '\t' || c = '\n' || c = '\r'

/-- The tokens of a text. -/
def Token.scan? : List Char → Option (List Token)
  | [] => some []
  | '[' :: rest => do return .beginArray :: (← scan? rest)
  | ']' :: rest => do return .endArray :: (← scan? rest)
  | '\x7b' :: rest => do return .beginObject :: (← scan? rest)
  | '\x7d' :: rest => do return .endObject :: (← scan? rest)
  | ':' :: rest => do return .colon :: (← scan? rest)
  | ',' :: rest => do return .comma :: (← scan? rest)
  | 'n' :: 'u' :: 'l' :: 'l' :: rest => do return .null :: (← scan? rest)
  | 't' :: 'r' :: 'u' :: 'e' :: rest => do return .boolean true :: (← scan? rest)
  | 'f' :: 'a' :: 'l' :: 's' :: 'e' :: rest => do return .boolean false :: (← scan? rest)
  | '"' :: rest =>
    match found : Text.quotedBody? rest with
    | none => none
    | some (body, after) => do
      have := Text.length_after_quotedBody found
      return .string (String.ofList (← unescape? body)) :: (← scan? after)
  | c :: rest =>
    if isSpace c then scan? rest
    else if isNumberPart c then do
      have := Text.length_dropWhile_le isNumberPart rest
      let n ← Number.read? (c :: rest.takeWhile isNumberPart)
      return .number n :: (← scan? (rest.dropWhile isNumberPart))
    else none
termination_by cs => cs.length

end SchemaBridge.Json
