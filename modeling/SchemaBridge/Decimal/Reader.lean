import SchemaBridge.Decimal.Double
import SchemaBridge.Text.Digit

/-!
# Reading decimal fractions

* `wholeDigits?`, `fractionDigits?`: the parts of a number in formats that admit neither leading
  zeros nor a point without digits;
* `exponent?`: the exponent part of a number, its mark `e` or `E` included;
* `Decimal.read?`: an optional sign, digits with an optional point among or around them, and an
  optional exponent. One digit before or after the point is enough.
-/

namespace SchemaBridge.Decimal

/-- The value of a text that consists of digits, at least one. -/
def allDigits? (cs : List Char) : Option Int :=
  if cs.isEmpty || !cs.all Text.isDigit then none else some (Text.digitsValue cs)

/-- The exponent that a text denotes: its mark, an optional sign and digits. -/
def exponent? (cs : List Char) : Option Int :=
  match cs with
  | 'e' :: '-' :: rest | 'E' :: '-' :: rest => (allDigits? rest).map (- ·)
  | 'e' :: '+' :: rest | 'E' :: '+' :: rest => allDigits? rest
  | 'e' :: rest | 'E' :: rest => allDigits? rest
  | _ => none

/-- The digits of a whole part and what follows: at least one digit, and no leading zero. -/
def wholeDigits? (cs : List Char) : Option (List Char × List Char) :=
  match cs.span Text.isDigit with
  | ([], _) => none
  | ('0' :: _ :: _, _) => none
  | (digits, rest) => some (digits, rest)

/-- The digits of a fraction and what follows: at least one digit after a point, and none
without a point. -/
def fractionDigits? (cs : List Char) : Option (List Char × List Char) :=
  match cs with
  | '.' :: rest =>
    match rest.span Text.isDigit with
    | ([], _) => none
    | (digits, rest') => some (digits, rest')
  | _ => some ([], cs)

/-- The decimal fraction with the given digits before and after the point. -/
def ofParts (negative : Bool) (whole fraction : List Char) (exponent : Int) : Decimal :=
  ⟨negative, Text.digitsValue (whole ++ fraction), exponent - fraction.length⟩

/-- The digits after a point at the front, and what follows; without a point no digits. -/
def fraction (cs : List Char) : List Char × List Char :=
  match cs with
  | '.' :: rest => rest.span Text.isDigit
  | _ => ([], cs)

/-- The fraction that an unsigned text denotes, under a sign. -/
def readUnsigned? (negative : Bool) (cs : List Char) : Option Decimal :=
  let (whole, rest) := cs.span Text.isDigit
  let (fraction, rest) := fraction rest
  if whole.isEmpty && fraction.isEmpty then none
  else if rest.isEmpty then some (ofParts negative whole fraction 0)
  else (exponent? rest).map (ofParts negative whole fraction)

/-- The fraction that a text denotes. -/
def read? (cs : List Char) : Option Decimal :=
  match cs with
  | '-' :: rest => readUnsigned? true rest
  | '+' :: rest => readUnsigned? false rest
  | _ => readUnsigned? false cs

end SchemaBridge.Decimal
