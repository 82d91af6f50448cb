/-!
# Decimal digits

* `isDigit`: the ten digits of ASCII;
* `digitsValue`: the number that a run of digits denotes;
* `digitsOf`: the digits of a number, without leading zeros.
-/

namespace SchemaBridge.Text

/-- A decimal digit of ASCII. -/
def isDigit (c : Char) : Bool :=
  '0' ≤ c && c ≤ '9'

/-- The value of one digit. -/
def digitValue (c : Char) : Nat :=
  c.toNat - '0'.toNat

/-- The number that a run of digits denotes; no digits denote zero. -/
def digitsValue (cs : List Char) : Nat :=
  cs.foldl (fun n c => 10 * n + digitValue c) 0

/-- The digits of a number, without leading zeros; zero has one digit. -/
def digitsOf (n : Nat) : List Char :=
  Nat.toDigits 10 n

/-- The decimal text of an integer. -/
def intText (n : Int) : String :=
  (if n < 0 then "-" else "") ++ String.ofList (digitsOf n.natAbs)

end SchemaBridge.Text
