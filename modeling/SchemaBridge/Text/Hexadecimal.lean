/-!
# Hexadecimal digits

Reading and writing single hexadecimal digits, and runs of them.

* `hexValue?`: the value of one digit in either case;
* `hexDigit`: the lower-case digit of a value;
* `hexText`: the digits of a number, padded with zeros to a width.
-/

namespace SchemaBridge.Text

/-- The value of a hexadecimal digit, in either case. -/
def hexValue? (c : Char) : Option Nat :=
  if '0' ≤ c ∧ c ≤ '9' then some (c.toNat - '0'.toNat)
  else if 'a' ≤ c ∧ c ≤ 'f' then some (c.toNat - 'a'.toNat + 10)
  else if 'A' ≤ c ∧ c ≤ 'F' then some (c.toNat - 'A'.toNat + 10)
  else none

/-- The number that a run of hexadecimal digits denotes; `none` if a character is no digit. -/
def hexNumber? (cs : List Char) : Option Nat :=
  cs.foldlM (fun n c => (hexValue? c).map (16 * n + ·)) 0

/-- The hexadecimal digits of `n` in lower case, with leading zeros up to `width` digits. -/
def hexText (width n : Nat) : String :=
  let digits := Nat.toDigits 16 n
  String.ofList (List.replicate (width - digits.length) '0' ++ digits)

/-- The character with a code point; `none` for surrogates and numbers beyond the last one. -/
def charOfCode? (n : Nat) : Option Char :=
  if h : n.isValidChar then some (Char.ofNatAux n h) else none

end SchemaBridge.Text
