/-!
# Finite binary floating point

The finite numbers of 64-bit binary floating point as exact dyadic fractions, and the rounding
of decimal fractions to them.

* `Decimal`: a signed decimal fraction `coefficient · 10 ^ exponent`;
* `Double`: a sign and `significand · 2 ^ exponent`, in the one form that uses the smallest
  admitted exponent; both zeros are kept apart;
* `Double.ofDecimal`: the nearest double, of two nearest the one with an even significand, and
  `none` where that is beyond the finite range;
* `Double.truncate`: the integer part.
-/

namespace SchemaBridge

/-- The signed decimal fraction `coefficient · 10 ^ exponent`. -/
structure Decimal where
  negative : Bool
  coefficient : Nat
  exponent : Int
deriving DecidableEq, Repr

/-- A finite number `± significand · 2 ^ exponent` of 64-bit binary floating point. The
significand has 53 bits, fewer only at the smallest exponent. -/
structure Double where
  negative : Bool
  significand : Nat
  exponent : Int
  significand_lt : significand < Nat.pow 2 53
  exponent_ge : -1074 ≤ exponent
  exponent_le : exponent ≤ 971
  leading : Nat.pow 2 52 ≤ significand ∨ exponent = -1074
deriving DecidableEq, Repr

namespace Double

/-- Zero with a sign. -/
def zero (negative : Bool) : Double where
  negative := negative
  significand := 0
  exponent := -1074
  significand_lt := by decide
  exponent_ge := by decide
  exponent_le := by decide
  leading := .inr rfl

/-- Whether the number is zero, of either sign. -/
def isZero (x : Double) : Bool :=
  x.significand = 0

/-- The double with a given significand and exponent, if they are in range. -/
def ofParts? (negative : Bool) (significand : Nat) (exponent : Int) : Option Double :=
  if h : significand < Nat.pow 2 53 ∧ -1074 ≤ exponent ∧ exponent ≤ 971 ∧
      (Nat.pow 2 52 ≤ significand ∨ exponent = -1074) then
    some ⟨negative, significand, exponent, h.1, h.2.1, h.2.2.1, h.2.2.2⟩
  else none

/-- The quotient rounded to the nearest natural number, halves to the even one. -/
def roundQuotient (num den : Nat) : Nat :=
  let q := num / den
  let r := num % den
  if 2 * r < den then q
  else if den < 2 * r then q + 1
  else if q % 2 = 0 then q else q + 1

/-- The greatest `l` with `2 ^ l ≤ num / den`, for positive numbers. -/
def floorLog (num den : Nat) : Int :=
  let l : Int := (Nat.log2 num : Int) - Nat.log2 den
  if num * Nat.pow 2 (-l).toNat < den * Nat.pow 2 l.toNat then l - 1 else l

/-- The double nearest to a positive quotient. The exponent leaves 53 bits for the significand,
and a significand that rounds up to a power of two moves to the next exponent. -/
def ofQuotient? (negative : Bool) (num den : Nat) : Option Double :=
  let exponent := max (-1074) (floorLog num den - 52)
  let significand :=
    roundQuotient (num * Nat.pow 2 (-exponent).toNat) (den * Nat.pow 2 exponent.toNat)
  if significand = Nat.pow 2 53 then ofParts? negative (Nat.pow 2 52) (exponent + 1)
  else ofParts? negative significand exponent

/-- The double nearest to a decimal fraction. Exponents far outside the range are settled
without raising ten to them. -/
def ofDecimal (d : Decimal) : Option Double :=
  if d.coefficient = 0 then some (zero d.negative)
  else if 400 < d.exponent then none
  else if d.exponent < -400 - (Nat.log2 d.coefficient : Int) then some (zero d.negative)
  else
    ofQuotient? d.negative (d.coefficient * Nat.pow 10 d.exponent.toNat)
      (Nat.pow 10 (-d.exponent).toNat)

/-- The integer part: the fraction is cut off towards zero. -/
def truncate (x : Double) : Int :=
  let magnitude : Nat :=
    x.significand * Nat.pow 2 x.exponent.toNat / Nat.pow 2 (-x.exponent).toNat
  if x.negative then -(magnitude : Int) else magnitude

end Double

end SchemaBridge
