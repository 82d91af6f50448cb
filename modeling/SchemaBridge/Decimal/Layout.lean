import SchemaBridge.Decimal.Shortest

/-!
# Number layouts

How the digits of a double become text.

* `Layout`: what a format decides, namely the numbers written positionally, the text after a
  whole number, and the rule for ties;
* `Layout.write`: the text of a double. Other numbers are written with one digit before the
  point and a signed exponent, such as `1.5e-6` and `1e+16`.
-/

namespace SchemaBridge

/-- The decisions of a number format. -/
structure Layout where
  /-- The least and greatest place of the point for which a number is written positionally;
  every place if absent. -/
  positional : Option (Int × Int)
  /-- What follows a number without fractional digits in positional form. -/
  wholeSuffix : String
  /-- Which of two equally near shortest forms is taken. -/
  tie : Tie

namespace Layout

/-- A run of zeros. -/
def zeros (n : Nat) : String :=
  String.ofList (List.replicate n '0')

/-- The positional form of a positive number. -/
def positionalText (layout : Layout) (d : Digits) : String :=
  let count : Int := d.digits.length
  if d.point ≤ 0 then "0." ++ zeros (-d.point).toNat ++ String.ofList d.digits
  else if count ≤ d.point then
    String.ofList d.digits ++ zeros (d.point - count).toNat ++ layout.wholeSuffix
  else
    String.ofList (d.digits.take d.point.toNat) ++ "." ++
      String.ofList (d.digits.drop d.point.toNat)

/-- The scientific form of a positive number. -/
def scientificText (d : Digits) : String :=
  let exponent := d.point - 1
  let fraction := d.digits.drop 1
  String.ofList (d.digits.take 1) ++
    (if fraction.isEmpty then "" else "." ++ String.ofList fraction) ++
    "e" ++ (if exponent < 0 then "" else "+") ++ Text.intText exponent

/-- Whether a number whose point stands at `point` is written positionally. -/
def isPositional (layout : Layout) (point : Int) : Bool :=
  match layout.positional with
  | none => true
  | some (least, greatest) => least ≤ point && point ≤ greatest

/-- The text of a double. -/
def write (layout : Layout) (x : Double) : String :=
  (if x.negative then "-" else "") ++
    if x.isZero then "0" ++ layout.wholeSuffix
    else
      let d := x.shortest layout.tie
      if layout.isPositional d.point then layout.positionalText d else scientificText d

end Layout

end SchemaBridge
