import SchemaBridge.Decimal.Double
import SchemaBridge.Text.Digit

/-!
# Shortest decimal digits

The fewest decimal digits that still round to a given double. The numbers that round to
`m · 2 ^ e` form an interval, with its ends included exactly when `m` is even. For one, two, …
seventeen digits the two neighbours of the double among the decimal fractions with that many
digits are tested: the first grid with a neighbour inside the interval is taken.

* `Digits`: the digits `d₁ d₂ …` of a positive number `0.d₁d₂… · 10 ^ point`;
* `Double.shortest`: the digits of a double; of two neighbours the nearer is taken, and a rule
  `Tie` says which of two equally near ones.
-/

namespace SchemaBridge

/-- Which of two equally near neighbours is taken. -/
inductive Tie where
  | toEven
  | upward
deriving DecidableEq, Repr

/-- The digits of the positive number `0.d₁d₂… · 10 ^ point`. -/
structure Digits where
  digits : List Char
  point : Int
deriving DecidableEq, Repr

namespace Double

/-- The interval of the numbers that round to a double, in units of `2 ^ (exponent - 2)`: the
lower end, the double itself and the upper end. Below a power of two the spacing is halved. -/
def interval (x : Double) : Nat × Nat × Nat :=
  let centre := 4 * x.significand
  let below := if x.significand = Nat.pow 2 52 ∧ x.exponent ≠ -1074 then 1 else 2
  (centre - below, centre, centre + 2)

/-- The `p` with `10 ^ (p - 1) ≤ x < 10 ^ p`, for a double that is not zero. -/
def pointOf (x : Double) : Int :=
  let num := x.significand * Nat.pow 2 x.exponent.toNat
  let den := Nat.pow 2 (-x.exponent).toNat
  let shift := (Text.digitsOf den).length
  ((Text.digitsOf (num * Nat.pow 10 shift / den)).length : Int) - shift

/-- The neighbour of a double among the multiples of `10 ^ unit` that rounds to the double, if
there is one; `none` otherwise. -/
def neighbour? (tie : Tie) (x : Double) (unit : Int) : Option Nat :=
  let (low, centre, high) := x.interval
  let gridScale := Nat.pow 10 unit.toNat * Nat.pow 2 (2 - x.exponent).toNat
  let binaryScale := Nat.pow 2 (x.exponent - 2).toNat * Nat.pow 10 (-unit).toNat
  let below := centre * binaryScale / gridScale
  let rest := centre * binaryScale % gridScale
  let closed := x.significand % 2 = 0
  let lowFits := low * binaryScale < below * gridScale ∨
    (closed ∧ low * binaryScale = below * gridScale)
  let highFits := (below + 1) * gridScale < high * binaryScale ∨
    (closed ∧ (below + 1) * gridScale = high * binaryScale)
  if lowFits ∧ highFits then
    if 2 * rest < gridScale then some below
    else if gridScale < 2 * rest then some (below + 1)
    else if tie = .toEven ∧ below % 2 = 0 then some below
    else some (below + 1)
  else if lowFits then some below
  else if highFits then some (below + 1)
  else none

/-- The digits of a number without trailing zeros. -/
def trimmedDigits (n : Nat) : List Char :=
  ((Text.digitsOf n).reverse.dropWhile (· = '0')).reverse

/-- The shortest digits of a double that is not zero. Seventeen digits always suffice. -/
def shortest (tie : Tie) (x : Double) : Digits :=
  let point := x.pointOf
  let found := (List.range 17).findSome? fun (count : Nat) =>
    let unit := point - (count + 1)
    (x.neighbour? tie unit).map (·, unit)
  match found with
  | some (n, unit) => ⟨trimmedDigits n, (Text.digitsOf n).length + unit⟩
  | none => ⟨[], point⟩

end Double

end SchemaBridge
