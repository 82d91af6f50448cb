import SchemaBridge.Decimal.Reader
import SchemaBridge.Json.Printer
import SchemaBridge.Text.Blank

/-!
# Coercions

Conversions of a JSON value to one kind of value, for variables whose declared type changes.

* `Coercion`: the four conversions; `Coercion.name` and `Coercion.ofName?` are their names;
* `Coercion.convert?`: the converted value, if the conversion takes the value. All conversions
  pass `null` through and keep values of their own kind; none takes an array or object;
* `Coercion.apply`: the same with an error that carries the conversion and the value.
-/

namespace SchemaBridge

/-- A conversion to integers, to numbers, to strings or to booleans. -/
inductive Coercion where
  | toInteger
  | toFloat
  | toText
  | toBoolean
deriving DecidableEq, Repr

/-- A value that a conversion does not take. -/
structure CoercionError where
  coercion : Coercion
  value : Json.Value

namespace Coercion

/-- The name of a conversion. -/
def name : Coercion → String
  | toInteger => "parseInt"
  | toFloat => "parseFloat"
  | toText => "toString"
  | toBoolean => "toBoolean"

/-- The conversion with a name. -/
def ofName? (s : String) : Option Coercion :=
  if s = toInteger.name then some toInteger
  else if s = toFloat.name then some toFloat
  else if s = toText.name then some toText
  else if s = toBoolean.name then some toBoolean
  else none

/-! ### Conversions of text -/

/-- The sign at the front of a text, where no sign means plus, and what follows it. -/
def splitSign : List Char → Bool × List Char
  | '-' :: rest => (true, rest)
  | '+' :: rest => (false, rest)
  | cs => (false, cs)

/-- Whether an integer has 64 bits with sign. -/
def isSmall (n : Int) : Bool :=
  -9223372036854775808 ≤ n && n < 9223372036854775808

/-- The integer at the front of a text: blanks, an optional sign and as many digits as follow,
at least one. It must have 64 bits with sign; any text may follow. -/
def integerPrefix? (s : String) : Option Int :=
  let (negative, rest) := splitSign (Text.trimStart s.toList)
  let digits := rest.takeWhile Text.isDigit
  let magnitude : Int := Text.digitsValue digits
  let n := if negative then -magnitude else magnitude
  if digits.isEmpty || !isSmall n then none else some n

/-- The finite number that a whole text denotes, blanks around it apart. -/
def finiteNumber? (s : String) : Option Double :=
  (Decimal.read? (Text.trim s.toList)).bind Double.ofDecimal

/-- The truth value that a whole text denotes, blanks around it apart. -/
def truthValue? (s : String) : Option Bool :=
  let word := String.ofList (Text.trim s.toList)
  if word = "true" then some true else if word = "false" then some false else none

/-- The integer part of a number, if it has 64 bits with sign. -/
def integerPart? (x : Double) : Option Int :=
  if isSmall x.truncate then some x.truncate else none

/-- Whether a number differs from zero. -/
def isNonzero : Json.Number → Bool
  | .int n => n ≠ 0
  | .float x => !x.isZero

/-! ### The conversions -/

/-- The integer for a value that is not `null`. -/
def integer? : Json.Value → Option Json.Value
  | .number (.int n) => some (.number (.int n))
  | .number (.float x) => (integerPart? x).map fun n => .number (.int n)
  | .string s => (integerPrefix? s).map fun n => .number (.int n)
  | _ => none

/-- The number for a value that is not `null`. -/
def float? : Json.Value → Option Json.Value
  | .number n => some (.number n)
  | .string s => (finiteNumber? s).map fun x => .number (.float x)
  | _ => none

/-- The string for a value that is not `null`. -/
def text? : Json.Value → Option Json.Value
  | .string s => some (.string s)
  | .number n => some (.string n.text)
  | .boolean b => some (.string (if b then "true" else "false"))
  | _ => none

/-- The boolean for a value that is not `null`. -/
def boolean? : Json.Value → Option Json.Value
  | .boolean b => some (.boolean b)
  | .number n => some (.boolean (isNonzero n))
  | .string s => (truthValue? s).map .boolean
  | _ => none

/-- The converted value, if the conversion takes the value. -/
def convert? (c : Coercion) (v : Json.Value) : Option Json.Value :=
  match v with
  | .null => some .null
  | v =>
    match c with
    | toInteger => integer? v
    | toFloat => float? v
    | toText => text? v
    | toBoolean => boolean? v

/-- The converted value, or an error that carries the value. -/
def apply (c : Coercion) (v : Json.Value) : Except CoercionError Json.Value :=
  match c.convert? v with
  | some w => .ok w
  | none => .error ⟨c, v⟩

end Coercion

/-- The wording of the error. -/
def CoercionError.message (e : CoercionError) : String :=
  "`" ++ e.coercion.name ++ "` cannot convert the value " ++ e.value.compact

end SchemaBridge
