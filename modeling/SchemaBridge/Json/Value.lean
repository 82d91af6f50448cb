import SchemaBridge.Decimal.Double
import SchemaBridge.Entries

/-!
# JSON values

* `Number`: integers and floating-point numbers stay distinct;
* `Value`: the values of JSON. An object is a list of entries; in a canonical value the keys
  ascend by code point and none occurs twice;
* `Value.canonical`: sorts the entries of every object, the last of several entries for one key
  being the one that counts.
-/

namespace SchemaBridge.Json

/-- A number: one written without fraction and exponent is an integer. -/
inductive Number where
  | int (value : Int)
  | float (value : Double)
deriving DecidableEq, Repr

/-- A JSON value. -/
inductive Value where
  | null
  | boolean (value : Bool)
  | number (value : Number)
  | string (value : String)
  | array (items : List Value)
  | object (entries : List (String × Value))
deriving Repr, Inhabited

/-- The entries of an object. -/
abbrev Object := Entries Value

/-- The least integer that is kept as an integer. -/
def leastInt : Int := -9223372036854775808

/-- The greatest integer that is kept as an integer. -/
def greatestInt : Int := 18446744073709551615

mutual

/-- The value with the keys of every object ascending and each occurring once; of several
entries for one key the last counts. -/
def Value.canonical : Value → Value
  | .null => .null
  | .boolean b => .boolean b
  | .number n => .number n
  | .string s => .string s
  | .array items => .array (canonicalItems items)
  | .object entries => .object (canonicalEntries [] entries)

/-- The canonical forms of the items. -/
def canonicalItems : List Value → List Value
  | [] => []
  | v :: rest => v.canonical :: canonicalItems rest

/-- The canonical forms of the entries, inserted one after the other. -/
def canonicalEntries (done : Entries Value) : List (String × Value) → Object
  | [] => done
  | (k, v) :: rest => canonicalEntries (Entries.insert done k v.canonical) rest

end

end SchemaBridge.Json
