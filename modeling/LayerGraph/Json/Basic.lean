import LayerGraph.Json.Numeral

/-!
# JSON values and tokens

Values keep what a reader may still want to object to: numbers as written, fields
in order with repetitions, and a string whose escapes name an unpaired surrogate as
`none`. The tokens of a value are its compact text.
-/

set_option autoImplicit false

namespace LayerGraph

inductive Json where
  | null
  | bool (value : Bool)
  | number (value : Numeral)
  | string (value : Option String)
  | array (items : List Json)
  | object (fields : List (Option String × Json))

inductive Token where
  | openArray
  | closeArray
  | openObject
  | closeObject
  | colon
  | comma
  | null
  | bool (value : Bool)
  | number (value : Numeral)
  | string (value : Option String)
  deriving DecidableEq

namespace Json

def text (s : String) : Json := .string (some s)

def nat (n : Nat) : Json := .number (.ofNat n)

def int (n : Int) : Json := .number (.ofInt n)

/-- Number of a single-precision pattern, null when it is not finite. -/
def single (bits : Nat) : Json :=
  match Numeral.ofSingle? bits with
  | some n => .number n
  | none => .null

def record (fields : List (String × Json)) : Json :=
  .object (fields.map fun (name, value) => (some name, value))

end Json

end LayerGraph
