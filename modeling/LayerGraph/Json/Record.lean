import LayerGraph.Json.Basic

/-!
# Records in JSON

A record is written as an object, where unknown fields are ignored and a known field
may stand only once, or as an array of its fields in order, where the last ones may be
left out. A plain variant is its name, or an object with the name and null.
-/

set_option autoImplicit false

namespace LayerGraph

namespace Json

/-- Containers that may stand inside one another where a value is kept before it is
understood. -/
def nestingLimit : Nat := 127

mutual

/-- Whether all numbers and strings of a value can be read and at most `depth`
containers stand inside one another. -/
def isReadable (depth : Nat) : Json → Bool
  | .null => true
  | .bool _ => true
  | .number n => n.toDouble?.isSome
  | .string s => s.isSome
  | .array items => decide (0 < depth) && areReadable (depth - 1) items
  | .object fields => decide (0 < depth) && fieldsReadable (depth - 1) fields

def areReadable (depth : Nat) : List Json → Bool
  | [] => true
  | item :: rest => isReadable depth item && areReadable depth rest

def fieldsReadable (depth : Nat) : List (Option String × Json) → Bool
  | [] => true
  | (key, value) :: rest => key.isSome && isReadable depth value && fieldsReadable depth rest

end

def asText? : Json → Option String
  | .string s => s
  | _ => none

def asBool? : Json → Option Bool
  | .bool b => some b
  | _ => none

def asInt? : Json → Option Int
  | .number n => n.toInt?
  | _ => none

def asNat? (j : Json) : Option Nat :=
  j.asInt?.bind fun n => if 0 ≤ n then some n.toNat else none

def asInt32? (j : Json) : Option Int32 :=
  j.asInt?.bind fun n =>
    if Int32.minValue.toInt ≤ n ∧ n ≤ Int32.maxValue.toInt then some (Int32.ofInt n) else none

def asItems? : Json → Option (List Json)
  | .array items => some items
  | _ => none

def asNats? (j : Json) : Option (List Nat) := j.asItems?.bind fun items => items.mapM asNat?

def field? (fields : List (Option String × Json)) (name : String) : Option Json :=
  (fields.find? fun entry => entry.1 == some name).map (·.2)

def record? (names : List String) : Json → Option (List (Option Json))
  | .array items =>
    if items.length ≤ names.length then
      some (items.map some ++ List.replicate (names.length - items.length) none)
    else none
  | .object fields =>
    let keys := fields.map (·.1)
    if keys.all Option.isSome && names.all (fun name => decide (keys.count (some name) ≤ 1)) then
      some (names.map (field? fields))
    else none
  | _ => none

def variant? : Json → Option String
  | .string s => s
  | .object [(key, .null)] => key
  | _ => none

end Json

end LayerGraph
