import LayerGraph.Json.Token

/-!
# Reading JSON

A value is assembled from tokens on a stack of open arrays and objects. Each token is
judged by what may come next, so nesting is limited by nothing but the text.
-/

set_option autoImplicit false

namespace LayerGraph

namespace Json

/-- A container that is not closed yet; its parts are held latest first. -/
inductive Frame where
  | array (items : List Json)
  | object (fields : List (Option String × Json)) (key : Option String)

inductive Expectation where
  | value
  | valueOrClose
  | keyOrClose (fields : List (Option String × Json))
  | key (fields : List (Option String × Json))
  | colon
  | separator
  | finished (value : Json)

structure Assembly where
  stack : List Frame
  expects : Expectation

namespace Assembly

def start : Assembly := ⟨[], .value⟩

def complete (value : Json) : List Frame → Assembly
  | [] => ⟨[], .finished value⟩
  | .array items :: rest => ⟨.array (value :: items) :: rest, .separator⟩
  | .object fields key :: rest => ⟨.object ((key, value) :: fields) key :: rest, .separator⟩

def feedValue (stack : List Frame) : Token → Option Assembly
  | .null => some (complete .null stack)
  | .bool b => some (complete (.bool b) stack)
  | .number n => some (complete (.number n) stack)
  | .string s => some (complete (.string s) stack)
  | .openArray => some ⟨.array [] :: stack, .valueOrClose⟩
  | .openObject => some ⟨stack, .keyOrClose []⟩
  | _ => none

def feed (a : Assembly) (token : Token) : Option Assembly :=
  match a.expects with
  | .value => feedValue a.stack token
  | .valueOrClose =>
    match token, a.stack with
    | .closeArray, .array items :: rest => some (complete (.array items.reverse) rest)
    | _, _ => feedValue a.stack token
  | .keyOrClose fields =>
    match token with
    | .closeObject => some (complete (.object fields.reverse) a.stack)
    | .string key => some ⟨.object fields key :: a.stack, .colon⟩
    | _ => none
  | .key fields =>
    match token with
    | .string key => some ⟨.object fields key :: a.stack, .colon⟩
    | _ => none
  | .colon =>
    match token with
    | .colon => some ⟨a.stack, .value⟩
    | _ => none
  | .separator =>
    match token, a.stack with
    | .comma, .array _ :: _ => some ⟨a.stack, .value⟩
    | .comma, .object fields _ :: rest => some ⟨rest, .key fields⟩
    | .closeArray, .array items :: rest => some (complete (.array items.reverse) rest)
    | .closeObject, .object fields _ :: rest => some (complete (.object fields.reverse) rest)
    | _, _ => none
  | .finished _ => none

def run : Assembly → List Token → Option Assembly
  | a, [] => some a
  | a, token :: rest => (a.feed token).bind fun next => next.run rest

end Assembly

def ofTokens? (tokens : List Token) : Option Json :=
  match Assembly.start.run tokens with
  | some ⟨_, .finished value⟩ => some value
  | _ => none

def parse? (source : String) : Option Json :=
  (Token.scan source.toList).bind ofTokens?

end Json

end LayerGraph
