import LayerGraph.Json.Basic

/-!
# Tokens of a JSON text

A machine reads one character at a time. It is between tokens, inside a word, inside
a number or inside a string; the character that ends a word or a number is read again
as the start of what follows. Strings may escape a character above the basic plane as
two surrogates, the high one pending until the low one arrives.
-/

set_option autoImplicit false

namespace LayerGraph

namespace Token

inductive Escape where
  | outside
  | slash
  | hex (count : Nat) (value : Nat)
  deriving DecidableEq

/-- A string being read: characters so far, latest first; whether every surrogate found
its partner; a high surrogate waiting for one. -/
structure Quoted where
  chars : List Char
  sound : Bool
  high : Option Nat
  escape : Escape
  deriving DecidableEq

inductive Mode where
  | between
  | word (letters : List Char)
  | number (chars : List Char)
  | quoted (q : Quoted)
  deriving DecidableEq

structure Machine where
  emitted : List Token
  mode : Mode

def isBlank (c : Char) : Bool := c == ' ' || c == '\t' || c == '\n' || c == '\r'

def isNumberChar (c : Char) : Bool :=
  c.isDigit || c == '-' || c == '+' || c == '.' || c == 'e' || c == 'E'

def hexDigit? (c : Char) : Option Nat :=
  if '0' ≤ c ∧ c ≤ '9' then some (c.toNat - 48)
  else if 'a' ≤ c ∧ c ≤ 'f' then some (c.toNat - 87)
  else if 'A' ≤ c ∧ c ≤ 'F' then some (c.toNat - 55)
  else none

namespace Quoted

def empty : Quoted := ⟨[], true, none, .outside⟩

/-- Adds a character; a surrogate still waiting stays without partner. -/
def push (q : Quoted) (c : Char) : Quoted :=
  { chars := c :: q.chars, sound := q.sound && q.high.isNone, high := none, escape := .outside }

def pushUnit (q : Quoted) (unit : Nat) : Quoted :=
  let isHigh := decide (0xD800 ≤ unit ∧ unit < 0xDC00)
  let isLow := decide (0xDC00 ≤ unit ∧ unit < 0xE000)
  match q.high with
  | some high =>
    if isLow then
      { q with
        chars := Char.ofNat (0x10000 + (high - 0xD800) * 0x400 + (unit - 0xDC00)) :: q.chars
        high := none
        escape := .outside }
    else { q with sound := false, high := none, escape := .outside }
  | none =>
    if isHigh then { q with high := some unit, escape := .outside }
    else if isLow then { q with sound := false, escape := .outside }
    else q.push (Char.ofNat unit)

def escaped? : Char → Option Char
  | '"' => some '"'
  | '\\' => some '\\'
  | '/' => some '/'
  | 'b' => some '\x08'
  | 'f' => some '\x0c'
  | 'n' => some '\n'
  | 'r' => some '\r'
  | 't' => some '\t'
  | _ => none

def feed (q : Quoted) (c : Char) : Option Quoted :=
  match q.escape with
  | .outside =>
    if c = '\\' then some { q with escape := .slash }
    else if c.toNat < 0x20 then none
    else some (q.push c)
  | .slash =>
    if c = 'u' then some { q with escape := .hex 0 0 }
    else (escaped? c).map q.push
  | .hex count value =>
    (hexDigit? c).map fun d =>
      if count = 3 then q.pushUnit (16 * value + d)
      else { q with escape := .hex (count + 1) (16 * value + d) }

def token (q : Quoted) : Token :=
  .string (if q.sound && q.high.isNone then some (String.ofList q.chars.reverse) else none)

end Quoted

def ofWord? (letters : List Char) : Option Token :=
  if letters = ['n', 'u', 'l', 'l'] then some .null
  else if letters = ['t', 'r', 'u', 'e'] then some (.bool true)
  else if letters = ['f', 'a', 'l', 's', 'e'] then some (.bool false)
  else none

def ofPunctuation? : Char → Option Token
  | '[' => some .openArray
  | ']' => some .closeArray
  | '\x7b' => some .openObject
  | '\x7d' => some .closeObject
  | ':' => some .colon
  | ',' => some .comma
  | _ => none

namespace Machine

def start : Machine := ⟨[], .between⟩

def feedBetween (emitted : List Token) (c : Char) : Option Machine :=
  if isBlank c then some ⟨emitted, .between⟩
  else if c = '"' then some ⟨emitted, .quoted .empty⟩
  else if c.isDigit || c == '-' then some ⟨emitted, .number [c]⟩
  else if c.isAlpha then some ⟨emitted, .word [c]⟩
  else (ofPunctuation? c).map fun token => ⟨token :: emitted, .between⟩

def feed (m : Machine) (c : Char) : Option Machine :=
  match m.mode with
  | .between => feedBetween m.emitted c
  | .word letters =>
    if c.isAlpha then some { m with mode := .word (c :: letters) }
    else (ofWord? letters.reverse).bind fun token => feedBetween (token :: m.emitted) c
  | .number chars =>
    if isNumberChar c then some { m with mode := .number (c :: chars) }
    else (Numeral.ofChars? chars.reverse).bind fun n =>
      feedBetween (.number n :: m.emitted) c
  | .quoted q =>
    if q.escape = .outside ∧ c = '"' then some ⟨q.token :: m.emitted, .between⟩
    else (q.feed c).map fun q => { m with mode := .quoted q }

def finish (m : Machine) : Option (List Token) :=
  match m.mode with
  | .between => some m.emitted.reverse
  | .word letters => (ofWord? letters.reverse).map fun token => (token :: m.emitted).reverse
  | .number chars =>
    (Numeral.ofChars? chars.reverse).map fun n => (.number n :: m.emitted).reverse
  | .quoted _ => none

def run : Machine → List Char → Option Machine
  | m, [] => some m
  | m, c :: rest => (m.feed c).bind fun next => next.run rest

end Machine

def scan (chars : List Char) : Option (List Token) :=
  (Machine.start.run chars).bind Machine.finish

end Token

end LayerGraph
