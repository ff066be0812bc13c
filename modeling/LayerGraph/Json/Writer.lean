import LayerGraph.Json.Basic

/-!
# Writing JSON

A value is written as lexemes: tokens, and in the indented layout the blanks between
them. Strings escape the quote, the backslash and control characters only.
-/

set_option autoImplicit false

namespace LayerGraph

inductive Lexeme where
  | token (t : Token)
  | blank (chars : List Char)

namespace Token

def hexChar (d : Nat) : Char := Char.ofNat (if d < 10 then 48 + d else 87 + d)

def escapeChar (c : Char) : List Char :=
  match c with
  | '"' => ['\\', '"']
  | '\\' => ['\\', '\\']
  | '\x08' => ['\\', 'b']
  | '\x0c' => ['\\', 'f']
  | '\n' => ['\\', 'n']
  | '\r' => ['\\', 'r']
  | '\t' => ['\\', 't']
  | _ =>
    if c.toNat < 0x20 then
      ['\\', 'u', '0', '0', hexChar (c.toNat / 16), hexChar (c.toNat % 16)]
    else [c]

/-- Characters of a token. A string that could not be read back is written as one
unpaired surrogate, so that it stays unreadable. -/
def chars : Token → List Char
  | .openArray => ['[']
  | .closeArray => [']']
  | .openObject => ['\x7b']
  | .closeObject => ['\x7d']
  | .colon => [':']
  | .comma => [',']
  | .null => ['n', 'u', 'l', 'l']
  | .bool true => ['t', 'r', 'u', 'e']
  | .bool false => ['f', 'a', 'l', 's', 'e']
  | .number n => n.chars
  | .string (some s) => '"' :: (s.toList.flatMap escapeChar ++ ['"'])
  | .string none => ['"', '\\', 'u', 'd', '8', '0', '0', '"']

end Token

namespace Lexeme

def chars : Lexeme → List Char
  | .token t => t.chars
  | .blank cs => cs

def text (lexemes : List Lexeme) : String :=
  String.ofList (lexemes.flatMap chars)

def newline (level : Nat) : Lexeme := .blank ('\n' :: List.replicate (2 * level) ' ')

end Lexeme

namespace Json

mutual

def tokens : Json → List Token
  | .null => [.null]
  | .bool b => [.bool b]
  | .number n => [.number n]
  | .string s => [.string s]
  | .array [] => [.openArray, .closeArray]
  | .array (item :: rest) => .openArray :: (tokens item ++ itemTokens rest)
  | .object [] => [.openObject, .closeObject]
  | .object ((key, value) :: rest) =>
    .openObject :: .string key :: .colon :: (tokens value ++ fieldTokens rest)

def itemTokens : List Json → List Token
  | [] => [.closeArray]
  | item :: rest => .comma :: (tokens item ++ itemTokens rest)

def fieldTokens : List (Option String × Json) → List Token
  | [] => [.closeObject]
  | (key, value) :: rest =>
    .comma :: .string key :: .colon :: (tokens value ++ fieldTokens rest)

end

mutual

def indented (level : Nat) : Json → List Lexeme
  | .null => [.token .null]
  | .bool b => [.token (.bool b)]
  | .number n => [.token (.number n)]
  | .string s => [.token (.string s)]
  | .array [] => [.token .openArray, .token .closeArray]
  | .array (item :: rest) =>
    .token .openArray :: Lexeme.newline (level + 1) ::
      (indented (level + 1) item ++ indentedItems level rest)
  | .object [] => [.token .openObject, .token .closeObject]
  | .object ((key, value) :: rest) =>
    .token .openObject :: Lexeme.newline (level + 1) :: .token (.string key) ::
      .token .colon :: .blank [' '] ::
      (indented (level + 1) value ++ indentedFields level rest)

def indentedItems (level : Nat) : List Json → List Lexeme
  | [] => [Lexeme.newline level, .token .closeArray]
  | item :: rest =>
    .token .comma :: Lexeme.newline (level + 1) ::
      (indented (level + 1) item ++ indentedItems level rest)

def indentedFields (level : Nat) : List (Option String × Json) → List Lexeme
  | [] => [Lexeme.newline level, .token .closeObject]
  | (key, value) :: rest =>
    .token .comma :: Lexeme.newline (level + 1) :: .token (.string key) ::
      .token .colon :: .blank [' '] ::
      (indented (level + 1) value ++ indentedFields level rest)

end

def compact (j : Json) : String := Lexeme.text (j.tokens.map .token)

def pretty (j : Json) : String := Lexeme.text (j.indented 0)

end Json

end LayerGraph
