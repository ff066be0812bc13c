import LayerGraph.Text.Markless

/-!
# Quoted text

Text in double quotes for diagnostics. Quotes, backslashes and the usual control
characters have short escapes; every other character without a mark of its own is
written by its code.
-/

set_option autoImplicit false

namespace LayerGraph

def codeEscape (c : Char) : String :=
  "\\u\x7b" ++ String.ofList (Nat.toDigits 16 c.toNat) ++ "\x7d"

def quotedChar (c : Char) : String :=
  match c with
  | '"' => "\\\""
  | '\\' => "\\\\"
  | '\n' => "\\n"
  | '\r' => "\\r"
  | '\t' => "\\t"
  | _ =>
    if c.toNat = 0 then "\\0"
    else if isMarkless c then codeEscape c
    else c.toString

def quoted (text : String) : String :=
  "\"" ++ String.join (text.toList.map quotedChar) ++ "\""

def bracketed (texts : List String) : String := "[" ++ ", ".intercalate texts ++ "]"

end LayerGraph
