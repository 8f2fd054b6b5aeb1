import Restyle.Json.Value
import Restyle.Text.Search

/-! Writing JSON. Texts are quoted with the two-character escapes where there is one and a
four-digit escape for the other control characters; everything else stands for itself. -/

namespace Restyle.Json

def hexDigit (n : Nat) : Char := if n < 10 then Char.ofNat (48 + n) else Char.ofNat (87 + n)

def escape (c : Char) : List Char :=
  match c with
  | '"' => ['\\', '"']
  | '\\' => ['\\', '\\']
  | '\x08' => ['\\', 'b']
  | '\t' => ['\\', 't']
  | '\n' => ['\\', 'n']
  | '\x0c' => ['\\', 'f']
  | '\r' => ['\\', 'r']
  | c =>
    if c.toNat < 0x20 then ['\\', 'u', '0', '0', hexDigit (c.toNat / 16), hexDigit (c.toNat % 16)]
    else [c]

/-- The text in quotes. -/
def quote (s : String) : String := String.ofList ('"' :: s.toList.flatMap escape ++ ['"'])

/-- The members of an object without spaces. -/
def compactObject (members : List (String × String)) : String :=
  "\x7b" ++ String.intercalate "," (members.map fun (k, v) => quote k ++ ":" ++ v) ++ "\x7d"

def compactArray (items : List String) : String :=
  "[" ++ String.intercalate "," items ++ "]"

/-- Indented items between brackets, one a line; empty brackets stay together. -/
def indented (opening closing : String) (indent : Nat) (items : List String) : String :=
  if items.isEmpty then opening ++ closing
  else
    let margin := String.ofList (List.replicate (indent + 2) ' ')
    opening ++ "\n" ++ String.intercalate ",\n" (items.map (margin ++ ·)) ++ "\n"
      ++ String.ofList (List.replicate indent ' ') ++ closing

end Restyle.Json
