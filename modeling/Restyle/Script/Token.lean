import Restyle.Decimal.Binary64
import Restyle.Script.Fault

/-! Tokens of a script. A token is read where the grammar asks for one; the few characters whose
meaning depends on the grammar (a slash, a closing angle bracket, the text of a template) are read
again by it. -/

namespace Restyle.Script

inductive Token where
  | finish
  /-- A name or keyword, and whether it is written with escapes. -/
  | word (text : String) (escaped : Bool)
  /-- A number; `none` is one out of range. -/
  | number (value : Option Decimal.Binary64)
  | bigint
  /-- A text; `none` is one that no text can hold. -/
  | text (value : Option String)
  /-- An operator, a bracket or another mark. -/
  | mark (text : String)
  | bad (fault : FaultKind)
  deriving Repr, DecidableEq

/-- What is read for a token. -/
structure Lexeme where
  token : Token
  /-- The number of characters. -/
  length : Nat
  /-- Faults that leave the token as it is, and how many characters stand before them. -/
  faults : List (Nat × FaultKind) := []

/-- Words that are never names. -/
def isReserved (word : String) : Bool := reserved.contains word
where
  reserved : List String := [
    "break", "case", "catch", "class", "const", "continue", "debugger", "default", "delete", "do",
    "else", "enum", "export", "extends", "false", "finally", "for", "function", "if", "import", "in",
    "instanceof", "new", "null", "return", "super", "switch", "this", "throw", "true", "try",
    "typeof", "var", "void", "while", "with"]

namespace Token

/-- How a token is called in a message. -/
def describe : Token → String
  | finish => "<eof>"
  | word w _ => if isReserved w then w else "ident"
  | number _ => "numeric literal"
  | bigint => "bigint literal"
  | text _ => "string literal"
  | mark m => m
  | bad _ => "<invalid>"

def isWord : Token → Bool
  | word .. => true
  | _ => false

def isText : Token → Bool
  | text _ => true
  | _ => false

def isBad : Token → Bool
  | bad _ => true
  | _ => false

/-- The token is the word, written without escapes. -/
def isTheWord (w : String) : Token → Bool
  | word v escaped => v == w && !escaped
  | _ => false

end Token

end Restyle.Script
