import Restyle.Script.Token.Quoted

/-! The token at the head of a text. -/

namespace Restyle.Script

open Text

/-! ### Words -/

/-- The characters of a word. -/
structure WordRun where
  name : List Char := []
  /-- The number of characters that spell it. -/
  length : Nat := 0
  isEscaped : Bool := false
  /-- A backslash in it begins no escape of a letter. -/
  isFaulty : Bool := false

/-- The longest word at the head of a text. Every step takes a character. -/
def WordRun.read : Nat → List Char → WordRun
  | 0, _ | _ + 1, [] => {}
  | steps + 1, c :: cs =>
    if continuesIdentifier c then
      let run := WordRun.read steps cs
      { run with name := c :: run.name, length := run.length + 1 }
    else if c = '\\' then
      match if cs.head? = some 'u' then Escape.read? false cs else none with
      | some ⟨[.char d], length⟩ =>
        if continuesIdentifier d then
          let run := WordRun.read steps (cs.drop length)
          { run with name := d :: run.name, length := run.length + 1 + length, isEscaped := true }
        else { length := 1, isFaulty := true }
      | _ => { length := 1, isFaulty := true }
    else {}

/-- A word. A keyword must be spelled without escapes, unless it begins with one and is a name. -/
def readWord (cs : List Char) : Lexeme :=
  let run := WordRun.read cs.length cs
  let word := String.ofList run.name
  if run.isFaulty || (run.isEscaped && isReserved word && cs.head? != some '\\') then
    ⟨.bad .invalidEscape, run.length, []⟩
  else ⟨.word word run.isEscaped, run.length, []⟩

/-! ### Marks -/

/-- Marks of several characters, longer ones before their beginnings. -/
def longMarks : List (List Char) := [
  ">>>=", "...", "===", "!==", "**=", "<<=", ">>=", ">>>", "&&=", "||=", "??=", "=>", "==", "!=", "<=",
  ">=", "&&", "||", "??", "++", "--", "+=", "-=", "*=", "/=", "%=", "&=", "|=", "^=", "<<", ">>",
  "**"].map String.toList

def shortMarks : List Char := "\x7b\x7d()[];,<>+-*/%&|^!~?:=.@`#".toList

/-- The mark at the head of a text. -/
def readMark? (cs : List Char) : Option String :=
  match longMarks.find? fun m => startsWith m cs with
  | some m => some (String.ofList m)
  | none => (cs.head?.filter shortMarks.contains).map (·.toString)

/-- The token at the head of a text that begins with no gap. -/
def Lexeme.read (cs : List Char) : Lexeme :=
  match cs with
  | [] => ⟨.finish, 0, []⟩
  | c :: rest =>
    if c = '"' || c = '\'' then readQuoted c cs
    else if c.isDigit || (c = '.' && rest.head?.any Char.isDigit) then readNumber cs
    else if startsIdentifier c || c = '\\' then readWord cs
    else match readMark? cs with
      | some m => ⟨.mark m, m.length, []⟩
      | none => ⟨.bad (.unexpectedChar c), 1, []⟩

end Restyle.Script
