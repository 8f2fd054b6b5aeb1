import Restyle.Script.Token.Gap
import Restyle.Script.Token.Numeral

/-! Quoted texts of a script, and the escapes in them. -/

namespace Restyle.Script

open Text

/-- What an escape stands for. -/
structure Escape where
  units : List TextUnit
  /-- The number of characters after the backslash. -/
  length : Nat

/-- The value of up to three octal digits that is below 256, and their number. -/
def readOctal : Nat → Nat → List Char → Nat × Nat
  | 0, value, _ | _, value, [] => (value, 0)
  | digits + 1, value, c :: cs =>
    if isDigitIn 8 c && value * 8 + digitValue c < 256 then
      let (value, length) := readOctal digits (value * 8 + digitValue c) cs
      (value, length + 1)
    else (value, 0)

/-- The escape at the head of a text that follows a backslash; `none` if there is none. Octal numbers
are escapes of quoted texts, not of templates. -/
def Escape.read? (octal : Bool) (cs : List Char) : Option Escape :=
  match cs with
  | [] => none
  | 'n' :: _ => some ⟨[.char '\n'], 1⟩
  | 't' :: _ => some ⟨[.char '\t'], 1⟩
  | 'r' :: _ => some ⟨[.char '\r'], 1⟩
  | 'b' :: _ => some ⟨[.char '\x08'], 1⟩
  | 'f' :: _ => some ⟨[.char '\x0c'], 1⟩
  | 'v' :: _ => some ⟨[.char '\x0b'], 1⟩
  | '\r' :: '\n' :: _ => some ⟨[], 2⟩
  | 'x' :: r => (takeHex? 2 r).map fun (n, _) => ⟨[.char (Char.ofNat n)], 3⟩
  | 'u' :: '{' :: r =>
    let digits := r.takeWhile (isDigitIn 16)
    match r.drop digits.length with
    | '}' :: _ =>
      let n := valueIn 16 digits
      if digits.isEmpty || 0x10ffff < n then none
      else some ⟨[TextUnit.ofCode n], digits.length + 3⟩
    | _ => none
  | 'u' :: r => (takeHex? 4 r).map fun (n, _) => ⟨[TextUnit.ofCode n], 5⟩
  | c :: r =>
    if isLineBreak c then some ⟨[], 1⟩
    else if !isDigitIn 8 c then some ⟨[.char c], 1⟩
    else if c = '0' && !r.head?.any (isDigitIn 8) then some ⟨[.char '\x00'], 1⟩
    else if octal then
      let (value, length) := readOctal 2 (digitValue c) r
      some ⟨[.char (Char.ofNat value)], length + 1⟩
    else none

/-- A text up to its closing quote. -/
structure QuotedRun where
  /-- The characters; `none` if an escape is none. -/
  units : Option (List TextUnit)
  /-- The number of characters, the closing quote included. -/
  length : Nat
  isClosed : Bool

/-- Adds units in front. -/
def QuotedRun.add (units : List TextUnit) (length : Nat) (run : QuotedRun) : QuotedRun :=
  { run with units := run.units.map (units ++ ·), length := length + run.length }

/-- The text up to the closing quote, or to the end of the line. Every step takes a character. -/
def QuotedRun.read (quote : Char) : Nat → List Char → QuotedRun
  | 0, _ | _ + 1, [] => ⟨some [], 0, false⟩
  | steps + 1, c :: cs =>
    if c = quote then ⟨some [], 1, true⟩
    else if c = '\n' || c = '\r' then ⟨some [], 0, false⟩
    else if c = '\\' then
      match Escape.read? true cs with
      | none => ⟨none, 1, false⟩
      | some e => (QuotedRun.read quote steps (cs.drop e.length)).add e.units (1 + e.length)
    else (QuotedRun.read quote steps cs).add [.char c] 1

/-- A text with its quotes. -/
def readQuoted (quote : Char) (cs : List Char) : Lexeme :=
  let run := QuotedRun.read quote cs.length cs.tail
  match run.units with
  | none => ⟨.bad .invalidEscape, 1 + run.length, []⟩
  | some units =>
    ⟨.text ((joinUnits units).map String.ofList), 1 + run.length,
      if run.isClosed then [] else [(0, .unterminated "string constant")]⟩

end Restyle.Script
