import Restyle.Text.Units
import Restyle.Text.Identifier
import Restyle.Script.Token

/-! Numbers of a script. A decimal number is the binary64 number nearest to what is written. The other
bases take the digits one by one, and each step rounds. -/

namespace Restyle.Script

open Text

def digitValue (c : Char) : Nat := (hexValue? c).getD 0

/-- A digit of a base up to sixteen. -/
def isDigitIn (base : Nat) (c : Char) : Bool := (hexValue? c).any (· < base)

/-- The natural number that is written with the digits. -/
def valueIn (base : Nat) (digits : List Char) : Nat :=
  digits.foldl (fun n c => n * base + digitValue c) 0

/-- The number that is written with the digits, rounded after each of them. -/
def steppedValueIn (base : Nat) (digits : List Char) : Option Decimal.Binary64 :=
  digits.foldlM (fun x c => Decimal.Binary64.ofNat? (x.floor * base + digitValue c))
    Decimal.Binary64.zero

/-- Digits with underscores between them. -/
structure DigitRun where
  digits : List Char := []
  /-- The number of characters. -/
  length : Nat := 0
  /-- An underscore stands where no digit follows. -/
  isFaulty : Bool := false

/-- The longest run at the head of a text. -/
def DigitRun.read (base : Nat) : List Char → DigitRun
  | [] => {}
  | c :: cs =>
    if c = '_' then
      let run := DigitRun.read base cs
      let isFaulty := run.isFaulty || !cs.head?.any (isDigitIn base)
      { run with length := run.length + 1, isFaulty }
    else if isDigitIn base c then
      let run := DigitRun.read base cs
      { run with digits := c :: run.digits, length := run.length + 1 }
    else {}

/-- The fault in a run that begins after some characters of the number. -/
def DigitRun.faults (run : DigitRun) (start : Nat) : List (Nat × FaultKind) :=
  if run.isFaulty then [(start, .strayNumericSeparator)] else []

/-- A number must not run into a name. -/
def Lexeme.endNumber (l : Lexeme) (cs : List Char) : Lexeme :=
  if (cs.drop l.length).head?.any startsIdentifier then { l with token := .bad .nameAfterNumber }
  else l

/-- A number in base 2, 8 or 16 with its prefix of two characters. -/
def readInBase (base : Nat) (cs : List Char) : Lexeme :=
  let run := DigitRun.read base (cs.drop 2)
  let length := 2 + run.length
  let faults := run.faults 2
  if run.digits.isEmpty then ⟨.bad (.missing "digit" "ident"), length, faults⟩
  else if (cs.drop length).head? = some 'n' then ⟨.bigint, length + 1, faults⟩
  else Lexeme.endNumber ⟨.number (steppedValueIn base run.digits), length, faults⟩ cs

/-- A fraction after its point, if there is one. -/
def readFraction (start : Nat) (cs : List Char) : DigitRun × Nat × List (Nat × FaultKind) :=
  if cs.head? = some '.' then
    let run := DigitRun.read 10 cs.tail
    (run, start + 1 + run.length, run.faults (start + 1))
  else ({}, start, [])

/-- The exponent of a decimal number and the sign in front of it: the value, which is missing if there
are no digits, with the number of characters before its digits and after them. -/
def readExponent (start : Nat) (cs : List Char) :
    Option Int × Nat × List (Nat × FaultKind) :=
  match cs with
  | 'e' :: rest | 'E' :: rest =>
    let (negative, skip) := match rest with
      | '-' :: _ => (true, 1)
      | '+' :: _ => (false, 1)
      | _ => (false, 0)
    let run := DigitRun.read 10 (rest.drop skip)
    let start := start + 1 + skip
    -- An exponent this large leaves the range whatever the digits are.
    let value : Int := min (valueIn 10 run.digits) 100000
    (if run.digits.isEmpty then none else some (if negative then -value else value),
      start + run.length, run.faults start)
  | _ => (some 0, start, [])

/-- A decimal number whose whole part has been read. -/
def readDecimal (whole : DigitRun) (cs : List Char) : Lexeme :=
  let (fraction, length, faults₁) := readFraction whole.length (cs.drop whole.length)
  let (exponent, length, faults₂) := readExponent length (cs.drop length)
  let faults := whole.faults 0 ++ faults₁ ++ faults₂
  match exponent with
  | none => ⟨.bad (.missing "digit" "ident"), length, faults⟩
  | some e =>
    let value := Decimal.Binary64.ofDecimal? (valueIn 10 (whole.digits ++ fraction.digits))
      (e - fraction.digits.length)
    Lexeme.endNumber ⟨.number value, length, faults⟩ cs

/-- Digits after a zero are octal, unless one of them is no octal digit. -/
def DigitRun.isOctal (run : DigitRun) : Bool :=
  run.digits.head? = some '0' && 1 < run.length && run.digits.all (isDigitIn 8)

/-- A number, from its first digit or point on. -/
def readNumber (cs : List Char) : Lexeme :=
  match cs with
  | '0' :: 'x' :: _ | '0' :: 'X' :: _ => readInBase 16 cs
  | '0' :: 'o' :: _ | '0' :: 'O' :: _ => readInBase 8 cs
  | '0' :: 'b' :: _ | '0' :: 'B' :: _ => readInBase 2 cs
  | '.' :: _ => readDecimal {} cs
  | _ =>
    let whole := DigitRun.read 10 cs
    let length := whole.length
    if (cs.drop length).head? = some 'n' then ⟨.bigint, length + 1, whole.faults 0⟩
    else if whole.isOctal then
      let l := Lexeme.endNumber
        ⟨.number (steppedValueIn 8 whole.digits), length, whole.faults 0⟩ cs
      match l.token with
      | .bad _ => l
      | _ => { l with faults := l.faults ++ [(0, .legacyOctal)] }
    else readDecimal whole cs

end Restyle.Script
