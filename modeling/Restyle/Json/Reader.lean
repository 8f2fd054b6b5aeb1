import Restyle.Json.Value
import Restyle.Text.Units

/-! Reading JSON. The reader takes exactly the texts of the format: no comments, no trailing commas,
no leading zeros, no control characters in texts. -/

namespace Restyle.Json

open Text (TextUnit joinUnits takeHex?)

/-- The blanks between the words of the format. -/
def isGap (c : Char) : Bool := c == ' ' || c == '\n' || c == '\t' || c == '\r'

def skipGap (cs : List Char) : List Char := cs.dropWhile isGap

def digitValue (c : Char) : Nat := c.toNat - 48

/-- The digits at the head of a text. -/
def takeDigits (cs : List Char) : List Nat × List Char :=
  ((cs.takeWhile Char.isDigit).map digitValue, cs.dropWhile Char.isDigit)

/-- The character that a short escape stands for. -/
def escaped? : Char → Option Char
  | '"' => some '"'
  | '\\' => some '\\'
  | '/' => some '/'
  | 'b' => some '\x08'
  | 'f' => some '\x0c'
  | 'n' => some '\n'
  | 'r' => some '\r'
  | 't' => some '\t'
  | _ => none

/-- The units of a quoted text up to its closing quote, and what follows the quote. -/
def readUnits : Nat → List Char → Option (List TextUnit × List Char)
  | 0, _ => none
  | _ + 1, [] => none
  | _ + 1, '"' :: rest => some ([], rest)
  | fuel + 1, '\\' :: 'u' :: rest => do
    let (n, rest) ← takeHex? 4 rest
    let (units, rest) ← readUnits fuel rest
    some (TextUnit.ofCode n :: units, rest)
  | fuel + 1, '\\' :: e :: rest => do
    let c ← escaped? e
    let (units, rest) ← readUnits fuel rest
    some (.char c :: units, rest)
  | fuel + 1, c :: rest =>
    if c.toNat < 0x20 || c == '\\' then none
    else do
      let (units, rest) ← readUnits fuel rest
      some (.char c :: units, rest)

/-- A quoted text after its opening quote. -/
def readText (cs : List Char) : Option (Option String × List Char) := do
  let (units, rest) ← readUnits (cs.length + 1) cs
  some ((joinUnits units).map String.ofList, rest)

/-- At least one digit at the head of a text. -/
def readDigits (cs : List Char) : Option (List Nat × List Char) :=
  let (digits, rest) := takeDigits cs
  if digits.isEmpty then none else some (digits, rest)

/-- The digits before the point. A zero among them in front stands alone. -/
def readWhole (cs : List Char) : Option (List Nat × List Char) := do
  let (digits, rest) ← readDigits cs
  if digits.head? == some 0 && 1 < digits.length then none else some (digits, rest)

/-- The digits behind a point, if there is one. -/
def readFraction : List Char → Option (List Nat × List Char)
  | '.' :: cs => readDigits cs
  | cs => some ([], cs)

/-- Whether the sign of an exponent is a minus, and what follows it. -/
def takeSign : List Char → Bool × List Char
  | '-' :: cs => (true, cs)
  | '+' :: cs => (false, cs)
  | cs => (false, cs)

/-- The sign and the digits of an exponent behind its mark. -/
def readPower (cs : List Char) : Option (Option (Bool × List Nat) × List Char) := do
  let (negative, cs) := takeSign cs
  let (digits, rest) ← readDigits cs
  some (some (negative, digits), rest)

def readExponent : List Char → Option (Option (Bool × List Nat) × List Char)
  | 'e' :: cs | 'E' :: cs => readPower cs
  | cs => some (none, cs)

/-- A number without its sign. -/
def readUnsigned (negative : Bool) (cs : List Char) : Option (JsonNumber × List Char) := do
  let (whole, cs) ← readWhole cs
  let (fraction, cs) ← readFraction cs
  let (exponent, cs) ← readExponent cs
  some (⟨negative, whole, fraction, exponent⟩, cs)

def readNumber : List Char → Option (JsonNumber × List Char)
  | '-' :: cs => readUnsigned true cs
  | cs => readUnsigned false cs

mutual

/-- One value at the head of a text. Every step down or along takes a character, so the length of
the text bounds the steps. -/
def readValue : Nat → List Char → Option (Json × List Char)
  | 0, _ => none
  | fuel + 1, cs =>
    match cs with
    | 'n' :: 'u' :: 'l' :: 'l' :: rest => some (.null, rest)
    | 't' :: 'r' :: 'u' :: 'e' :: rest => some (.bool true, rest)
    | 'f' :: 'a' :: 'l' :: 's' :: 'e' :: rest => some (.bool false, rest)
    | '"' :: rest => (readText rest).map fun (s, rest) => (.string s, rest)
    | '[' :: rest =>
      match skipGap rest with
      | ']' :: rest => some (.array [], rest)
      | rest => (readItems fuel rest).map fun (items, rest) => (.array items, rest)
    | '{' :: rest =>
      match skipGap rest with
      | '}' :: rest => some (.object [], rest)
      | rest => (readMembers fuel rest).map fun (members, rest) => (.object members, rest)
    | cs => (readNumber cs).map fun (n, rest) => (.number n, rest)

/-- The items of an array from the first one on, with the closing bracket. -/
def readItems : Nat → List Char → Option (List Json × List Char)
  | 0, _ => none
  | fuel + 1, cs => do
    let (item, rest) ← readValue fuel (skipGap cs)
    match skipGap rest with
    | ',' :: rest =>
      let (items, rest) ← readItems fuel rest
      some (item :: items, rest)
    | ']' :: rest => some ([item], rest)
    | _ => none

/-- The members of an object from the first one on, with the closing brace. -/
def readMembers : Nat → List Char → Option (List (Option String × Json) × List Char)
  | 0, _ => none
  | fuel + 1, cs => do
    match skipGap cs with
    | '"' :: rest =>
      let (name, rest) ← readText rest
      match skipGap rest with
      | ':' :: rest =>
        let (value, rest) ← readValue fuel (skipGap rest)
        match skipGap rest with
        | ',' :: rest =>
          let (members, rest) ← readMembers fuel rest
          some ((name, value) :: members, rest)
        | '}' :: rest => some ([(name, value)], rest)
        | _ => none
      | _ => none
    | _ => none

end

/-- The value that a whole text spells. -/
def ofText? (text : String) : Option Json := do
  let (value, rest) ← readValue (text.length + 1) (skipGap text.toList)
  if (skipGap rest).isEmpty then some value else none

end Restyle.Json
