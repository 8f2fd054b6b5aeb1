/-! Texts given by numbers: hexadecimal digits, and UTF-16 units of which two may make one character. -/

namespace Restyle.Text

def hexValue? (c : Char) : Option Nat :=
  if c.isDigit then some (c.toNat - 48)
  else if 'a' ≤ c && c ≤ 'f' then some (c.toNat - 87)
  else if 'A' ≤ c && c ≤ 'F' then some (c.toNat - 55)
  else none

/-- The value of exactly `n` hexadecimal digits at the head of a text, and what follows them. -/
def takeHex? : Nat → List Char → Option (Nat × List Char)
  | 0, cs => some (0, cs)
  | _ + 1, [] => none
  | n + 1, c :: cs => do
    let digit ← hexValue? c
    let (value, rest) ← takeHex? n cs
    some (digit * Nat.pow 16 n + value, rest)

/-- A unit of a text: a character, or half of a surrogate pair. -/
inductive TextUnit where
  | char (c : Char)
  | high (n : Nat)
  | low (n : Nat)
  deriving Repr, DecidableEq

def TextUnit.ofCode (n : Nat) : TextUnit :=
  if 0xd800 ≤ n && n < 0xdc00 then .high n
  else if 0xdc00 ≤ n && n < 0xe000 then .low n
  else .char (Char.ofNat n)

/-- Pairs of halves joined; `none` when a half stands alone. -/
def joinUnits : List TextUnit → Option (List Char)
  | [] => some []
  | .char c :: us => (joinUnits us).map (c :: ·)
  | .high h :: .low l :: us =>
    (joinUnits us).map (Char.ofNat (0x10000 + (h - 0xd800) * 0x400 + (l - 0xdc00)) :: ·)
  | _ :: _ => none

end Restyle.Text
