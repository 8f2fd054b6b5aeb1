import Restyle.Decimal.Binary64

/-! JSON values. A number keeps its text, since whether it is in range is decided where it is read;
an object keeps its members in order, repeated names included. -/

namespace Restyle

/-- The text of a number: digits before the point, after it, and of the exponent. -/
structure JsonNumber where
  negative : Bool
  whole : List Nat
  fraction : List Nat
  /-- Whether the exponent is negative, and its digits. -/
  exponent : Option (Bool × List Nat)
  deriving Repr, DecidableEq

inductive Json where
  | null
  | bool (value : Bool)
  | number (value : JsonNumber)
  /-- `none` stands for a text with half of a surrogate pair, which no text can hold. -/
  | string (value : Option String)
  | array (items : List Json)
  /-- A name is `none` for the same reason. -/
  | object (members : List (Option String × Json))
  deriving Repr, Inhabited

/-- The members of an object, if all their names are texts. -/
def Json.named? (members : List (Option String × Json)) : Option (List (String × Json)) :=
  members.mapM fun (name, value) => name.map (·, value)

namespace JsonNumber

/-- Digits are taken while the number they spell fits 64 bits; `none` once one does not. -/
def takeDigits (acc : Nat) : List Nat → Nat × List Nat
  | [] => (acc, [])
  | d :: ds => if acc * 10 + d < 0x10000000000000000 then takeDigits (acc * 10 + d) ds else (acc, d :: ds)

def digitsToNat (ds : List Nat) : Nat := ds.foldl (fun n d => n * 10 + d) 0

/-- The sign and size of the number as binary64; `none` out of range. Digits that no longer fit only
scale: those of the whole part raise the exponent, those of the fraction are dropped. -/
def toBinary64? (n : JsonNumber) : Option (Bool × Decimal.Binary64) := do
  let (whole, moreWhole) := takeDigits 0 n.whole
  let (digits, moreFraction) := takeDigits whole n.fraction
  let start := Int.ofNat moreWhole.length - Int.ofNat (n.fraction.length - moreFraction.length)
  let size ← match n.exponent with
    | none => Decimal.Binary64.ofDecimalInSteps? digits start
    | some (negative, ds) =>
      let e := digitsToNat ds
      if e < 0x80000000 then
        Decimal.Binary64.ofDecimalInSteps? digits (if negative then start - e else start + e)
      else if digits = 0 || negative then some Decimal.Binary64.zero
      else none
  some (n.negative, size)

end JsonNumber

end Restyle
