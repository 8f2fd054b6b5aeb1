/-! Non-negative numbers of the binary64 format, as a mantissa and an exponent of two. Every
operation is the exact one on natural numbers followed by one rounding to the nearest
representable number, halves to the even mantissa. -/

namespace Restyle.Decimal

/-- The power of two. -/
def twoTo (n : Nat) : Nat := Nat.pow 2 n

/-- The power of ten. -/
def tenTo (n : Nat) : Nat := Nat.pow 10 n

/-- The number `mantissa * 2 ^ exponent`. A rounded one has a mantissa below `2 ^ 53` and an exponent
from `-1074` to `971`. -/
structure Binary64 where
  mantissa : Nat
  exponent : Int
  deriving Repr, DecidableEq, Inhabited

namespace Binary64

def zero : Binary64 := ⟨0, 0⟩

/-- The least mantissa of a number with all its digits, `2 ^ 52`. -/
def leastFull : Nat := 0x10000000000000

def isZero (x : Binary64) : Bool := x.mantissa == 0

/-- The quotient to the nearest natural number, halves to the even one. -/
def divideToEven (num den : Nat) : Nat :=
  let q := num / den
  let r := num % den
  if 2 * r < den then q else if den < 2 * r then q + 1 else q + q % 2

/-- `num / den`, multiplied by two to the power `-exponent`. -/
def scaled (num den : Nat) (exponent : Int) : Nat × Nat :=
  (num * twoTo (-exponent).toNat, den * twoTo exponent.toNat)

/-- The binary64 number nearest to `num / den`; `none` when that is out of range. -/
def ofQuotient? (num den : Nat) : Option Binary64 :=
  if num = 0 then some zero
  else
    let guess : Int := Int.ofNat num.log2 - Int.ofNat den.log2 - 52
    let fine : Int := guess - 1
    let (n, d) := scaled num den guess
    let exponent := max (if n / d < leastFull then fine else guess) (-1074)
    let (n, d) := scaled num den exponent
    let m := divideToEven n d
    let (m, exponent) := if m = 2 * leastFull then (leastFull, exponent + 1) else (m, exponent)
    if 971 < exponent then none else some ⟨m, exponent⟩

def ofNat? (n : Nat) : Option Binary64 := ofQuotient? n 1

/-- The number as an exact quotient. -/
def quotient (x : Binary64) : Nat × Nat :=
  (x.mantissa * twoTo x.exponent.toNat, twoTo (-x.exponent).toNat)

def mul? (x y : Binary64) : Option Binary64 :=
  let (a, b) := x.quotient
  let (c, d) := y.quotient
  ofQuotient? (a * c) (b * d)

def div? (x y : Binary64) : Option Binary64 :=
  let (a, b) := x.quotient
  let (c, d) := y.quotient
  if c = 0 then none else ofQuotient? (a * d) (b * c)

/-- The integer part. -/
def floor (x : Binary64) : Nat := x.quotient.1 / x.quotient.2

/-- The number nearest to `digits * 10 ^ exponent`. -/
def ofDecimal? (digits : Nat) (exponent : Int) : Option Binary64 :=
  ofQuotient? (digits * tenTo exponent.toNat) (tenTo (-exponent).toNat)

/-- Like `ofDecimal?` in steps that each round: the digits, a power of ten up to the 308th, and
their product or quotient. Long digits or large powers may come out one unit off the nearest number.
Exponents below `-308` divide by the 308th power first. -/
def ofDecimalInSteps? (digits : Nat) (exponent : Int) : Option Binary64 := do
  let start ← ofNat? digits
  if 0 ≤ exponent then
    if start.isZero then some zero
    else if 308 < exponent then none
    else start.mul? (← ofNat? (tenTo exponent.toNat))
  else shrink start (-exponent).toNat
where
  /-- Division by `10 ^ power`. -/
  shrink (x : Binary64) (power : Nat) : Option Binary64 :=
    if x.isZero then some zero
    else if power ≤ 308 then do x.div? (← ofNat? (tenTo power))
    else do
      let y ← x.div? (← ofNat? (tenTo 308))
      shrink y (power - 308)
  termination_by power

end Binary64

end Restyle.Decimal
