import Restyle.Decimal.Binary64

/-! The shortest decimal that reads back as a given binary64 number, in positional notation. The
reals that round to the number form an interval; the coarsest decimal grid that has a point in it
fixes the number of digits, and of two such points the nearer one is taken, the upper one on a
tie. -/

namespace Restyle.Decimal

/-- The number `digits * 10 ^ exponent`. -/
structure ScaledDigits where
  digits : Nat
  exponent : Int
  deriving Repr, DecidableEq

namespace Binary64

/-- The reals that round to a number: all three are multiples of `1 / scale`, the ends belong to the
interval exactly for even mantissas. -/
structure Interval where
  low : Nat
  value : Nat
  high : Nat
  scale : Nat
  closed : Bool

/-- Below the first number of a binade the neighbours are half as far. -/
def interval (x : Binary64) : Interval :=
  let below := if x.mantissa = Binary64.leastFull && -1074 < x.exponent then 1 else 2
  let up := twoTo x.exponent.toNat
  ⟨(4 * x.mantissa - below) * up, 4 * x.mantissa * up, (4 * x.mantissa + 2) * up,
    4 * twoTo (-x.exponent).toNat, x.mantissa % 2 == 0⟩

/-- Whether `digits * 10 ^ exponent` lies in the interval. -/
def Interval.holds (i : Interval) (d : ScaledDigits) : Bool :=
  let point := d.digits * tenTo d.exponent.toNat * i.scale
  let unit := tenTo (-d.exponent).toNat
  if i.closed then i.low * unit ≤ point && point ≤ i.high * unit
  else i.low * unit < point && point < i.high * unit

/-- The point of the grid of multiples of `10 ^ exponent` that lies in the interval. -/
def Interval.onGrid? (i : Interval) (exponent : Int) : Option ScaledDigits :=
  let num := i.value * tenTo (-exponent).toNat
  let den := i.scale * tenTo exponent.toNat
  let lower : ScaledDigits := ⟨num / den, exponent⟩
  let upper : ScaledDigits := ⟨num / den + 1, exponent⟩
  match i.holds lower && 0 < lower.digits, i.holds upper with
  | true, true => some (if 2 * (num % den) < den then lower else upper)
  | true, false => some lower
  | false, true => some upper
  | false, false => none

/-- Tries ever finer grids. -/
def Interval.search (i : Interval) (exponent : Int) : Nat → ScaledDigits
  | 0 => ⟨0, 0⟩
  | n + 1 => match i.onGrid? exponent with
    | some d => d
    | none => i.search (exponent - 1) n

/-- A number in some binade is below the power of ten that this exponent gives. -/
def topExponent (x : Binary64) : Int := (x.exponent + Int.ofNat x.mantissa.log2 + 1) * 30103 / 100000 + 1

def shortest (x : Binary64) : ScaledDigits :=
  if x.isZero then ⟨0, 0⟩ else x.interval.search x.topExponent 24

end Binary64

/-- Positional notation, without an exponent and without a fraction of zeros. -/
def ScaledDigits.render (d : ScaledDigits) : String :=
  let digits := (Nat.toDigits 10 d.digits)
  if 0 ≤ d.exponent then String.ofList (digits ++ List.replicate d.exponent.toNat '0')
  else
    let places := (-d.exponent).toNat
    let padded := List.replicate (places + 1 - digits.length) '0' ++ digits
    let whole := padded.take (padded.length - places)
    let fraction := ((padded.drop (padded.length - places)).reverse.dropWhile (· == '0')).reverse
    if fraction.isEmpty then String.ofList whole
    else String.ofList (whole ++ '.' :: fraction)

end Restyle.Decimal
