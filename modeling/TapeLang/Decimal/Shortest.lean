import TapeLang.Decimal.Binary

/-! The shortest decimal that reads back as a given number of double precision.

The decimals that read back are those between the midpoints to the neighbours, the midpoints
included if the significand is even. On the grid of decimals of one, two, and so on up to seventeen
digits the two decimals around the number are tried; the first grid with a hit wins, and of two hits
the nearer one, or the even one if both are equally near. All arithmetic is exact. -/
namespace TapeLang

/-- A decimal: `digits` times ten to the power of `exponent`. -/
structure Decimal where
  digits : Nat
  exponent : Int
  deriving DecidableEq

namespace Decimal

/-- Ten to a power, or one where the power is negative. -/
def tens (power : Int) : Nat := Nat.pow 10 power.toNat

/-- A number with the ends of the interval that reads back as it, over one denominator. -/
structure Interval where
  low : Nat
  value : Nat
  high : Nat
  denominator : Nat
  /-- Whether the ends belong to the interval. -/
  closed : Bool

/-- The interval of a positive number. Below a power of two the neighbour is half as far away. -/
def interval (significand : Nat) (exponent : Int) : Interval :=
  let below := if significand = Binary.hiddenBit ∧ exponent ≠ Binary.leastExponent then 1 else 2
  let scale := Nat.pow 2 (exponent - 2).toNat
  { low := (4 * significand - below) * scale
    value := 4 * significand * scale
    high := (4 * significand + 2) * scale
    denominator := Nat.pow 2 (2 - exponent).toNat
    closed := significand % 2 == 0 }

/-- Whether a multiple of a power of ten lies in the interval. -/
def Interval.holds (i : Interval) (digits : Nat) (power : Int) : Bool :=
  let n := digits * tens power * i.denominator
  let scale := tens (-power)
  if i.closed then i.low * scale ≤ n && n ≤ i.high * scale
  else i.low * scale < n && n < i.high * scale

/-- The decimal of the given power nearest to the value among the two around it that lie in the
interval. -/
def Interval.hit? (i : Interval) (power : Int) : Option Nat :=
  let value := i.value * tens (-power)
  let unit := i.denominator * tens power
  let below := value / unit
  match i.holds below power, i.holds (below + 1) power with
  | false, false => none
  | true, false => some below
  | false, true => some (below + 1)
  | true, true =>
    let twice := 2 * (value - below * unit)
    if twice < unit ∨ (twice = unit ∧ below % 2 = 0) then some below else some (below + 1)

/-- The greatest power of ten that is not above the value, searched downwards. -/
def Interval.magnitude (i : Interval) : Nat → Int → Int
  | 0, power => power
  | fuel + 1, power =>
    if tens power * i.denominator ≤ i.value * tens (-power) then power
    else i.magnitude fuel (power - 1)

/-- The first hit on the grids of more and more digits. -/
def Interval.firstHit (i : Interval) : Nat → Int → Decimal
  | 0, power => ⟨i.value * tens (-power) / (i.denominator * tens power), power⟩
  | fuel + 1, power =>
    match i.hit? power with
    | some digits => ⟨digits, power⟩
    | none => i.firstHit fuel (power - 1)

/-- The powers of ten around the greatest and the least number. -/
def greatestPower : Nat := 309

/-- The shortest decimal that reads back as a positive number. -/
def shortest (significand : Nat) (exponent : Int) : Decimal :=
  let i := interval significand exponent
  i.firstHit 17 (i.magnitude (2 * greatestPower + 20) greatestPower)

end Decimal

end TapeLang
