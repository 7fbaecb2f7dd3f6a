/-! Binary fractions of double precision.

A number is a sign, a significand below 2^53 and a power of two, as the sixty-four bits of the
interchange format give them. -/
namespace TapeLang

/-- A number of double precision. -/
inductive Binary where
  | finite (negative : Bool) (significand : Nat) (exponent : Int)
  | infinite (negative : Bool)
  | undefined
  deriving DecidableEq

namespace Binary

/-- The power of two of the smallest numbers. -/
def leastExponent : Int := -1074

/-- The first bit of a significand, which the interchange format leaves out. -/
def hiddenBit : Nat := Nat.pow 2 52

/-- The number whose interchange format is given. -/
def ofBits (bits : UInt64) : Binary :=
  let n := bits.toNat
  let negative := n / (2048 * hiddenBit) == 1
  let biased : Nat := n / hiddenBit % 2048
  let fraction := n % hiddenBit
  if biased = 0x7ff then if fraction = 0 then infinite negative else undefined
  else if biased = 0 then finite negative fraction leastExponent
  else finite negative (hiddenBit + fraction) (leastExponent + biased - 1)

/-- The whole part of a nonnegative number. -/
def wholePart (significand : Nat) (exponent : Int) : Nat :=
  match exponent with
  | .ofNat k => significand * Nat.pow 2 k
  | .negSucc k => significand / Nat.pow 2 (k + 1)

end Binary

end TapeLang
