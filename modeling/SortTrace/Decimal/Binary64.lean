/-!
# Doubles as exact numbers

A finite double is a sign and a number `mantissa * 2 ^ exponent`. `Magnitude.ofFloat` takes it
apart; `nearestFloat` is the way back from any non-negative fraction, rounding to the nearest
double and to the even mantissa when two are equally near. Both work in exact arithmetic on the
64 bits, so that reading a decimal, printing one and taking a remainder share one account of
which number a double is.
-/

namespace SortTrace.Decimal

/-- The number `mantissa * 2 ^ exponent`. -/
structure Magnitude where
  mantissa : Nat
  exponent : Int
deriving DecidableEq, Repr

/-- The exponent of the smallest positive double. -/
def minExponent : Int := -1074

/-- The number of values of the stored fraction, `2 ^ 52`. -/
def fractionCount : Nat := 0x10000000000000

/-- Is the sign bit set? True of the negative zero as well. -/
def signBit (x : Float) : Bool :=
  x.toBits.toNat >>> 63 == 1

/-- The absolute value of a finite double. -/
def Magnitude.ofFloat (x : Float) : Magnitude :=
  let bits := x.toBits.toNat
  let stored := bits / fractionCount % 2048
  let fraction := bits % fractionCount
  if stored = 0 then ⟨fraction, minExponent⟩ else ⟨fraction + fractionCount, stored - 1075⟩

/-- A magnitude as a fraction: numerator and positive denominator. -/
def Magnitude.toFraction (m : Magnitude) : Nat × Nat :=
  if 0 ≤ m.exponent then (m.mantissa <<< m.exponent.toNat, 1)
  else (m.mantissa, 1 <<< (-m.exponent).toNat)

/-- The quotient rounded to the nearest integer, a half to the even neighbour. -/
def divNearestEven (num den : Nat) : Nat :=
  let q := num / den
  let r := num % den
  if 2 * r < den then q else if den < 2 * r then q + 1 else q + q % 2

/-- The largest `k` with `2 ^ k ≤ num / den`, for positive `num` and `den`. -/
def floorLog2 (num den : Nat) : Int :=
  let k : Int := (num.log2 : Int) - den.log2
  let fits := if 0 ≤ k then den <<< k.toNat ≤ num else den ≤ num <<< (-k).toNat
  if fits then k else k - 1

/-- The double nearest to `num / den`, ties to the even mantissa; infinity when the fraction is
beyond the largest double by half a step or more. -/
def nearestFloat (num den : Nat) : Float :=
  if num = 0 then 0.0
  else
    let exponent := max (floorLog2 num den - 52) minExponent
    let mantissa :=
      if 0 ≤ exponent then divNearestEven num (den <<< exponent.toNat)
      else divNearestEven (num <<< (-exponent).toNat) den
    -- a mantissa that was rounded up to `2 ^ 53` carries into the stored exponent
    let bits := (exponent - minExponent).toNat * fractionCount + mantissa
    if 2047 * fractionCount ≤ bits then 1.0 / 0.0 else Float.ofBits (UInt64.ofNat bits)

/-- The magnitude as a double, negated on request. -/
def signedFloat (negative : Bool) (x : Float) : Float :=
  if negative then -x else x

end SortTrace.Decimal
