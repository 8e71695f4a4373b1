import SortTrace.Decimal.Binary64
import SortTrace.Fault
import SortTrace.Script.Token
import SortTrace.Value.Basic

/-!
# Arithmetic

Integers have 64 bits, and a result that 64 bits cannot hold is refused: nothing wraps. Sums,
products and powers are computed in integers of any size, quotients and remainders on words, where
they are corrected, since division rounds down and the remainder goes with it. Dividing integers
exactly gives a double, and so does a negative power.

Doubles follow the usual rules of binary floating point, except that division by zero is refused
and that the remainder takes the sign of the divisor.
-/

namespace SortTrace.Arithmetic

open Script (BinOp)

/-- The 64-bit integer equal to `n`, if there is one. -/
def narrow (n : Int) : Except Fault Int64 :=
  let m := Int64.ofInt n
  if m.toInt = n then .ok m else .error .overflow

/-- What division gives, if `a` can be divided by `b`: not by zero, and not where the quotient has
more than 64 bits, as that of the smallest integer by -1 has. -/
def divided (a b result : Int64) : Except Fault Int64 :=
  if b = 0 ∨ a = Int64.minValue ∧ b = -1 then .error .overflow else .ok result

/-- The quotient rounded down. Words are divided towards zero, so it is one less where there is a
remainder and the signs differ. -/
def floorQuotient (a b : Int64) : Except Fault Int64 :=
  if b = 0 then .error .floorDivideByZero
  else do
    let q ← divided a b (a / b)
    pure (if a % b ≠ 0 ∧ decide (a < 0) ≠ decide (b < 0) then q - 1 else q)

/-- The remainder of the quotient rounded down. The remainder of words has the sign of `a`; where
that is not the sign of `b`, it is moved by `b`. -/
def floorRemainder (a b : Int64) : Except Fault Int64 :=
  if b = 0 then .error .moduloByZero
  else do
    let r ← divided a b (a % b)
    pure (if r ≠ 0 ∧ decide (r < 0) ≠ decide (b < 0) then r + b else r)

/-- The first exponent of 33 bits, `2 ^ 32`. -/
def exponentLimit : Nat := 0x100000000

/-- A power with an exponent that is not negative. Exponents of 33 bits or more are refused whatever
the base. -/
def power (a b : Int64) : Except Fault Int64 :=
  let exponent := b.toInt.toNat
  if exponentLimit ≤ exponent then .error .overflow
  else if a.toInt.natAbs ≤ 1 then
    -- the powers of these bases repeat from the second on
    narrow (Int.pow a.toInt (min exponent (2 + exponent % 2)))
  else if 64 ≤ exponent then .error .overflow
  else narrow (Int.pow a.toInt exponent)

/-- The bits moved to the left, `a * 2 ^ b`. -/
def shiftLeft (a b : Int64) : Except Fault Int64 :=
  if b.toInt < 0 then .error .negativeShift
  else if a = 0 then .ok 0
  else if 64 ≤ b.toInt then .error .overflow
  else narrow (a.toInt * (1 <<< b.toInt.toNat : Nat))

/-- The bits moved to the right, `a / 2 ^ b` rounded down. Beyond all bits only the sign is left. -/
def shiftRight (a b : Int64) : Except Fault Int64 :=
  if b.toInt < 0 then .error .negativeShift
  else if 64 ≤ b.toInt then .ok (if a < 0 then -1 else 0)
  else .ok (a >>> b)

/-- A negative power of an integer. -/
def negativePower (a b : Int64) : Except Fault Value :=
  if a = 0 then .error .zeroToNegativePower else .ok (.float (Float.pow a.toFloat b.toFloat))

/-- An operation on two integers. -/
def integers (op : BinOp) (a b : Int64) : Except Fault Value :=
  match op with
  | .add => .int <$> narrow (a.toInt + b.toInt)
  | .sub => .int <$> narrow (a.toInt - b.toInt)
  | .mul => .int <$> narrow (a.toInt * b.toInt)
  | .div => if b = 0 then .error .divideByZero else .ok (.float (a.toFloat / b.toFloat))
  | .floorDiv => .int <$> floorQuotient a b
  | .mod => .int <$> floorRemainder a b
  | .pow => if b.toInt < 0 then negativePower a b else .int <$> power a b
  | .bitAnd => .ok (.int (a &&& b))
  | .bitOr => .ok (.int (a ||| b))
  | .bitXor => .ok (.int (a ^^^ b))
  | .shiftLeft => .int <$> shiftLeft a b
  | .shiftRight => .int <$> shiftRight a b

/-- The remainder of the division of finite doubles whose quotient is rounded towards zero. It is
exact, as it is a multiple of the smaller of the two units. -/
def truncatedRemainder (x y : Float) : Float :=
  let a := Decimal.Magnitude.ofFloat x
  let b := Decimal.Magnitude.ofFloat y
  let unit := min a.exponent b.exponent
  let rest := (a.mantissa <<< (a.exponent - unit).toNat)
    % (b.mantissa <<< (b.exponent - unit).toNat)
  let (num, den) := Decimal.Magnitude.toFraction ⟨rest, unit⟩
  Decimal.signedFloat (Decimal.signBit x) (Decimal.nearestFloat num den)

/-- The remainder with the sign of the divisor, which is not zero. -/
def realRemainder (x y : Float) : Float :=
  let rest :=
    if x.isNaN || y.isNaN || x.isInf then 0.0 / 0.0
    else if y.isInf then x
    else truncatedRemainder x y
  if rest != 0.0 && (rest < 0.0) != (y < 0.0) then rest + y else rest

/-- An operation on two doubles; `unsupported` is the fault of those that only integers have. -/
def reals (unsupported : Fault) (op : BinOp) (x y : Float) : Except Fault Float :=
  match op with
  | .add => .ok (x + y)
  | .sub => .ok (x - y)
  | .mul => .ok (x * y)
  | .div => if y == 0.0 then .error .realDivideByZero else .ok (x / y)
  | .floorDiv => if y == 0.0 then .error .realFloorDivideByZero else .ok (x / y).floor
  | .mod => if y == 0.0 then .error .realModuloByZero else .ok (realRemainder x y)
  | .pow =>
    if x == 0.0 && y < 0.0 then .error .zeroToNegativePower else .ok (Float.pow x y)
  | _ => .error unsupported

/-- The absolute value of an integer. -/
def absolute (a : Int64) : Except Fault Int64 :=
  narrow a.toInt.natAbs

/-- The integer that a double has before its point. -/
def truncate (x : Float) : Except Fault Int64 :=
  if x.isNaN then .error .nanToInteger
  else if x < -9223372036854775808.0 || 9223372036854775808.0 ≤ x then .error .overflow
  else .ok x.toInt64

end SortTrace.Arithmetic
