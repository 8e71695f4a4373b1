import SortTrace.Decimal.Binary64

/-!
# Numbers from text

The two number readers: 64-bit integers, `[+-]? digit+` within range, and doubles, decimal or one
of the words for infinity and not-a-number. Both want the whole text and admit neither blanks nor
underscores; those who allow them remove them first.
-/

namespace SortTrace.Decimal

/-- The number that a run of decimal digits denotes. -/
def digitsValue (cs : List Char) : Nat :=
  cs.foldl (fun n c => 10 * n + (c.toNat - 48)) 0

/-- Cut off a leading sign; true for a minus. -/
def takeSign : List Char → Bool × List Char
  | '-' :: cs => (true, cs)
  | '+' :: cs => (false, cs)
  | cs => (false, cs)

/-- An unsigned number: digits only, at least one. -/
def readNat? (cs : List Char) : Option Nat :=
  if cs.isEmpty || !cs.all Char.isDigit then none else some (digitsValue cs)

/-- An integer of any size with an optional sign. -/
def readInt? (cs : List Char) : Option Int :=
  let (negative, body) := takeSign cs
  (readNat? body).map fun n => if negative then -(n : Int) else n

/-- The first number that 64 bits cannot hold, `2 ^ 64`. -/
def countLimit : Nat := 0x10000000000000000

/-- A count below `2 ^ 64` with an optional plus sign. -/
def readCount? (cs : List Char) : Option Nat :=
  let body := if cs.head? = some '+' then cs.tail else cs
  (readNat? body).filter (· < countLimit)

/-- A 64-bit integer. -/
def readInt64? (cs : List Char) : Option Int64 :=
  (readInt? cs).bind fun n =>
    let m := Int64.ofInt n
    if m.toInt = n then some m else none

/-- The double nearest to `digits * 10 ^ exponent`. Numbers out of every double's reach are
settled by the position of the leading digit, so the powers stay small. -/
def ofDecimal (digits : Nat) (exponent : Int) : Float :=
  let lead : Int := ((Nat.toDigits 10 digits).length : Int) + exponent
  if digits = 0 ∨ lead < -400 then 0.0
  else if 400 < lead then 1.0 / 0.0
  else if 0 ≤ exponent then nearestFloat (digits * Nat.pow 10 exponent.toNat) 1
  else nearestFloat digits (Nat.pow 10 (-exponent).toNat)

/-- An exponent part `[eE] [+-]? digit+`, or nothing. -/
def readExponent? : List Char → Option Int
  | [] => some 0
  | c :: cs => if c = 'e' ∨ c = 'E' then readInt? cs else none

/-- A decimal without sign: digits, at most one point, at least one digit in all, and an optional
exponent. -/
def readUnsignedDecimal? (cs : List Char) : Option Float :=
  let whole := cs.takeWhile Char.isDigit
  let rest := cs.dropWhile Char.isDigit
  let (fraction, rest) := match rest with
    | '.' :: after => (after.takeWhile Char.isDigit, after.dropWhile Char.isDigit)
    | _ => ([], rest)
  if whole.isEmpty && fraction.isEmpty then none
  else (readExponent? rest).map fun e =>
    ofDecimal (digitsValue (whole ++ fraction)) (e - fraction.length)

/-- The words for the values that have no decimal, in any mixture of cases. -/
def readSpecial? (cs : List Char) : Option Float :=
  let word := String.ofList (cs.map Char.toLower)
  if word = "inf" ∨ word = "infinity" then some (1.0 / 0.0)
  else if word = "nan" then some (0.0 / 0.0)
  else none

/-- A double. -/
def readFloat? (cs : List Char) : Option Float :=
  let (negative, body) := takeSign cs
  ((readSpecial? body).orElse fun _ => readUnsignedDecimal? body).map (signedFloat negative)

end SortTrace.Decimal
