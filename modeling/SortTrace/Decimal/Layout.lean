import SortTrace.Decimal.Shortest

/-!
# Written decimals

How the shortest decimal of a double is laid out. Two formats occur: the script language's own
text and the number in a JSON document. They differ in where positional notation starts, in the
digits of a written exponent and in which of two equally near decimals they take, and a `Layout`
records these decisions.
-/

namespace SortTrace.Decimal

/-- The decisions of one format. -/
structure Layout where
  /-- Numbers whose leading digit stands at `10 ^ lowest` or above are written positionally, if
  they are below `10 ^ 16`. -/
  lowest : Int
  /-- A written exponent has at least this many digits. -/
  exponentWidth : Nat
  /-- Which of two equally near shortest decimals is written. -/
  tie : Tie

/-- The script language writes `0.0001` but `1e-05`. -/
def scriptLayout : Layout := ⟨-4, 2, .up⟩

/-- A JSON document has `0.00001` but `1e-6`. -/
def jsonLayout : Layout := ⟨-5, 1, .even⟩

/-- The decimal digits of a natural number. -/
def natDigits (n : Nat) : List Char :=
  Nat.toDigits 10 n

/-- Plain notation with at least one digit on either side of the point. -/
def positional (digits : List Char) (exponent : Int) : List Char :=
  if 0 ≤ exponent then digits ++ List.replicate exponent.toNat '0' ++ ['.', '0']
  else
    let places := (-exponent).toNat
    if places < digits.length then
      let whole := digits.length - places
      digits.take whole ++ '.' :: digits.drop whole
    else ['0', '.'] ++ List.replicate (places - digits.length) '0' ++ digits

/-- One digit, the others after a point if there are any, and an exponent with its sign. -/
def scientific (width : Nat) (digits : List Char) (lead : Int) : List Char :=
  let fraction := digits.drop 1
  let shown := natDigits lead.natAbs
  digits.take 1 ++ (if fraction.isEmpty then [] else '.' :: fraction)
    ++ ['e', if lead < 0 then '-' else '+']
    ++ List.replicate (width - shown.length) '0' ++ shown

/-- The text of a finite double. -/
def Layout.finite (l : Layout) (x : Float) : String :=
  let m := Magnitude.ofFloat x
  let sign := if signBit x then ['-'] else []
  if m.mantissa = 0 then String.ofList (sign ++ ['0', '.', '0'])
  else
    let d := m.shortest l.tie
    let digits := natDigits d.digits
    let lead : Int := d.exponent + digits.length - 1
    let body :=
      if l.lowest ≤ lead ∧ lead < 16 then positional digits d.exponent
      else scientific l.exponentWidth digits lead
    String.ofList (sign ++ body)

/-- The script language's text of a double. -/
def scriptText (x : Float) : String :=
  if x.isNaN then "nan"
  else if x.isInf then (if signBit x then "-inf" else "inf")
  else scriptLayout.finite x

end SortTrace.Decimal
