import SortTrace.Decimal.Binary64

/-!
# The shortest decimal of a double

Among the decimals that read back as a given double, those with the fewest digits are taken, and
of them the nearest to the double's exact value. The reals that read back form an interval around
the value, ends included exactly when the mantissa is even. A grid of decimals is searched from
coarse to fine: on each grid only the two neighbours of the value can be the nearest hit, and the
first grid with a hit decides the number of digits. When both neighbours are hits at the same
distance, a `Tie` decides.
-/

namespace SortTrace.Decimal

/-- Which of two equally near decimals is taken. -/
inductive Tie where
  /-- The larger one. -/
  | up
  /-- The one whose last digit is even. -/
  | even
deriving DecidableEq, Repr

/-- The decimal `digits * 10 ^ exponent`. -/
structure Numeral where
  digits : Nat
  exponent : Int
deriving DecidableEq, Repr

/-- The interval of reals that read back as one double, with its middle, the double itself: three
numerators over a common denominator. -/
structure Interval where
  low : Nat
  value : Nat
  high : Nat
  denominator : Nat
  /-- Do the ends belong to the interval? -/
  closed : Bool

/-- The interval of a positive double. Below a power of two the doubles lie twice as dense, so
the lower end is half as far away there. -/
def Magnitude.interval (m : Magnitude) : Interval :=
  let down := if m.mantissa = fractionCount ∧ minExponent < m.exponent then 1 else 2
  let unit := (Magnitude.mk 1 (m.exponent - 2)).toFraction
  { low := (4 * m.mantissa - down) * unit.1
    value := 4 * m.mantissa * unit.1
    high := (4 * m.mantissa + 2) * unit.1
    denominator := unit.2
    closed := m.mantissa % 2 == 0 }

/-- The interval measured in units of `10 ^ e`. -/
def Interval.scale (i : Interval) (e : Int) : Interval :=
  if 0 ≤ e then { i with denominator := i.denominator * Nat.pow 10 e.toNat }
  else
    let k := Nat.pow 10 (-e).toNat
    { i with low := i.low * k, value := i.value * k, high := i.high * k }

/-- Does the whole number `n` lie in the interval? -/
def Interval.contains (i : Interval) (n : Nat) : Bool :=
  let x := n * i.denominator
  if i.closed then i.low ≤ x && x ≤ i.high else i.low < x && x < i.high

/-- The whole number in the interval that is nearest to its value, if one of the value's two
neighbours lies in the interval. -/
def Interval.nearest? (i : Interval) (tie : Tie) : Option Nat :=
  let below := i.value / i.denominator
  let above := below + 1
  let toBelow := i.value - below * i.denominator
  let toAbove := above * i.denominator - i.value
  match i.contains below, i.contains above with
  | true, true =>
    if toBelow < toAbove then some below
    else if toAbove < toBelow then some above
    else match tie with
      | .up => some above
      | .even => some (if below % 2 = 0 then below else above)
  | true, false => some below
  | false, true => some above
  | false, false => none

/-- The first hit on the grids `10 ^ e`, `10 ^ (e - 1)`, ..., `steps` of them. -/
def Interval.search (i : Interval) (tie : Tie) : (steps : Nat) → (e : Int) → Option Numeral
  | 0, _ => none
  | steps + 1, e =>
    match (i.scale e).nearest? tie with
    | some n => some ⟨n, e⟩
    | none => i.search tie steps (e - 1)

/-- The decimal without trailing zeros in its digits, `fuel` of them at most. -/
def Numeral.strip : (fuel : Nat) → Numeral → Numeral
  | 0, d => d
  | fuel + 1, d =>
    if d.digits % 10 = 0 ∧ d.digits ≠ 0 then strip fuel ⟨d.digits / 10, d.exponent + 1⟩ else d

/-- The shortest decimal of a positive double. The first grid is at least as coarse as the value's
leading digit, since `0.30103` bounds `log 2 / log 10` from above closely enough; seventeen digits
always suffice, so nineteen grids do. -/
def Magnitude.shortest (m : Magnitude) (tie : Tie) : Numeral :=
  let lead : Int := (m.mantissa.log2 : Int) + m.exponent
  let start := Int.fdiv (lead * 30103) 100000 + 1
  match m.interval.search tie 19 start with
  | some d => d.strip 20
  | none => ⟨0, 0⟩

end SortTrace.Decimal
