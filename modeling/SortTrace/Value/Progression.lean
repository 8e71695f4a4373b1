/-!
# Arithmetic progressions

A range and a slice both select the terms of an arithmetic progression: `start`, `start + step`, ...
as long as they lie before `stop`, or after it when the step is negative. `Progression.length`
counts the terms, in integers of any size. A `Span` is a progression whose three numbers are 64-bit
integers, which is what a range value holds; it has fewer than `2 ^ 64` terms.

`Slice` holds the bounds of a slice as they were given, each possibly absent.
-/

namespace SortTrace

/-- The terms from `start` towards `stop`, without `stop`. -/
structure Progression where
  start : Int
  stop : Int
  step : Int
deriving DecidableEq, Repr, Inhabited

namespace Progression

/-- The number of terms: the distance in steps, rounded up. -/
def length (p : Progression) : Nat :=
  if 0 < p.step then (Int.fdiv (p.stop - p.start + p.step - 1) p.step).toNat
  else if p.step < 0 then (Int.fdiv (p.start - p.stop - p.step - 1) (-p.step)).toNat
  else 0

/-- The term at a position. -/
def term (p : Progression) (i : Nat) : Int :=
  p.start + p.step * i

/-- All terms in order. -/
def terms (p : Progression) : List Int :=
  (List.range p.length).map p.term

/-- Is `x` one of the terms? -/
def contains (p : Progression) (x : Int) : Bool :=
  let offset := x - p.start
  p.step != 0 && Int.emod offset p.step == 0
    && 0 ≤ Int.tdiv offset p.step && Int.tdiv offset p.step < p.length

end Progression

/-- The progression of a range value. -/
structure Span where
  start : Int64
  stop : Int64
  step : Int64
deriving DecidableEq, Repr, Inhabited

namespace Span

/-- The progression in integers of any size. -/
def progression (s : Span) : Progression :=
  ⟨s.start.toInt, s.stop.toInt, s.step.toInt⟩

/-- The number of items. -/
def length (s : Span) : Nat :=
  s.progression.length

/-- The item at a position. Items at positions below the length are 64-bit integers. -/
def item (s : Span) (i : Nat) : Int64 :=
  Int64.ofInt (s.progression.term i)

/-- All items in order. -/
def items (s : Span) : List Int64 :=
  (List.range s.length).map s.item

/-- Is `n` one of the items? -/
def contains (s : Span) (n : Int64) : Bool :=
  s.progression.contains n.toInt

/-- Have two spans the same items? -/
def sameItems (s t : Span) : Bool :=
  s.length == t.length
    && (s.length == 0 || (s.start == t.start && (s.length == 1 || s.step == t.step)))

end Span

/-- The first position that no index denotes, `2 ^ 63`. -/
def positionLimit : Nat := 0x8000000000000000

/-- The position in a sequence of the given length that an index denotes; a negative one counts from
the end. A sequence of `2 ^ 63` items or more has no position that an index could denote. -/
def position? (i : Int64) (length : Nat) : Option Nat :=
  if positionLimit ≤ length then none
  else
    let i := if i.toInt < 0 then i.toInt + length else i.toInt
    if 0 ≤ i ∧ i < length then some i.toNat else none

/-- The bounds of a slice. -/
structure Slice where
  lower : Option Int64
  upper : Option Int64
  step : Option Int64
deriving DecidableEq, Repr, Inhabited

namespace Slice

/-- The step, one unless given. -/
def stride (s : Slice) : Int :=
  match s.step with
  | some n => n.toInt
  | none => 1

/-- A bound counted from the start of a sequence and clamped to the given limits. -/
def clamp (length : Nat) (low high : Int) (bound : Int64) : Int :=
  let i := bound.toInt
  max low (min (if i < 0 then i + length else i) high)

/-- The positions that the slice selects in a sequence of the given length. -/
def progression (s : Slice) (length : Nat) : Progression :=
  let n : Int := length
  if 0 < s.stride then
    { start := (s.lower.map (clamp length 0 n)).getD 0
      stop := (s.upper.map (clamp length 0 n)).getD n
      step := s.stride }
  else
    { start := (s.lower.map (clamp length (-1) (n - 1))).getD (n - 1)
      stop := (s.upper.map (clamp length (-1) (n - 1))).getD (-1)
      step := s.stride }

/-- The selected positions in the order of the slice. -/
def positions (s : Slice) (length : Nat) : List Nat :=
  (s.progression length).terms.map Int.toNat

/-- The position that a bound of a slice of step one denotes: the given one if it is absent, else
counted from the start or from the end and no further than the sequence goes. -/
def edge (length standard : Nat) : Option Int64 → Nat
  | none => standard
  | some i => if i.toInt < 0 then (i.toInt + length).toNat else min i.toInt.toNat length

/-- The stretch that a slice of step one replaces: its first position and the position after its
last, which is not before the first. -/
def stretch (s : Slice) (length : Nat) : Nat × Nat :=
  let low := edge length 0 s.lower
  (low, max (edge length length s.upper) low)

end Slice

end SortTrace
