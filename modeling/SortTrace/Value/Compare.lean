import SortTrace.Fault
import SortTrace.Text.Lines
import SortTrace.Value.Basic

/-!
# Equality, identity, order and membership

Numbers compare across their types, strings by their code points, lists and tuples item by item.
Lists may contain themselves, so the comparison of two lists is given a number of levels. Two paths
into cyclic lists that meet the same pair of lists again would go on for ever, and there are
`size * size` pairs: with one level more than that, every comparison that ends has its own answer.
-/

namespace SortTrace

namespace Value

/-- Are two numbers equal? Doubles are compared when either is one. Other values are not numbers,
hence not equal ones. -/
def equalNumbers (v w : Value) : Bool :=
  match v.asInt?, w.asInt? with
  | some a, some b => a == b
  | _, _ => match v.asFloat?, w.asFloat? with
    | some x, some y => x == y
    | _, _ => false

mutual

/-- Are two values equal, with the given answer for two lists? -/
def equalWith (lists : Nat → Nat → Bool) : Value → Value → Bool
  | none, none => true
  | str s, str t => s == t
  | list i, list j => lists i j
  | tuple _ vs, tuple _ ws => allEqualWith lists vs ws
  | range s, range t => s.sameItems t
  | function i _ _, function j _ _ => i == j
  | builtin a, builtin b => a == b
  | v, w => equalNumbers v w

/-- Are two sequences equal, item by item? -/
def allEqualWith (lists : Nat → Nat → Bool) : List Value → List Value → Bool
  | [], [] => true
  | v :: vs, w :: ws => equalWith lists v w && allEqualWith lists vs ws
  | _, _ => false

end

/-- Are two lists equal? Sequences of different lengths are not, whatever they hold. -/
def equalLists (h : Heap) : (fuel : Nat) → Nat → Nat → Bool
  | 0, i, j => i == j
  | fuel + 1, i, j =>
    i == j || ((h.items i).size == (h.items j).size
      && ((h.items i).toList.zip (h.items j).toList).all fun p =>
        equalWith (equalLists h fuel) p.1 p.2)

/-- The number of levels that any comparison needs. -/
def depthBound (h : Heap) : Nat :=
  h.size * h.size + 1

/-- Are two values equal? -/
def equal (h : Heap) (v w : Value) : Bool :=
  equalWith (equalLists h (depthBound h)) v w

/-- Are two values one and the same? Truth values and numbers are compared by value, except that a
double is never the same as anything. -/
def identical (h : Heap) (v w : Value) : Bool :=
  match v, w with
  | list i, list j => i == j
  | tuple i _, tuple j _ => i == j
  | bool a, bool b => a == b
  | bool _, _ | _, bool _ => false
  | float _, _ | _, float _ => false
  | v, w => equal h v w

/-- The order of two doubles. Not-a-number is in no order; it counts as equal to everything, which
keeps sorting stable. -/
def orderReals (x y : Float) : Ordering :=
  if x < y then .lt else if y < x then .gt else .eq

/-- The order of two numbers, if both values are numbers. -/
def orderNumbers? (v w : Value) : Option Ordering :=
  match v.asInt?, w.asInt? with
  | some a, some b => some (compare a.toInt b.toInt)
  | _, _ => match v.asFloat?, w.asFloat? with
    | some x, some y => some (orderReals x y)
    | _, _ => .none

/-- The order of two strings, by code points. -/
def orderTexts (s t : String) : Ordering :=
  if s < t then .lt else if s = t then .eq else .gt

mutual

/-- The order of two values, given equality and the order of two lists; `op` is the operator named
when they have none. -/
def orderWith (same : Value → Value → Bool) (lists : Nat → Nat → Except Fault Ordering)
    (op : String) : Value → Value → Except Fault Ordering
  | str s, str t => .ok (orderTexts s t)
  | list i, list j => lists i j
  | tuple _ vs, tuple _ ws => orderAllWith same lists op vs ws
  | v, w => match orderNumbers? v w with
    | some o => .ok o
    | .none => .error (.unorderable op v.typeName w.typeName)

/-- The order of two sequences: that of the first items that differ, else that of the lengths. -/
def orderAllWith (same : Value → Value → Bool) (lists : Nat → Nat → Except Fault Ordering)
    (op : String) : List Value → List Value → Except Fault Ordering
  | [], [] => .ok .eq
  | [], _ :: _ => .ok .lt
  | _ :: _, [] => .ok .gt
  | v :: vs, w :: ws =>
    if same v w then orderAllWith same lists op vs ws else orderWith same lists op v w

end

/-- The order of two lists. -/
def orderLists (h : Heap) (op : String) : (fuel : Nat) → Nat → Nat → Except Fault Ordering
  | 0, _, _ => .ok .eq
  | fuel + 1, i, j =>
    orderAllWith (equal h) (orderLists h op fuel) op (h.items i).toList (h.items j).toList

/-- The order of two values. -/
def order (h : Heap) (op : String) (v w : Value) : Except Fault Ordering :=
  orderWith (equal h) (orderLists h op (depthBound h)) op v w

/-- Is the value not-a-number? -/
def isNaN : Value → Bool
  | float x => x.isNaN
  | _ => false

/-- The whole number that a number equals, if it equals one. A double beyond 64 bits stands for the
nearest one within. -/
def wholeNumber? : Value → Option Int64
  | float x => if x.isFinite && x.floor == x then some x.toInt64 else .none
  | v => v.asInt?

/-- Is `v` an item of the container, or a part of the text? -/
def contains (h : Heap) (container v : Value) : Except Fault Bool :=
  match container with
  | list place => .ok ((h.items place).any fun item => equal h item v)
  | tuple _ items => .ok (items.any fun item => equal h item v)
  | str text => match v with
    | str part => .ok (Text.occurs part.toList text.toList)
    | other => .error (.badTextMember other.typeName)
  | range s => .ok (v.wholeNumber?.any s.contains)
  | other => .error (.notContainer other.typeName)

end Value

end SortTrace
