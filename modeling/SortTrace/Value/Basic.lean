import SortTrace.Script.Tree
import SortTrace.Value.Progression

/-!
# Values

The values a script computes with. Lists are shared and can change, so a list value is a reference
into a `Heap`; all other values are immutable and held in place. Tuples and functions carry a number
that tells apart two of them that were made separately, for the operators that ask for identity.
-/

namespace SortTrace

/-- The functions every script can call. -/
inductive Builtin where
  | print | len | range | min | max | abs | int | float | str | bool | list | tuple
  | sorted | sum | reversed | enumerate
  /-- Records the state of a list; the calls put into a source call it. -/
  | logState
deriving DecidableEq, Repr, Inhabited

namespace Builtin

/-- All of them. -/
def all : List Builtin :=
  [.print, .len, .range, .min, .max, .abs, .int, .float, .str, .bool, .list, .tuple, .sorted,
    .sum, .reversed, .enumerate, .logState]

/-- The name a script calls it by. -/
def name : Builtin → String
  | print => "print"
  | len => "len"
  | range => "range"
  | min => "min"
  | max => "max"
  | abs => "abs"
  | int => "int"
  | float => "float"
  | str => "str"
  | bool => "bool"
  | list => "list"
  | tuple => "tuple"
  | sorted => "sorted"
  | sum => "sum"
  | reversed => "reversed"
  | enumerate => "enumerate"
  | logState => "log_state"

/-- The builtin of a name. -/
def ofName? (name : String) : Option Builtin :=
  all.find? fun b => b.name == name

end Builtin

/-- A value. -/
inductive Value where
  | none
  | bool (b : Bool)
  | int (n : Int64)
  | float (x : Float)
  | str (s : String)
  /-- The list at a place of the heap. -/
  | list (place : Nat)
  | tuple (id : Nat) (items : List Value)
  | range (s : Span)
  /-- A function with the values of its default arguments, in the order of its parameters. -/
  | function (id : Nat) (definition : Script.FunctionDef) (defaults : List Value)
  | builtin (b : Builtin)
deriving Repr, Inhabited

namespace Value

/-- The name of a value's type. -/
def typeName : Value → String
  | none => "NoneType"
  | bool _ => "bool"
  | int _ => "int"
  | float _ => "float"
  | str _ => "str"
  | list _ => "list"
  | tuple .. => "tuple"
  | range _ => "range"
  | function .. => "function"
  | builtin _ => "builtin_function_or_method"

/-- Integers, and the two truth values as one and zero. -/
def asInt? : Value → Option Int64
  | int n => some n
  | bool b => some (if b then 1 else 0)
  | _ => .none

/-- Numbers as doubles. -/
def asFloat? : Value → Option Float
  | float x => some x
  | v => v.asInt?.map Int64.toFloat

/-- Is the value an integer, a double or a truth value? -/
def isNumeric : Value → Bool
  | int _ | bool _ | float _ => true
  | _ => false

/-- The value of a literal. -/
def ofLiteral : Script.Literal → Value
  | .none => none
  | .bool b => bool b
  | .int n => int n
  | .float x => float x
  | .str s => str s

/-- A string of one character. -/
def ofChar (c : Char) : Value :=
  str (String.singleton c)

end Value

/-- The contents of all lists, each at its place, and the number of marks that tuples and functions
have been given. -/
structure Heap where
  lists : Array (Array Value)
  marks : Nat
deriving Repr, Inhabited

namespace Heap

/-- No list exists yet. -/
def empty : Heap := ⟨#[], 0⟩

/-- The number of lists. -/
def size (h : Heap) : Nat :=
  h.lists.size

/-- The items of the list at a place. -/
def items (h : Heap) (place : Nat) : Array Value :=
  h.lists[place]?.getD #[]

/-- There are no items where there is no list. -/
theorem items_beyond {h : Heap} {place : Nat} (hp : h.size ≤ place) : h.items place = #[] := by
  rw [items, Array.getElem?_eq_none hp, Option.getD_none]

/-- A new list. -/
def insert (h : Heap) (items : Array Value) : Value × Heap :=
  (.list h.lists.size, { h with lists := h.lists.push items })

/-- Change the list at a place. -/
def modify (h : Heap) (place : Nat) (f : Array Value → Array Value) : Heap :=
  { h with lists := h.lists.modify place f }

/-- A mark that no tuple or function has. -/
def mark (h : Heap) : Nat × Heap :=
  (h.marks, { h with marks := h.marks + 1 })

end Heap

/-- Does a value count as true in a condition? Zeros and empty sequences do not. -/
def Value.isTrue (h : Heap) : Value → Bool
  | none => false
  | bool b => b
  | int n => n != 0
  | float x => x != 0.0
  | str s => s != ""
  | list place => !(h.items place).isEmpty
  | tuple _ items => !items.isEmpty
  | range s => s.length != 0
  | function .. | builtin _ => true

end SortTrace
