import SortTrace.Fault
import SortTrace.Value.Basic

/-!
# Computing with lists

A `Compute` reads and changes the lists of a heap and may fail. What it changed before it failed
stays changed; the operations on values are written so that they fail before they change anything.

`Heap.iterate` lists the items of any value that has items, and `fits` is the limit on the length of
a sequence that one operation may build.
-/

namespace SortTrace

/-- A computation with the lists of a heap. -/
abbrev Compute (α : Type) : Type := EStateM Fault Heap α

namespace Compute

/-- The longest sequence that one operation builds, a text being measured in bytes. -/
def longest : Nat := 10000000

/-- Refuse a sequence that is too long. -/
def fits (length : Nat) : Except Fault Unit :=
  if length ≤ longest then .ok () else .error (.oversize length)

/-- The outcome of something computed without lists. -/
def of {α : Type} : Except Fault α → Compute α
  | .ok a => pure a
  | .error f => throw f

/-- The outcome of something that only reads lists. -/
def read {α : Type} (f : Heap → Except Fault α) : Compute α := do
  of (f (← get))

/-- A new list of the given items. -/
def newList (items : Array Value) : Compute Value :=
  modifyGet fun h => h.insert items

/-- A new tuple of the given items. -/
def newTuple (items : List Value) : Compute Value := do
  let id ← modifyGet Heap.mark
  pure (.tuple id items)

/-- Give the list at a place new items. -/
def setItems (place : Nat) (items : Array Value) : Compute Unit :=
  modify fun h => h.modify place fun _ => items

end Compute

/-- The items of a value, if it has items: those of a list as they are now, the characters of a
text, and the numbers of a range unless there are too many. -/
def Heap.iterate (h : Heap) : Value → Except Fault (Array Value)
  | .list place => .ok (h.items place)
  | .tuple _ items => .ok items.toArray
  | .str s => .ok (s.toList.map Value.ofChar).toArray
  | .range s => do
    Compute.fits s.length
    pure (s.items.map Value.int).toArray
  | v => .error (.notIterable v.typeName)

end SortTrace
