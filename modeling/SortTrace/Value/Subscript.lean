import SortTrace.Value.Progression
import SortTrace.Value.Store

/-!
# Subscripts

Items and slices of sequences, read and written. A subscript counts from the start, or from the end
if it is negative; a slice is clamped to the sequence and never out of range. Only lists can be
written to. A slice of step one may be replaced by any number of items, which moves the items after
it; another slice is replaced item by item.
-/

namespace SortTrace

namespace Value

/-- The item of a sequence that a subscript denotes. -/
def item? {α : Type} (items : Array α) (i : Int64) : Option α :=
  (position? i items.size).bind fun at_ => items[at_]?

/-- The item at a subscript. -/
def item (h : Heap) (object subscript : Value) : Except Fault Value :=
  match object with
  | list place => match subscript.asInt? with
    | .none => .error (.badSubscript "list" subscript.typeName)
    | some i => match item? (h.items place) i with
      | some v => .ok v
      | .none => .error (.indexOutOfRange "list")
  | tuple _ items => match subscript.asInt? with
    | .none => .error (.badSubscript "tuple" subscript.typeName)
    | some i => match (position? i items.length).bind fun n => items[n]? with
      | some v => .ok v
      | .none => .error (.indexOutOfRange "tuple")
  | str s => match subscript.asInt? with
    | .none => .error (.badTextSubscript subscript.typeName)
    | some i => match (position? i s.length).bind fun n => s.toList[n]? with
      | some c => .ok (ofChar c)
      | .none => .error (.indexOutOfRange "string")
  | range s => match subscript.asInt? with
    | .none => .error (.badSubscript "range" subscript.typeName)
    | some i => match position? i s.length with
      | some n => .ok (.int (s.item n))
      | .none => .error (.indexOutOfRange "range object")
  | v => .error (.notSubscriptable v.typeName)

/-- The items at the positions of a slice. -/
def picked {α : Type} (items : Array α) (s : Slice) : Array α :=
  ((s.positions items.size).filterMap fun n => items[n]?).toArray

/-- The slice of a sequence, a new sequence of the same type; that of a range is a list. -/
def slice (object : Value) (s : Slice) : Compute Value :=
  if s.stride = 0 then throw .zeroSliceStep
  else match object with
    | list place => do
      let h ← get
      Compute.newList (picked (h.items place) s)
    | tuple _ items => Compute.newTuple (picked items.toArray s).toList
    | str text => pure (.str (String.ofList (picked text.toList.toArray s).toList))
    | range span => do
      let items ← Compute.read fun h => h.iterate (range span)
      Compute.newList (picked items s)
    | v => throw (.notSubscriptable v.typeName)

/-- Give a list a new item at a subscript. -/
def setItem (object subscript v : Value) : Compute Unit :=
  match object with
  | list place => match subscript.asInt? with
    | .none => throw (.badSubscript "list" subscript.typeName)
    | some i => do
      match position? i ((← get).items place).size with
      | some n => modify fun h => h.modify place fun items => items.setIfInBounds n v
      | .none => throw .assignmentOutOfRange
  | v => throw (.noItemAssignment v.typeName)

/-- The items with those from `low` to `high`, without `high`, replaced. -/
def splice (items : Array Value) (low high : Nat) (replacement : Array Value) : Array Value :=
  items.extract 0 low ++ replacement ++ items.extract high items.size

/-- The items with those at the given positions replaced one by one. -/
def replaceEach (items : Array Value) (positions : List Nat) (replacement : Array Value) :
    Array Value :=
  (positions.zip replacement.toList).foldl (fun items p => items.setIfInBounds p.1 p.2) items

/-- The items of a list after a slice was replaced. -/
def spliced (items : Array Value) (s : Slice) (replacement : Array Value) :
    Except Fault (Array Value) :=
  if s.stride = 0 then .error .zeroSliceStep
  else if s.stride = 1 then
    let (low, high) := s.stretch items.size
    .ok (splice items low high replacement)
  else
    let positions := s.positions items.size
    if positions.length = replacement.size then .ok (replaceEach items positions replacement)
    else .error (.slotMismatch replacement.size positions.length)

/-- Replace a slice of a list by the items of a value. -/
def setSlice (object : Value) (s : Slice) (v : Value) : Compute Unit :=
  match object with
  | list place => do
    let replacement ← Compute.read fun h => h.iterate v
    let items ← Compute.read fun h => spliced (h.items place) s replacement
    Compute.setItems place items
  | object => throw (.noItemAssignment object.typeName)

end Value

end SortTrace
