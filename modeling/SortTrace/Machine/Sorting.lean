import SortTrace.Machine.Basic
import SortTrace.Value.MergeSort

/-!
# Sorting and extremes

Items are put in order by their keys. The keys are made once for each item, in order, before any two
are compared: by a function that the caller names, or they are the items themselves. How a function
is called is left open here, in the `Apply` that is handed in.
-/

namespace SortTrace

/-- The way to call a value with one argument. -/
abbrev Apply : Type := Value → Value → Run Value

/-- The keys of items. -/
def keysOf (apply : Apply) (key : Option Value) (items : List Value) : Run (List Value) :=
  match key with
  | none | some .none => pure items
  | some f => items.mapM (apply f)

/-- Does a key come before another? -/
def keyLess (h : Heap) (reverse : Bool) (a b : Value) : Except Fault Bool :=
  (· == if reverse then .gt else .lt) <$> Value.order h "<" a b

/-- The items in the order of their keys. -/
def sortByKeys (h : Heap) (reverse : Bool) (keys items : List Value) :
    Except Fault (List Value) :=
  match MergeSort.sort (fun p q => keyLess h reverse p.1 q.1) (keys.zip items) with
  | (sorted, none) => .ok (sorted.map Prod.snd)
  | (_, some f) => .error f

/-- The items in order. -/
def sortItems (apply : Apply) (key : Option Value) (reverse : Bool) (items : Array Value) :
    Run (Array Value) := do
  let items := items.toList
  let keys ← keysOf apply key items
  let sorted ← Run.read fun h => sortByKeys h reverse keys items
  pure sorted.toArray

/-- Which end of an order an extreme is at. -/
inductive Extreme where
  | least
  | greatest
deriving DecidableEq, Repr, Inhabited

/-- The comparison by which an item takes the place of the extreme one so far. -/
def Extreme.operator : Extreme → String
  | least => "<"
  | greatest => ">"

/-- The order of an item to the extreme one so far by which it takes its place. -/
def Extreme.wanted : Extreme → Ordering
  | least => .lt
  | greatest => .gt

/-- The first extreme item, of items with keys, when `best` is the extreme one of those before. -/
def extremeFrom (h : Heap) (e : Extreme) (best : Value × Value) :
    List (Value × Value) → Except Fault Value
  | [] => .ok best.2
  | p :: rest => do
    let o ← Value.order h e.operator p.1 best.1
    extremeFrom h e (if o == e.wanted then p else best) rest

/-- The first extreme item. -/
def extremeItem (apply : Apply) (e : Extreme) (function : String) (key : Option Value)
    (items : Array Value) : Run Value := do
  let items := items.toList
  let keys ← keysOf apply key items
  match keys.zip items with
  | [] => Run.fault (.emptySequence function)
  | best :: rest => Run.read fun h => extremeFrom h e best rest

end SortTrace
