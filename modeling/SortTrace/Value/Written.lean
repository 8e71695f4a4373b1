import SortTrace.Decimal.Layout
import SortTrace.Fault
import SortTrace.Report.Json
import SortTrace.Text.Quoted
import SortTrace.Value.Basic

/-!
# Written values

The text a value is printed as, and the JSON document its state is recorded as. Both follow lists
through the heap. A list that contains itself is written `[...]` where it comes up again and has no
JSON document; a list that comes up twice without containing itself is written twice.
-/

namespace SortTrace

namespace Value

/-- A tuple of one item has a comma to tell it from a parenthesis. -/
def tupleText (items : List String) : String :=
  "(" ++ ", ".intercalate items ++ (if items.length = 1 then ",)" else ")")

/-- The text of a range; a step of one is left out. -/
def rangeText (s : Span) : String :=
  let bounds := toString s.start.toInt ++ ", " ++ toString s.stop.toInt
  if s.step = 1 then s!"range({bounds})"
  else s!"range({bounds}, {s.step.toInt})"

mutual

/-- The text of a value, with the given text for each list. -/
def textWith (lists : Nat → String) : Value → String
  | none => "None"
  | bool b => if b then "True" else "False"
  | int n => toString n.toInt
  | float x => Decimal.scriptText x
  | str s => Text.quote s
  | list place => lists place
  | tuple _ items => tupleText (textsWith lists items)
  | range s => rangeText s
  | function _ f _ => s!"<function {f.name}>"
  | builtin b => s!"<built-in function {b.name}>"

/-- The texts of several values. -/
def textsWith (lists : Nat → String) : List Value → List String
  | [] => []
  | v :: vs => textWith lists v :: textsWith lists vs

end

theorem textWith_tuple (lists : Nat → String) (id : Nat) (items : List Value) :
    textWith lists (tuple id items) = tupleText (textsWith lists items) := rfl

theorem textWith_function (lists : Nat → String) (id : Nat) (f : Script.FunctionDef)
    (defaults : List Value) :
    textWith lists (function id f defaults) = s!"<function {f.name}>" := rfl

theorem textsWith_cons (lists : Nat → String) (v : Value) (vs : List Value) :
    textsWith lists (v :: vs) = textWith lists v :: textsWith lists vs := rfl

theorem map_textWith (lists : Nat → String) (vs : List Value) :
    vs.map (textWith lists) = textsWith lists vs := by
  induction vs with
  | nil => rfl
  | cons v vs ih => exact congrArg (v.textWith lists :: ·) ih

/-- The text of a list that stands inside the lists at the places `outer`. No list is inside more
lists than there are, so `fuel` need not exceed their number. -/
def listText (h : Heap) : (fuel : Nat) → (outer : List Nat) → (place : Nat) → String
  | 0, _, _ => "[...]"
  | fuel + 1, outer, place =>
    if outer.contains place then "[...]"
    else
      let items := (h.items place).toList.map (textWith (listText h fuel (place :: outer)))
      "[" ++ ", ".intercalate items ++ "]"

/-- The written form of a value, in which strings are quoted. -/
def written (h : Heap) (v : Value) : String :=
  v.textWith (listText h (h.size + 1) [])

/-- The text a value is printed as: a string as it is, other values in their written form. -/
def printed (h : Heap) : Value → String
  | str s => s
  | v => v.written h

mutual

/-- The document of a value, with the given documents for lists. -/
def jsonWith (lists : Nat → Except Fault Report.Json) : Value → Except Fault Report.Json
  | none => .ok .null
  | bool b => .ok (.bool b)
  | int n => .ok (.int n.toInt)
  | float x => .ok (.float x)
  | str s => .ok (.str s)
  | list place => lists place
  | tuple _ items => .array <$> jsonsWith lists items
  | range s => .error (.notSerializable (range s).typeName)
  | function i f d => .error (.notSerializable (function i f d).typeName)
  | builtin b => .error (.notSerializable (builtin b).typeName)

/-- The documents of several values. -/
def jsonsWith (lists : Nat → Except Fault Report.Json) :
    List Value → Except Fault (List Report.Json)
  | [] => .ok []
  | v :: vs => do
    let d ← jsonWith lists v
    let ds ← jsonsWith lists vs
    pure (d :: ds)

end

theorem mapM_jsonWith (lists : Nat → Except Fault Report.Json) (vs : List Value) :
    vs.mapM (jsonWith lists) = jsonsWith lists vs := by
  induction vs with
  | nil => rfl
  | cons v vs ih => rw [List.mapM_cons, ih, jsonsWith]

/-- The document of a list that stands inside the lists at the places `outer`. -/
def listJson (h : Heap) :
    (fuel : Nat) → (outer : List Nat) → (place : Nat) → Except Fault Report.Json
  | 0, _, _ => .error .circular
  | fuel + 1, outer, place =>
    if outer.contains place then .error .circular
    else
      let items := (h.items place).toList.mapM (jsonWith (listJson h fuel (place :: outer)))
      .array <$> items

/-- The document that records a value. -/
def toJson (h : Heap) (v : Value) : Except Fault Report.Json :=
  v.jsonWith (listJson h (h.size + 1) [])

end Value

end SortTrace
