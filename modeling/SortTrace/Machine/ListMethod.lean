import SortTrace.Machine.Builtin

/-!
# Methods of lists

Only lists have methods. Except for `copy`, `index` and `count` they change the list; `sort` takes
the list as it was when its keys had been asked for, so a key function that changes the list does so
in vain.
-/

namespace SortTrace

namespace Value

/-- The position of the first item equal to `v`. -/
def indexOf (h : Heap) (place : Nat) (v : Value) : Except Fault Int64 :=
  match (h.items place).findIdx? fun item => equal h item v with
  | some n => .ok (Int64.ofNat n)
  | .none => .error (.notInList (v.written h))

/-- The number of items equal to `v`. -/
def countOf (h : Heap) (place : Nat) (v : Value) : Int64 :=
  Int64.ofNat ((h.items place).countP fun item => equal h item v)

/-- The position that an insertion at `i` goes to. -/
def insertionPoint (i : Int64) (length : Nat) : Nat :=
  if i.toInt < 0 then (i.toInt + length).toNat else min i.toInt.toNat length

/-- Put an item before the position that a subscript denotes. -/
def insertItem (place : Nat) (at_ v : Value) : Compute Unit := do
  let i ← Compute.of (integerArgument at_)
  modify fun h => h.modify place fun items =>
    items.insertIdxIfInBounds (insertionPoint i items.size) v

/-- The position of the item to take out: the last one unless a subscript is given. -/
def popPosition (h : Heap) (place : Nat) (at_ : Option Value) : Except Fault Nat := do
  let items := h.items place
  if items.isEmpty then throw .popFromEmpty
  let i ← match at_ with
    | some v => integerArgument v
    | .none => .ok (-1)
  match position? i items.size with
  | some n => .ok n
  | .none => throw .popOutOfRange

/-- Take out an item. -/
def popItem (place : Nat) (at_ : Option Value) : Compute Value := do
  let n ← Compute.read fun h => popPosition h place at_
  let v := ((← get).items place)[n]?.getD none
  modify fun h => h.modify place fun items => items.eraseIdxIfInBounds n
  pure v

/-- Put the items of a value at the end. -/
def extendItems (place : Nat) (v : Value) : Compute Unit := do
  let more ← Compute.read fun h => h.iterate v
  modify fun h => h.modify place (· ++ more)

end Value

/-- The methods of lists. -/
inductive ListMethod where
  | append | pop | insert | extend | copy | reverse | clear | index | count | sort
deriving DecidableEq, Repr, Inhabited

namespace ListMethod

/-- All methods. -/
def all : List ListMethod :=
  [.append, .pop, .insert, .extend, .copy, .reverse, .clear, .index, .count, .sort]

/-- The name a script calls it by. -/
def name : ListMethod → String
  | append => "append"
  | pop => "pop"
  | insert => "insert"
  | extend => "extend"
  | copy => "copy"
  | reverse => "reverse"
  | clear => "clear"
  | index => "index"
  | count => "count"
  | sort => "sort"

/-- The method of a name. -/
def ofName? (name : String) : Option ListMethod :=
  all.find? fun m => m.name == name

/-- A method's name with that of the type. -/
def fullName (method : String) : String :=
  "list." ++ method

/-- Do something that yields nothing. -/
def silently (c : Compute Unit) : Compute Value := do
  c
  pure .none

/-- Put the list in order. -/
def runSort (apply : Apply) (place : Nat) (args : List Value) (keywords : Keywords) :
    Run Value := do
  if !args.isEmpty then Run.fault (.noPositionalArguments "sort")
  Run.of (keywords.only "sort" ["key", "reverse"])
  let reverse ← Run.read fun h => .ok (keywords.isTrue "reverse" h)
  let items ← Run.read fun h => .ok (h.items place)
  let sorted ← sortItems apply (keywords.get? "key") reverse items
  Run.compute (Compute.setItems place sorted)
  pure .none

/-- A method that takes no keywords, with its arguments. -/
def runPlain (m : ListMethod) (place : Nat) (args : List Value) : Compute Value :=
  match m, args with
  | append, [v] => silently (modify fun h => h.modify place fun items => items.push v)
  | extend, [v] => silently (Value.extendItems place v)
  | index, [v] => .int <$> Compute.read fun h => v.indexOf h place
  | count, [v] => .int <$> Compute.read fun h => .ok (v.countOf h place)
  | insert, [at_, v] => silently (Value.insertItem place at_ v)
  | pop, [] => Value.popItem place .none
  | pop, [at_] => Value.popItem place (some at_)
  | copy, [] => do
    let h ← get
    Compute.newList (h.items place)
  | reverse, [] => silently (modify fun h => h.modify place Array.reverse)
  | clear, [] => silently (Compute.setItems place #[])
  | append, _ | extend, _ | index, _ | count, _ =>
    throw (.exactlyOneArgument (fullName m.name) args.length)
  | insert, _ => throw (.wrongArguments m.name 2 args.length)
  | pop, _ => throw (.manyArguments m.name 1 args.length)
  | copy, _ | reverse, _ | clear, _ => throw (.noArguments (fullName m.name) args.length)
  | sort, _ => throw (.noPositionalArguments m.name)

/-- Call the method of a name. -/
def run (apply : Apply) (object : Value) (method : String) (args : List Value)
    (keywords : Keywords) : Run Value :=
  match object with
  | .list place => match ofName? method with
    | some sort => runSort apply place args keywords
    | some m => do
      Run.of (Keywords.none (fullName method) keywords)
      Run.compute (m.runPlain place args)
    | none => do
      Run.of (Keywords.none (fullName method) keywords)
      Run.fault (.noSuchMethod "list" method)
  | object => Run.fault (.noSuchMethod object.typeName method)

end ListMethod

end SortTrace
