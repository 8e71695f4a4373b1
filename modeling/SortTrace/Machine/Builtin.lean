import SortTrace.Decimal.Reading
import SortTrace.Machine.Sorting
import SortTrace.Text.Blank

/-!
# Builtin functions

What the builtins do with their arguments. Each checks first its keyword arguments and then the
number of the others. The items of an argument are listed when the call is made.
-/

namespace SortTrace

open Script (BinOp)

/-- Arguments given by keyword. -/
abbrev Keywords : Type := List (String × Value)

namespace Keywords

/-- Refuse keywords other than the allowed ones. -/
def only (function : String) (allowed : List String) (keywords : Keywords) : Except Fault Unit :=
  match keywords.find? fun k => !allowed.contains k.1 with
  | some k => .error (.badKeyword function k.1)
  | none => .ok ()

/-- Refuse all keywords. -/
def none (function : String) (keywords : Keywords) : Except Fault Unit :=
  if keywords.isEmpty then .ok () else .error (.noKeywords function)

/-- The value of a keyword. -/
def get? (keywords : Keywords) (name : String) : Option Value :=
  keywords.reverse.lookup name

/-- Is the value of a keyword given and true? -/
def isTrue (keywords : Keywords) (name : String) (h : Heap) : Bool :=
  (keywords.get? name).any (Value.isTrue h)

end Keywords

/-- Refuse fewer arguments than `least` and more than `most`. -/
def countArguments (function : String) (least most : Nat) (args : List Value) :
    Except Fault Unit :=
  if args.length < least then .error (.fewArguments function least args.length)
  else if most < args.length then .error (.manyArguments function most args.length)
  else .ok ()

/-- The only argument of a function that takes one. -/
def onlyArgument (function : String) : List Value → Except Fault Value
  | [v] => .ok v
  | args => .error (.exactlyOneArgument function args.length)

/-- An argument that has to be an integer. -/
def integerArgument (v : Value) : Except Fault Int64 :=
  match v.asInt? with
  | some n => .ok n
  | none => .error (.notInteger v.typeName)

namespace Value

/-- The text of an option of `print`, which may be left out. -/
def printOption (option standard : String) : Option Value → Except Fault String
  | .none | some none => .ok standard
  | some (str s) => .ok s
  | some v => .error (.badPrintOption option v.typeName)

/-- The number of items of a value. -/
def length (h : Heap) : Value → Except Fault Int64
  | list place => Arithmetic.narrow (h.items place).size
  | tuple _ items => Arithmetic.narrow items.length
  | str s => Arithmetic.narrow s.length
  | range s => Arithmetic.narrow s.length
  | v => .error (.noLength v.typeName)

/-- The absolute value of a number. -/
def absolute (v : Value) : Except Fault Value :=
  match v with
  | float x => .ok (.float x.abs)
  | v => match v.asInt? with
    | some n => .int <$> Arithmetic.absolute n
    | .none => .error (.badAbsolute v.typeName)

/-- A number or a text as an integer. A text may have blanks at its ends and underscores
anywhere. -/
def toInteger (h : Heap) (v : Value) : Except Fault Int64 :=
  match v with
  | float x => Arithmetic.truncate x
  | str s => match Decimal.readInt64? ((Text.trim s.toList).filter (· != '_')) with
    | some n => .ok n
    | .none => .error (.badIntegerText (v.written h))
  | v => match v.asInt? with
    | some n => .ok n
    | .none => .error (.badInteger v.typeName)

/-- A number or a text as a double. A text may have blanks at its ends. -/
def toReal (h : Heap) (v : Value) : Except Fault Float :=
  match v with
  | str s => match Decimal.readFloat? (Text.trim s.toList) with
    | some x => .ok x
    | .none => .error (.badRealText (v.written h))
  | v => match v.asFloat? with
    | some x => .ok x
    | .none => .error (.badReal v.typeName)

/-- The range from its one, two or three arguments. -/
def rangeOf : List Int64 → Except Fault Value
  | [stop] => .ok (.range ⟨0, stop, 1⟩)
  | [start, stop] => .ok (.range ⟨start, stop, 1⟩)
  | start :: stop :: step :: _ =>
    if step = 0 then .error .zeroRangeStep else .ok (.range ⟨start, stop, step⟩)
  | [] => .error (.fewArguments "range" 1 0)

/-- The items added up. -/
def sum (total : Value) : List Value → Compute Value
  | [] => pure total
  | v :: vs => do sum (← binary .add total v) vs

/-- The items in pairs with their numbers, the first of which is given. -/
def enumerate (start : Int64) (items : Array Value) : Compute (List Value) :=
  items.toList.zipIdx.mapM fun (v, i) => do
    let n ← Compute.of (Arithmetic.narrow (start.toInt + i))
    Compute.newTuple [.int n, v]

end Value

namespace Builtin

/-- Print the arguments on one line. -/
def runPrint (args : List Value) (keywords : Keywords) : Run Value := do
  Run.of (keywords.only "print" ["sep", "end"])
  let separator ← Run.of (Value.printOption "sep" " " (keywords.get? "sep"))
  let ending ← Run.of (Value.printOption "end" "\n" (keywords.get? "end"))
  let texts ← Run.read fun h => .ok (args.map (Value.printed h))
  Run.trace (Session.print (separator.intercalate texts ++ ending))
  pure .none

/-- Log the state of the argument. -/
def runLogState (args : List Value) : Run Value := do
  match args with
  | [] => Run.fault (.nothingToLog logState.name)
  | [v] =>
    let state ← Run.read fun h => v.toJson h
    Run.trace (Session.log state (← Run.line))
    pure .none
  | args => Run.fault (.tooMuchToLog logState.name args.length)

/-- The items of the only argument, or of the arguments if there are several. -/
def extremeArguments (function : String) : List Value → Run (Array Value)
  | [] => Run.fault (.fewArguments function 1 0)
  | [v] => Run.read fun h => h.iterate v
  | args => pure args.toArray

/-- The least or the greatest item. -/
def runExtreme (apply : Apply) (e : Extreme) (function : String) (args : List Value)
    (keywords : Keywords) : Run Value := do
  Run.of (keywords.only function ["key"])
  let items ← extremeArguments function args
  extremeItem apply e function (keywords.get? "key") items

/-- A list of the items in order. -/
def runSorted (apply : Apply) (args : List Value) (keywords : Keywords) : Run Value := do
  Run.of (keywords.only "sorted" ["key", "reverse"])
  match args with
  | [v] =>
    let items ← Run.read fun h => h.iterate v
    let reverse ← Run.read fun h => .ok (keywords.isTrue "reverse" h)
    let sorted ← sortItems apply (keywords.get? "key") reverse items
    Run.compute (Compute.newList sorted)
  | args => Run.fault (.wrongArguments "sorted" 1 args.length)

/-- The sum of the items and of a start value. -/
def runSum (args : List Value) (keywords : Keywords) : Run Value := do
  Run.of (keywords.only "sum" ["start"])
  Run.of (countArguments "sum" 1 2 args)
  let start := (args[1]?.or (keywords.get? "start")).getD (.int 0)
  match start with
  | .str _ => Run.fault .cannotSumText
  | start =>
    let items ← Run.read fun h => h.iterate (args.headD .none)
    Run.compute (Value.sum start items.toList)

/-- The items in pairs with their numbers. -/
def runEnumerate (args : List Value) (keywords : Keywords) : Run Value := do
  Run.of (keywords.only "enumerate" ["start"])
  Run.of (countArguments "enumerate" 1 2 args)
  let start ← Run.of <| match args[1]?.or (keywords.get? "start") with
    | some v => integerArgument v
    | none => .ok 0
  let items ← Run.read fun h => h.iterate (args.headD .none)
  Run.compute do
    let pairs ← Value.enumerate start items
    Compute.newList pairs.toArray

/-- The items of at most one argument. -/
def optionalItems (function : String) (args : List Value) : Run (Array Value) := do
  Run.of (countArguments function 0 1 args)
  match args with
  | [] => pure #[]
  | v :: _ => Run.read fun h => h.iterate v

/-- A conversion of at most one argument, with the result for none. -/
def runConversion (function : String) (args : List Value) (empty : Value)
    (convert : Heap → Value → Except Fault Value) : Run Value := do
  Run.of (countArguments function 0 1 args)
  match args with
  | [] => pure empty
  | v :: _ => Run.read fun h => convert h v

/-- A range. -/
def runRange (args : List Value) : Run Value := do
  Run.of (countArguments "range" 1 3 args)
  let bounds ← Run.of (args.mapM integerArgument)
  Run.of (Value.rangeOf bounds)

/-- A list of the items in reverse. -/
def runReversed (args : List Value) : Run Value := do
  let v ← Run.of (onlyArgument "reversed" args)
  let items ← Run.read fun h => h.iterate v
  Run.compute (Compute.newList items.reverse)

/-- Do something for a function that takes no keywords. -/
def plainly (b : Builtin) (keywords : Keywords) (r : Run Value) : Run Value := do
  Run.of (Keywords.none b.name keywords)
  r

/-- Call a builtin. -/
def run (apply : Apply) (b : Builtin) (args : List Value) (keywords : Keywords) : Run Value :=
  match b with
  | print => runPrint args keywords
  | min => runExtreme apply .least b.name args keywords
  | max => runExtreme apply .greatest b.name args keywords
  | sorted => runSorted apply args keywords
  | sum => runSum args keywords
  | enumerate => runEnumerate args keywords
  | logState => plainly b keywords (runLogState args)
  | len => plainly b keywords do
    let v ← Run.of (onlyArgument b.name args)
    .int <$> Run.read v.length
  | abs => plainly b keywords do
    let v ← Run.of (onlyArgument b.name args)
    Run.of v.absolute
  | range => plainly b keywords (runRange args)
  | reversed => plainly b keywords (runReversed args)
  | int => plainly b keywords <|
    runConversion b.name args (.int 0) fun h v => .int <$> v.toInteger h
  | float => plainly b keywords <|
    runConversion b.name args (.float 0.0) fun h v => .float <$> v.toReal h
  | str => plainly b keywords <|
    runConversion b.name args (.str "") fun h v => .ok (.str (v.printed h))
  | bool => plainly b keywords <|
    runConversion b.name args (.bool false) fun h v => .ok (.bool (v.isTrue h))
  | list => plainly b keywords do
    let items ← optionalItems b.name args
    Run.compute (Compute.newList items)
  | tuple => plainly b keywords do
    let items ← optionalItems b.name args
    Run.compute (Compute.newTuple items.toList)

end Builtin

end SortTrace
