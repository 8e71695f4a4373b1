/-!
# Faults

Everything that can stop a script: a text that does not parse, an operation its operands do not
support, a limit that is reached, an output that cannot be written. A `Fault` has a kind, the name
a report shows, and a message, the description printed after the error marker.

The messages of the operations are collected here as named faults, so that each wording stands in
one place and the code that raises it says what went wrong rather than how to put it.
-/

namespace SortTrace

/-- Why a script stopped. -/
inductive Fault where
  /-- The text is not a program. `line` is the line of the source as the user wrote it. -/
  | syntaxError (message : String) (line : Nat)
  /-- A name that is bound nowhere. -/
  | unboundName (name : String)
  | badIndex (message : String)
  | badType (message : String)
  | badValue (message : String)
  | zeroDivision (message : String)
  | missingAttribute (message : String)
  /-- More nested calls than the limit allows. -/
  | recursion
  /-- An integer beyond 64 bits. -/
  | overflow
  /-- A sequence of that many items is too long to be built. -/
  | oversize (items : Nat)
  | timeout (seconds : Nat)
  /-- The output refused what was written to it. -/
  | output (message : String)
deriving DecidableEq, Repr, Inhabited

namespace Fault

/-- The name of the kind of fault. -/
def kind : Fault → String
  | syntaxError .. => "SyntaxError"
  | unboundName _ => "NameError"
  | badIndex _ => "IndexError"
  | badType _ => "TypeError"
  | badValue _ => "ValueError"
  | zeroDivision _ => "ZeroDivisionError"
  | missingAttribute _ => "AttributeError"
  | recursion => "RecursionError"
  | overflow => "OverflowError"
  | oversize _ => "MemoryError"
  | timeout _ => "TimeoutError"
  | output _ => "OSError"

/-- The description of a fault. -/
def message : Fault → String
  | syntaxError text line => s!"{text} (<string>, line {line})"
  | unboundName name => s!"name '{name}' is not defined"
  | badIndex text | badType text | badValue text | zeroDivision text => text
  | missingAttribute text => text
  | recursion => "maximum recursion depth exceeded"
  | overflow => "integer overflow"
  | oversize items => s!"cannot build a sequence of {items} items"
  | timeout seconds => s!"execution timed out after {seconds} seconds"
  | output text => s!"output error: {text}"

/-- The word for a number of arguments. -/
def arguments (n : Nat) : String :=
  if n = 1 then "argument" else "arguments"

/-! ## Operands of the wrong type -/

def notIterable (kind : String) : Fault :=
  badType s!"'{kind}' object is not iterable"

def notCallable (kind : String) : Fault :=
  badType s!"'{kind}' object is not callable"

def notSubscriptable (kind : String) : Fault :=
  badType s!"'{kind}' object is not subscriptable"

def noItemAssignment (kind : String) : Fault :=
  badType s!"'{kind}' object does not support item assignment"

def badSubscript (container kind : String) : Fault :=
  badType s!"{container} indices must be integers or slices, not {kind}"

def badTextSubscript (kind : String) : Fault :=
  badType s!"string indices must be integers, not '{kind}'"

def badSliceBound : Fault :=
  badType "slice indices must be integers or None"

def badUnary (operator kind : String) : Fault :=
  badType s!"bad operand type for unary {operator}: '{kind}'"

def badOperands (operator left right : String) : Fault :=
  badType s!"unsupported operand type(s) for {operator}: '{left}' and '{right}'"

def badConcatenation (sequence kind : String) : Fault :=
  badType s!"can only concatenate {sequence} (not \"{kind}\") to {sequence}"

def unorderable (operator left right : String) : Fault :=
  badType s!"'{operator}' not supported between instances of '{left}' and '{right}'"

def notContainer (kind : String) : Fault :=
  badType s!"argument of type '{kind}' is not iterable"

def badTextMember (kind : String) : Fault :=
  badType s!"'in <string>' requires string as left operand, not {kind}"

def notSerializable (kind : String) : Fault :=
  badType s!"Object of type {kind} is not JSON serializable"

def notInteger (kind : String) : Fault :=
  badType s!"'{kind}' object cannot be interpreted as an integer"

def noLength (kind : String) : Fault :=
  badType s!"object of type '{kind}' has no len()"

def badAbsolute (kind : String) : Fault :=
  badType s!"bad operand type for abs(): '{kind}'"

def badInteger (kind : String) : Fault :=
  badType s!"int() argument must be a string, a bytes-like object or a real number, not '{kind}'"

def badReal (kind : String) : Fault :=
  badType s!"float() argument must be a string or a real number, not '{kind}'"

def badPrintOption (option kind : String) : Fault :=
  badType s!"{option} must be None or a string, not {kind}"

def cannotSumText : Fault :=
  badType "sum() can't sum strings [use ''.join(seq) instead]"

/-! ## Subscripts and values -/

def indexOutOfRange (container : String) : Fault :=
  badIndex s!"{container} index out of range"

def assignmentOutOfRange : Fault :=
  badIndex "list assignment index out of range"

def popFromEmpty : Fault :=
  badIndex "pop from empty list"

def popOutOfRange : Fault :=
  badIndex "pop index out of range"

def zeroSliceStep : Fault :=
  badValue "slice step cannot be zero"

def zeroRangeStep : Fault :=
  badValue "range() arg 3 must not be zero"

def slotMismatch (items slots : Nat) : Fault :=
  badValue s!"attempt to assign sequence of size {items} to extended slice of size {slots}"

def tooManyToUnpack (expected : Nat) : Fault :=
  badValue s!"too many values to unpack (expected {expected})"

def tooFewToUnpack (expected got : Nat) : Fault :=
  badValue s!"not enough values to unpack (expected {expected}, got {got})"

def emptySequence (function : String) : Fault :=
  badValue s!"{function}() arg is an empty sequence"

def negativeShift : Fault :=
  badValue "negative shift count"

def nanToInteger : Fault :=
  badValue "cannot convert float NaN to integer"

def badIntegerText (written : String) : Fault :=
  badValue s!"invalid literal for int() with base 10: {written}"

def badRealText (written : String) : Fault :=
  badValue s!"could not convert string to float: {written}"

def notInList (written : String) : Fault :=
  badValue s!"{written} is not in list"

def circular : Fault :=
  badValue "Circular reference detected"

/-! ## Division by zero -/

def divideByZero : Fault :=
  zeroDivision "division by zero"

def floorDivideByZero : Fault :=
  zeroDivision "integer division or modulo by zero"

def moduloByZero : Fault :=
  zeroDivision "integer modulo by zero"

def realDivideByZero : Fault :=
  zeroDivision "float division by zero"

def realFloorDivideByZero : Fault :=
  zeroDivision "float floor division by zero"

def realModuloByZero : Fault :=
  zeroDivision "float modulo"

def zeroToNegativePower : Fault :=
  zeroDivision "0.0 cannot be raised to a negative power"

/-! ## Calls -/

def noSuchMethod (kind method : String) : Fault :=
  missingAttribute s!"'{kind}' object has no attribute '{method}'"

def exactlyOneArgument (function : String) (given : Nat) : Fault :=
  badType s!"{function}() takes exactly one argument ({given} given)"

def noArguments (function : String) (given : Nat) : Fault :=
  badType s!"{function}() takes no arguments ({given} given)"

def noPositionalArguments (function : String) : Fault :=
  badType s!"{function}() takes no positional arguments"

def fewArguments (function : String) (least given : Nat) : Fault :=
  badType s!"{function} expected at least {least} {arguments least}, got {given}"

def manyArguments (function : String) (most given : Nat) : Fault :=
  badType s!"{function} expected at most {most} {arguments most}, got {given}"

def wrongArguments (function : String) (expected given : Nat) : Fault :=
  badType s!"{function} expected {expected} {arguments expected}, got {given}"

def noKeywords (function : String) : Fault :=
  badType s!"{function}() takes no keyword arguments"

def badKeyword (function keyword : String) : Fault :=
  badType s!"'{keyword}' is an invalid keyword argument for {function}()"

def nothingToLog (function : String) : Fault :=
  badType s!"{function}() missing 1 required positional argument: 'arr'"

def tooMuchToLog (function : String) (given : Nat) : Fault :=
  badType s!"{function}() takes 1 positional argument but {given} were given"

/-- More positional arguments than parameters, of which `required` have no default. -/
def tooManyPositional (function : String) (required parameters given : Nat) : Fault :=
  let expected :=
    if required = parameters then toString parameters else s!"from {required} to {parameters}"
  let noun := if required = parameters then arguments parameters else "arguments"
  let verb := if given = 1 then "was" else "were"
  badType s!"{function}() takes {expected} positional {noun} but {given} {verb} given"

def unexpectedKeyword (function keyword : String) : Fault :=
  badType s!"{function}() got an unexpected keyword argument '{keyword}'"

def repeatedArgument (function keyword : String) : Fault :=
  badType s!"{function}() got multiple values for argument '{keyword}'"

/-- The names in quotes, with commas and a final "and". -/
def nameList (names : List String) : String :=
  match names.map (fun name => s!"'{name}'") with
  | [] => ""
  | [one] => one
  | [one, other] => s!"{one} and {other}"
  | many => ", ".intercalate many.dropLast ++ ", and " ++ many.getLastD ""

def missingArguments (function : String) (names : List String) : Fault :=
  let n := names.length
  badType s!"{function}() missing {n} required positional {arguments n}: {nameList names}"

end Fault

end SortTrace
