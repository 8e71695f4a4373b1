import SortTrace.Text.Blank
import SortTrace.Text.Lines
import SortTrace.Value.Basic

/-!
# Instrumented sources

Every line that seems to write an item of the watched list is followed by a call that logs the list.
Whether a line does so is judged by its characters alone. The call stands at the indentation of its
line, or one step deeper when the line opens a block, of which the call becomes the first statement.

Beside its lines an `Instrumented` source has the number of the source line that each of them came
from, so that whatever is said about it can be said about that line, and the positions of the calls.
All three are built in one pass over the source.
-/

namespace SortTrace.Source

/-- Lines with this text in them are left alone. -/
def exclusion : String := "temp"

/-- Does the line seem to write an item of the list `var`? -/
def isMutation (line var : String) : Bool :=
  Text.occurs (var ++ "[").toList line.toList
    && Text.occurs ['='] line.toList
    && !Text.occurs exclusion.toList line.toList

/-- The blanks and tabs that a line starts with. -/
def indentation (line : String) : List Char :=
  line.toList.takeWhile fun c => c = ' ' ∨ c = '\t'

/-- Does a line open a block? -/
def opensBlock (line : String) : Bool :=
  (Text.trimRight line.toList).getLast? == some ':'

/-- The further indentation of a block. -/
def blockIndentation : String := "    "

/-- The call put after a line to log the list `var`. -/
def logCall (line var : String) : String :=
  String.ofList (indentation line) ++ (if opensBlock line then blockIndentation else "")
    ++ Builtin.logState.name ++ "(" ++ var ++ ")"

/-- A source with logging calls. -/
structure Instrumented where
  /-- The lines. -/
  lines : List String
  /-- The number of the source line that each line came from, from one. -/
  origins : List Nat
  /-- The positions of the calls that were put in, from zero. -/
  injections : List Nat
deriving DecidableEq, Repr, Inhabited

namespace Instrumented

/-- Put source lines behind what is there, with a logging call after each that asks for one. The
first of them has the number `n`. -/
def interleave (var : String) (n : Nat) (lines : Array String) (origins injections : Array Nat) :
    List String → Instrumented
  | [] => ⟨lines.toList, origins.toList, injections.toList⟩
  | line :: rest =>
    let lines := lines.push line
    let origins := origins.push n
    if isMutation line var then
      interleave var (n + 1) (lines.push (logCall line var)) (origins.push n)
        (injections.push lines.size) rest
    else interleave var (n + 1) lines origins injections rest

/-- A source with logging calls for the list `var`. -/
def ofSource (source var : String) : Instrumented :=
  interleave var 1 #[] #[] #[] (Text.lines source)

/-- The number of lines. -/
def length (s : Instrumented) : Nat :=
  s.lines.length

/-- The text. -/
def text (s : Instrumented) : String :=
  Text.unlines s.lines

/-- The source line of the line of a number, from one. -/
def originOf? (s : Instrumented) (n : Nat) : Option Nat :=
  if n = 0 then none else s.origins[n - 1]?

/-- Is `x` one of the `size` increasing numbers that stand from `base` on? The half that `x` cannot
be in is left out until one number is left. -/
def searchFrom (ns : Array Nat) (x base size : Nat) : Bool :=
  if 1 < size then
    let half := size / 2
    let base := if ns[base + half]?.any (x < ·) then base else base + half
    searchFrom ns x base (size - half)
  else ns[base]? == some x
termination_by size

/-- Was the line of a number put in? -/
def isInjected (s : Instrumented) (n : Nat) : Bool :=
  let positions := s.injections.toArray
  n != 0 && searchFrom positions (n - 1) 0 positions.size

end Instrumented

end SortTrace.Source
