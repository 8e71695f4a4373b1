import SortTrace.CommandLine

/-!
# The program

Reads the file that the arguments name, if they name one, and writes the answer.
-/

namespace SortTrace.CommandLine

/-- More rounds than any loop can take. -/
def ampleRounds : Nat := 1 <<< 62

/-- The number of an error. Some come with the sign turned. -/
def errorNumber (code : UInt32) : Nat :=
  code.toInt32.toInt.natAbs

/-- The failure that an error of reading stands for. -/
def readFailure : IO.Error → ReadFailure
  | .noFileOrDirectory _ code reason | .permissionDenied _ code reason
  | .inappropriateType _ code reason | .invalidArgument _ code reason
  | .resourceExhausted _ code reason | .noSuchThing _ code reason
  | .interrupted _ code reason | .alreadyExists _ code reason
  | .otherError code reason | .resourceBusy code reason | .resourceVanished code reason
  | .unsupportedOperation code reason | .hardwareFault code reason
  | .unsatisfiedConstraints code reason | .illegalOperation code reason
  | .protocolError code reason | .timeExpired code reason =>
    .ofNumber (errorNumber code) reason
  | e => .other 0 (toString e)

/-- The text of a file, or the reason why there is none. -/
def readSource (path : String) : IO (Except ReadFailure String) := do
  try
    match String.fromUTF8? (← IO.FS.readBinFile path) with
    | some text => return .ok text
    | none => return .error .notText
  catch e =>
    return .error (readFailure e)

/-- The source that arguments give or name. -/
def sourceOf (a : Arguments) : IO (Except ReadFailure String) :=
  match a.file with
  | some path => readSource path
  | none => pure (.ok (a.code.getD ""))

/-- The answer to the arguments of the program. -/
def answer (args : List String) : IO Answer := do
  match Arguments.parse args with
  | .error halt => return .ofHalt halt
  | .ok a => return .ofArguments a (← sourceOf a) ampleRounds

end SortTrace.CommandLine

/-- Answer the arguments. -/
def main (args : List String) : IO UInt32 := do
  let answer ← SortTrace.CommandLine.answer args
  let out ← IO.getStdout
  out.write answer.stdout
  out.flush
  (← IO.getStderr).putStr answer.stderr
  return UInt32.ofNat answer.exit
