import SortTrace.Decimal.Reading
import SortTrace.Report.Summary

/-!
# The command line

The source to run is an argument of its own, CODE, or in a file. CODE may start with a hyphen: a
token that is not made of known options is a text as long as no CODE was given, so that a source
such as `-x` needs no escape. The value of an option is a text by the same rule. `Arguments.parse`
reads the arguments one after the other and stops at the first that is wrong, or at a request for
the version or for help; what is missing or cannot stand together is found at the end.

What the program answers is an `Answer`: the exit status and the two texts written. Reading a file
is left to the caller, who hands in the source or the `ReadFailure` that stands in its way.
-/

namespace SortTrace.CommandLine

/-- The options that take no value. -/
inductive Flag where
  | json | instrumented | verbose | version | help
deriving DecidableEq, Repr, Inhabited

/-- The options that take a value. -/
inductive Choice where
  | file | var | timeout | breakpoint | recursionLimit
deriving DecidableEq, Repr, Inhabited

/-- An option that the program knows. -/
inductive Known where
  | flag (f : Flag)
  | choice (c : Choice)
deriving DecidableEq, Repr, Inhabited

/-- The option of a long name. -/
def Known.ofLong? : String → Option Known
  | "json" => some (.flag .json)
  | "instrumented" => some (.flag .instrumented)
  | "verbose" => some (.flag .verbose)
  | "version" => some (.flag .version)
  | "help" => some (.flag .help)
  | "file" => some (.choice .file)
  | "var" => some (.choice .var)
  | "timeout" => some (.choice .timeout)
  | "breakpoint" => some (.choice .breakpoint)
  | "recursion-limit" => some (.choice .recursionLimit)
  | _ => none

/-- The option of a letter. -/
def Known.ofShort? : Char → Option Known
  | 'v' => some (.flag .verbose)
  | 'V' => some (.flag .version)
  | 'h' => some (.flag .help)
  | 'f' => some (.choice .file)
  | 'b' => some (.choice .breakpoint)
  | _ => none

/-- The arguments so far. -/
structure Arguments where
  code : Option String
  file : Option String
  watched : Option String
  json : Bool
  instrumented : Bool
  timeout : Option Nat
  breakpoints : List Nat
  recursion : Option Nat
deriving DecidableEq, Repr, Inhabited

namespace Arguments

/-- No argument was given. -/
def none : Arguments :=
  { code := .none
    file := .none
    watched := .none
    json := false
    instrumented := false
    timeout := .none
    breakpoints := []
    recursion := .none }

/-- The settings that arguments choose. -/
def settings (a : Arguments) : Settings :=
  { watched := a.watched.getD Settings.standardWatched
    mode := if a.json then .report else .stream
    timeout := a.timeout
    recursion := a.recursion.getD Settings.standardRecursion
    breakpoints := a.breakpoints }

end Arguments

/-- Why reading the arguments stopped early. -/
inductive Halt where
  | usage
  | version
  | help
deriving DecidableEq, Repr, Inhabited

namespace Arguments

/-- A number given as a value. -/
def number (value : String) : Except Halt Nat :=
  match Decimal.readCount? value.toList with
  | some n => .ok n
  | .none => .error .usage

/-- Give an option that was not given before. -/
def once {α : Type} (before : Option α) (value : Except Halt α) : Except Halt (Option α) := do
  let v ← value
  if before.isSome then .error .usage else .ok (some v)

/-- A path given as a value, which cannot be empty. -/
def path (value : String) : Except Halt String :=
  if value.isEmpty then .error .usage else .ok value

/-- Give an option with its value. -/
def choose (a : Arguments) (c : Choice) (value : String) : Except Halt Arguments :=
  match c with
  | .file => do return { a with file := ← once a.file (path value) }
  | .var => do return { a with watched := ← once a.watched (.ok value) }
  | .timeout => do return { a with timeout := ← once a.timeout (number value) }
  | .recursionLimit => do return { a with recursion := ← once a.recursion (number value) }
  | .breakpoint => do return { a with breakpoints := a.breakpoints ++ [← number value] }

/-- Give an option that takes no value. Only `verbose` may be repeated. -/
def raise (a : Arguments) (f : Flag) : Except Halt Arguments :=
  match f with
  | .json => if a.json then .error .usage else .ok { a with json := true }
  | .instrumented =>
    if a.instrumented then .error .usage else .ok { a with instrumented := true }
  | .verbose => .ok a
  | .version => .error .version
  | .help => .error .help

/-- Give the source. -/
def provide (a : Arguments) (code : String) : Except Halt Arguments :=
  if a.code.isSome then .error .usage else .ok { a with code := some code }

/-- Give the letters of a token. The letters after an option that takes a value are its value; when
there are none, the next token is, and the option is handed back. -/
def letters (a : Arguments) : List Char → Except Halt (Arguments × Option Choice)
  | [] => .ok (a, .none)
  | c :: rest =>
    match Known.ofShort? c with
    | .none => .error .usage
    | some (.flag f) => do letters (← a.raise f) rest
    | some (.choice choice) =>
      match rest with
      | [] => .ok (a, some choice)
      | '=' :: value => do return (← a.choose choice (String.ofList value), .none)
      | value => do return (← a.choose choice (String.ofList value), .none)

/-- Give a long option with the value attached to it, if there is one. -/
def long (a : Arguments) (o : Known) (attached : Option String) :
    Except Halt (Arguments × Option Choice) :=
  match o, attached with
  | .flag f, .none => do return (← a.raise f, .none)
  | .flag _, some _ => .error .usage
  | .choice c, some value => do return (← a.choose c value, .none)
  | .choice c, .none => .ok (a, some c)

end Arguments

/-- What a token is by its looks. -/
inductive Token where
  /-- The mark after which nothing is an option. -/
  | escape
  | long (name : String) (attached : Option String)
  | short (letters : List Char)
  | word
deriving DecidableEq, Repr, Inhabited

/-- Tell the looks of a token. -/
def Token.ofString (token : String) : Token :=
  match token.toList with
  | ['-', '-'] => escape
  | '-' :: '-' :: body =>
    let name := String.ofList (body.takeWhile (· != '='))
    match body.dropWhile (· != '=') with
    | [] => long name none
    | _ :: value => long name (some (String.ofList value))
  | '-' :: c :: rest => short (c :: rest)
  | _ => word

namespace Arguments

/-- Is a token a text, and not made of options? While no source was given, a token that starts with
a hyphen and is not made of known options is a text too. -/
def takesAsText (a : Arguments) : Token → Bool
  | .word => true
  | .escape => false
  | .long name _ => a.code.isNone && (Known.ofLong? name).isNone
  | .short letters => a.code.isNone && letters.any fun c => (Known.ofShort? c).isNone

/-- Give one token, which is not the value of an option. -/
def give (a : Arguments) (token : String) : Except Halt (Arguments × Option Choice) :=
  let looks := Token.ofString token
  if a.takesAsText looks then do return (← a.provide token, .none)
  else match looks with
    | .long name attached => match Known.ofLong? name with
      | some o => a.long o attached
      | .none => .error .usage
    | .short letters => a.letters letters
    | .word | .escape => .error .usage

/-- Read tokens; `pending` is the option whose value is next, which must be a text. -/
def read (a : Arguments) : (pending : Option Choice) → List String → Except Halt Arguments
  | .none, [] => .ok a
  | some _, [] => .error .usage
  | some c, token :: rest =>
    if a.takesAsText (Token.ofString token) then do read (← a.choose c token) .none rest
    else .error .usage
  | .none, token :: rest =>
    if Token.ofString token = .escape then rest.foldlM provide a
    else do
      let (a, pending) ← a.give token
      read a pending rest

/-- Refuse arguments that lack a source, have two, or ask for two kinds of output. -/
def check (a : Arguments) : Except Halt Unit :=
  if a.code.isSome == a.file.isSome || (a.json && a.instrumented) then .error .usage else .ok ()

/-- Read all arguments. -/
def parse (args : List String) : Except Halt Arguments := do
  let a ← Arguments.none.read .none args
  a.check
  return a

end Arguments

/-- Why the text of a file cannot be had. -/
inductive ReadFailure where
  /-- Nothing has this path. -/
  | missing
  | denied
  /-- The path leads on below something that is no directory. -/
  | notDirectory
  /-- The path is that of a directory. -/
  | directory
  | longName
  | linkLoop
  /-- The bytes of the file are no text. -/
  | notText
  /-- Any other failure, with the number and the words of the operating system. -/
  | other (number : Nat) (reason : String)
deriving DecidableEq, Repr, Inhabited

namespace ReadFailure

/-- The failure that the operating system gives a number; its words are kept where the number has no
case of its own. -/
def ofNumber (number : Nat) (reason : String) : ReadFailure :=
  match number with
  | 2 => missing
  | 13 => denied
  | 20 => notDirectory
  | 21 => directory
  | 36 => longName
  | 40 => linkLoop
  | _ => other number reason

/-- A failure that the operating system numbers. -/
def numbered (number : Nat) (reason : String) : String :=
  s!"{reason} (os error {number})"

/-- The words for a failure. -/
def message : ReadFailure → String
  | missing => numbered 2 "No such file or directory"
  | denied => numbered 13 "Permission denied"
  | notDirectory => numbered 20 "Not a directory"
  | directory => numbered 21 "Is a directory"
  | longName => numbered 36 "File name too long"
  | linkLoop => numbered 40 "Too many levels of symbolic links"
  | notText => "stream did not contain valid UTF-8"
  | other number reason => numbered number reason

end ReadFailure

/-- What the program answers. -/
structure Answer where
  exit : Nat
  stdout : ByteArray
  stderr : String
deriving Inhabited

namespace Answer

/-- The version of the program. -/
def version : String := "codeflow-debugger 0.1.0"

/-- How the program is called. -/
def usage : String :=
  "Usage: codeflow-debugger [OPTIONS] [CODE]"

/-- What the program does, how it is called, and what each argument means. -/
def help : String :=
  "\n".intercalate [
    "Run a sorting snippet, printing the watched list after every element assignment",
    "",
    usage,
    "",
    "Arguments:",
    "  [CODE]  Source code to run",
    "",
    "Options:",
    "  -f, --file <PATH>          Read the source from a file instead",
    "      --var <NAME>           Name of the list whose element assignments are logged "
      ++ "[default: arr]",
    "      --json                 Print one JSON report instead of marker lines",
    "      --instrumented         Print the instrumented source and exit",
    "      --timeout <SECS>       Abort execution after this many seconds",
    "  -b, --breakpoint <LINE>    Flag states logged at this source line in the report "
      ++ "(repeatable)",
    "      --recursion-limit <N>  Maximum call depth [default: 1000]",
    "  -v, --verbose...           More diagnostics on stderr (-v, -vv, -vvv)",
    "  -h, --help                 Print help",
    "  -V, --version              Print version"]

/-- An answer of one line. -/
def line (text : String) : Answer :=
  ⟨0, (text ++ "\n").toUTF8, ""⟩

/-- A failure with its cause, each further line of which is indented. -/
def failure (what cause : String) : Answer :=
  let shown := "\n    ".intercalate (Text.lines cause)
  ⟨1, .empty, s!"Error: {what}\n\nCaused by:\n    {shown}\n"⟩

/-- The answer when reading the arguments stopped early. -/
def ofHalt : Halt → Answer
  | .usage => ⟨2, .empty, usage ++ "\n"⟩
  | .version => line version
  | .help => line help

/-- The answer to a run. -/
def ofRun (source : String) (mode : Mode) : Except Failure Outcome → Answer
  | .error (.settings f) => failure "execution failed" f.message
  | .error (.output message sink) =>
    { failure "execution failed" message with stdout := sink.bytes }
  | .error .outOfRounds => failure "execution failed" "out of rounds"
  | .ok o => match mode with
    | .stream => ⟨0, o.session.sink.bytes, ""⟩
    | .report => line (Report.ofOutcome source o).spread

/-- The answer to arguments, with the source they name or the reason why it cannot be read. -/
def ofArguments (a : Arguments) (source : Except ReadFailure String) (rounds : Nat) : Answer :=
  match source with
  | .error f => failure ("failed to read " ++ a.file.getD "") f.message
  | .ok source =>
    let settings := a.settings
    match settings.check with
    | .error f => failure "invalid options" f.message
    | .ok () =>
      if a.instrumented then line (Source.Instrumented.ofSource source settings.watched).text
      else ofRun source settings.mode (runSource source settings none rounds)

end Answer

end SortTrace.CommandLine
