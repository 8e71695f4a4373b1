import SortTrace.Machine.Program
import SortTrace.Script.Parsing.Program
import SortTrace.Settings
import SortTrace.Source.Instrumented

/-!
# Runs of a source

A source is instrumented, read as a program and run from the start. That it does not parse, or stops
at a fault, is part of a normal outcome: the fault is told to the session, and the outcome is kept.
A run fails only when its settings cannot be or when the output refuses to be told.
-/

namespace SortTrace

/-- Read a source as a program with logging calls for the list `var`. -/
def programOf (source var : String) : Except Fault (List Script.Stmt) :=
  let s := Source.Instrumented.ofSource source var
  Script.parseProgram s.text s.origins.toArray

/-- Instrument a source and run it. -/
def runText (limits : Limits) (rounds : Nat) (source var : String) : Run Unit := do
  let program ← Run.of (programOf source var)
  runProgram limits rounds program

/-- What a run came to. -/
structure Outcome where
  /-- The fault it stopped at. -/
  fault : Option Fault
  session : Session
deriving Inhabited

/-- Why there is no outcome. -/
inductive Failure where
  | settings (f : SettingsFault)
  /-- The output, with what is written to it, refused the message of a fault. -/
  | output (message : String) (sink : Sink)
  /-- A loop took more rounds than the run was given. -/
  | outOfRounds
deriving Inhabited

/-- The description that the output gives of its own failure. -/
def outputMessage : Fault → String
  | .output message => message
  | f => f.message

/-- The limits that settings put on a run. -/
def Settings.limits (s : Settings) : Limits :=
  ⟨s.recursion, s.timeout⟩

/-- Run a source with an output that may accept only some bytes. -/
def runSource (source : String) (settings : Settings) (room : Option Nat) (rounds : Nat) :
    Except Failure Outcome :=
  match settings.check with
  | .error f => .error (.settings f)
  | .ok () =>
    let session := Session.start settings.mode settings.breakpoints room
    let run := runText settings.limits rounds source settings.watched
    match run (Machine.start session) with
    | .ok () m => .ok ⟨none, m.session⟩
    | .error (.fault f) m => match Session.fail f m.session with
      | .ok () session => .ok ⟨some f, session⟩
      | .error refusal session => .error (.output (outputMessage refusal) session.sink)
    | .error .outOfRounds _ => .error .outOfRounds

end SortTrace
