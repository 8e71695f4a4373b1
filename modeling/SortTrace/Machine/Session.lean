import SortTrace.Fault
import SortTrace.Report.Json

/-!
# Trace sessions

The channel between a running script and the outside. In stream mode the printed text and a marker
line for every logged state go to the output in the order in which they arise. In report mode
nothing is written: the printed text is captured and the states are recorded as steps.

The output may accept only a certain number of bytes. A text that does not fit is written as far as
it does, and refused.
-/

namespace SortTrace

/-- How a session delivers what it is told. -/
inductive Mode where
  | stream
  | report
deriving DecidableEq, Repr, Inhabited

/-- An output, with the number of bytes that it still accepts if that is limited. -/
structure Sink where
  bytes : ByteArray
  room : Option Nat
deriving Inhabited

namespace Sink

/-- Nothing is written yet. -/
def empty (room : Option Nat) : Sink := ⟨.empty, room⟩

/-- The description of the failure to write to a full output. -/
def full : String := "sink full"

/-- Write a text. -/
def write (text : String) : EStateM Fault Sink Unit := fun s =>
  let new := text.toUTF8
  match s.room with
  | none => .ok () { s with bytes := s.bytes ++ new }
  | some room =>
    if new.size ≤ room then .ok () ⟨s.bytes ++ new, some (room - new.size)⟩
    else .error (.output full) ⟨s.bytes ++ new.extract 0 room, some 0⟩

end Sink

/-- A recorded state. -/
structure Step where
  /-- The number of the state among all logged ones, from one. -/
  number : Nat
  /-- The line of the statement that logged it. -/
  line : Nat
  state : Report.Json
  breakpoint : Bool
deriving Repr, Inhabited

/-- The document of a step; only a breakpoint is mentioned. -/
def Step.toJson (s : Step) : Report.Json :=
  .object <|
    [("step", .int s.number), ("line", .int s.line), ("state", s.state)]
      ++ if s.breakpoint then [("breakpoint", .bool true)] else []

/-- A session. -/
structure Session where
  mode : Mode
  /-- The lines whose states are marked. -/
  breakpoints : List Nat
  sink : Sink
  steps : Array Step
  captured : String
  /-- The number of logged states. -/
  states : Nat
deriving Inhabited

namespace Session

/-- A session before anything happened. -/
def start (mode : Mode) (breakpoints : List Nat) (room : Option Nat) : Session :=
  { mode, breakpoints, sink := .empty room, steps := #[], captured := "", states := 0 }

/-- What every state line starts with. -/
def stateMarker : String := "STATE:"

/-- What every error line starts with. -/
def errorMarker : String := "Error: "

/-- Write a text to the output. -/
def write (text : String) : EStateM Fault Session Unit := fun s =>
  -- the sink is taken out of the session meanwhile, so that it has one owner
  let sink := s.sink
  let s := { s with sink := .empty none }
  match Sink.write text sink with
  | .ok _ sink => .ok () { s with sink }
  | .error f sink => .error f { s with sink }

/-- Log a state at a line. -/
def log (state : Report.Json) (line : Nat) : EStateM Fault Session Unit := do
  modify fun s => { s with states := s.states + 1 }
  match (← get).mode with
  | .stream => write (stateMarker ++ state.oneLine ++ "\n")
  | .report =>
    modify fun s =>
      let step : Step := ⟨s.states, line, state, s.breakpoints.contains line⟩
      { s with steps := s.steps.push step }

/-- Deliver a text that the script printed. -/
def print (text : String) : EStateM Fault Session Unit := do
  match (← get).mode with
  | .stream => write text
  | .report => modify fun s => { s with captured := s.captured ++ text }

/-- Tell that the script stopped at a fault. -/
def fail (f : Fault) : EStateM Fault Session Unit := do
  match (← get).mode with
  | .stream => write (errorMarker ++ f.message ++ "\n")
  | .report => pure ()

end Session

end SortTrace
