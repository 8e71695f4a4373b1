import SortTrace.Machine.Scopes
import SortTrace.Machine.Session
import SortTrace.Value.Operator
import SortTrace.Value.Subscript
import SortTrace.Value.Written

/-!
# The machine that scripts run on

A `Machine` holds all that a statement can change: the scopes, the lists, the session, the line of
the statement under way and the number of ticks so far. A `Run` changes a machine and ends with a
result or with a `Stop`, and the machine stays as it was left in either case: after a fault, the
frames of the calls under way are still there.

A tick is a statement or a finished round of a loop. The time is looked at only at every 1024th
tick. There is no clock in here: a limit of zero seconds has passed by then, and a longer one counts
as not reached.
-/

namespace SortTrace

/-- What stops a run. -/
inductive Stop where
  | fault (f : Fault)
  /-- A loop took more rounds than the run was given. -/
  | outOfRounds
deriving Repr, Inhabited

/-- The state of a running script. -/
structure Machine where
  scopes : Scopes
  heap : Heap
  session : Session
  /-- The line of the statement under way. -/
  line : Nat
  ticks : Nat
deriving Inhabited

/-- A machine on which nothing has run. -/
def Machine.start (session : Session) : Machine :=
  { scopes := .empty, heap := .empty, session, line := 0, ticks := 0 }

/-- The limits of a run. -/
structure Limits where
  /-- The number of calls that can be under way at once. -/
  recursion : Nat
  /-- The time a run may take, in seconds. -/
  timeout : Option Nat
deriving DecidableEq, Repr, Inhabited

/-- Something that a machine does. -/
abbrev Run (α : Type) : Type := EStateM Stop Machine α

namespace Run

/-- Stop at a fault. -/
def fault {α : Type} (f : Fault) : Run α :=
  throw (.fault f)

/-- The outcome of something computed without the machine. -/
def of {α : Type} : Except Fault α → Run α
  | .ok a => pure a
  | .error f => fault f

/-- Something that only reads lists. -/
def read {α : Type} (f : Heap → Except Fault α) : Run α := do
  of (f (← get).heap)

/-- Something that concerns only lists. -/
def compute {α : Type} (c : Compute α) : Run α := fun m =>
  -- the heap is taken out of the machine meanwhile, so that it has one owner
  let heap := m.heap
  let m := { m with heap := .empty }
  match c heap with
  | .ok a heap => .ok a { m with heap }
  | .error f heap => .error (.fault f) { m with heap }

/-- Something that concerns only the session. -/
def trace {α : Type} (t : EStateM Fault Session α) : Run α := fun m =>
  let session := m.session
  let m := { m with session := default }
  match t session with
  | .ok a session => .ok a { m with session }
  | .error f session => .error (.fault f) { m with session }

/-- The line of the statement under way. -/
def line : Run Nat := do
  return (← get).line

/-- Go to a line. -/
def setLine (line : Nat) : Run Unit :=
  modify fun m => { m with line }

/-- The value of a name: what is bound to it, else the builtin of that name. -/
def lookup (name : String) : Run Value := do
  match (← get).scopes.lookup name with
  | some v => pure v
  | none => match Builtin.ofName? name with
    | some b => pure (.builtin b)
    | none => fault (.unboundName name)

/-- Change the scopes. -/
def modifyScopes (f : Scopes → Scopes) : Run Unit :=
  modify fun m => { m with scopes := f m.scopes }

/-- Bind a name. -/
def bind (name : String) (v : Value) : Run Unit :=
  modifyScopes fun s => s.assign name v

/-- The number of ticks between two looks at the time. -/
def ticksPerLook : Nat := 1024

/-- Count a tick, and stop if it is time to look and the time is over. -/
def tick (timeout : Option Nat) : Run Unit := do
  modify fun m => { m with ticks := m.ticks + 1 }
  if (← get).ticks % ticksPerLook = 0 && timeout = some 0 then fault (.timeout 0)

end Run

end SortTrace
