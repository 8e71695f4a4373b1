import SortTrace.Machine.Session

/-!
# Events

What a run tells its session is a list of events: texts that the script prints and states that it
logs.
-/

namespace SortTrace

open Report (Json)

/-- What a run tells its session. -/
inductive Event where
  | printed (text : String)
  | logged (state : Json) (line : Nat)
deriving Repr, Inhabited

namespace Event

/-- What the event puts out in stream mode. -/
def text : Event → String
  | printed text => text
  | logged state _ => Session.stateMarker ++ state.oneLine ++ "\n"

/-- The printed text. -/
def printedText : Event → String
  | printed text => text
  | logged .. => ""

/-- The logged state with its line. -/
def state? : Event → Option (Json × Nat)
  | printed _ => none
  | logged state line => some (state, line)

/-- The logged states with their lines. -/
def states (events : List Event) : List (Json × Nat) :=
  events.filterMap state?

/-- The steps that report mode records, numbered from one. -/
def steps (breakpoints : List Nat) (events : List Event) : List Step :=
  ((states events).zipIdx 1).map fun ((state, line), number) =>
    ⟨number, line, state, breakpoints.contains line⟩

variable (breakpoints : List Nat) (events : List Event)

@[simp] theorem states_printed (text : String) :
    states (events ++ [printed text]) = states events := by
  simp only [states, List.filterMap_append]
  exact List.append_nil _

@[simp] theorem states_logged (state : Json) (line : Nat) :
    states (events ++ [logged state line]) = states events ++ [(state, line)] := by
  simp only [states, List.filterMap_append]
  rfl

theorem steps_printed (text : String) :
    steps breakpoints (events ++ [printed text]) = steps breakpoints events := by
  rw [steps, steps, states_printed]

theorem steps_logged (state : Json) (line : Nat) :
    steps breakpoints (events ++ [logged state line])
      = steps breakpoints events
        ++ [⟨(states events).length + 1, line, state, breakpoints.contains line⟩] := by
  simp [steps, List.zipIdx_append, Nat.add_comm]

end Event

end SortTrace
