import SortTrace.Machine.Session

/-!
# Settings of a run

What the user chooses for a run, and what is wrong with a choice that cannot be.
-/

namespace SortTrace

/-- The choices for a run. -/
structure Settings where
  /-- The name of the watched list. -/
  watched : String
  mode : Mode
  /-- The time a run may take, in seconds. -/
  timeout : Option Nat
  /-- The number of calls that can be under way at once. -/
  recursion : Nat
  /-- The lines whose states are marked. -/
  breakpoints : List Nat
deriving DecidableEq, Repr, Inhabited

namespace Settings

/-- The name of the watched list unless another is chosen. -/
def standardWatched : String := "arr"

/-- The recursion limit unless another is chosen. -/
def standardRecursion : Nat := 1000

/-- The settings when nothing is chosen. -/
def standard : Settings :=
  { watched := standardWatched
    mode := .stream
    timeout := none
    recursion := standardRecursion
    breakpoints := [] }

end Settings

/-- Is the text a name in ASCII: letters, digits and underscores, with no digit at the start? -/
def isIdentifier (s : String) : Bool :=
  match s.toList with
  | [] => false
  | c :: cs => (c == '_' || c.isAlpha) && cs.all fun c => c == '_' || c.isAlphanum

/-- What is wrong with settings. -/
inductive SettingsFault where
  | badVariable (name : String)
  | noRecursion
deriving DecidableEq, Repr, Inhabited

/-- The description of what is wrong. -/
def SettingsFault.message : SettingsFault → String
  | badVariable name => s!"'{name}' is not a valid variable name"
  | noRecursion => "recursion limit must be at least 1"

/-- Refuse settings that cannot be. -/
def Settings.check (s : Settings) : Except SettingsFault Unit :=
  if !isIdentifier s.watched then .error (.badVariable s.watched)
  else if s.recursion = 0 then .error .noRecursion
  else .ok ()

end SortTrace
