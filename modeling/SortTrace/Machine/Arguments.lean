import SortTrace.Fault
import SortTrace.Machine.Scopes

/-!
# Arguments

How the arguments of a call become the local names of the function. Positional arguments go to the
parameters in order and keyword arguments to the parameters they name, none of them twice; a
parameter without argument takes its default value.
-/

namespace SortTrace

open Script (FunctionDef Param)

/-- Bind the parameters that keyword arguments name. -/
def bindKeywords (f : FunctionDef) (bound : Bindings) :
    List (String × Value) → Except Fault Bindings
  | [] => .ok bound
  | (name, v) :: rest =>
    if !f.params.any fun p => p.name == name then .error (.unexpectedKeyword f.name name)
    else if (bound.find? name).isSome then .error (.repeatedArgument f.name name)
    else bindKeywords f (bound.insert name v) rest

/-- The default value of every parameter. The parameters with defaults are the last ones. -/
def parameterDefaults (f : FunctionDef) (defaults : List Value) : List (Option Value) :=
  List.replicate (f.params.length - defaults.length) none ++ defaults.map some

/-- The local names of a call. -/
def bindArguments (f : FunctionDef) (defaults args : List Value)
    (keywords : List (String × Value)) : Except Fault Bindings := do
  let names := f.params.map Param.name
  if names.length < args.length then
    let required := f.params.countP fun p => p.default.isNone
    throw (.tooManyPositional f.name required names.length args.length)
  let given ← bindKeywords f (names.zip args) keywords
  let filled := (names.zip (parameterDefaults f defaults)).map fun p =>
    (p.1, (given.find? p.1).or p.2)
  let missing := filled.filter fun p => p.2.isNone
  if missing.isEmpty then pure (filled.filterMap fun p => p.2.map fun v => (p.1, v))
  else throw (.missingArguments f.name (missing.map Prod.fst))

end SortTrace
