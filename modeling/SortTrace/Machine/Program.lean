import SortTrace.Machine.Arguments
import SortTrace.Machine.Block

/-!
# Calls and programs

A call binds its arguments in a new frame and runs the body of the function there. When the body
ends, the frame is gone and the line is that of the call again; when it stops at a fault, the frame
stays. A call is refused when as many calls are under way as the limit allows, before its arguments
are looked at.
-/

namespace SortTrace

open Script (FunctionDef Stmt)

/-- Run the body of a function in a new frame. -/
def callIn (c : Control) : UserCall := fun f defaults args keywords => do
  let line ← Run.line
  let locals ← Run.of (bindArguments f defaults args keywords)
  Run.modifyScopes fun s => s.push ⟨f.name, line, locals, []⟩
  let flow ← runBlock c f.body
  Run.modifyScopes fun s => s.pop.2
  Run.setLine line
  pure flow.result

/-- The way to call functions when `depth` more calls can be under way at once. -/
def userCall (timeout : Option Nat) (rounds : Nat) : (depth : Nat) → UserCall
  | 0 => fun _ _ _ _ => Run.fault .recursion
  | depth + 1 => callIn ⟨userCall timeout rounds depth, timeout, rounds⟩

/-- Run a program. The frames of calls that earlier programs left count against the limit. -/
def runProgram (limits : Limits) (rounds : Nat) (program : List Stmt) : Run Unit := do
  let depth := limits.recursion - (← get).scopes.depth
  let c : Control := ⟨userCall limits.timeout rounds depth, limits.timeout, rounds⟩
  let _ ← runBlock c program

end SortTrace
