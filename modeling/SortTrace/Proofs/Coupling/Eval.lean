import SortTrace.Proofs.Coupling.Basic
import SortTrace.Proofs.Judgement.Eval

/-!
# Coupled expressions and assignments

That runs are coupled is a judgement about them (`Coupling.judgement`), and so an expression
evaluates alike in a marked program and in the stripped one (`Sim.eval`), and an assignment or an
update of a target does too, as long as calls of functions do (`SimCall`).
-/

namespace SortTrace.Coupling

open Script (Expr BinOp FunctionDef)

variable {k : Marking} (W : Coupling k)

/-- Two runs that yield recodings of the same value. -/
abbrev SimValue (r r' : Run Value) : Prop :=
  W.Sim true true k.marked.value k.stripped.value r r'

/-- Two ways to call the functions of a script that do alike. -/
def SimCall (user user' : UserCall) : Prop :=
  ∀ (d : FunctionDef) (defaults args : List Value) (keywords : Keywords),
    W.SimValue
      (user (k.marked.code d) (defaults.map k.marked.value) (args.map k.marked.value)
        (k.marked.bindings keywords))
      (user' (k.stripped.code d) (defaults.map k.stripped.value) (args.map k.stripped.value)
        (k.stripped.bindings keywords))

/-- Being coupled, as a judgement. -/
def judgement : Judgement k.marked k.stripped where
  Holds f g r r' := W.Sim true true f g r r'
  Free name := k.Inserts → name ≠ Builtin.logState.name
  pure := Sim.pure
  bind := Sim.bind
  fault e := by
    rw [Marking.fault_marked]
    exact Sim.fault e
  read := Sim.read
  compute := Sim.compute
  lookup := Sim.lookup
  bindName := Sim.bindName
  line := Sim.line
  print := Sim.print
  log := Sim.log

variable {W} {user user' : UserCall}

namespace Sim

section Expressions

variable (hu : W.SimCall user user')

include hu

/-- An expression has recodings of the same value. -/
theorem eval (e : Expr) : W.SimValue (eval user e) (eval user' e) :=
  W.judgement.eval hu e

theorem evalAll (es : List Expr) :
    W.Sim true true (List.map k.marked.value) (List.map k.stripped.value) (evalAll user es)
      (evalAll user' es) :=
  W.judgement.evalAll hu es

theorem holds (e : Expr) : W.Sim true true id id (holds user e) (holds user' e) :=
  W.judgement.holds hu e

/-! ## Assignments -/

/-- Recodings of the same value are assigned to a target. -/
theorem assign (v : Value) (target : Expr)
    (hfree : k.Inserts → target.binds Builtin.logState.name = false) :
    W.Sim true true id id (assign user target (k.marked.value v))
      (assign user' target (k.stripped.value v)) := by
  refine W.judgement.assign hu v target (fun name hname yes heq => ?_) (.inl W.judgement.lenient)
  rw [heq, hfree yes] at hname
  cases hname

theorem assignAll (v : Value) (targets : List Expr)
    (hfree : k.Inserts → Expr.anyBinds Builtin.logState.name targets = false) :
    W.Sim true true id id (assignAll user (k.marked.value v) targets)
      (assignAll user' (k.stripped.value v) targets) := by
  refine W.judgement.assignAll hu v targets (fun name hname yes heq => ?_)
    (.inl W.judgement.lenient)
  rw [heq, hfree yes] at hname
  cases hname

/-- Recodings of the same place are updated. -/
theorem update (target : Expr) (op : BinOp) (operand : Expr)
    (hfree : k.Inserts → target.binds Builtin.logState.name = false) :
    W.Sim true true id id (update user target op operand) (update user' target op operand) := by
  refine W.judgement.update hu target op operand (fun name hname yes heq => ?_)
    (.inl W.judgement.lenient)
  rw [heq, hfree yes] at hname
  cases hname

end Expressions

end Sim

end SortTrace.Coupling
