import SortTrace.Machine.ListMethod

/-!
# Evaluating expressions

Expressions are evaluated from left to right. How a function that the script defines is called is
left open here: `eval` is handed a `UserCall` for it. Everything else is settled by the expression,
and an expression that calls nothing changes nothing but the number of lists and tuples.
-/

namespace SortTrace

open Script (Expr CompareOp FunctionDef)

/-- The way to call a function that the script defines, with the values of its defaults and its
positional and keyword arguments. -/
abbrev UserCall : Type := FunctionDef → List Value → List Value → Keywords → Run Value

/-- Call a value with one argument. A builtin that is given no keywords asks for no keys, which are
therefore the items themselves. -/
def applyTo (user : UserCall) : Apply := fun f v =>
  match f with
  | .builtin b => b.run (fun _ item => pure item) [v] []
  | .function _ d defaults => user d defaults [v] []
  | f => Run.fault (.notCallable f.typeName)

/-- Call a value. -/
def call (user : UserCall) (f : Value) (args : List Value) (keywords : Keywords) : Run Value :=
  match f with
  | .builtin b => b.run (applyTo user) args keywords
  | .function _ d defaults => user d defaults args keywords
  | f => Run.fault (.notCallable f.typeName)

/-- A slice bound: an integer, or `None` for a bound left out. -/
def sliceBound (v : Value) : Except Fault (Option Int64) :=
  match v with
  | .none => .ok none
  | v => match v.asInt? with
    | some n => .ok (some n)
    | none => .error .badSliceBound

mutual

/-- The value of an expression. -/
def eval (user : UserCall) : Expr → Run Value
  | .literal v => pure (.ofLiteral v)
  | .name s => Run.lookup s
  | .list items => do
    let vs ← evalAll user items
    Run.compute (Compute.newList vs.toArray)
  | .tuple items => do
    let vs ← evalAll user items
    Run.compute (Compute.newTuple vs)
  | .unary op operand => do
    let v ← eval user operand
    Run.read fun h => v.unary h op
  | .binary op left right => do
    let v ← eval user left
    let w ← eval user right
    Run.compute (v.binary op w)
  | .logic op left right => do
    let v ← eval user left
    let holds ← Run.read fun h => .ok (v.isTrue h)
    match op, holds with
    | .and, false | .or, true => pure v
    | _, _ => eval user right
  | .compare first rest => do
    let v ← eval user first
    evalLinks user v rest
  | .ifElse condition yes no => do
    let v ← eval user condition
    if ← Run.read fun h => .ok (v.isTrue h) then eval user yes else eval user no
  | .index object subscript => do
    let v ← eval user object
    let i ← eval user subscript
    Run.read fun h => v.item h i
  | .slice object lower upper step => do
    let v ← eval user object
    let lower ← evalBound user lower
    let upper ← evalBound user upper
    let step ← evalBound user step
    Run.compute (v.slice ⟨lower, upper, step⟩)
  | .call function args keywords => do
    let f ← eval user function
    let args ← evalAll user args
    let keywords ← evalKeywords user keywords
    call user f args keywords
  | .method object method args keywords => do
    let v ← eval user object
    let args ← evalAll user args
    let keywords ← evalKeywords user keywords
    ListMethod.run (applyTo user) v method args keywords

/-- The values of expressions in order. -/
def evalAll (user : UserCall) : List Expr → Run (List Value)
  | [] => pure []
  | e :: es => do
    let v ← eval user e
    let vs ← evalAll user es
    pure (v :: vs)

/-- The values of keyword arguments in order. -/
def evalKeywords (user : UserCall) : List (String × Expr) → Run Keywords
  | [] => pure []
  | (name, e) :: rest => do
    let v ← eval user e
    let vs ← evalKeywords user rest
    pure ((name, v) :: vs)

/-- The value of a chain of comparisons whose first operand is `v`. The operands after a comparison
that fails are not evaluated. -/
def evalLinks (user : UserCall) (v : Value) : List (CompareOp × Expr) → Run Value
  | [] => pure (.bool true)
  | (op, e) :: rest => do
    let w ← eval user e
    if ← Run.read fun h => v.compare h op w then evalLinks user w rest
    else pure (.bool false)

/-- A bound of a slice. -/
def evalBound (user : UserCall) : Option Expr → Run (Option Int64)
  | none => pure none
  | some e => do
    let v ← eval user e
    Run.of (sliceBound v)

end

/-- Is the value of an expression true? -/
def holds (user : UserCall) (e : Expr) : Run Bool := do
  let v ← eval user e
  Run.read fun h => .ok (v.isTrue h)

/-- The bounds of a slice, from the expressions for them. -/
def evalSlice (user : UserCall) (lower upper step : Option Expr) : Run Slice := do
  let lower ← evalBound user lower
  let upper ← evalBound user upper
  let step ← evalBound user step
  pure ⟨lower, upper, step⟩

end SortTrace
