import SortTrace.Machine.Eval

/-!
# Assignments

A value is assigned to a name, an item, a slice, or item by item to several targets. An update
evaluates its target once: the place that is read is the place that is written.
-/

namespace SortTrace

open Script (Expr BinOp)

/-- The items of a value, of which there have to be `count`. -/
def unpack (count : Nat) (v : Value) : Run (List Value) := do
  let items ← Run.read fun h => h.iterate v
  if count < items.size then Run.fault (.tooManyToUnpack count)
  else if items.size < count then Run.fault (.tooFewToUnpack count items.size)
  else pure items.toList

/-- Stop at something that does not belong where it stands. -/
def misplaced {α : Type} (message : String) : Run α := do
  Run.fault (.syntaxError message (← Run.line))

mutual

/-- Assign a value to a target. -/
def assign (user : UserCall) : Expr → Value → Run Unit
  | .name s, v => Run.bind s v
  | .index object subscript, v => do
    let o ← eval user object
    let i ← eval user subscript
    Run.compute (o.setItem i v)
  | .slice object lower upper step, v => do
    let o ← eval user object
    let s ← evalSlice user lower upper step
    Run.compute (o.setSlice s v)
  | .tuple targets, v => do
    let vs ← unpack targets.length v
    assignEach user targets vs
  | .list targets, v => do
    let vs ← unpack targets.length v
    assignEach user targets vs
  | _, _ => misplaced "cannot assign to expression"

/-- Assign values to targets, one to each. -/
def assignEach (user : UserCall) : List Expr → List Value → Run Unit
  | e :: es, v :: vs => do
    assign user e v
    assignEach user es vs
  | _, _ => pure ()

end

/-- Assign one value to targets in order. -/
def assignAll (user : UserCall) (v : Value) : List Expr → Run Unit
  | [] => pure ()
  | e :: es => do
    assign user e v
    assignAll user v es

/-- Update a target by an operator and a second operand. -/
def update (user : UserCall) (target : Expr) (op : BinOp) (operand : Expr) : Run Unit :=
  match target with
  | .name s => do
    let current ← Run.lookup s
    let w ← eval user operand
    Run.bind s (← Run.compute (current.updated op w))
  | .index object subscript => do
    let o ← eval user object
    let i ← eval user subscript
    let current ← Run.read fun h => o.item h i
    let w ← eval user operand
    let v ← Run.compute (current.updated op w)
    Run.compute (o.setItem i v)
  | .slice object lower upper step => do
    let o ← eval user object
    let s ← evalSlice user lower upper step
    let current ← Run.compute (o.slice s)
    let w ← eval user operand
    let v ← Run.compute (current.updated op w)
    Run.compute (o.setSlice s v)
  | _ => misplaced "illegal expression for augmented assignment"

end SortTrace
