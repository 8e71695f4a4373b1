import SortTrace.Machine.Program

/-!
# Runs that know their statement

The line of a machine is one field, which every statement overwrites. Here the same program is run
without relying on it: a statement hands its own line to its expressions, these hand it to their
parts and to what they call, a state is logged at the line that was handed down, and so is the line
kept that a frame remembers.

The line of the machine is only looked at. Before and after every part of an expression is
evaluated, before and after every value is called, and before and after every name, item or slice is
assigned, the alarm is sounded if the machine is on another line than that of the statement.
-/

namespace SortTrace.Owned

open Script (Expr Stmt BinOp CompareOp FunctionDef)

/-- The way to call a function for a statement at a line. -/
abbrev OwnedCall : Type := (line : Nat) → UserCall

/-- Sound the alarm if the machine is on another line. -/
def lookOut (alarm : Run Unit) (line : Nat) : Run Unit := do
  if (← Run.line) ≠ line then alarm

/-- Do something for a statement at a line, and look out before and after it. -/
def guarded {α : Type} (alarm : Run Unit) (line : Nat) (r : Run α) : Run α := do
  lookOut alarm line
  let a ← r
  lookOut alarm line
  pure a

/-! ## Calls -/

/-- Log the state of the argument at a line. -/
def logState (line : Nat) (args : List Value) : Run Value := do
  match args with
  | [v] =>
    let state ← Run.read fun h => v.toJson h
    Run.trace (Session.log state line)
    pure .none
  | args => Builtin.runLogState args

/-- Call a builtin for a statement at a line. -/
def builtin (line : Nat) (apply : Apply) (b : Builtin) (args : List Value) (keywords : Keywords) :
    Run Value :=
  match b with
  | .logState => Builtin.plainly b keywords (logState line args)
  | b => b.run apply args keywords

section Expressions

variable (alarm : Run Unit) (user : OwnedCall) (line : Nat)

/-- Call a value with one argument. -/
def applyTo : Apply := fun f v =>
  guarded alarm line <| match f with
    | .builtin b => builtin line (fun _ item => pure item) b [v] []
    | .function _ d defaults => user line d defaults [v] []
    | f => Run.fault (.notCallable f.typeName)

/-- Call a value. -/
def call (f : Value) (args : List Value) (keywords : Keywords) : Run Value :=
  guarded alarm line <| match f with
    | .builtin b => builtin line (applyTo alarm user line) b args keywords
    | .function _ d defaults => user line d defaults args keywords
    | f => Run.fault (.notCallable f.typeName)

/-! ## Expressions -/

mutual

/-- The value of an expression. -/
def eval (e : Expr) : Run Value :=
  guarded alarm line <| match e with
    | .literal v => pure (.ofLiteral v)
    | .name s => Run.lookup s
    | .list items => do
      let vs ← evalAll items
      Run.compute (Compute.newList vs.toArray)
    | .tuple items => do
      let vs ← evalAll items
      Run.compute (Compute.newTuple vs)
    | .unary op operand => do
      let v ← eval operand
      Run.read fun h => v.unary h op
    | .binary op left right => do
      let v ← eval left
      let w ← eval right
      Run.compute (v.binary op w)
    | .logic op left right => do
      let v ← eval left
      let holds ← Run.read fun h => .ok (v.isTrue h)
      match op, holds with
      | .and, false | .or, true => pure v
      | _, _ => eval right
    | .compare first rest => do
      let v ← eval first
      evalLinks v rest
    | .ifElse condition yes no => do
      let v ← eval condition
      if ← Run.read fun h => .ok (v.isTrue h) then eval yes else eval no
    | .index object subscript => do
      let v ← eval object
      let i ← eval subscript
      Run.read fun h => v.item h i
    | .slice object lower upper step => do
      let v ← eval object
      let lower ← evalBound lower
      let upper ← evalBound upper
      let step ← evalBound step
      Run.compute (v.slice ⟨lower, upper, step⟩)
    | .call function args keywords => do
      let f ← eval function
      let args ← evalAll args
      let keywords ← evalKeywords keywords
      call alarm user line f args keywords
    | .method object method args keywords => do
      let v ← eval object
      let args ← evalAll args
      let keywords ← evalKeywords keywords
      guarded alarm line (ListMethod.run (applyTo alarm user line) v method args keywords)

/-- The values of expressions in order. -/
def evalAll : List Expr → Run (List Value)
  | [] => pure []
  | e :: es => do
    let v ← eval e
    let vs ← evalAll es
    pure (v :: vs)

/-- The values of keyword arguments in order. -/
def evalKeywords : List (String × Expr) → Run Keywords
  | [] => pure []
  | (name, e) :: rest => do
    let v ← eval e
    let vs ← evalKeywords rest
    pure ((name, v) :: vs)

/-- The value of a chain of comparisons whose first operand is `v`. -/
def evalLinks (v : Value) : List (CompareOp × Expr) → Run Value
  | [] => pure (.bool true)
  | (op, e) :: rest => do
    let w ← eval e
    if ← Run.read fun h => v.compare h op w then evalLinks w rest
    else pure (.bool false)

/-- A bound of a slice. -/
def evalBound : Option Expr → Run (Option Int64)
  | none => pure none
  | some e => do
    let v ← eval e
    Run.of (sliceBound v)

end

/-- Is the value of an expression true? -/
def holds (e : Expr) : Run Bool := do
  let v ← eval alarm user line e
  Run.read fun h => .ok (v.isTrue h)

/-- The bounds of a slice, from the expressions for them. -/
def evalSlice (lower upper step : Option Expr) : Run Slice := do
  let lower ← evalBound alarm user line lower
  let upper ← evalBound alarm user line upper
  let step ← evalBound alarm user line step
  pure ⟨lower, upper, step⟩

/-! ## Assignments -/

/-- Stop at something that does not belong where it stands. -/
def misplaced {α : Type} (message : String) : Run α :=
  Run.fault (.syntaxError message line)

mutual

/-- Assign a value to a target. -/
def assign (target : Expr) (v : Value) : Run Unit :=
  guarded alarm line <| match target with
    | .name s => Run.bind s v
    | .index object subscript => do
      let o ← eval alarm user line object
      let i ← eval alarm user line subscript
      Run.compute (o.setItem i v)
    | .slice object lower upper step => do
      let o ← eval alarm user line object
      let s ← evalSlice alarm user line lower upper step
      Run.compute (o.setSlice s v)
    | .tuple targets => do
      let vs ← unpack targets.length v
      assignEach targets vs
    | .list targets => do
      let vs ← unpack targets.length v
      assignEach targets vs
    | _ => misplaced line "cannot assign to expression"

/-- Assign values to targets, one to each. -/
def assignEach : List Expr → List Value → Run Unit
  | e :: es, v :: vs => do
    assign e v
    assignEach es vs
  | _, _ => pure ()

end

/-- Assign one value to targets in order. -/
def assignAll (v : Value) : List Expr → Run Unit
  | [] => pure ()
  | e :: es => do
    assign alarm user line e v
    assignAll v es

/-- Update a target by an operator and a second operand. -/
def update (target : Expr) (op : BinOp) (operand : Expr) : Run Unit :=
  guarded alarm line <| match target with
    | .name s => do
      let current ← Run.lookup s
      let w ← eval alarm user line operand
      Run.bind s (← Run.compute (current.updated op w))
    | .index object subscript => do
      let o ← eval alarm user line object
      let i ← eval alarm user line subscript
      let current ← Run.read fun h => o.item h i
      let w ← eval alarm user line operand
      let v ← Run.compute (current.updated op w)
      Run.compute (o.setItem i v)
    | .slice object lower upper step => do
      let o ← eval alarm user line object
      let s ← evalSlice alarm user line lower upper step
      let current ← Run.compute (o.slice s)
      let w ← eval alarm user line operand
      let v ← Run.compute (current.updated op w)
      Run.compute (o.setSlice s v)
    | _ => misplaced line "illegal expression for augmented assignment"

/-- Make a function and bind its name. -/
def define (d : FunctionDef) : Run Unit := do
  let defaults ← evalAll alarm user line (d.params.filterMap fun p => p.default)
  let id ← Run.compute (modifyGet Heap.mark)
  Run.bind d.name (.function id d defaults)

/-- The value that a call gives back. -/
def givenBack : Option Expr → Run Value
  | none => pure .none
  | some e => eval alarm user line e

end Expressions

/-! ## Statements -/

/-- What running statements relies on. -/
structure Control where
  alarm : Run Unit
  /-- The way to call the functions of the script. -/
  user : OwnedCall
  timeout : Option Nat
  /-- The number of rounds that a loop may take. -/
  rounds : Nat

mutual

/-- Run a statement, whose expressions belong to its line. -/
def runStmt (c : Control) (s : Stmt) : Run Flow := do
  Run.setLine s.line
  Run.tick c.timeout
  match s with
  | .expr line e =>
    let _ ← eval c.alarm c.user line e
    pure .normal
  | .assign line targets value =>
    let v ← eval c.alarm c.user line value
    assignAll c.alarm c.user line v targets
    pure .normal
  | .augment line target op operand =>
    update c.alarm c.user line target op operand
    pure .normal
  | .branch line cases otherwise => runCases c line cases (runBlock c otherwise)
  | .whileLoop line condition body otherwise =>
    whileRounds c.timeout line (holds c.alarm c.user line condition) (runBlock c body)
      (runBlock c otherwise) c.rounds
  | .forLoop line target items body otherwise =>
    let v ← eval c.alarm c.user line items
    let cursor ← Run.of (Cursor.start v)
    forRounds c.timeout line (assign c.alarm c.user line target) (runBlock c body)
      (runBlock c otherwise) c.rounds cursor
  | .define line name params body =>
    define c.alarm c.user line ⟨name, params, body⟩
    pure .normal
  | .giveBack line value => .giveBack <$> givenBack c.alarm c.user line value
  | .declareGlobal _ names =>
    Run.modifyScopes fun s => s.declareGlobal names
    pure .normal
  | .leaveLoop _ => pure .leaveLoop
  | .nextRound _ => pure .nextRound
  | .pass _ => pure .normal

/-- Run statements in order. -/
def runBlock (c : Control) : List Stmt → Run Flow
  | [] => pure .normal
  | s :: rest => do
    match ← runStmt c s with
    | .normal => runBlock c rest
    | flow => pure flow

/-- Run the block of the first case whose condition holds, or else the last block. The conditions
belong to the branch at a line. -/
def runCases (c : Control) (line : Nat) : List (Expr × List Stmt) → Run Flow → Run Flow
  | [], otherwise => otherwise
  | (condition, body) :: rest, otherwise => do
    if ← holds c.alarm c.user line condition then runBlock c body
    else runCases c line rest otherwise

end

/-- Run the body of a function in a new frame, which remembers the line of the statement that makes
the call. -/
def callIn (c : Control) : OwnedCall := fun line f defaults args keywords => do
  let locals ← Run.of (bindArguments f defaults args keywords)
  Run.modifyScopes fun s => s.push ⟨f.name, line, locals, []⟩
  let flow ← runBlock c f.body
  Run.modifyScopes fun s => s.pop.2
  Run.setLine line
  pure flow.result

/-- The way to call functions when `depth` more calls can be under way at once. -/
def userCall (alarm : Run Unit) (timeout : Option Nat) (rounds : Nat) : (depth : Nat) → OwnedCall
  | 0 => fun _ _ _ _ _ => Run.fault .recursion
  | depth + 1 => callIn ⟨alarm, userCall alarm timeout rounds depth, timeout, rounds⟩

/-- Run a program. -/
def runProgram (alarm : Run Unit) (limits : Limits) (rounds : Nat) (program : List Stmt) :
    Run Unit := do
  let depth := limits.recursion - (← get).scopes.depth
  let user := userCall alarm limits.timeout rounds depth
  let _ ← runBlock ⟨alarm, user, limits.timeout, rounds⟩ program

end SortTrace.Owned
