import SortTrace.Machine.Assign

/-!
# Running statements

A block runs its statements in order until one of them ends it early, which the `Flow` tells. A
statement goes to its line and counts a tick before it does anything else, and a loop counts a tick
after every finished round.

A loop over items takes the one at its position in every round. A list is read again each time, so
that the loop sees what its body does to the list; other items are fixed. A loop takes at most the
number of rounds that it is given.
-/

namespace SortTrace

open Script (Expr Stmt FunctionDef)

/-- How a statement ended. -/
inductive Flow where
  | normal
  | leaveLoop
  | nextRound
  | giveBack (v : Value)
deriving Repr, Inhabited

/-- What a call yields when its body ended this way. -/
def Flow.result : Flow → Value
  | giveBack v => v
  | _ => .none

/-- What running statements relies on. -/
structure Control where
  /-- The way to call the functions of the script. -/
  user : UserCall
  timeout : Option Nat
  /-- The number of rounds that a loop may take. -/
  rounds : Nat

/-- The items that a loop goes through, and the position of the next one. -/
inductive Cursor where
  /-- The items of the list at a place. -/
  | list (place position : Nat)
  | range (s : Span) (position : Nat)
  | tuple (items : List Value) (position : Nat)
  /-- The characters of a text. -/
  | str (s : String) (position : Nat)
deriving Repr, Inhabited

namespace Cursor

/-- The items of a value from the first on, if it has items. -/
def start : Value → Except Fault Cursor
  | .list place => .ok (.list place 0)
  | .range s => .ok (.range s 0)
  | .tuple _ vs => .ok (.tuple vs 0)
  | .str s => .ok (.str s 0)
  | v => .error (.notIterable v.typeName)

/-- The next item and those after it. -/
def next? (h : Heap) : Cursor → Option (Value × Cursor)
  | list place position =>
    (h.items place)[position]?.map fun v => (v, list place (position + 1))
  | range s position =>
    if position < s.length then some (.int (s.item position), range s (position + 1)) else none
  | tuple vs position => vs[position]?.map fun v => (v, tuple vs (position + 1))
  | str s position => s.toList[position]?.map fun c => (.ofChar c, str s (position + 1))

end Cursor

/-- The rounds of a loop with a condition, which stands at `line`. -/
def whileRounds (timeout : Option Nat) (line : Nat) (condition : Run Bool)
    (body otherwise : Run Flow) : (rounds : Nat) → Run Flow
  | 0 => throw .outOfRounds
  | rounds + 1 => do
    Run.setLine line
    if ← condition then
      match ← body with
      | .leaveLoop => pure .normal
      | .giveBack v => pure (.giveBack v)
      | .normal | .nextRound =>
        Run.tick timeout
        whileRounds timeout line condition body otherwise rounds
    else otherwise

/-- The rounds of a loop over items, which stands at `line` and assigns each of them. -/
def forRounds (timeout : Option Nat) (line : Nat) (take : Value → Run Unit)
    (body otherwise : Run Flow) : (rounds : Nat) → Cursor → Run Flow
  | 0, _ => throw .outOfRounds
  | rounds + 1, cursor => do
    match cursor.next? (← get).heap with
    | none => otherwise
    | some (v, cursor) =>
      Run.setLine line
      take v
      match ← body with
      | .leaveLoop => pure .normal
      | .giveBack v => pure (.giveBack v)
      | .normal | .nextRound =>
        Run.tick timeout
        forRounds timeout line take body otherwise rounds cursor

/-- Make a function and bind its name. -/
def define (user : UserCall) (d : FunctionDef) : Run Unit := do
  let defaults ← evalAll user (d.params.filterMap fun p => p.default)
  let id ← Run.compute (modifyGet Heap.mark)
  Run.bind d.name (.function id d defaults)

/-- The value that a call gives back. -/
def givenBack (user : UserCall) : Option Expr → Run Value
  | none => pure .none
  | some e => eval user e

mutual

/-- Run a statement. -/
def runStmt (c : Control) (s : Stmt) : Run Flow := do
  Run.setLine s.line
  Run.tick c.timeout
  match s with
  | .expr _ e =>
    let _ ← eval c.user e
    pure .normal
  | .assign _ targets value =>
    let v ← eval c.user value
    assignAll c.user v targets
    pure .normal
  | .augment _ target op operand =>
    update c.user target op operand
    pure .normal
  | .branch _ cases otherwise => runCases c cases (runBlock c otherwise)
  | .whileLoop line condition body otherwise =>
    whileRounds c.timeout line (holds c.user condition) (runBlock c body)
      (runBlock c otherwise) c.rounds
  | .forLoop line target items body otherwise =>
    let v ← eval c.user items
    let cursor ← Run.of (Cursor.start v)
    forRounds c.timeout line (assign c.user target) (runBlock c body) (runBlock c otherwise)
      c.rounds cursor
  | .define _ name params body =>
    define c.user ⟨name, params, body⟩
    pure .normal
  | .giveBack _ value => .giveBack <$> givenBack c.user value
  | .declareGlobal _ names =>
    Run.modifyScopes fun s => s.declareGlobal names
    pure .normal
  | .leaveLoop _ => pure .leaveLoop
  | .nextRound _ => pure .nextRound
  | .pass _ => pure .normal

/-- Run statements in order. -/
def runBlock (c : Control) : List Stmt → Run Flow
  | [] => pure .normal
  | s :: rest => do
    match ← runStmt c s with
    | .normal => runBlock c rest
    | flow => pure flow

/-- Run the block of the first case whose condition holds, or else the last block. -/
def runCases (c : Control) : List (Expr × List Stmt) → Run Flow → Run Flow
  | [], otherwise => otherwise
  | (condition, body) :: rest, otherwise => do
    if ← holds c.user condition then runBlock c body else runCases c rest otherwise

end

end SortTrace
