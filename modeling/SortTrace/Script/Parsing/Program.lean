import SortTrace.Script.Parsing.Expr
import SortTrace.Script.Scan

/-!
# Programs from tokens

A line holds simple statements separated by semicolons, or the head of a compound statement whose
block follows: on the same line, or indented on the next ones. Loops may be left only from inside
their bodies and functions only from inside theirs, which the `Surrounding` of a statement tells;
the body of a function starts afresh.

As for expressions, `parseStatement` is given a number of levels that the number of tokens bounds.
-/

namespace SortTrace.Script

open Parse

/-- What surrounds a statement. -/
structure Surrounding where
  inFunction : Bool
  inLoop : Bool
deriving DecidableEq, Repr, Inhabited

/-- The way to read the statements of one line inside a block. -/
abbrev Lines : Type := Surrounding → Parse (List Stmt)

/-! ## Simple statements -/

/-- Names after commas; those read before are given newest first. -/
def moreNames : (fuel : Nat) → (names : List String) → Parse (List String)
  | 0, names => pure names.reverse
  | fuel + 1, names => do
    if ← accept Punct.comma then moreNames fuel ((← expectName) :: names)
    else pure names.reverse

/-- Expressions after equals signs; those read before are given newest first, and so is the
result. -/
def moreAssigned (testlist : Parse Expr) : (fuel : Nat) → (sides : List Expr) → Parse (List Expr)
  | 0, sides => pure sides
  | fuel + 1, sides => do
    if ← accept Punct.assign then moreAssigned testlist fuel ((← testlist) :: sides)
    else pure sides

/-- An expression, an assignment or an update in place. -/
def exprStatement (fuel line : Nat) : Parse Stmt := do
  let first ← parseTestList fuel
  match ← peek with
  | .augment op =>
    if first.isPlace then
      advance
      .augment line first op <$> parseTestList fuel
    else fail "illegal expression for augmented assignment"
  | .mark (.punct .assign) =>
    match ← moreAssigned (parseTestList fuel) fuel [first] with
    | value :: targets =>
      if targets.all Expr.isTarget then pure (.assign line targets.reverse value)
      else fail "cannot assign to expression"
    | [] => unexpected
  | _ => pure (.expr line first)

/-- A statement that holds no block. -/
def smallStatement (fuel : Nat) (around : Surrounding) : Parse Stmt := do
  let line ← line
  match ← peek with
  | .mark (.keyword .passKw) => advance; pure (.pass line)
  | .mark (.keyword .breakKw) =>
    if around.inLoop then
      advance
      pure (.leaveLoop line)
    else fail "'break' outside loop"
  | .mark (.keyword .continueKw) =>
    if around.inLoop then
      advance
      pure (.nextRound line)
    else fail "'continue' not properly in loop"
  | .mark (.keyword .returnKw) =>
    if around.inFunction then
      advance
      match ← peek with
      | .mark (.layout .newline) | .mark (.layout .finish) | .mark (.punct .semicolon) =>
        pure (.giveBack line none)
      | _ => (.giveBack line ∘ some) <$> parseTestList fuel
    else fail "'return' outside function"
  | .mark (.keyword .globalKw) =>
    advance
    let first ← expectName
    .declareGlobal line <$> moreNames fuel [first]
  | _ => exprStatement fuel line

/-- Is the next token the end of a line or of the text? -/
def atLineEnd : Parse Bool := do
  pure ((← check Layout.newline) || (← check Layout.finish))

/-- Small statements separated by semicolons; those read before are given newest first. -/
def moreStatements (full : Nat) (around : Surrounding) :
    (fuel : Nat) → (done : List Stmt) → Parse (List Stmt)
  | 0, done => pure done.reverse
  | fuel + 1, done => do
    let next ← smallStatement full around
    if ← accept Punct.semicolon then
      if ← atLineEnd then pure (next :: done).reverse
      else moreStatements full around fuel (next :: done)
    else pure (next :: done).reverse

/-- The small statements of one line, with its end. -/
def simpleLine (fuel : Nat) (around : Surrounding) : Parse (List Stmt) := do
  let stmts ← moreStatements fuel around fuel []
  match ← peek with
  | .mark (.layout .newline) => advance; pure stmts
  | .mark (.layout .finish) => pure stmts
  | _ => unexpected

/-! ## Blocks -/

/-- The lines of an indented block with its end; the statements read before are given newest
first. -/
def blockLines (statements : Parse (List Stmt)) :
    (fuel : Nat) → (done : List Stmt) → Parse (List Stmt)
  | 0, done => pure done.reverse
  | fuel + 1, done => do
    if ← accept Layout.dedent then pure done.reverse
    else if ← check Layout.finish then pure done.reverse
    else if ← accept Layout.newline then blockLines statements fuel done
    else blockLines statements fuel ((← statements).reverse ++ done)

/-- A colon and a block, of the statement `owner` at the line `ownerLine`. -/
def block (lines : Lines) (fuel : Nat) (around : Surrounding) (owner : String)
    (ownerLine : Nat) : Parse (List Stmt) := do
  expect Punct.colon
  if ← accept Layout.newline then
    if ← accept Layout.indent then blockLines (lines around) fuel []
    else fail s!"expected an indented block after {owner} on line {ownerLine}"
  else simpleLine fuel around

/-- The block after `else`, if there is one. -/
def otherwise (lines : Lines) (fuel : Nat) (around : Surrounding) : Parse (List Stmt) := do
  let line ← line
  if ← accept Keyword.elseKw then block lines fuel around "'else' statement" line else pure []

/-- The further cases of a branch and its last block; the cases read before are given newest
first. -/
def moreCases (lines : Lines) (full : Nat) (around : Surrounding) :
    (fuel : Nat) → (cases : List (Expr × List Stmt)) →
      Parse (List (Expr × List Stmt) × List Stmt)
  | 0, cases => pure (cases.reverse, [])
  | fuel + 1, cases => do
    let line ← line
    if ← accept Keyword.elifKw then
      let condition ← parseTest full
      let body ← block lines full around "'elif' statement" line
      moreCases lines full around fuel ((condition, body) :: cases)
    else pure (cases.reverse, ← otherwise lines full around)

/-- What follows `if` at the given line. -/
def branch (lines : Lines) (fuel : Nat) (around : Surrounding) (line : Nat) : Parse Stmt := do
  let condition ← parseTest fuel
  let body ← block lines fuel around "'if' statement" line
  let (cases, last) ← moreCases lines fuel around fuel [(condition, body)]
  pure (.branch line cases last)

/-- What follows `while` at the given line. -/
def whileLoop (lines : Lines) (fuel : Nat) (around : Surrounding) (line : Nat) : Parse Stmt := do
  let condition ← parseTest fuel
  let body ← block lines fuel { around with inLoop := true } "'while' statement" line
  .whileLoop line condition body <$> otherwise lines fuel around

/-- The further targets of a `for` after commas, up to `in`; those read before are given newest
first. -/
def moreTargets (full : Nat) : (fuel : Nat) → (targets : List Expr) → Parse (List Expr)
  | 0, targets => pure targets.reverse
  | fuel + 1, targets => do
    if ← accept Punct.comma then
      if ← check Keyword.inKw then pure targets.reverse
      else moreTargets full fuel ((← parseOperand full) :: targets)
    else pure targets.reverse

/-- What follows `for` at the given line. -/
def forLoop (lines : Lines) (fuel : Nat) (around : Surrounding) (line : Nat) : Parse Stmt := do
  let first ← parseOperand fuel
  let target ←
    if ← check Punct.comma then .tuple <$> moreTargets fuel fuel [first] else pure first
  if target.isTarget then
    expect Keyword.inKw
    let items ← parseTestList fuel
    let body ← block lines fuel { around with inLoop := true } "'for' statement" line
    .forLoop line target items body <$> otherwise lines fuel around
  else fail "cannot assign to expression"

/-- The parameters up to a closing parenthesis, which is not taken; those read before are given
newest first. Parameters with a default come last. -/
def parameters (full : Nat) : (fuel : Nat) → (params : List Param) → Parse (List Param)
  | 0, params => pure params.reverse
  | fuel + 1, params => do
    if ← check Punct.rparen then pure params.reverse
    else
      let name ← expectName
      if params.any fun p => p.name == name then
        fail s!"duplicate argument '{name}' in function definition"
      else
        let default ←
          if ← accept Punct.assign then some <$> parseTest full
          else if params.any fun p => p.default.isSome then
            fail "non-default argument follows default argument"
          else pure none
        let params := ⟨name, default⟩ :: params
        if ← accept Punct.comma then parameters full fuel params else pure params.reverse

/-- What follows `def` at the given line. -/
def define (lines : Lines) (fuel line : Nat) : Parse Stmt := do
  let name ← expectName
  expect Punct.lparen
  let params ← parameters fuel fuel []
  expect Punct.rparen
  .define line name params <$> block lines fuel ⟨true, false⟩ "function definition" line

/-- The statements of one line, or one statement with its blocks. -/
def statements (lines : Lines) (fuel : Nat) (around : Surrounding) : Parse (List Stmt) := do
  let line ← line
  let one (stmt : Parse Stmt) : Parse (List Stmt) := do advance; pure [← stmt]
  match ← peek with
  | .mark (.keyword .ifKw) => one (branch lines fuel around line)
  | .mark (.keyword .whileKw) => one (whileLoop lines fuel around line)
  | .mark (.keyword .forKw) => one (forLoop lines fuel around line)
  | .mark (.keyword .defKw) => one (define lines fuel line)
  | .mark (.layout .indent) | .mark (.layout .dedent) => unexpected
  | _ => simpleLine fuel around

/-! ## The knot -/

/-- Read the statements of one line with at most `fuel` levels of blocks. -/
def parseStatement : (fuel : Nat) → Lines
  | 0, _ => fail "too many levels of indentation"
  | fuel + 1, around => statements (parseStatement fuel) fuel around

/-- The lines up to the end of the text; the statements read before are given newest first. -/
def programLines (full : Nat) : (fuel : Nat) → (done : List Stmt) → Parse (List Stmt)
  | 0, done => pure done.reverse
  | fuel + 1, done => do
    if ← check Layout.finish then pure done.reverse
    else if ← accept Layout.newline then programLines full fuel done
    else
      let next ← parseStatement full ⟨false, false⟩
      programLines full fuel (next.reverse ++ done)

/-- The program that a list of tokens is. -/
def parseTokens (tokens : List Token) : Except Fault (List Stmt) :=
  let fuel := tokens.length + 1
  (programLines fuel fuel []).run' tokens

theorem parseTokens_eq (ts : List Token) :
    parseTokens ts = (programLines (ts.length + 1) (ts.length + 1) [] ts).map Prod.fst := rfl

/-- The program that a text is; line `n` of it is reported as entry `n` of the map, if there is
one. -/
def parseProgram (text : String) (map : Array Nat) : Except Fault (List Stmt) := do
  parseTokens (← tokenize text map)

theorem parseProgram_of_tokenize {text : String} {map : Array Nat} {ts : List Token}
    (h : tokenize text map = .ok ts) : parseProgram text map = parseTokens ts := by
  rw [parseProgram, h]
  rfl

theorem tokenize_of_parseProgram {text : String} {map : Array Nat} {program : List Stmt}
    (h : parseProgram text map = .ok program) :
    ∃ ts, tokenize text map = .ok ts ∧ parseTokens ts = .ok program := by
  cases htokens : tokenize text map with
  | error e =>
    rw [parseProgram, htokens] at h
    cases h
  | ok ts =>
    rw [parseProgram_of_tokenize htokens] at h
    exact ⟨ts, rfl, h⟩

end SortTrace.Script
