import SortTrace.Script.Parsing.Basic
import SortTrace.Script.Tree

/-!
# Expressions from tokens

From loose to tight, an expression is a conditional, `or`, `and`, `not`, a chain of comparisons, one
of the six levels of binary operators in `operatorLevels`, a sign, a power, and a primary: an atom
with calls, subscripts and method calls after it.

Three of these, the goals, read an expression of their own kind again, one level deeper: the
alternative of a conditional, the operand of `not`, and the operand of a sign or the exponent of a
power. An expression may nest `maxNesting` such levels, counting also the links of a chain of
operators at one level. `parseGoal` ties the knot by a number of levels that the number of tokens
bounds, since every level takes a token of its own; the same number bounds the loops.
-/

namespace SortTrace.Script

open Parse

/-- The deepest expression accepted. -/
def maxNesting : Nat := 1000

/-- The kinds of expression that contain themselves. -/
inductive Goal where
  /-- A conditional, and whatever stands in brackets. -/
  | test
  /-- A negation by `not`. -/
  | inversion
  /-- A sign with its operand. -/
  | factor
deriving DecidableEq, Repr

/-- The way to read the parts of an expression: by their goal and the nesting they stand at. -/
abbrev Parts : Type := Goal → Nat → Parse Expr

/-- The binary operators from loose to tight, those of one level together. -/
def operatorLevels : List (List BinOp) :=
  [[.bitOr], [.bitXor], [.bitAnd], [.shiftLeft, .shiftRight], [.add, .sub],
    [.mul, .div, .floorDiv, .mod]]

/-- Refuse an expression that reaches `extra` levels further down. -/
def checkNesting (nesting extra : Nat) : Parse Unit :=
  if maxNesting < nesting + extra then fail "too many nested expressions" else pure ()

/-- Read a part one level deeper. -/
def nested (parts : Parts) (goal : Goal) (nesting : Nat) : Parse Expr := do
  checkNesting nesting 1
  parts goal (nesting + 1)

/-- Can the token start an expression? Those that can only start a longer one by mistake are left
out. -/
def startsExpr : Lexeme → Bool
  | .name _ | .int _ | .float _ | .str _ => true
  | .mark (.keyword .trueKw) | .mark (.keyword .falseKw) | .mark (.keyword .noneKw) => true
  | .mark (.keyword .notKw) => true
  | .mark (.punct .lparen) | .mark (.punct .lbracket) | .mark (.punct .tilde) => true
  | .op .sub | .op .add => true
  | _ => false

/-! ## Sequences -/

/-- Expressions each after a comma, as long as one follows; `items` holds those read before, newest
first. -/
def moreItems (item : Parse Expr) : (fuel : Nat) → (items : List Expr) → Parse (List Expr)
  | 0, items => pure items.reverse
  | fuel + 1, items => do
    if ← accept Punct.comma then
      if startsExpr (← peek) then moreItems item fuel ((← item) :: items)
      else pure items.reverse
    else pure items.reverse

/-- One expression, or a tuple when a comma follows. -/
def testList (item : Parse Expr) (fuel : Nat) : Parse Expr := do
  let first ← item
  if ← check Punct.comma then .tuple <$> moreItems item fuel [first] else pure first

/-- Expressions separated by commas up to a closing bracket, which is not taken. -/
def itemsUntil (close : Punct) (item : Parse Expr) :
    (fuel : Nat) → (items : List Expr) → Parse (List Expr)
  | 0, items => pure items.reverse
  | fuel + 1, items => do
    if ← check close then pure items.reverse
    else
      let next ← item
      if ← accept Punct.comma then itemsUntil close item fuel (next :: items)
      else pure (next :: items).reverse

/-- What follows an opening parenthesis: a tuple, or an expression of its own. -/
def parenthesized (item : Parse Expr) (fuel : Nat) : Parse Expr := do
  if ← accept Punct.rparen then pure (.tuple [])
  else
    let first ← item
    if ← accept Punct.rparen then pure first
    else
      let items ←
        if ← accept Punct.comma then itemsUntil .rparen item fuel [first] else pure [first]
      expect Punct.rparen
      pure (.tuple items)

/-- Neighbouring string literals are one. -/
def moreStrings : (fuel : Nat) → String → Parse String
  | 0, text => pure text
  | fuel + 1, text => do
    match ← peek with
    | .str s => advance; moreStrings fuel (text ++ s)
    | _ => pure text

/-! ## Primaries -/

/-- A name, a literal or a bracketed expression. -/
def atom (parts : Parts) (fuel nesting : Nat) : Parse Expr := do
  let item := parts .test nesting
  match ← peek with
  | .name s => advance; pure (.name s)
  | .int n => advance; pure (.literal (.int n))
  | .float x => advance; pure (.literal (.float x))
  | .str s => advance; (.literal ∘ .str) <$> moreStrings fuel s
  | .mark (.keyword .trueKw) => advance; pure (.literal (.bool true))
  | .mark (.keyword .falseKw) => advance; pure (.literal (.bool false))
  | .mark (.keyword .noneKw) => advance; pure (.literal .none)
  | .mark (.punct .lparen) => advance; parenthesized item fuel
  | .mark (.punct .lbracket) =>
    advance
    let items ← itemsUntil .rbracket item fuel []
    expect Punct.rbracket
    pure (.list items)
  | .mark (.punct .lbrace) => advance; fail "dict and set literals are not supported"
  | _ => unexpected

/-- The arguments of a call. -/
structure Arguments where
  positional : List Expr
  keywords : List (String × Expr)

/-- The arguments after an opening parenthesis, without the closing one; those read before are
given newest first. -/
def arguments (item : Parse Expr) :
    (fuel : Nat) → (args : List Expr) → (keywords : List (String × Expr)) → Parse Arguments
  | 0, args, keywords => pure ⟨args.reverse, keywords.reverse⟩
  | fuel + 1, args, keywords => do
    if ← check Punct.rparen then pure ⟨args.reverse, keywords.reverse⟩
    else
      let first ← peek
      let second ← peekSecond
      let (args, keywords) ← match first, second with
        | .name key, .mark (.punct .assign) =>
          advance
          advance
          if keywords.any fun k => k.1 == key then fail s!"keyword argument repeated: {key}"
          else pure (args, (key, ← item) :: keywords)
        | _, _ =>
          if keywords.isEmpty then pure ((← item) :: args, keywords)
          else fail "positional argument follows keyword argument"
      if ← accept Punct.comma then arguments item fuel args keywords
      else pure ⟨args.reverse, keywords.reverse⟩

/-- The arguments after an opening parenthesis, with the closing one. -/
def callArguments (item : Parse Expr) (fuel : Nat) : Parse Arguments := do
  let args ← arguments item fuel [] []
  expect Punct.rparen
  pure args

/-- A bound of a slice, absent where one of the given tokens follows. -/
def bound? (item : Parse Expr) (absent : List Punct) : Parse (Option Expr) := do
  let next ← peek
  if absent.any fun p => next == .mark p then pure none else some <$> item

/-- What follows an opening square bracket after `object`: a subscript or a slice. -/
def subscript (item : Parse Expr) (fuel : Nat) (object : Expr) : Parse Expr := do
  let lower ← if ← check Punct.colon then pure none else some <$> testList item fuel
  match lower with
  | some i =>
    if ← accept Punct.rbracket then return .index object i
  | none => pure ()
  expect Punct.colon
  let upper ← bound? item [.colon, .rbracket]
  let step ← if ← accept Punct.colon then bound? item [.rbracket] else pure none
  expect Punct.rbracket
  pure (.slice object lower upper step)

/-- The calls, subscripts and method calls that follow an expression. -/
def trailers (item : Parse Expr) : (fuel : Nat) → Expr → Parse Expr
  | 0, e => pure e
  | fuel + 1, e => do
    match ← peek with
    | .mark (.punct .lparen) =>
      advance
      let args ← callArguments item fuel
      trailers item fuel (.call e args.positional args.keywords)
    | .mark (.punct .lbracket) =>
      advance
      trailers item fuel (← subscript item fuel e)
    | .mark (.punct .dot) =>
      advance
      let method ← expectName
      if ← accept Punct.lparen then
        let args ← callArguments item fuel
        trailers item fuel (.method e method args.positional args.keywords)
      else fail "attribute access is only supported for method calls"
    | _ => pure e

/-- An atom with its trailers. -/
def primary (parts : Parts) (fuel nesting : Nat) : Parse Expr := do
  trailers (parts .test nesting) fuel (← atom parts fuel nesting)

/-! ## Operators -/

/-- A primary, or its power by an exponent that may carry a sign. -/
def power (parts : Parts) (fuel nesting : Nat) : Parse Expr := do
  let base ← primary parts fuel nesting
  match ← peek with
  | .op .pow =>
    advance
    .binary .pow base <$> nested parts .factor nesting
  | _ => pure base

/-- The sign that a token is. -/
def sign? : Lexeme → Option UnaryOp
  | .op .sub => some .negate
  | .op .add => some .keep
  | .mark (.punct .tilde) => some .invert
  | _ => none

/-- A sign before an operand. A minus before a number is part of the number. -/
def applySign : UnaryOp → Expr → Expr
  | .negate, .literal (.int n) => .literal (.int (-n))
  | .negate, .literal (.float x) => .literal (.float (-x))
  | op, e => .unary op e

/-- A power, or a sign with its operand. -/
def factor (parts : Parts) (fuel nesting : Nat) : Parse Expr := do
  match sign? (← peek) with
  | some op =>
    advance
    applySign op <$> nested parts .factor nesting
  | none => power parts fuel nesting

/-- The operands that follow `left` at one level of binary operators, with the number of operators
read before. The chain leans to the left. -/
def operands (ops : List BinOp) (operand : Parse Expr) (nesting : Nat) :
    (fuel : Nat) → (chain : Nat) → (left : Expr) → Parse Expr
  | 0, _, left => pure left
  | fuel + 1, chain, left => do
    match ← peek with
    | .op op =>
      if ops.contains op then
        checkNesting nesting (chain + 1)
        advance
        let right ← operand
        operands ops operand nesting fuel (chain + 1) (.binary op left right)
      else pure left
    | _ => pure left

/-- An expression whose loosest operators are those of the first of the given levels. -/
def binary (parts : Parts) (fuel nesting : Nat) : List (List BinOp) → Parse Expr
  | [] => factor parts fuel nesting
  | ops :: tighter => do
    let operand := binary parts fuel nesting tighter
    operands ops operand nesting fuel 0 (← operand)

/-- Take a comparison sign, which may be two words. -/
def compareOp? : Parse (Option CompareOp) := do
  let one (op : CompareOp) : Parse (Option CompareOp) := do advance; pure (some op)
  let two (op : CompareOp) : Parse (Option CompareOp) := do advance; advance; pure (some op)
  match ← peek with
  | .mark (.punct .lt) => one .lt
  | .mark (.punct .le) => one .le
  | .mark (.punct .gt) => one .gt
  | .mark (.punct .ge) => one .ge
  | .mark (.punct .eq) => one .eq
  | .mark (.punct .ne) => one .ne
  | .mark (.keyword .inKw) => one .member
  | .mark (.keyword .notKw) =>
    if (← peekSecond) == .mark Keyword.inKw then two .notMember else pure none
  | .mark (.keyword .isKw) =>
    if (← peekSecond) == .mark Keyword.notKw then two .notSame else one .same
  | _ => pure none

/-- The links of a chain of comparisons; those read before are given newest first. -/
def links (operand : Parse Expr) :
    (fuel : Nat) → (rest : List (CompareOp × Expr)) → Parse (List (CompareOp × Expr))
  | 0, rest => pure rest.reverse
  | fuel + 1, rest => do
    match ← compareOp? with
    | some op => links operand fuel ((op, ← operand) :: rest)
    | none => pure rest.reverse

/-- An operand, or a chain of comparisons. -/
def comparison (parts : Parts) (fuel nesting : Nat) : Parse Expr := do
  let operand := binary parts fuel nesting operatorLevels
  let first ← operand
  let rest ← links operand fuel []
  pure (if rest.isEmpty then first else .compare first rest)

/-- A comparison, or the negation of one. -/
def inversion (parts : Parts) (fuel nesting : Nat) : Parse Expr := do
  if ← accept Keyword.notKw then .unary .not <$> nested parts .inversion nesting
  else comparison parts fuel nesting

/-- The operands that follow `left` after a connective. -/
def connected (word : Keyword) (op : BoolOp) (operand : Parse Expr) (nesting : Nat) :
    (fuel : Nat) → (chain : Nat) → (left : Expr) → Parse Expr
  | 0, _, left => pure left
  | fuel + 1, chain, left => do
    if ← accept word then
      checkNesting nesting (chain + 1)
      let right ← operand
      connected word op operand nesting fuel (chain + 1) (.logic op left right)
    else pure left

/-- A chain of `and`. -/
def conjunction (parts : Parts) (fuel nesting : Nat) : Parse Expr := do
  let operand := inversion parts fuel nesting
  connected .andKw .and operand nesting fuel 0 (← operand)

/-- A chain of `or`. -/
def disjunction (parts : Parts) (fuel nesting : Nat) : Parse Expr := do
  let operand := conjunction parts fuel nesting
  connected .orKw .or operand nesting fuel 0 (← operand)

/-- A disjunction, or a conditional with its alternative. -/
def conditional (parts : Parts) (fuel nesting : Nat) : Parse Expr := do
  let value ← disjunction parts fuel nesting
  if ← accept Keyword.ifKw then
    let condition ← disjunction parts fuel nesting
    expect Keyword.elseKw
    let alternative ← nested parts .test nesting
    pure (.ifElse condition value alternative)
  else pure value

/-! ## The knot -/

/-- Read an expression of the given kind with at most `fuel` levels and list items. -/
def parseGoal : (fuel : Nat) → Parts
  | 0, _, _ => fail "too many nested expressions"
  | fuel + 1, goal, nesting =>
    let parts := parseGoal fuel
    match goal with
    | .test => conditional parts fuel nesting
    | .inversion => inversion parts fuel nesting
    | .factor => factor parts fuel nesting

/-- Read an expression without commas outside brackets. -/
def parseTest (fuel : Nat) : Parse Expr :=
  parseGoal fuel .test 0

/-- Read an expression, or a tuple without parentheses. -/
def parseTestList (fuel : Nat) : Parse Expr :=
  testList (parseTest fuel) fuel

/-- Read an expression that has no comparison or connective outside brackets. -/
def parseOperand (fuel : Nat) : Parse Expr :=
  binary (parseGoal fuel) fuel 0 operatorLevels

/-- The expression that a list of tokens starts with. -/
def parseExpr (tokens : List Token) : Except Fault Expr :=
  (parseTest (tokens.length + 1)).run' tokens

end SortTrace.Script
