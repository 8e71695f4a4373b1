import SortTrace.Script.Token

/-!
# Program trees

Expressions and statements. Every statement carries the line it starts on, as the user counts
lines; expressions carry none, since a fault while one is evaluated belongs to its statement.
-/

namespace SortTrace.Script

/-- The operators with one operand. -/
inductive UnaryOp where
  | negate | keep | invert | not
deriving DecidableEq, Repr, Inhabited

/-- The operators that compare. -/
inductive CompareOp where
  | lt | le | gt | ge | eq | ne
  /-- Membership. -/
  | member | notMember
  /-- Identity. -/
  | same | notSame
deriving DecidableEq, Repr, Inhabited

/-- The written form of a comparison. -/
def CompareOp.symbol : CompareOp → String
  | lt => "<"
  | le => "<="
  | gt => ">"
  | ge => ">="
  | eq => "=="
  | ne => "!="
  | member => "in"
  | notMember => "not in"
  | same => "is"
  | notSame => "is not"

/-- The connectives that evaluate their right operand only if they need it. -/
inductive BoolOp where
  | and | or
deriving DecidableEq, Repr, Inhabited

/-- A value that is written out. -/
inductive Literal where
  | none
  | bool (b : Bool)
  | int (n : Int64)
  | float (x : Float)
  | str (s : String)
deriving DecidableEq, Repr, Inhabited

/-- An expression. -/
inductive Expr where
  | literal (v : Literal)
  | name (s : String)
  | list (items : List Expr)
  | tuple (items : List Expr)
  | unary (op : UnaryOp) (operand : Expr)
  | binary (op : BinOp) (left right : Expr)
  | logic (op : BoolOp) (left right : Expr)
  /-- A chain of comparisons: each link compares the operand before it with its own. -/
  | compare (first : Expr) (rest : List (CompareOp × Expr))
  | ifElse (condition yes no : Expr)
  | index (object subscript : Expr)
  | slice (object : Expr) (lower upper step : Option Expr)
  /-- A call with its positional and its keyword arguments. -/
  | call (function : Expr) (args : List Expr) (keywords : List (String × Expr))
  | method (object : Expr) (method : String) (args : List Expr) (keywords : List (String × Expr))
deriving Repr, Inhabited

mutual

/-- Can the expression stand to the left of an assignment? -/
def Expr.isTarget : Expr → Bool
  | .name _ | .index .. | .slice .. => true
  | .tuple items | .list items => !items.isEmpty && Expr.areTargets items
  | _ => false

/-- Can all the expressions stand to the left of an assignment? -/
def Expr.areTargets : List Expr → Bool
  | [] => true
  | e :: es => e.isTarget && Expr.areTargets es

end

/-- Can the expression be updated in place? -/
def Expr.isPlace : Expr → Bool
  | .name _ | .index .. | .slice .. => true
  | _ => false

/-- A parameter of a function. -/
structure Param where
  name : String
  default : Option Expr
deriving Repr, Inhabited

/-- A statement. The first field of each is its line. -/
inductive Stmt where
  | expr (line : Nat) (e : Expr)
  | assign (line : Nat) (targets : List Expr) (value : Expr)
  | augment (line : Nat) (target : Expr) (op : BinOp) (value : Expr)
  /-- Conditions with their blocks, and the block for when none holds. -/
  | branch (line : Nat) (cases : List (Expr × List Stmt)) (otherwise : List Stmt)
  /-- A loop with the block to run when its condition fails. -/
  | whileLoop (line : Nat) (condition : Expr) (body otherwise : List Stmt)
  /-- A loop with the block to run when the items are exhausted. -/
  | forLoop (line : Nat) (target items : Expr) (body otherwise : List Stmt)
  | define (line : Nat) (name : String) (params : List Param) (body : List Stmt)
  | giveBack (line : Nat) (value : Option Expr)
  | declareGlobal (line : Nat) (names : List String)
  | leaveLoop (line : Nat)
  | nextRound (line : Nat)
  | pass (line : Nat)
deriving Repr, Inhabited

/-- The line a statement starts on. -/
def Stmt.line : Stmt → Nat
  | expr n _ | assign n _ _ | augment n _ _ _ | branch n _ _ | whileLoop n _ _ _
  | forLoop n _ _ _ _ | define n _ _ _ | giveBack n _ | declareGlobal n _ | leaveLoop n
  | nextRound n | pass n => n

/-- Is the statement one that contains no block? -/
def Stmt.isSimple : Stmt → Bool
  | .branch .. | .whileLoop .. | .forLoop .. | .define .. => false
  | _ => true

/-- A function as it is written. -/
structure FunctionDef where
  name : String
  params : List Param
  body : List Stmt
deriving Repr, Inhabited

end SortTrace.Script
