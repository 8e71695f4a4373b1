import SortTrace.Fault
import SortTrace.Script.Token

/-!
# Reading a list of tokens

A `Parse α` takes tokens from the front of a list and ends with a result and the tokens it left, or
with a syntax error at the line of the token it stopped at. The list is expected to end in the token
for the end of the text, which is never taken.
-/

namespace SortTrace.Script

/-- A reader of tokens. -/
abbrev Parse (α : Type) : Type := StateT (List Token) (Except Fault) α

namespace Parse

/-- What the next token is; past the last one the text has ended. -/
def lexemeOf : List Token → Lexeme
  | [] => .mark Layout.finish
  | t :: _ => t.lexeme

/-- The line of the next token. -/
def lineOf : List Token → Nat
  | [] => 1
  | t :: _ => t.line

/-- Look at the next token. -/
def peek : Parse Lexeme := fun ts => .ok (lexemeOf ts, ts)

/-- Look at the token after the next one. -/
def peekSecond : Parse Lexeme := fun ts => .ok (lexemeOf ts.tail, ts)

/-- The line of the next token. -/
def line : Parse Nat := fun ts => .ok (lineOf ts, ts)

/-- Take the next token. -/
def advance : Parse Unit := fun ts => .ok ((), ts.tail)

/-- Is the next token this one? -/
def check (m : Mark) : Parse Bool := fun ts => .ok (lexemeOf ts == .mark m, ts)

/-- Take the next token if it is this one. -/
def accept (m : Mark) : Parse Bool := fun ts =>
  if lexemeOf ts == .mark m then .ok (true, ts.tail) else .ok (false, ts)

/-- A syntax error at the next token. -/
def fail {α : Type} (message : String) : Parse α := fun ts =>
  .error (.syntaxError message (lineOf ts))

/-- The next token does not fit. -/
def unexpected {α : Type} : Parse α := do
  match ← peek with
  | .mark (.layout .indent) => fail "unexpected indent"
  | .mark (.layout .dedent) => fail "unindent does not match any outer indentation level"
  | _ => fail "invalid syntax"

/-- Take the next token, which has to be this one. -/
def expect (m : Mark) : Parse Unit := do
  if ← accept m then pure () else unexpected

/-- Take the next token, which has to be a name. -/
def expectName : Parse String := do
  match ← peek with
  | .name s => advance; pure s
  | _ => unexpected

end Parse

end SortTrace.Script
