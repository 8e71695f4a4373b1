/-!
# Tokens

The words of the script language. Names and literals carry their content; every other token has
one spelling and is a `Mark`: a keyword, a piece of punctuation or a layout token, which stands for
the end of a line or for a change of indentation.
-/

namespace SortTrace.Script

/-- The binary operators. -/
inductive BinOp where
  | add | sub | mul | div | floorDiv | mod | pow
  | bitAnd | bitOr | bitXor | shiftLeft | shiftRight
deriving DecidableEq, Repr, Inhabited

/-- The written form of an operator. -/
def BinOp.symbol : BinOp → String
  | add => "+"
  | sub => "-"
  | mul => "*"
  | div => "/"
  | floorDiv => "//"
  | mod => "%"
  | pow => "**"
  | bitAnd => "&"
  | bitOr => "|"
  | bitXor => "^"
  | shiftLeft => "<<"
  | shiftRight => ">>"

/-- The reserved words. -/
inductive Keyword where
  | defKw | returnKw | ifKw | elifKw | elseKw | whileKw | forKw | inKw | notKw | andKw | orKw
  | isKw | breakKw | continueKw | passKw | globalKw | trueKw | falseKw | noneKw
deriving DecidableEq, Repr, Inhabited

/-- The written form of a reserved word. -/
def Keyword.text : Keyword → String
  | defKw => "def"
  | returnKw => "return"
  | ifKw => "if"
  | elifKw => "elif"
  | elseKw => "else"
  | whileKw => "while"
  | forKw => "for"
  | inKw => "in"
  | notKw => "not"
  | andKw => "and"
  | orKw => "or"
  | isKw => "is"
  | breakKw => "break"
  | continueKw => "continue"
  | passKw => "pass"
  | globalKw => "global"
  | trueKw => "True"
  | falseKw => "False"
  | noneKw => "None"

/-- The reserved word with this spelling, if there is one. -/
def Keyword.ofText? : String → Option Keyword
  | "def" => some defKw
  | "return" => some returnKw
  | "if" => some ifKw
  | "elif" => some elifKw
  | "else" => some elseKw
  | "while" => some whileKw
  | "for" => some forKw
  | "in" => some inKw
  | "not" => some notKw
  | "and" => some andKw
  | "or" => some orKw
  | "is" => some isKw
  | "break" => some breakKw
  | "continue" => some continueKw
  | "pass" => some passKw
  | "global" => some globalKw
  | "True" => some trueKw
  | "False" => some falseKw
  | "None" => some noneKw
  | _ => none

theorem Keyword.ofText?_eq_some_iff {word : String} {k : Keyword} :
    ofText? word = some k ↔ word = k.text := by
  constructor
  · intro h
    unfold ofText? at h
    split at h <;> cases h <;> rfl
  · rintro rfl
    cases k <;> rfl

/-- Brackets, separators and comparison signs. -/
inductive Punct where
  | lparen | rparen | lbracket | rbracket | lbrace | rbrace
  | comma | colon | dot | semicolon | assign | tilde
  | eq | ne | lt | le | gt | ge
deriving DecidableEq, Repr, Inhabited

/-- The written form of a piece of punctuation. -/
def Punct.text : Punct → String
  | lparen => "("
  | rparen => ")"
  | lbracket => "["
  | rbracket => "]"
  | lbrace => "\x7b"
  | rbrace => "\x7d"
  | comma => ","
  | colon => ":"
  | dot => "."
  | semicolon => ";"
  | assign => "="
  | tilde => "~"
  | eq => "=="
  | ne => "!="
  | lt => "<"
  | le => "<="
  | gt => ">"
  | ge => ">="

/-- Tokens without a written form of their own. -/
inductive Layout where
  /-- The end of a logical line. -/
  | newline
  /-- A line stands deeper than the one before. -/
  | indent
  /-- A block ends. -/
  | dedent
  /-- The end of the text. -/
  | finish
deriving DecidableEq, Repr, Inhabited

/-- A token that is known by its kind alone. -/
inductive Mark where
  | keyword (k : Keyword)
  | punct (p : Punct)
  | layout (l : Layout)
deriving DecidableEq, Repr, Inhabited

instance : Coe Keyword Mark := ⟨Mark.keyword⟩
instance : Coe Punct Mark := ⟨Mark.punct⟩
instance : Coe Layout Mark := ⟨Mark.layout⟩

/-- What a token is. -/
inductive Lexeme where
  | name (s : String)
  | int (n : Int64)
  | float (x : Float)
  | str (s : String)
  /-- A binary operator. -/
  | op (o : BinOp)
  /-- A binary operator with an equals sign. -/
  | augment (o : BinOp)
  | mark (m : Mark)
deriving DecidableEq, Repr, Inhabited

/-- A lexeme with the line it was read from, as the user counts lines. -/
structure Token where
  lexeme : Lexeme
  line : Nat
deriving DecidableEq, Repr, Inhabited

end SortTrace.Script
