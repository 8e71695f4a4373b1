import SortTrace.Script.Parsing.Expr

/-!
# Printing expressions

The lexemes of an expression, with parentheses only where the ladder of operators needs them. Every
construct stands on a rung of the ladder, from a conditional on rung 0 to names, literals, brackets
and what follows an expression directly on rung 13; a part whose rung is below the one its place
asks for is put in parentheses. Tuples always have parentheses, and a negative literal is a minus
sign with a number.
-/

namespace SortTrace.Script

/-! ## Rungs -/

/-- The rung of a binary operator. -/
def BinOp.rung : BinOp → Nat
  | bitOr => 5
  | bitXor => 6
  | bitAnd => 7
  | shiftLeft | shiftRight => 8
  | add | sub => 9
  | mul | div | floorDiv | mod => 10
  | pow => 12

/-- The rung that the left operand has to stand on. Chains lean to the left, except for powers. -/
def BinOp.leftRung : BinOp → Nat
  | pow => 13
  | op => op.rung

/-- The rung that the right operand has to stand on. -/
def BinOp.rightRung : BinOp → Nat
  | pow => 11
  | op => op.rung + 1

/-- The rung of a connective, which is that of its left operand. -/
def BoolOp.rung : BoolOp → Nat
  | or => 1
  | and => 2

/-- The rung of a sign or of `not`, which is that of its operand. -/
def UnaryOp.rung : UnaryOp → Nat
  | not => 3
  | negate | keep | invert => 11

/-- The rung of an expression. -/
def Expr.rung : Expr → Nat
  | .ifElse .. => 0
  | .logic op .. => op.rung
  | .unary op _ => op.rung
  | .compare .. => 4
  | .binary op .. => op.rung
  | .literal (.int n) => if n < 0 then 11 else 13
  | _ => 13

/-! ## Lexemes -/

/-- The words of a comparison. -/
def CompareOp.lexemes : CompareOp → List Lexeme
  | lt => [.mark Punct.lt]
  | le => [.mark Punct.le]
  | gt => [.mark Punct.gt]
  | ge => [.mark Punct.ge]
  | eq => [.mark Punct.eq]
  | ne => [.mark Punct.ne]
  | member => [.mark Keyword.inKw]
  | notMember => [.mark Keyword.notKw, .mark Keyword.inKw]
  | same => [.mark Keyword.isKw]
  | notSame => [.mark Keyword.isKw, .mark Keyword.notKw]

/-- The word of a connective. -/
def BoolOp.keyword : BoolOp → Keyword
  | and => .andKw
  | or => .orKw

/-- The sign or word before an operand. -/
def UnaryOp.lexeme : UnaryOp → Lexeme
  | negate => .op .sub
  | keep => .op .add
  | invert => .mark Punct.tilde
  | not => .mark Keyword.notKw

/-- The lexemes of a literal. -/
def Literal.lexemes : Literal → List Lexeme
  | .none => [.mark Keyword.noneKw]
  | .bool b => [.mark (if b then Keyword.trueKw else Keyword.falseKw)]
  | .int n => if n < 0 then [.op .sub, .int (-n)] else [.int n]
  | .float x => [.float x]
  | .str s => [.str s]

/-- Lexemes in parentheses. -/
def inParens (ls : List Lexeme) : List Lexeme :=
  .mark Punct.lparen :: (ls ++ [.mark Punct.rparen])

/-- The lexemes of an expression for a place that asks for a rung. -/
def Expr.atRung (rung : Nat) (e : Expr) (ls : List Lexeme) : List Lexeme :=
  if e.rung < rung then inParens ls else ls

/-- Commas between groups of lexemes. -/
def separated : List (List Lexeme) → List Lexeme
  | [] => []
  | [g] => g
  | g :: h :: gs => g ++ .mark Punct.comma :: separated (h :: gs)

/-- The items of a tuple; a single one has a comma after it. -/
def tupleItems : List (List Lexeme) → List Lexeme
  | [g] => g ++ [.mark Punct.comma]
  | gs => separated gs

mutual

/-- The lexemes of an expression. -/
def Expr.lexemes : Expr → List Lexeme
  | .literal v => v.lexemes
  | .name s => [.name s]
  | .list items =>
    .mark Punct.lbracket :: (separated (Expr.groups items) ++ [.mark Punct.rbracket])
  | .tuple items => inParens (tupleItems (Expr.groups items))
  | .unary op e => op.lexeme :: e.atRung op.rung e.lexemes
  | .binary op l r => l.atRung op.leftRung l.lexemes ++ .op op :: r.atRung op.rightRung r.lexemes
  | .logic op l r =>
    l.atRung op.rung l.lexemes ++ .mark op.keyword :: r.atRung (op.rung + 1) r.lexemes
  | .compare first rest => first.atRung 5 first.lexemes ++ Expr.linkLexemes rest
  | .ifElse condition yes no =>
    yes.atRung 1 yes.lexemes ++ .mark Keyword.ifKw ::
      (condition.atRung 1 condition.lexemes ++ .mark Keyword.elseKw :: no.lexemes)
  | .index object subscript =>
    object.atRung 13 object.lexemes ++ .mark Punct.lbracket ::
      (subscript.lexemes ++ [.mark Punct.rbracket])
  | .slice object lower upper step =>
    object.atRung 13 object.lexemes ++ .mark Punct.lbracket ::
      (Expr.boundLexemes lower ++ .mark Punct.colon :: (Expr.boundLexemes upper ++
        (if step.isSome then .mark Punct.colon :: Expr.boundLexemes step else [])
          ++ [.mark Punct.rbracket]))
  | .call f args keywords =>
    f.atRung 13 f.lexemes ++ inParens (separated (Expr.groups args ++ Expr.keywordGroups keywords))
  | .method object key args keywords =>
    object.atRung 13 object.lexemes ++ .mark Punct.dot :: .name key ::
      inParens (separated (Expr.groups args ++ Expr.keywordGroups keywords))

/-- The lexemes of each of some expressions. -/
def Expr.groups : List Expr → List (List Lexeme)
  | [] => []
  | e :: es => e.lexemes :: Expr.groups es

/-- The lexemes of each of some keyword arguments. -/
def Expr.keywordGroups : List (String × Expr) → List (List Lexeme)
  | [] => []
  | (key, e) :: rest => (.name key :: .mark Punct.assign :: e.lexemes) :: Expr.keywordGroups rest

/-- The lexemes of the links of a chain of comparisons. -/
def Expr.linkLexemes : List (CompareOp × Expr) → List Lexeme
  | [] => []
  | (op, e) :: rest => op.lexemes ++ (e.atRung 5 e.lexemes ++ Expr.linkLexemes rest)

/-- The lexemes of a bound of a slice. -/
def Expr.boundLexemes : Option Expr → List Lexeme
  | none => []
  | some e => e.lexemes

end

/-- The lexemes of an expression for a place that asks for a rung. -/
def Expr.lexemesAt (rung : Nat) (e : Expr) : List Lexeme :=
  e.atRung rung e.lexemes

/-- Chains of one operator need parentheses on the right only. -/
example : (Expr.binary .sub (.binary .sub (.name "a") (.name "b"))
      (.binary .sub (.name "c") (.name "d"))).lexemes
    = [.name "a", .op .sub, .name "b", .op .sub,
        .mark Punct.lparen, .name "c", .op .sub, .name "d", .mark Punct.rparen] := rfl

/-- Tokens with the given lexemes on a line. -/
def onLine (n : Nat) (ls : List Lexeme) : List Token :=
  ls.map fun l => ⟨l, n⟩

/-! ## Expressions that can be printed -/

mutual

/-- The length of the longest way down an expression. -/
def Expr.height : Expr → Nat
  | .literal _ | .name _ => 0
  | .list items | .tuple items => Expr.itemsHeight items
  | .unary _ e => e.height + 1
  | .binary _ l r | .logic _ l r | .index l r => max l.height r.height + 1
  | .compare first rest => max (first.height + 1) (Expr.linksHeight rest)
  | .ifElse condition yes no => max condition.height (max yes.height no.height) + 1
  | .slice object lower upper step =>
    max (object.height + 1)
      (max (Expr.boundHeight lower) (max (Expr.boundHeight upper) (Expr.boundHeight step)))
  | .call e args keywords | .method e _ args keywords =>
    max (e.height + 1) (max (Expr.itemsHeight args) (Expr.keywordsHeight keywords))

/-- The height of a node with the given items. -/
def Expr.itemsHeight : List Expr → Nat
  | [] => 0
  | e :: es => max (e.height + 1) (Expr.itemsHeight es)

/-- The height of a node with the given keyword arguments. -/
def Expr.keywordsHeight : List (String × Expr) → Nat
  | [] => 0
  | (_, e) :: rest => max (e.height + 1) (Expr.keywordsHeight rest)

/-- The height of a node with the given links. -/
def Expr.linksHeight : List (CompareOp × Expr) → Nat
  | [] => 0
  | (_, e) :: rest => max (e.height + 1) (Expr.linksHeight rest)

/-- The height of a node with the given bound. -/
def Expr.boundHeight : Option Expr → Nat
  | none => 0
  | some e => e.height + 1

end

theorem Expr.height_unary (op : UnaryOp) (e : Expr) :
    (Expr.unary op e).height = e.height + 1 := by
  rw [Expr.height]

/-- Is the expression an integer literal? -/
def Expr.isInt : Expr → Bool
  | .literal (.int _) => true
  | _ => false

/-- Do the names differ from each other? -/
def distinct (names : List String) : Bool :=
  decide names.Nodup

mutual

/-- Can the parser make the expression? It makes no floats here, no chain without a comparison, no
minus before an integer literal, and no keyword twice. -/
def Expr.wellFormed : Expr → Bool
  | .literal (.float _) => false
  | .literal _ | .name _ => true
  | .list items | .tuple items => Expr.allWellFormed items
  | .unary op e => e.wellFormed && !(op == .negate && e.isInt)
  | .binary _ l r | .logic _ l r | .index l r => l.wellFormed && r.wellFormed
  | .compare first rest => first.wellFormed && !rest.isEmpty && Expr.linksWellFormed rest
  | .ifElse condition yes no => condition.wellFormed && yes.wellFormed && no.wellFormed
  | .slice object lower upper step =>
    object.wellFormed && Expr.boundWellFormed lower && Expr.boundWellFormed upper
      && Expr.boundWellFormed step
  | .call e args keywords | .method e _ args keywords =>
    e.wellFormed && Expr.allWellFormed args && Expr.keywordsWellFormed keywords
      && distinct (keywords.map Prod.fst)

/-- Can the parser make all the expressions? -/
def Expr.allWellFormed : List Expr → Bool
  | [] => true
  | e :: es => e.wellFormed && Expr.allWellFormed es

/-- Can the parser make the keyword arguments? -/
def Expr.keywordsWellFormed : List (String × Expr) → Bool
  | [] => true
  | (_, e) :: rest => e.wellFormed && Expr.keywordsWellFormed rest

/-- Can the parser make the links? -/
def Expr.linksWellFormed : List (CompareOp × Expr) → Bool
  | [] => true
  | (_, e) :: rest => e.wellFormed && Expr.linksWellFormed rest

/-- Can the parser make the bound? -/
def Expr.boundWellFormed : Option Expr → Bool
  | none => true
  | some e => e.wellFormed

end

theorem Expr.wellFormed_unary (op : UnaryOp) (e : Expr) :
    (Expr.unary op e).wellFormed = (e.wellFormed && !(op == .negate && e.isInt)) := by
  rw [Expr.wellFormed]

end SortTrace.Script
