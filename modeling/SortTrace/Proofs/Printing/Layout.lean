import SortTrace.Proofs.Printing.Render
import SortTrace.Script.Parsing.Program

/-!
# Printing programs

The tokens of statements and the programs that can be printed. A simple statement has a line of its
own, and a block is always indented on the lines below its colon. All tokens of a statement, other
than those of the statements in it, are on the line that the statement carries.
-/

namespace SortTrace.Script

/-! ## Tokens -/

/-- The lexemes of a simple statement as a line of tokens. -/
def ended (n : Nat) (ls : List Lexeme) : List Token :=
  onLine n ls ++ [⟨.mark Layout.newline, n⟩]

/-- A colon and an indented block with the given tokens inside. -/
def indented (n : Nat) (ts : List Token) : List Token :=
  ⟨.mark Punct.colon, n⟩ :: ⟨.mark Layout.newline, n⟩ :: ⟨.mark Layout.indent, n⟩ ::
    (ts ++ [⟨.mark Layout.dedent, n⟩])

/-- The lexemes of an assignment. -/
def sideLexemes : List Expr → Expr → List Lexeme
  | [], value => value.lexemes
  | target :: targets, value => target.lexemes ++ .mark Punct.assign :: sideLexemes targets value

/-- The lexemes of a parameter. -/
def Param.lexemes (p : Param) : List Lexeme :=
  match p.default with
  | none => [.name p.name]
  | some e => .name p.name :: .mark Punct.assign :: e.lexemes

mutual

/-- The tokens of a statement. -/
def Stmt.tokens : Stmt → List Token
  | .expr n e => ended n e.lexemes
  | .assign n targets value => ended n (sideLexemes targets value)
  | .augment n target op value => ended n (target.lexemes ++ .augment op :: value.lexemes)
  | .branch n cases last => Stmt.caseTokens n .ifKw cases ++ Stmt.elseTokens n last
  | .whileLoop n condition body last =>
    onLine n (.mark Keyword.whileKw :: condition.lexemes) ++ (indented n (Stmt.blockTokens body)
      ++ Stmt.elseTokens n last)
  | .forLoop n target items body last =>
    onLine n (.mark Keyword.forKw :: (target.lexemes ++ .mark Keyword.inKw :: items.lexemes))
      ++ (indented n (Stmt.blockTokens body) ++ Stmt.elseTokens n last)
  | .define n name params body =>
    onLine n (.mark Keyword.defKw :: .name name :: inParens (separated (params.map Param.lexemes)))
      ++ indented n (Stmt.blockTokens body)
  | .giveBack n none => ended n [.mark Keyword.returnKw]
  | .giveBack n (some e) => ended n (.mark Keyword.returnKw :: e.lexemes)
  | .declareGlobal n names =>
    ended n (.mark Keyword.globalKw :: separated (names.map fun s => [.name s]))
  | .leaveLoop n => ended n [.mark Keyword.breakKw]
  | .nextRound n => ended n [.mark Keyword.continueKw]
  | .pass n => ended n [.mark Keyword.passKw]

/-- The tokens of statements one after the other. -/
def Stmt.blockTokens : List Stmt → List Token
  | [] => []
  | s :: ss => s.tokens ++ Stmt.blockTokens ss

/-- The tokens of the cases of a branch, the first of which begins with the given word. -/
def Stmt.caseTokens (n : Nat) (word : Keyword) : List (Expr × List Stmt) → List Token
  | [] => []
  | (condition, body) :: cases =>
    onLine n (.mark word :: condition.lexemes) ++ (indented n (Stmt.blockTokens body)
      ++ Stmt.caseTokens n .elifKw cases)

/-- The tokens of the block after `else`, which is left out when it is empty. -/
def Stmt.elseTokens (n : Nat) : List Stmt → List Token
  | [] => []
  | s :: ss => ⟨.mark Keyword.elseKw, n⟩ :: indented n (s.tokens ++ Stmt.blockTokens ss)

end

/-- The tokens of a program whose text ends on the given line. -/
def programTokens (program : List Stmt) (last : Nat) : List Token :=
  Stmt.blockTokens program ++ [⟨.mark Layout.finish, last⟩]

/-! ## Programs that can be printed -/

/-- Is the expression one that the parser can make, and not too deep? -/
def Expr.isPrintable (e : Expr) : Bool :=
  e.wellFormed && decide (e.height < maxNesting)

/-- Can the parser make the parameters? Their names differ, and those with a default come last. -/
def areParameters : List Param → Bool
  | [] => true
  | p :: ps =>
    ps.all (fun q => q.name != p.name && (p.default.isNone || q.default.isSome))
      && p.default.all Expr.isPrintable && areParameters ps

mutual

/-- Can the parser make the statement where it stands? -/
def Stmt.wellFormed (around : Surrounding) : Stmt → Bool
  | .expr _ e => e.isPrintable
  | .assign _ targets value =>
    !targets.isEmpty && targets.all (fun t => t.isTarget && t.isPrintable) && value.isPrintable
  | .augment _ target _ value => target.isPlace && target.isPrintable && value.isPrintable
  | .branch _ cases last =>
    !cases.isEmpty && Stmt.casesWellFormed around cases && Stmt.allWellFormed around last
  | .whileLoop _ condition body last =>
    condition.isPrintable && !body.isEmpty && Stmt.allWellFormed { around with inLoop := true } body
      && Stmt.allWellFormed around last
  | .forLoop _ target items body last =>
    target.isTarget && target.isPrintable && items.isPrintable && !body.isEmpty
      && Stmt.allWellFormed { around with inLoop := true } body && Stmt.allWellFormed around last
  | .define _ _ params body =>
    areParameters params && !body.isEmpty && Stmt.allWellFormed ⟨true, false⟩ body
  | .giveBack _ value => around.inFunction && value.all Expr.isPrintable
  | .declareGlobal _ names => !names.isEmpty
  | .leaveLoop _ | .nextRound _ => around.inLoop
  | .pass _ => true

/-- Can the parser make all the statements? -/
def Stmt.allWellFormed (around : Surrounding) : List Stmt → Bool
  | [] => true
  | s :: ss => s.wellFormed around && Stmt.allWellFormed around ss

/-- Can the parser make the cases? -/
def Stmt.casesWellFormed (around : Surrounding) : List (Expr × List Stmt) → Bool
  | [] => true
  | (condition, body) :: cases =>
    condition.isPrintable && !body.isEmpty && Stmt.allWellFormed around body
      && Stmt.casesWellFormed around cases

end

end SortTrace.Script
