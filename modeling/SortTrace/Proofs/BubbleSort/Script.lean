import SortTrace.Execution
import SortTrace.Proofs.ListLine

/-!
# The script of a bubble sort

The text of a bubble sort of a given list, and the program that it is read as when it is
instrumented for the list: the exchange of two items is followed by the call that logs the list, and
nothing else is logged.
-/

namespace SortTrace.BubbleSort

open Script Source Parse

/-- The lines of the script behind the one that binds the list. -/
def loopLines : List String :=
  ["n = len(arr)",
    "for i in range(n):",
    "    for j in range(0, n - i - 1):",
    "        if arr[j] > arr[j + 1]:",
    "            arr[j], arr[j + 1] = arr[j + 1], arr[j]",
    "print(arr)",
    ""]

/-- The script that sorts a list and prints it. -/
def source (L : List Int) : String :=
  Text.unlines (("arr = " ++ Value.intsText L) :: loopLines)

example : source [3, 1, 2] = "arr = [3, 1, 2]
n = len(arr)
for i in range(n):
    for j in range(0, n - i - 1):
        if arr[j] > arr[j + 1]:
            arr[j], arr[j + 1] = arr[j + 1], arr[j]
print(arr)
" := by
  decide +kernel

/-! ## The program -/

/-- An item of the list. -/
def item (subscript : Expr) : Expr :=
  .index (.name "arr") subscript

/-- The position behind that of the pass. -/
def next : Expr :=
  .binary .add (.name "j") (.literal (.int 1))

/-- The statements that exchange two items and log the list. -/
def exchangeBlock : List Stmt :=
  [.assign 6 [.tuple [item (.name "j"), item next]] (.tuple [item next, item (.name "j")]),
    .expr 6 (.call (.name "log_state") [.name "arr"] [])]

/-- One step of a pass. -/
def passBody : List Stmt :=
  [.branch 5 [(.compare (item (.name "j")) [(.gt, item next)], exchangeBlock)] []]

/-- The number of steps of a pass. -/
def passEnd : Expr :=
  .binary .sub (.binary .sub (.name "n") (.name "i")) (.literal (.int 1))

/-- A pass over the items that are not settled. -/
def pass : Stmt :=
  .forLoop 4 (.name "j") (.call (.name "range") [.literal (.int 0), passEnd] []) passBody []

/-- All passes, and the call that prints the list. -/
def loops : List Stmt :=
  [.forLoop 3 (.name "i") (.call (.name "range") [.name "n"] []) [pass] [],
    .expr 7 (.call (.name "print") [.name "arr"] [])]

/-- The statements behind the one that binds the list. -/
def sortBlock : List Stmt :=
  .assign 2 [.name "n"] (.call (.name "len") [.name "arr"] []) :: loops

/-- The program that the instrumented script is. -/
def program (L : List Int) : List Stmt :=
  .assign 1 [.name "arr"] (.ofInts L) :: sortBlock

/-! ## Its text -/

variable {L : List Int}

/-- The lines of the instrumented script behind the one that binds the list. -/
def loggedLines : Interleaving :=
  [⟨"n = len(arr)", 2, false⟩,
    ⟨"for i in range(n):", 3, false⟩,
    ⟨"    for j in range(0, n - i - 1):", 4, false⟩,
    ⟨"        if arr[j] > arr[j + 1]:", 5, false⟩,
    ⟨"            arr[j], arr[j + 1] = arr[j + 1], arr[j]", 6, false⟩,
    ⟨"            log_state(arr)", 6, true⟩,
    ⟨"print(arr)", 7, false⟩,
    ⟨"", 8, false⟩]

theorem ofLinesFrom_loopLines : Interleaving.ofLinesFrom "arr" 2 loopLines = loggedLines := by
  decide +kernel

theorem ofSource_source : Instrumented.ofSource (source L) "arr"
    = Interleaving.columns (⟨"arr = " ++ Value.intsText L, 1, false⟩ :: loggedLines) := by
  have onLine : ∀ l ∈ ("arr = " ++ Value.intsText L) :: loopLines, '\n' ∉ l.toList := by
    exact List.forall_mem_cons.mpr ⟨onLine_ints L, by decide⟩
  rw [Instrumented.ofSource_eq, source, Text.lines_unlines (List.cons_ne_nil _ _) onLine,
    Interleaving.ofLinesFrom, isMutation_ints, ofLinesFrom_loopLines]
  rfl

/-! ## Its tokens -/

/-- The lexemes of an item of the list. -/
def itemLexemes (subscript : List Lexeme) : List Lexeme :=
  .name "arr" :: .mark Punct.lbracket :: (subscript ++ [.mark Punct.rbracket])

/-- The lexemes of the item at the position of the pass. -/
def thisLexemes : List Lexeme :=
  itemLexemes [.name "j"]

/-- The lexemes of the item behind it. -/
def nextLexemes : List Lexeme :=
  itemLexemes [.name "j", .op .add, .int 1]

/-- The lexemes of a call with one argument. -/
def callLexemes (function argument : String) : List Lexeme :=
  [.name function, .mark Punct.lparen, .name argument, .mark Punct.rparen]

/-- The tokens of the instrumented script behind the line that binds the list. -/
def loopTokens : List Token :=
  ended 2 (.name "n" :: .mark Punct.assign :: callLexemes "len" "arr")
    ++ ended 3 (.mark Keyword.forKw :: .name "i" :: .mark Keyword.inKw ::
      (callLexemes "range" "n" ++ [.mark Punct.colon]))
    ++ ended 4 [.mark Layout.indent, .mark Keyword.forKw, .name "j", .mark Keyword.inKw,
      .name "range", .mark Punct.lparen, .int 0, .mark Punct.comma, .name "n", .op .sub, .name "i",
      .op .sub, .int 1, .mark Punct.rparen, .mark Punct.colon]
    ++ ended 5 (.mark Layout.indent :: .mark Keyword.ifKw ::
      (thisLexemes ++ .mark Punct.gt :: (nextLexemes ++ [.mark Punct.colon])))
    ++ ended 6 (.mark Layout.indent :: (thisLexemes ++ .mark Punct.comma :: (nextLexemes
      ++ .mark Punct.assign :: (nextLexemes ++ .mark Punct.comma :: thisLexemes))))
    ++ ended 6 (callLexemes "log_state" "arr")
    ++ ended 7 (List.replicate 3 (.mark Layout.dedent) ++ callLexemes "print" "arr")
    ++ [⟨.mark Layout.finish, 8⟩]

/-- The lines that those of the instrumented script came from. -/
def origins : Array Nat :=
  #[1, 2, 3, 4, 5, 6, 6, 7, 8]

theorem tokens_loops :
    (({ Scan.start (Text.joined loggedLines.lines) with line := 2 } : Scan).run origins).map
      (fun s => s.finish origins) = .ok loopTokens := by
  decide +kernel

set_option maxRecDepth 4000 in
/-- The statements behind the first one, whatever that is. -/
theorem programLines_loops (s : Stmt) (fuel rounds : Nat) :
    programLines (fuel + 86) (rounds + 4) [s] loopTokens
      = .ok (s :: sortBlock, [⟨.mark Layout.finish, 8⟩]) := by
  rfl

/-! ## Reading it -/

theorem parseTokens_source (L : List Int) :
    parseTokens ((Stmt.assign 1 [.name "arr"] (.ofInts L)).tokens ++ loopTokens)
      = .ok (program L) :=
  parseTokens_ints L ⟨by decide, by decide⟩ (List.cons_ne_nil _ _) fun s fuel rounds =>
    programLines_loops s fuel (rounds + 82)

theorem programOf_source (h : ∀ x ∈ L, Small x) : programOf (source L) "arr" = .ok (program L) := by
  have origins_eq : (Instrumented.ofSource (source L) "arr").origins.toArray = origins := by
    rw [ofSource_source]
    rfl
  have text : (Instrumented.ofSource (source L) "arr").text
      = Text.unlines (("arr = " ++ Value.intsText L) :: loggedLines.lines) := by
    rw [ofSource_source]
    rfl
  have named : reportedLine origins 1 = 1 := rfl
  have tokens := tokenize_ints h named (by decide) tokens_loops
  rw [programOf, origins_eq, text, parseProgram_of_tokenize tokens, parseTokens_source]

end SortTrace.BubbleSort
