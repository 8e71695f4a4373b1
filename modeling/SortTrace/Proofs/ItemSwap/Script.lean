import SortTrace.Execution
import SortTrace.Proofs.ListLine

/-!
# The script of an exchange

The text that binds a list and exchanges two of its items, and the program that it is read as when
it is instrumented for the list: the exchange is followed by the call that logs the list. A
subscript that 64 bits cannot hold is refused while the text is scanned.
-/

namespace SortTrace.ItemSwap

open Script Source Parse

variable {L : List Int} {i j : Int} {closed : Bool}

/-- The line that exchanges two items of the list. -/
def swapLine (i j : Int) : String :=
  "arr[" ++ toString i ++ "], arr[" ++ toString j ++ "] = arr[" ++ toString j ++ "], arr["
    ++ toString i ++ "]"

/-- The line and what stands behind it: nothing, or its newline. -/
def swapLines (i j : Int) (closed : Bool) : List String :=
  swapLine i j :: if closed then [""] else []

/-- The script that binds a list and exchanges two of its items. The last line ends with a newline
or not. -/
def source (L : List Int) (i j : Int) (closed : Bool) : String :=
  Text.unlines (("arr = " ++ Value.intsText L) :: swapLines i j closed)

example : source [4, 5, 6] 0 (-1) true = "arr = [4, 5, 6]
arr[0], arr[-1] = arr[-1], arr[0]
" := by
  decide +kernel

/-! ## The program -/

/-- An item of the list. -/
def item (i : Int) : Expr :=
  .index (.name "arr") (.ofInt i)

/-- The statement that exchanges the items. -/
def exchange (i j : Int) : Stmt :=
  .assign 2 [.tuple [item i, item j]] (.tuple [item j, item i])

/-- The call that logs the list. -/
def logs : Stmt :=
  .expr 2 (.call (.name "log_state") [.name "arr"] [])

/-- The program that the instrumented script is. -/
def program (L : List Int) (i j : Int) : List Stmt :=
  [.assign 1 [.name "arr"] (.ofInts L), exchange i j, logs]

/-! ## The instrumented text -/

/-- The text of an item of the list, without the name of the list. -/
def itemText (i : Int) : List Char :=
  '[' :: ((toString i).toList ++ [']'])

theorem toList_swapLine : (swapLine i j).toList = "arr".toList ++ (itemText i ++
    (", arr".toList ++ (itemText j ++ (" = arr".toList ++ (itemText j ++
      (", arr".toList ++ itemText i)))))) := by
  simp [swapLine, itemText]

theorem not_mem_swapLine {c : Char} (hdigit : c.isDigit = false) (hlist : c ∉ "[], -".toList)
    (hword : c ∉ "ar=".toList) : c ∉ (swapLine i j).toList := by
  have item (x : Int) : c ∉ itemText x := by
    have integer : c ∉ (toString x).toList := fun hc =>
      not_isListChar hdigit hlist (isListChar_integer hc)
    simp only [itemText, List.mem_cons, List.mem_append, not_or]
    simp at hlist
    exact ⟨hlist.1, integer, hlist.2.1, List.not_mem_nil⟩
  simp at hlist hword
  simp [toList_swapLine, item, hlist, hword]

theorem isMutation_swapLine (i j : Int) : isMutation (swapLine i j) "arr" = true := by
  have list : Text.occurs "arr[".toList (swapLine i j).toList = true :=
    Text.occurs_of_infix ⟨[], _, toList_swapLine.symm⟩
  have sign : Text.occurs ['='] (swapLine i j).toList = true := by
    have mem : '=' ∈ (swapLine i j).toList := by simp [toList_swapLine]
    obtain ⟨before, behind, line⟩ := List.append_of_mem mem
    exact Text.occurs_of_infix ⟨before, behind, by rw [line]; simp⟩
  have other : Text.occurs exclusion.toList (swapLine i j).toList = false :=
    Text.occurs_of_not_mem (c := 't') (by decide) (not_mem_swapLine rfl (by decide) (by decide))
  have name : ("arr" ++ "[" : String).toList = "arr[".toList := rfl
  rw [isMutation, name, list, sign, other]
  rfl

theorem opensBlock_swapLine (i j : Int) : opensBlock (swapLine i j) = false := by
  obtain ⟨front, line⟩ : ∃ front, (swapLine i j).toList = front ++ [']'] := by
    refine ⟨"arr".toList ++ (itemText i ++ (", arr".toList ++ (itemText j ++ (" = arr".toList ++
      (itemText j ++ (", arr".toList ++ '[' :: (toString i).toList)))))), ?_⟩
    simp [toList_swapLine, itemText]
  have kept : Text.trimRight (front ++ [']']) = front ++ [']'] := by
    rw [Text.trimRight, List.reverse_append]
    simp [Text.isBlank]
  rw [opensBlock, line, kept, List.getLast?_concat]
  rfl

theorem logCall_swapLine (i j : Int) : logCall (swapLine i j) "arr" = "log_state(arr)" := by
  have margin : indentation (swapLine i j) = [] := by
    rw [indentation, toList_swapLine]
    rfl
  rw [logCall, margin, opensBlock_swapLine]
  rfl

/-- The lines of the instrumented script behind the one that binds the list. -/
def loggedLines (i j : Int) (closed : Bool) : Interleaving :=
  ⟨swapLine i j, 2, false⟩ :: ⟨"log_state(arr)", 2, true⟩ ::
    if closed then [⟨"", 3, false⟩] else []

theorem ofSource_source (L : List Int) (i j : Int) (closed : Bool) :
    Instrumented.ofSource (source L i j closed) "arr"
      = Interleaving.columns (⟨"arr = " ++ Value.intsText L, 1, false⟩ :: loggedLines i j closed) := by
  have swapped : '\n' ∉ (swapLine i j).toList :=
    not_mem_swapLine rfl (by decide) (by decide)
  have onLine : ∀ l ∈ ("arr = " ++ Value.intsText L) :: swapLines i j closed,
      '\n' ∉ l.toList := by
    refine List.forall_mem_cons.mpr ⟨onLine_ints L, List.forall_mem_cons.mpr ⟨swapped, ?_⟩⟩
    cases closed <;> decide
  rw [Instrumented.ofSource_eq, source, Text.lines_unlines (List.cons_ne_nil _ _) onLine,
    Interleaving.ofLinesFrom, isMutation_ints, swapLines, Interleaving.ofLinesFrom,
    isMutation_swapLine, logCall_swapLine]
  cases closed <;> rfl

/-- The lines that those of the instrumented script came from. -/
def origins (closed : Bool) : Array Nat :=
  if closed then #[1, 2, 2, 3] else #[1, 2, 2]

theorem programOf_eq (L : List Int) (i j : Int) (closed : Bool) :
    programOf (source L i j closed) "arr" = parseProgram
      (Text.unlines (("arr = " ++ Value.intsText L) :: (loggedLines i j closed).lines))
      (origins closed) := by
  rw [programOf, ofSource_source]
  cases closed <;> rfl

/-! ## Its tokens -/

/-- The lexemes of an item of the list. -/
def itemLexemes (i : Int) : List Lexeme :=
  .name "arr" :: .mark Punct.lbracket ::
    ((Literal.int (Int64.ofInt i)).lexemes ++ [.mark Punct.rbracket])

/-- The tokens of the line that exchanges the items. -/
def swapLexemes (i j : Int) : List Lexeme :=
  itemLexemes i ++ .mark Punct.comma :: (itemLexemes j ++ .mark Punct.assign ::
    (itemLexemes j ++ .mark Punct.comma :: itemLexemes i))

/-- The tokens of the instrumented script behind the line that binds the list. -/
def tokens (i j : Int) (closed : Bool) : List Token :=
  ended 2 (swapLexemes i j)
    ++ ended 2 [.name "log_state", .mark Punct.lparen, .name "arr", .mark Punct.rparen]
    ++ [⟨.mark Layout.finish, if closed then 3 else 2⟩]

section Reads

open Scan

variable {text tail : List Char} {ls : List Lexeme}

/-- The text of an item is read behind the name of the list. -/
theorem reads_item (h : Small i) : Reads 1 (itemText i) (.mark Punct.lbracket ::
    ((Literal.int (Int64.ofInt i)).lexemes ++ [.mark Punct.rbracket])) tail :=
  (Reads.integer (d := 0) h (.cons (by simp))).brackets

/-- The name of the list is read before a bracket. -/
theorem reads_name : Reads 1 "arr".toList [.name "arr"] ('[' :: tail) :=
  .token fun _ _ => rfl

/-- A comma and the name of the list. -/
theorem reads_comma :
    Reads 1 ", arr".toList [.mark Punct.comma, .name "arr"] ('[' :: tail) :=
  .comma (.blank reads_name)

/-- The sign of an assignment and the name of the list. -/
theorem reads_assign :
    Reads 1 " = arr".toList [.mark Punct.assign, .name "arr"] ('[' :: tail) :=
  have sign : Reads 1 ['='] [.mark Punct.assign] (' ' :: ("arr".toList ++ '[' :: tail)) :=
    .token fun _ _ => rfl
  .blank (sign.append (.blank reads_name))

/-- The line is read behind the name that it starts with. -/
theorem reads_swapLine (hi : Small i) (hj : Small j) (tail : List Char) :
    Reads 1 (itemText i ++ (", arr".toList ++ (itemText j ++ (" = arr".toList ++ (itemText j ++
      (", arr".toList ++ itemText i)))))) (swapLexemes i j).tail ('\n' :: tail) :=
  (reads_item hi).append (reads_comma.append ((reads_item hj).append (reads_assign.append
    ((reads_item hj).append (reads_comma.append (reads_item hi))))))

end Reads

/-- The lines behind the one that exchanges the items. -/
def otherLines (closed : Bool) : List String :=
  "log_state(arr)" :: if closed then [""] else []

theorem lines_loggedLines : (loggedLines i j closed).lines = swapLine i j :: otherLines closed := by
  cases closed <;> rfl

theorem tokens_otherLines (closed : Bool) :
    (({ Scan.start (Text.joined (otherLines closed)) with line := 3 } : Scan).run
        (origins closed)).map (fun s => s.finish (origins closed))
      = .ok (ended 2 [.name "log_state", .mark Punct.lparen, .name "arr",
          .mark Punct.rparen] ++ [⟨.mark Layout.finish, if closed then 3 else 2⟩]) := by
  cases closed <;> decide +kernel

theorem getLast?_swapLexemes (i j : Int) :
    (swapLexemes i j).tail.getLast? = some (.mark Punct.rbracket) := by
  refine List.getLast?_eq_some_iff.mpr ⟨(itemLexemes i ++ .mark Punct.comma ::
    (itemLexemes j ++ .mark Punct.assign :: (itemLexemes j ++ .mark Punct.comma :: .name "arr" ::
      .mark Punct.lbracket :: (Literal.int (Int64.ofInt i)).lexemes))).tail, ?_⟩
  simp [swapLexemes, itemLexemes]

theorem joined_loggedLines : Text.joined (loggedLines i j closed).lines
    = "arr".toList ++ (itemText i ++ (", arr".toList ++ (itemText j ++ (" = arr".toList ++
      (itemText j ++ (", arr".toList ++ (itemText i ++ '\n' ::
        Text.joined (otherLines closed)))))))) := by
  rw [lines_loggedLines, Text.joined_cons (by simp [otherLines]), toList_swapLine]
  simp only [List.append_assoc]

/-- The scanner behind the name that the line starts with. -/
def behindName (map : Array Nat) (base : List Token) (cs : List Char) : Scan :=
  { Scan.start ('[' :: cs) with
  line := 2
  fresh := false
  tokens := ⟨.name "arr", reportedLine map 2⟩ :: base }

theorem run_name (map : Array Nat) (base : List Token) (cs : List Char) :
    ({ Scan.start ("arr".toList ++ '[' :: cs) with line := 2, tokens := base } : Scan).run map
      = (behindName map base cs).run map :=
  Scan.run_of_step (List.cons_ne_nil _ _) rfl

theorem tokens_loggedLines (hi : Small i) (hj : Small j) (closed : Bool) :
    (({ Scan.start (Text.joined (loggedLines i j closed).lines) with line := 2 } : Scan).run
        (origins closed)).map (fun s => s.finish (origins closed)) = .ok (tokens i j closed) := by
  have named : reportedLine (origins closed) 2 = 2 := by
    cases closed <;> rfl
  have room : 1 ≤ maxBrackets := by decide
  rw [joined_loggedLines]
  refine (congrArg (Except.map _) (run_name (origins closed) [] _)).trans ?_
  have line := reads_swapLine hi hj (Text.joined (otherLines closed))
  rw [Scan.run_restOfLine line (getLast?_swapLexemes i j) rfl rfl room
    (by simp [behindName, itemText, Scan.start])]
  have ends : Scan.AtLayout ((onLine (reportedLine (origins closed) 2)
      ((swapLexemes i j).tail ++ [.mark Layout.newline])).reverse
        ++ [⟨.name "arr", reportedLine (origins closed) 2⟩]) := by
    rw [onLine_append, List.reverse_append]
    rfl
  refine (Scan.finish_behind ends rfl (tokens_otherLines closed)).trans ?_
  simp [named, tokens, ended, swapLexemes, itemLexemes]

/-! ## Reading it -/

variable {e e' : Expr} {f n : Nat} {rest : List Token}

/-- Two expressions with a comma between them make a tuple. -/
theorem reads_pair (he : e.isPrintable = true) (he' : e'.isPrintable = true)
    (hf : (e.lexemes ++ .mark Punct.comma :: e'.lexemes).length + 1 < f) (hs : Stops 0 rest)
    (hcomma : lexemeOf rest ≠ .mark Punct.comma) :
    parseTestList f (onLine n (e.lexemes ++ .mark Punct.comma :: e'.lexemes) ++ rest)
      = .ok (.tuple [e, e'], rest) := by
  obtain ⟨f, rfl⟩ := Nat.exists_eq_add_one_of_ne_zero (show f ≠ 0 by omega)
  rw [List.length_append, List.length_cons] at hf
  have first : parseTest (f + 1)
      (onLine n e.lexemes ++ ⟨.mark Punct.comma, n⟩ :: (onLine n e'.lexemes ++ rest))
      = .ok (e, ⟨.mark Punct.comma, n⟩ :: (onLine n e'.lexemes ++ rest)) :=
    reads_test he (by omega) (.of_none rfl)
  have second : parseTest (f + 1) (onLine n e'.lexemes ++ rest) = .ok (e', rest) :=
    reads_test he' (by omega) hs
  have last : moreItems (parseTest (f + 1)) f [e', e] rest = .ok ([e, e'], rest) := by
    cases f with
    | zero => rfl
    | succ f =>
      rw [moreItems, bind_ok (accept_miss hcomma)]
      rfl
  rw [onLine_append, onLine_cons, List.append_assoc, List.cons_append, parseTestList, testList,
    bind_ok first, bind_ok (check_hit rfl)]
  refine map_ok ?_
  rw [moreItems, bind_ok (accept_hit n)]
  simp only [if_true]
  rw [bind_ok peek_apply, (opening e').startsExpr_lexemeOf n rest]
  exact (bind_ok second).trans last

theorem lexemes_item (i : Int) : (item i).lexemes = itemLexemes i := by
  rfl

theorem isPrintable_item (i : Int) : (item i).isPrintable = true := by
  rfl

/-- The lexemes of two items with a comma between them. -/
def pairLexemes (i j : Int) : List Lexeme :=
  itemLexemes i ++ .mark Punct.comma :: itemLexemes j

theorem swapLexemes_eq (i j : Int) :
    swapLexemes i j = pairLexemes i j ++ .mark Punct.assign :: pairLexemes j i := by
  simp [swapLexemes, pairLexemes]

theorem reads_items (hf : (swapLexemes i j).length ≤ f) (hs : Stops 0 rest)
    (hcomma : lexemeOf rest ≠ .mark Punct.comma) :
    parseTestList f (onLine n (pairLexemes i j) ++ rest) = .ok (.tuple [item i, item j], rest) := by
  rw [pairLexemes, ← lexemes_item, ← lexemes_item]
  refine reads_pair (isPrintable_item i) (isPrintable_item j) ?_ hs hcomma
  simp only [swapLexemes, List.length_append, List.length_cons, lexemes_item] at hf ⊢
  omega

theorem exprStatement_exchange (hf : (swapLexemes i j).length ≤ f) :
    exprStatement f 2 (onLine 2 (swapLexemes i j) ++ ⟨.mark Layout.newline, 2⟩ :: rest)
      = .ok (exchange i j, ⟨.mark Layout.newline, 2⟩ :: rest) := by
  have some : 1 < (swapLexemes i j).length := by
    simp [swapLexemes, itemLexemes]
  have width : (swapLexemes j i).length ≤ f := by
    simp only [swapLexemes_eq, List.length_append, List.length_cons] at hf ⊢
    omega
  obtain ⟨rounds, hrounds⟩ : ∃ rounds, f = rounds + 2 := ⟨f - 2, by omega⟩
  have right : parseTestList f (onLine 2 (pairLexemes j i) ++ ⟨.mark Layout.newline, 2⟩ :: rest)
      = .ok (.tuple [item j, item i], ⟨.mark Layout.newline, 2⟩ :: rest) :=
    reads_items width (.of_none rfl) (by simp)
  have sides : moreAssigned (parseTestList f) f [.tuple [item i, item j]]
        (⟨.mark Punct.assign, 2⟩ :: (onLine 2 (pairLexemes j i)
          ++ ⟨.mark Layout.newline, 2⟩ :: rest))
      = .ok ([.tuple [item j, item i], .tuple [item i, item j]],
        ⟨.mark Layout.newline, 2⟩ :: rest) := by
    rw [hrounds, moreAssigned, bind_ok (accept_hit 2), ← hrounds]
    simp only [if_true]
    rw [bind_ok right, moreAssigned, bind_ok (accept_miss (by simp))]
    rfl
  rw [swapLexemes_eq, onLine_append, onLine_cons, List.append_assoc, List.cons_append,
    exprStatement, bind_ok (reads_items hf (.of_none rfl) (by simp)), bind_ok peek_apply]
  exact bind_ok sides

/-- The line that exchanges the items is read as a statement. -/
theorem parseStatement_exchange (hf : (swapLexemes i j).length < f) :
    parseStatement f ⟨false, false⟩ (ended 2 (swapLexemes i j) ++ rest)
      = .ok ([exchange i j], rest) := by
  obtain ⟨f, rfl⟩ := Nat.exists_eq_add_one_of_ne_zero (show f ≠ 0 by omega)
  have some : 0 < (swapLexemes i j).length := by
    simp [swapLexemes, itemLexemes]
  rw [ended_append]
  exact exprLine_reads (by omega) rfl rfl (exprStatement_exchange (by omega))

/-- The statements behind the first one, whatever that is. -/
theorem programLines_tokens (s : Stmt) (fuel rounds : Nat) :
    programLines (fuel + (tokens i j closed).length) (rounds + (tokens i j closed).length) [s]
        (tokens i j closed)
      = .ok (s :: [exchange i j, logs], [⟨.mark Layout.finish, if closed then 3 else 2⟩]) := by
  have call : logs.wellFormed ⟨false, false⟩ = true := rfl
  have size : (tokens i j closed).length = (swapLexemes i j).length + 7 := by
    simp [tokens, length_ended]
  have first : parseStatement (fuel + (tokens i j closed).length) ⟨false, false⟩ (tokens i j closed)
      = .ok ([exchange i j], logs.tokens ++ [⟨.mark Layout.finish, if closed then 3 else 2⟩]) := by
    rw [tokens, List.append_assoc]
    exact parseStatement_exchange (by simp [length_ended]; omega)
  have width : logs.tokens.length = 5 := rfl
  have second := Stmt.readsBack logs _ call (fuel + (tokens i j closed).length)
    [⟨.mark Layout.finish, if closed then 3 else 2⟩] (by omega) ⟨by simp, by simp⟩
  have three : rounds + (tokens i j closed).length = rounds + (swapLexemes i j).length + 4 + 3 := by
    omega
  rw [three, programLines_read rfl first, programLines_read (startsStmt_tokens call _) second]
  rfl

theorem programOf_source (hL : ∀ x ∈ L, Small x) (hi : Small i) (hj : Small j) :
    programOf (source L i j closed) "arr" = .ok (program L i j) := by
  have named : reportedLine (origins closed) 1 = 1 := by
    cases closed <;> rfl
  have read := tokenize_ints hL named (by simp [loggedLines, Interleaving.lines])
    (tokens_loggedLines hi hj closed)
  rw [programOf_eq, parseProgram_of_tokenize read]
  exact parseTokens_ints L ⟨by simp [tokens, ended, swapLexemes, itemLexemes],
    by simp [tokens, ended, swapLexemes, itemLexemes]⟩ (by simp [tokens])
    programLines_tokens

/-! ## Subscripts that are too large -/

section Refuses

open Scan

variable {map : Array Nat} {text tail : List Char} {ls : List Lexeme} {d : Nat} {x : Int}

/-- Inside a line, the text is refused because of a number that 64 bits cannot hold. It opens at
most `d` brackets before. -/
def Refuses (d : Nat) (text : List Char) : Prop :=
  ∀ (map : Array Nat) (s : Scan), s.fresh = false → s.depth + d ≤ maxBrackets → s.rest = text →
    s.run map = .error .overflow

theorem Refuses.behind (h : Refuses d tail) (ht : Reads d text ls tail) :
    Refuses d (text ++ tail) := by
  intro map s hfresh hdepth hrest
  rw [ht map s hfresh hdepth hrest]
  exact h map _ hfresh hdepth rfl

theorem Refuses.item (hx : 2 ^ 63 ≤ x) (tail : List Char) : Refuses 1 (itemText x ++ tail) := by
  intro map s hfresh hdepth hrest
  have digits : (toString x).toList = Nat.toDigits 10 x.toNat := by
    rw [Int.toString_eq_repr, Int.repr_eq_if, if_pos (by omega), Nat.toList_repr]
  have text : itemText x ++ tail = '[' :: (Nat.toDigits 10 x.toNat ++ ']' :: tail) := by
    rw [itemText, digits]
    simp
  rw [text] at hrest
  have room : s.depth < maxBrackets := by omega
  have opened : s.step map = _ :=
    (step_inside hfresh hrest).trans (Reads.opens_of_nest rfl rfl room)
  rw [run_of_step (by rw [hrest]; exact List.cons_ne_nil _ _) opened]
  have ends : Delimited (']' :: tail) := .cons (by simp)
  exact (areDigits_toDigits x.toNat).run_overflow (by omega) ends.endsNumber hfresh rfl

/-- The line is refused if a subscript is too large. -/
theorem refuses_swapLine (hi : Small i ∨ 2 ^ 63 ≤ i) (h : 2 ^ 63 ≤ i ∨ 2 ^ 63 ≤ j)
    (tail : List Char) : Refuses 1 (itemText i ++ (", arr".toList ++ (itemText j ++ tail))) := by
  rcases hi with small | large
  · have large : 2 ^ 63 ≤ j := by
      rw [Small] at small
      omega
    exact ((Refuses.item large tail).behind reads_comma).behind (reads_item small)
  · exact Refuses.item large _

/-- The script is refused if a subscript is too large. -/
theorem programOf_overflow (hL : ∀ x ∈ L, Small x) (hi : Small i ∨ 2 ^ 63 ≤ i)
    (h : 2 ^ 63 ≤ i ∨ 2 ^ 63 ≤ j) : programOf (source L i j closed) "arr" = .error .overflow := by
  have room : 1 ≤ maxBrackets := by decide
  have others : (loggedLines i j closed).lines ≠ [] := by
    rw [lines_loggedLines]
    exact List.cons_ne_nil _ _
  have chars : (Text.unlines
      (("arr = " ++ Value.intsText L) :: (loggedLines i j closed).lines)).toList
      = "arr = ".toList ++ ((Value.intsText L).toList ++ '\n' ::
        Text.joined (loggedLines i j closed).lines) := by
    rw [Text.toList_unlines, Text.joined_cons others, String.toList_append, List.append_assoc]
  have refused := refuses_swapLine hi h (" = arr".toList ++ (itemText j ++ (", arr".toList ++
    (itemText i ++ '\n' :: Text.joined (otherLines closed)))))
  have scanned : (start ("arr = ".toList ++ ((Value.intsText L).toList ++ '\n' ::
      Text.joined (loggedLines i j closed).lines))).run (origins closed) = .error .overflow := by
    rw [run_ints _ _ hL, joined_loggedLines]
    refine (run_name (origins closed) _ _).trans (refused _ _ rfl room ?_)
    simp [behindName, itemText, start]
  rw [programOf_eq, parseProgram, tokenize, chars, scanned]
  rfl

end Refuses

end SortTrace.ItemSwap
