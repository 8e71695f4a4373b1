import SortTrace.Proofs.Depth.Expr
import SortTrace.Proofs.Grammar.Statements
import SortTrace.Proofs.Scanning.Arranged

/-!
# How deep the expressions of a program are

The scanner limits the brackets of a text, so the expressions of a program rise no further than
those behind no open bracket (`maxRise`), and only subscripts, slices and calls that stand one
behind the other make them any higher (`parseProgram_height`). Of these there can be as many as the
text has room for: every bracket is closed before the next one is opened, and the loop that reads
them counts nothing. So the heights of all expressions that are accepted have no bound
(`no_height_limit`).
-/

namespace SortTrace.Script

open Parse

/-! ## The most that an expression rises -/

/-- The most that an expression of a program rises: one step for a tuple without parentheses, and
what an expression at the outermost nesting rises that stands in no brackets. -/
def maxRise : Nat :=
  Goal.test.limit 0 0 + 1

example : maxRise = 1809803 := rfl

theorem primaryLimit_le (nesting depth : Nat) :
    primaryLimit nesting depth ≤ primaryLimit nesting 0 :=
  Nat.mul_le_mul_left _ (Nat.sub_le_sub_left (Nat.zero_le depth) maxBrackets)

/-- What is read behind any number of open brackets is read behind some. -/
theorem Parse.Makes.behindSome {α : Type} {p : α → Prop} {r : Parse α}
    (h : ∀ depth, Parse.Makes (Behind depth) p r) :
    Parse.Makes (fun ts => ∃ depth, Behind depth ts) p r := by
  rintro ts a rest ⟨depth, hts⟩ hr
  obtain ⟨ha, hrest⟩ := h depth ts a rest hts hr
  exact ⟨ha, depth, hrest⟩

/-- Expressions and operands rise no further than their limit behind no open bracket, and a tuple of
them has one step more. -/
theorem rise_parts : ExprParts (fun ts => ∃ depth, Behind depth ts)
    (fun e => e.rise ≤ Goal.test.limit 0 0) (fun e => e.rise ≤ maxRise) where
  test fuel := .behindSome fun depth => (parseGoal_rise fuel .test 0 depth).weaken fun e he => by
    have lower := primaryLimit_le 0 depth
    simp only [Goal.limit] at he ⊢
    omega
  operand fuel := .behindSome fun depth =>
    (binary_rise (parseGoal_rise fuel) operatorLevels).weaken fun e he => by
      have lower := primaryLimit_le 0 depth
      have six : operatorLevels.length = 6 := rfl
      simp only [six, Goal.limit] at he ⊢
      omega
  whole _ he := Nat.le_succ_of_le he
  tuple items hes := tuple_rise items hes

/-- The tokens of a text stand behind no open bracket. -/
theorem behind_of_tokenize {text : String} {map : Array Nat} {ts : List Token}
    (h : tokenize text map = .ok ts) : Behind 0 ts := by
  obtain ⟨s, inOrder, rfl⟩ := Scan.InOrder.of_tokenize h
  exact inOrder.finish.brackets

/-! ## Subscripts one behind the other -/

/-- The name `x` with so many subscripts behind it. -/
def subscripted : Nat → Expr
  | 0 => .name "x"
  | n + 1 => .index (subscripted n) (.literal (.int 0))

theorem height_subscripted (n : Nat) : (subscripted n).height = n := by
  induction n with
  | zero => rfl
  | succ n ih =>
    rw [subscripted, Expr.height, ih]
    exact congrArg (· + 1) (Nat.max_eq_left (Nat.zero_le n))

theorem rung_subscripted (n : Nat) : (subscripted n).rung = 13 := by
  cases n <;> rfl

/-- The lexemes of a subscript. -/
def subscriptLexemes : List Lexeme :=
  [.mark Punct.lbracket, .int 0, .mark Punct.rbracket]

theorem lexemes_subscripted (n : Nat) : (subscripted n).lexemes
    = .name "x" :: (List.replicate n subscriptLexemes).flatten := by
  induction n with
  | zero => rfl
  | succ n ih =>
    have bare : (subscripted n).atRung 13 (subscripted n).lexemes = (subscripted n).lexemes :=
      lexemesAt_of_le (Nat.le_of_eq (rung_subscripted n).symm)
    rw [subscripted, Expr.lexemes, bare, ih, List.replicate_succ', List.flatten_append,
      List.flatten_singleton]
    rfl

theorem isWritten_subscripted (n : Nat) : ∀ l ∈ (subscripted n).lexemes, l.IsWritten := by
  have subscript : ∀ l ∈ subscriptLexemes, l.IsWritten := by decide
  rw [lexemes_subscripted]
  refine List.forall_mem_cons.mpr ⟨by decide, fun l hl => ?_⟩
  obtain ⟨ls, hls, hl⟩ := List.mem_flatten.mp hl
  exact subscript l ((List.eq_of_mem_replicate hls) ▸ hl)

/-- All brackets are closed before the next one is opened. -/
theorem bracketsFit_subscripted (n : Nat) : BracketsFit 0 (subscripted n).lexemes := by
  rw [lexemes_subscripted, ← List.singleton_append]
  refine BracketsFit.append (by decide) rfl ?_
  induction n with
  | zero => decide
  | succ n ih =>
    rw [List.replicate_succ, List.flatten_cons]
    exact BracketsFit.append (by decide) rfl ih

section Reading

variable {f line n : Nat} {rest : List Token}

/-- The loop that reads subscripts makes them all of their lexemes. It counts none of them. -/
theorem trailers_subscripted {rounds : Nat} (hf : 3 * n ≤ f) (hr : n ≤ rounds) (m : Nat)
    (hs : Stops 13 rest) :
    trailers (parseGoal f .test 0) rounds (subscripted m)
        (onLine line (List.replicate n subscriptLexemes).flatten ++ rest)
      = .ok (subscripted (m + n), rest) := by
  induction n generalizing rounds m with
  | zero => exact trailers_stop _ hs
  | succ n ih =>
    obtain ⟨rounds, rfl⟩ := Nat.exists_eq_add_one_of_ne_zero (show rounds ≠ 0 by omega)
    have inside : Makes (parseGoal f .test 0) line (.literal (.int 0)) := fun _ hs =>
      ((readsBack_int 0).reads 0 (Nat.zero_le _)).item (show 2 < f by omega) (by decide) hs
    have others := ih (by omega) (Nat.le_of_succ_le_succ hr) (m + 1)
    rw [Nat.add_right_comm] at others
    exact (trailers_subscript (subscript_index inside rounds)).trans others

theorem parseTest_subscripted (hf : 3 * n < f) (hs : Stops 0 rest) :
    parseTest f (onLine line (subscripted n).lexemes ++ rest) = .ok (subscripted n, rest) := by
  obtain ⟨f, rfl⟩ := Nat.exists_eq_add_one_of_ne_zero (Nat.ne_zero_of_lt hf)
  have loop : trailers (parseGoal f .test 0) f (subscripted 0)
      (onLine line (List.replicate n subscriptLexemes).flatten ++ rest)
      = .ok (subscripted (0 + n), rest) :=
    trailers_subscripted (by omega) (by omega) 0 (hs.mono (Nat.zero_le 13))
  have opens : Opening 13 (subscripted n).lexemes := rung_subscripted n ▸ opening (subscripted n)
  rw [Nat.zero_add] at loop
  rw [parseTest, parseGoal_succ .test]
  refine readAt_of_le (Nat.le_refl 13) (Nat.zero_le 13) ?_ opens hs
  rw [lexemes_subscripted]
  exact loop

theorem exprStatement_subscripted (hf : 3 * n < f) :
    exprStatement f line
        (onLine line (subscripted n).lexemes ++ ⟨.mark Layout.newline, line⟩ :: rest)
      = .ok (.expr line (subscripted n), ⟨.mark Layout.newline, line⟩ :: rest) := by
  have made : Makes (parseTest f) line (subscripted n) := fun _ hs => parseTest_subscripted hf hs
  rw [exprStatement, parseTestList, bind_ok (testList_makes made (.of_none rfl) (by simp) f)]
  rfl

theorem parseStatement_subscripted (hf : 3 * n + 1 < f) (around : Surrounding) :
    parseStatement f around
        (onLine line (subscripted n).lexemes ++ ⟨.mark Layout.newline, line⟩ :: rest)
      = .ok ([.expr line (subscripted n)], rest) := by
  obtain ⟨f, rfl⟩ := Nat.exists_eq_add_one_of_ne_zero (Nat.ne_zero_of_lt hf)
  obtain ⟨l, more, ht, hl⟩ := starts_expr (subscripted n) line []
    (⟨.mark Layout.newline, line⟩ :: rest)
  rw [List.append_nil] at ht
  exact exprLine_reads (by omega) ht hl (exprStatement_subscripted (Nat.lt_of_succ_lt_succ hf))

end Reading

/-- The text of an expression with so many subscripts. -/
def subscriptedText (n : Nat) : String :=
  " ".intercalate ((subscripted n).lexemes.map Lexeme.text)

theorem tokenize_subscripted (n : Nat) : tokenize (subscriptedText n) #[]
    = .ok (onLine 1 ((subscripted n).lexemes ++ [.mark Layout.newline, .mark Layout.finish])) := by
  have written := isWritten_subscripted n
  refine Scan.tokenize_row (lexemes_ne_nil _) written (bracketsFit_subscripted n) ?_
  rw [subscriptedText, String.toList_intercalate, List.map_map]
  rfl

/-- An expression is accepted whatever the number of subscripts behind it. -/
theorem parseProgram_subscripted (n : Nat) :
    parseProgram (subscriptedText n) #[] = .ok [.expr 1 (subscripted n)] := by
  have size : (onLine 1 (subscripted n).lexemes).length = 3 * n + 1 := by
    simp [lexemes_subscripted, subscriptLexemes, Nat.mul_comm]
  have starts : startsStmt (lexemeOf (onLine 1 (subscripted n).lexemes
      ++ onLine 1 [.mark Layout.newline, .mark Layout.finish])) = true := by
    rw [lexemes_subscripted]
    rfl
  have read {f : Nat} (hf : 3 * n + 1 < f) : parseStatement f ⟨false, false⟩
      (onLine 1 (subscripted n).lexemes ++ onLine 1 [.mark Layout.newline, .mark Layout.finish])
      = .ok ([.expr 1 (subscripted n)], onLine 1 [.mark Layout.finish]) :=
    parseStatement_subscripted hf _
  rw [parseProgram_of_tokenize (tokenize_subscripted n), parseTokens_eq, onLine_append,
    List.length_append, size, programLines_read starts (read (by simp))]
  rfl

/-! ## Programs -/

/-- **How deep expressions are.** The expressions in an accepted program rise no further than a
limit that is the same for all texts, and are no higher than it but for subscripts, slices and calls
that stand one behind the other. -/
theorem parseProgram_height {text : String} {map : Array Nat} {program : List Stmt}
    (h : parseProgram text map = .ok program) :
    ∀ s ∈ Stmt.inBlock program, ∀ e ∈ s.exprs,
      e.rise ≤ maxRise ∧ e.height ≤ maxRise + e.climb := by
  obtain ⟨ts, tokens, parsed⟩ := tokenize_of_parseProgram h
  have read := rise_parts.parseTokens ⟨0, behind_of_tokenize tokens⟩ parsed
  intro s hs e he
  have rises : e.rise ≤ maxRise := (read s hs).exprs e he
  exact ⟨rises, e.height_le.trans (Nat.add_le_add_right rises _)⟩

/-- Two subscripts behind a name: a way up of two steps that are not limited. -/
theorem parseProgram_height_two :
    let e : Expr := .index (.index (.name "x") (.literal (.int 0))) (.literal (.int 0))
    parseProgram "x [ 0 ] [ 0 ]" #[] = .ok [.expr 1 e] ∧ e.climb = 2 ∧
      e.height ≤ maxRise + 2 := by
  intro e
  have text : subscriptedText 2 = "x [ 0 ] [ 0 ]" := by decide
  have read : parseProgram "x [ 0 ] [ 0 ]" #[] = .ok [.expr 1 e] :=
    text ▸ parseProgram_subscripted 2
  have height := parseProgram_height read (.expr 1 e) (List.mem_singleton_self _) e
    (List.mem_singleton_self _)
  exact ⟨read, rfl, height.2⟩

/-- No limit holds for the heights of all expressions in accepted programs. -/
theorem no_height_limit : ¬ ∃ limit, ∀ (text : String) (program : List Stmt),
    parseProgram text #[] = .ok program →
      ∀ s ∈ Stmt.inBlock program, ∀ e ∈ s.exprs, e.height ≤ limit := by
  rintro ⟨limit, bounded⟩
  have low := bounded _ _ (parseProgram_subscripted (limit + 1)) _ (List.mem_singleton_self _) _
    (List.mem_singleton_self _)
  rw [height_subscripted] at low
  exact Nat.not_succ_le_self limit low

end SortTrace.Script
