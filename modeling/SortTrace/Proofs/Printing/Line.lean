import SortTrace.Proofs.Printing.Expr
import SortTrace.Proofs.Printing.Layout

/-!
# Simple statements are read back

A printed statement begins with a token that no other kind of statement begins with
(`startsStmt`). A simple one is read up to the end of its line.
-/

namespace SortTrace.Script

open Parse

variable {lines : Lines} {around : Surrounding} {e : Expr} {f n : Nat} {rest ts : List Token}

/-! ## Beginnings -/

/-- The words that begin statements. -/
def stmtWords : List Keyword :=
  [.ifKw, .whileKw, .forKw, .defKw, .passKw, .breakKw, .continueKw, .returnKw, .globalKw]

/-- Can a printed statement begin with the token? -/
def startsStmt (l : Lexeme) : Bool :=
  startsExpr l || stmtWords.any fun w => l == .mark w

/-- What begins with no statement is not the beginning of one. -/
theorem startsStmt_ne {l m : Lexeme} (h : startsStmt l = true) (hm : startsStmt m = false) :
    l ≠ m := by
  rintro rfl
  rw [h] at hm
  cases hm

theorem starts_expr (e : Expr) (n : Nat) (ls : List Lexeme) (ts : List Token) :
    ∃ l more, onLine n (e.lexemes ++ ls) ++ ts = ⟨l, n⟩ :: more ∧ startsExpr l = true := by
  obtain ⟨⟨l, more, h, hl, -⟩, -⟩ := opening e
  rw [h]
  exact ⟨l, _, rfl, hl⟩

theorem starts_sides (targets : List Expr) (value : Expr) (n : Nat) (ts : List Token) :
    ∃ l more,
      onLine n (sideLexemes targets value) ++ ts = ⟨l, n⟩ :: more ∧ startsExpr l = true := by
  cases targets with
  | nil =>
    rw [sideLexemes, ← List.append_nil value.lexemes]
    exact starts_expr value n [] ts
  | cons target targets => exact starts_expr target n _ ts

theorem startsStmt_of_expr {l : Lexeme} (h : startsExpr l = true) : startsStmt l = true := by
  rw [startsStmt, h, Bool.true_or]

/-- A printed statement begins on its line with a token that begins statements. -/
theorem Stmt.starts (s : Stmt) (h : s.wellFormed around = true) :
    ∃ l more, s.tokens = ⟨l, s.line⟩ :: more ∧ startsStmt l = true := by
  cases s with
  | expr n e =>
    obtain ⟨l, more, hl, hs⟩ := starts_expr e n [] [⟨.mark Layout.newline, n⟩]
    rw [List.append_nil] at hl
    exact ⟨l, more, hl, startsStmt_of_expr hs⟩
  | assign n targets value =>
    obtain ⟨l, more, hl, hs⟩ := starts_sides targets value n [⟨.mark Layout.newline, n⟩]
    exact ⟨l, more, hl, startsStmt_of_expr hs⟩
  | augment n target op value =>
    obtain ⟨l, more, hl, hs⟩ := starts_expr target n (.augment op :: value.lexemes)
      [⟨.mark Layout.newline, n⟩]
    exact ⟨l, more, hl, startsStmt_of_expr hs⟩
  | branch n cases last =>
    cases cases with
    | nil => cases h
    | cons c cases => exact ⟨_, _, rfl, rfl⟩
  | giveBack n value => cases value <;> exact ⟨_, _, rfl, rfl⟩
  | whileLoop | forLoop | define | declareGlobal | leaveLoop | nextRound | pass =>
    exact ⟨_, _, rfl, rfl⟩

/-! ## One line -/

theorem statements_expr {l : Lexeme} (h : startsExpr l = true) :
    statements lines f around (⟨l, n⟩ :: ts) = simpleLine f around (⟨l, n⟩ :: ts) := by
  cases l with
  | mark m =>
    cases m with
    | keyword k => cases k <;> first | rfl | cases h
    | punct p => rfl
    | layout l => cases h
  | _ => rfl

theorem smallStatement_expr {l : Lexeme} (h : startsExpr l = true) :
    smallStatement f around (⟨l, n⟩ :: ts) = exprStatement f n (⟨l, n⟩ :: ts) := by
  cases l with
  | mark m =>
    cases m with
    | keyword k => cases k <;> first | rfl | cases h
    | punct p => rfl
    | layout l => cases h
  | _ => rfl

/-- A line with one small statement. -/
theorem simpleLine_reads {s : Stmt} (hf : 0 < f)
    (h : smallStatement f around ts = .ok (s, ⟨.mark Layout.newline, n⟩ :: rest)) :
    simpleLine f around ts = .ok ([s], rest) := by
  obtain ⟨f, rfl⟩ := Nat.exists_eq_add_one_of_ne_zero (show f ≠ 0 by omega)
  have one : moreStatements (f + 1) around (f + 1) [] ts
      = .ok ([s], ⟨.mark Layout.newline, n⟩ :: rest) := by
    rw [moreStatements, bind_ok h, bind_ok (accept_miss (by simp))]
    rfl
  rw [simpleLine, bind_ok one, bind_ok peek_apply]
  rfl

/-- A line with an expression, an assignment or an update. -/
theorem exprLine_reads {s : Stmt} {l : Lexeme} {more : List Token} (hf : 0 < f)
    (ht : ts = ⟨l, n⟩ :: more) (hl : startsExpr l = true)
    (h : exprStatement f n ts = .ok (s, ⟨.mark Layout.newline, n⟩ :: rest)) :
    statements lines f around ts = .ok ([s], rest) := by
  subst ht
  rw [statements_expr hl]
  exact simpleLine_reads hf ((smallStatement_expr hl).trans h)

/-! ## Expressions, assignments and updates -/

theorem Expr.isPrintable_iff :
    e.isPrintable = true ↔ e.wellFormed = true ∧ e.height < maxNesting := by
  rw [Expr.isPrintable, Bool.and_eq_true, decide_eq_true_iff]

/-- A printable expression, read where a tuple without parentheses could stand. -/
theorem reads_list (h : e.isPrintable = true) (hf : e.lexemes.length + 1 < f)
    (hs : Stops 0 rest) (hcomma : lexemeOf rest ≠ .mark Punct.comma) :
    parseTestList f (onLine n e.lexemes ++ rest) = .ok (e, rest) := by
  obtain ⟨hw, hn⟩ := Expr.isPrintable_iff.mp h
  exact parseTestList_reads hw hn hf hs hcomma

theorem reads_test (h : e.isPrintable = true) (hf : e.lexemes.length + 1 < f)
    (hs : Stops 0 rest) : parseTest f (onLine n e.lexemes ++ rest) = .ok (e, rest) := by
  obtain ⟨hw, hn⟩ := Expr.isPrintable_iff.mp h
  exact parseTest_reads hw hn hf hs

theorem exprStatement_expr (h : e.isPrintable = true) (hf : e.lexemes.length + 1 < f) :
    exprStatement f n (onLine n e.lexemes ++ ⟨.mark Layout.newline, n⟩ :: rest)
      = .ok (.expr n e, ⟨.mark Layout.newline, n⟩ :: rest) := by
  rw [exprStatement, bind_ok (reads_list h hf (.of_none rfl) (by simp))]
  rfl

theorem exprStatement_augment {value : Expr} {op : BinOp} (hp : e.isPlace = true)
    (h : e.isPrintable = true) (hv : value.isPrintable = true)
    (hf : (e.lexemes ++ .augment op :: value.lexemes).length + 1 < f) :
    exprStatement f n (onLine n (e.lexemes ++ .augment op :: value.lexemes)
        ++ ⟨.mark Layout.newline, n⟩ :: rest)
      = .ok (.augment n e op value, ⟨.mark Layout.newline, n⟩ :: rest) := by
  rw [List.length_append, List.length_cons] at hf
  have right : parseTestList f (onLine n value.lexemes ++ ⟨.mark Layout.newline, n⟩ :: rest)
      = .ok (value, ⟨.mark Layout.newline, n⟩ :: rest) :=
    reads_list hv (by omega) (.of_none rfl) (by simp)
  rw [onLine_append, onLine_cons, List.append_assoc, List.cons_append, exprStatement,
    bind_ok (reads_list h (by omega) (.of_none rfl) (by simp)), bind_ok peek_apply]
  simp only [lexemeOf_cons, hp, if_true]
  rw [bind_ok advance_apply, List.tail_cons]
  exact map_ok right

/-- The sides of an assignment after the first one. -/
theorem moreAssigned_reads {value : Expr} (hv : value.isPrintable = true) :
    ∀ (targets sides : List Expr) (rounds : Nat), targets.length < rounds →
      (∀ t ∈ targets, t.isPrintable = true) →
      (sideLexemes targets value).length + 1 < f →
      moreAssigned (parseTestList f) rounds sides
          (⟨.mark Punct.assign, n⟩ :: (onLine n (sideLexemes targets value)
            ++ ⟨.mark Layout.newline, n⟩ :: rest))
        = .ok (value :: (targets.reverse ++ sides), ⟨.mark Layout.newline, n⟩ :: rest)
  | _, _, 0, hr, _, _ => absurd hr (Nat.not_lt_zero _)
  | [], sides, rounds + 1, _, _, hf => by
    have last : moreAssigned (parseTestList f) rounds (value :: sides)
        (⟨.mark Layout.newline, n⟩ :: rest)
        = .ok (value :: sides, ⟨.mark Layout.newline, n⟩ :: rest) := by
      cases rounds with
      | zero => rfl
      | succ rounds =>
        rw [moreAssigned, bind_ok (accept_miss (by simp))]
        rfl
    rw [moreAssigned, bind_ok (accept_hit n)]
    refine (bind_ok (reads_list hv hf (.of_none rfl) (by simp))).trans ?_
    exact last
  | target :: targets, sides, rounds + 1, hr, h, hf => by
    rw [sideLexemes, List.length_append, List.length_cons] at hf
    have others := moreAssigned_reads hv targets (target :: sides) rounds
      (Nat.lt_of_succ_lt_succ hr) (fun t ht => h t (List.mem_cons_of_mem _ ht)) (by omega)
    have made : target.isPrintable = true := h target (List.mem_cons_self ..)
    rw [sideLexemes, onLine_append, onLine_cons, List.append_assoc, List.cons_append, moreAssigned,
      bind_ok (accept_hit n)]
    refine (bind_ok (reads_list made (by omega) (.of_none rfl) (by simp))).trans ?_
    rw [others, List.reverse_cons, List.append_assoc]
    rfl

theorem length_lt_sides (value : Expr) : ∀ targets : List Expr,
    targets.length < (sideLexemes targets value).length
  | [] => List.length_pos_iff.mpr (lexemes_ne_nil value)
  | target :: targets => by
    have := length_lt_sides value targets
    rw [sideLexemes, List.length_append, List.length_cons, List.length_cons]
    omega

theorem exprStatement_assign {targets : List Expr} {value : Expr} (hne : targets ≠ [])
    (ht : ∀ t ∈ targets, t.isTarget = true) (h : ∀ t ∈ targets, t.isPrintable = true)
    (hv : value.isPrintable = true) (hf : (sideLexemes targets value).length + 1 < f) :
    exprStatement f n (onLine n (sideLexemes targets value) ++ ⟨.mark Layout.newline, n⟩ :: rest)
      = .ok (.assign n targets value, ⟨.mark Layout.newline, n⟩ :: rest) := by
  cases targets with
  | nil => exact absurd rfl hne
  | cons target targets =>
    have width := length_lt_sides value targets
    rw [sideLexemes, List.length_append, List.length_cons] at hf
    have others : moreAssigned (parseTestList f) f [target]
        (⟨.mark Punct.assign, n⟩ :: (onLine n (sideLexemes targets value)
          ++ ⟨.mark Layout.newline, n⟩ :: rest))
        = .ok (value :: (targets.reverse ++ [target]), ⟨.mark Layout.newline, n⟩ :: rest) :=
      moreAssigned_reads hv targets [target] f (by omega)
        (fun t ht => h t (List.mem_cons_of_mem _ ht)) (by omega)
    have first : target.isPrintable = true := h target (List.mem_cons_self ..)
    have all : (target :: targets).reverse.all Expr.isTarget = true := by
      rw [List.all_reverse]
      exact List.all_eq_true.mpr ht
    rw [← List.reverse_cons] at others
    rw [sideLexemes, onLine_append, onLine_cons, List.append_assoc, List.cons_append, exprStatement,
      bind_ok (reads_list first (by omega) (.of_none rfl) (by simp)), bind_ok peek_apply]
    refine (bind_ok others).trans ?_
    simp only [all, if_true, List.reverse_reverse]
    rfl

/-! ## Statements that begin with a word -/

theorem smallStatement_giveBack (h : around.inFunction = true) :
    smallStatement f around (⟨.mark Keyword.returnKw, n⟩ :: ⟨.mark Layout.newline, n⟩ :: rest)
      = .ok (.giveBack n none, ⟨.mark Layout.newline, n⟩ :: rest) := by
  rw [smallStatement, bind_ok line_apply, bind_ok peek_apply]
  simp only [lexemeOf_cons, lineOf_cons, h, if_true]
  rw [bind_ok advance_apply, List.tail_cons, bind_ok peek_apply]
  rfl

theorem smallStatement_giveBackValue (h : around.inFunction = true) (he : e.isPrintable = true)
    (hf : e.lexemes.length + 1 < f) :
    smallStatement f around (⟨.mark Keyword.returnKw, n⟩ ::
        (onLine n e.lexemes ++ ⟨.mark Layout.newline, n⟩ :: rest))
      = .ok (.giveBack n (some e), ⟨.mark Layout.newline, n⟩ :: rest) := by
  have value : parseTestList f (onLine n e.lexemes ++ ⟨.mark Layout.newline, n⟩ :: rest)
      = .ok (e, ⟨.mark Layout.newline, n⟩ :: rest) :=
    reads_list he hf (.of_none rfl) (by simp)
  have starts := (opening e).startsExpr_lexemeOf n (⟨.mark Layout.newline, n⟩ :: rest)
  rw [smallStatement, bind_ok line_apply, bind_ok peek_apply]
  simp only [lexemeOf_cons, lineOf_cons, h, if_true]
  rw [bind_ok advance_apply, List.tail_cons, bind_ok peek_apply]
  generalize lexemeOf (onLine n e.lexemes ++ ⟨.mark Layout.newline, n⟩ :: rest) = l at starts
  split
  case h_4 => exact map_ok value
  all_goals cases starts

/-- Names after the first one. -/
theorem moreNames_reads : ∀ (names done : List String) (rounds : Nat), names.length ≤ rounds →
    moreNames rounds done (onLine n (commaThen (names.map fun s => [.name s]))
        ++ ⟨.mark Layout.newline, n⟩ :: rest)
      = .ok (done.reverse ++ names, ⟨.mark Layout.newline, n⟩ :: rest)
  | [], done, 0, _ => by
    rw [List.append_nil]
    rfl
  | [], done, rounds + 1, _ => by
    rw [List.append_nil, moreNames]
    refine (bind_ok (accept_miss (by simp [commaThen]))).trans ?_
    rfl
  | name :: names, done, rounds + 1, hr => by
    have others := moreNames_reads names (name :: done) rounds (Nat.le_of_succ_le_succ hr)
    rw [List.map_cons, commaThen, separated_cons, onLine_cons, onLine_append, onLine_cons,
      onLine_nil, List.cons_append, List.append_assoc, List.cons_append, List.nil_append, moreNames,
      bind_ok (accept_hit n)]
    refine (bind_ok (expectName_hit name n)).trans ?_
    rw [others, List.reverse_cons, List.append_assoc]
    rfl

theorem smallStatement_global {names : List String} (hne : names ≠ []) (hf : names.length ≤ f) :
    smallStatement f around (⟨.mark Keyword.globalKw, n⟩ ::
        (onLine n (separated (names.map fun s => [.name s])) ++ ⟨.mark Layout.newline, n⟩ :: rest))
      = .ok (.declareGlobal n names, ⟨.mark Layout.newline, n⟩ :: rest) := by
  cases names with
  | nil => exact absurd rfl hne
  | cons name names =>
    have others : moreNames f [name] (onLine n (commaThen (names.map fun s => [.name s]))
          ++ ⟨.mark Layout.newline, n⟩ :: rest)
        = .ok (name :: names, ⟨.mark Layout.newline, n⟩ :: rest) :=
      moreNames_reads names [name] f (Nat.le_of_succ_le hf)
    rw [smallStatement, bind_ok line_apply, bind_ok peek_apply]
    simp only [lexemeOf_cons, lineOf_cons]
    rw [bind_ok advance_apply, List.tail_cons, List.map_cons, separated_cons, onLine_append,
      onLine_cons, onLine_nil, List.append_assoc, List.cons_append, List.nil_append,
      bind_ok (expectName_hit name n)]
    exact map_ok others

theorem smallStatement_leaveLoop (h : around.inLoop = true) :
    smallStatement f around (⟨.mark Keyword.breakKw, n⟩ :: ts) = .ok (.leaveLoop n, ts) := by
  rw [smallStatement, bind_ok line_apply, bind_ok peek_apply]
  simp only [lexemeOf_cons, lineOf_cons, h, if_true]
  rfl

theorem smallStatement_nextRound (h : around.inLoop = true) :
    smallStatement f around (⟨.mark Keyword.continueKw, n⟩ :: ts) = .ok (.nextRound n, ts) := by
  rw [smallStatement, bind_ok line_apply, bind_ok peek_apply]
  simp only [lexemeOf_cons, lineOf_cons, h, if_true]
  rfl

/-! ## All simple statements -/

theorem ended_append (n : Nat) (ls : List Lexeme) :
    ended n ls ++ rest = onLine n ls ++ ⟨.mark Layout.newline, n⟩ :: rest := by
  rw [ended, List.append_assoc]
  rfl

theorem length_ended (n : Nat) (ls : List Lexeme) : (ended n ls).length = ls.length + 1 := by
  rw [ended, List.length_append, length_onLine]
  rfl

/-- A simple statement is read with the end of its line. -/
theorem statements_simple {s : Stmt} (hs : s.isSimple = true) (h : s.wellFormed around = true)
    (hf : s.tokens.length < f) :
    statements lines f around (s.tokens ++ rest) = .ok ([s], rest) := by
  cases s with
  | expr n e =>
    obtain ⟨l, more, ht, hl⟩ := starts_expr e n [] (⟨.mark Layout.newline, n⟩ :: rest)
    rw [List.append_nil] at ht
    rw [Stmt.tokens, length_ended] at hf
    rw [Stmt.tokens, ended_append]
    exact exprLine_reads (by omega) ht hl (exprStatement_expr h hf)
  | assign n targets value =>
    obtain ⟨l, more, ht, hl⟩ := starts_sides targets value n (⟨.mark Layout.newline, n⟩ :: rest)
    simp only [Stmt.wellFormed, Bool.and_eq_true, List.all_eq_true] at h
    obtain ⟨⟨hne, hts⟩, hv⟩ := h
    rw [Stmt.tokens, length_ended] at hf
    rw [Stmt.tokens, ended_append]
    refine exprLine_reads (by omega) ht hl (exprStatement_assign ?_ (fun t ht => (hts t ht).1)
      (fun t ht => (hts t ht).2) hv hf)
    rintro rfl
    cases hne
  | augment n target op value =>
    obtain ⟨l, more, ht, hl⟩ := starts_expr target n (.augment op :: value.lexemes)
      (⟨.mark Layout.newline, n⟩ :: rest)
    simp only [Stmt.wellFormed, Bool.and_eq_true] at h
    rw [Stmt.tokens, length_ended] at hf
    rw [Stmt.tokens, ended_append]
    exact exprLine_reads (by omega) ht hl (exprStatement_augment h.1.1 h.1.2 h.2 hf)
  | giveBack n value =>
    simp only [Stmt.wellFormed, Bool.and_eq_true] at h
    cases value with
    | none => exact simpleLine_reads (by omega) (smallStatement_giveBack h.1)
    | some e =>
      rw [Stmt.tokens, length_ended, List.length_cons] at hf
      rw [Stmt.tokens, ended_append]
      exact simpleLine_reads (by omega) (smallStatement_giveBackValue h.1 h.2 (by omega))
  | declareGlobal n names =>
    have nonempty : ∀ g ∈ names.map fun s => [Lexeme.name s], g ≠ [] := by
      intro g hg
      obtain ⟨s, -, rfl⟩ := List.mem_map.mp hg
      exact List.cons_ne_nil _ _
    have count := count_le_separated nonempty
    rw [List.length_map] at count
    rw [Stmt.tokens, length_ended, List.length_cons] at hf
    rw [Stmt.tokens, ended_append]
    refine simpleLine_reads (by omega) (smallStatement_global ?_ (by omega))
    rintro rfl
    cases h
  | leaveLoop n => exact simpleLine_reads (by omega) (smallStatement_leaveLoop h)
  | nextRound n => exact simpleLine_reads (by omega) (smallStatement_nextRound h)
  | pass n => exact simpleLine_reads (by omega) rfl
  | branch | whileLoop | forLoop | define => cases hs

end SortTrace.Script
