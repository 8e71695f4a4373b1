import SortTrace.Proofs.Printing.Line

/-!
# The parser undoes printing

`Stmt.readsBack`: a well-formed statement is read back with its blocks, by induction on the
statement. So a whole program is (`parseTokens_programTokens`).
-/

namespace SortTrace.Script

open Parse

variable {around : Surrounding} {e : Expr} {f n last : Nat} {rest ts : List Token}

/-- The next token begins no further part of the statement before it. -/
def NoClause (ts : List Token) : Prop :=
  lexemeOf ts ≠ .mark Keyword.elifKw ∧ lexemeOf ts ≠ .mark Keyword.elseKw

/-- The parser of statements makes the statement of its tokens. -/
def Stmt.ReadsBack (around : Surrounding) (s : Stmt) : Prop :=
  ∀ f rest, s.tokens.length + 1 < f → NoClause rest →
    parseStatement f around (s.tokens ++ rest) = .ok ([s], rest)

/-! ## Blocks -/

/-- A statement of a block that can be printed and read back. -/
structure Stmt.IsRead (around : Surrounding) (s : Stmt) : Prop where
  wellFormed : s.wellFormed around = true
  readsBack : s.ReadsBack around

theorem noClause_block {ss : List Stmt} (h : ∀ s ∈ ss, s.IsRead around) (hr : NoClause rest) :
    NoClause (Stmt.blockTokens ss ++ rest) := by
  cases ss with
  | nil => exact hr
  | cons s ss =>
    obtain ⟨l, more, ht, hl⟩ := s.starts (h s (List.mem_cons_self ..)).wellFormed
    rw [Stmt.blockTokens, ht]
    exact ⟨startsStmt_ne hl rfl, startsStmt_ne hl rfl⟩

/-- The statements of a block up to its end. -/
theorem blockLines_reads : ∀ (ss done : List Stmt) (rounds : Nat),
    (Stmt.blockTokens ss).length < rounds → (Stmt.blockTokens ss).length + 1 < f →
    (∀ s ∈ ss, s.IsRead around) →
    blockLines (parseStatement f around) rounds done
        (Stmt.blockTokens ss ++ ⟨.mark Layout.dedent, n⟩ :: rest)
      = .ok (done.reverse ++ ss, rest)
  | _, _, 0, hr, _, _ => absurd hr (Nat.not_lt_zero _)
  | [], done, rounds + 1, _, _, _ => by
    rw [Stmt.blockTokens, List.nil_append, List.append_nil, blockLines, bind_ok (accept_hit n)]
    rfl
  | s :: ss, done, rounds + 1, hr, hf, h => by
    obtain ⟨hw, hs⟩ := h s (List.mem_cons_self ..)
    have tail : ∀ s ∈ ss, s.IsRead around := fun s hs => h s (List.mem_cons_of_mem _ hs)
    obtain ⟨l, more, ht, hl⟩ := s.starts hw
    have width : 0 < s.tokens.length := by
      rw [ht]
      exact Nat.succ_pos _
    rw [Stmt.blockTokens, List.length_append] at hr hf
    have others := blockLines_reads ss (s :: done) rounds (by omega) (by omega) tail
    have read := hs f (Stmt.blockTokens ss ++ ⟨.mark Layout.dedent, n⟩ :: rest) (by omega)
      (noClause_block tail ⟨by simp, by simp⟩)
    have first : lexemeOf (s.tokens ++ (Stmt.blockTokens ss ++ ⟨.mark Layout.dedent, n⟩ :: rest))
        = l := by
      rw [ht]
      rfl
    rw [Stmt.blockTokens, List.append_assoc, blockLines,
      bind_ok (accept_miss (by rw [first]; exact startsStmt_ne hl rfl))]
    simp only [Bool.false_eq_true, if_false]
    rw [bind_ok (check_miss (by rw [first]; exact startsStmt_ne hl rfl))]
    simp only [Bool.false_eq_true, if_false]
    rw [bind_ok (accept_miss (by rw [first]; exact startsStmt_ne hl rfl))]
    simp only [Bool.false_eq_true, if_false]
    rw [bind_ok read]
    refine others.trans ?_
    rw [List.reverse_cons, List.append_assoc]
    rfl

theorem length_indented (n : Nat) (ts : List Token) :
    (indented n ts).length = ts.length + 4 := by
  rw [indented]
  simp

/-- A colon and an indented block. -/
theorem block_reads {ss : List Stmt} (hf : (indented n (Stmt.blockTokens ss)).length < f)
    (h : ∀ s ∈ ss, s.IsRead around) (owner : String) (line : Nat) :
    block (parseStatement f) f around owner line (indented n (Stmt.blockTokens ss) ++ rest)
      = .ok (ss, rest) := by
  rw [length_indented] at hf
  have inside : blockLines (parseStatement f around) f []
      (Stmt.blockTokens ss ++ ⟨.mark Layout.dedent, n⟩ :: rest) = .ok (ss, rest) :=
    blockLines_reads ss [] f (by omega) (by omega) h
  simp only [indented, List.cons_append, List.append_assoc, List.nil_append]
  rw [block, bind_ok (expect_hit n), bind_ok (accept_hit n)]
  simp only [if_true]
  rw [bind_ok (accept_hit n)]
  exact inside

/-- The block after `else`, if there is one. -/
theorem otherwise_reads {last : List Stmt} (hf : (Stmt.elseTokens n last).length < f)
    (h : ∀ s ∈ last, s.IsRead around) (hr : NoClause rest) :
    otherwise (parseStatement f) f around (Stmt.elseTokens n last ++ rest) = .ok (last, rest) := by
  rw [otherwise, bind_ok line_apply]
  cases last with
  | nil =>
    refine (bind_ok (accept_miss hr.2)).trans ?_
    rfl
  | cons s ss =>
    rw [Stmt.elseTokens, List.length_cons, ← Stmt.blockTokens] at hf
    rw [Stmt.elseTokens, ← Stmt.blockTokens, List.cons_append, bind_ok (accept_hit n)]
    exact block_reads (by omega) h _ _

/-- The condition before a block. -/
theorem condition_reads (h : e.isPrintable = true) (hf : e.lexemes.length + 1 < f) :
    parseTest f (onLine n e.lexemes ++ (indented n ts ++ rest))
      = .ok (e, indented n ts ++ rest) :=
  reads_test h hf (.of_none rfl)

/-! ## Branches -/

/-- A case of a branch that can be printed and read back. -/
structure CaseIsRead (around : Surrounding) (c : Expr × List Stmt) : Prop where
  condition : c.1.isPrintable = true
  body : ∀ s ∈ c.2, s.IsRead around

theorem elseTokens_noElif {last : List Stmt} (hr : NoClause rest) :
    lexemeOf (Stmt.elseTokens n last ++ rest) ≠ .mark Keyword.elifKw := by
  cases last with
  | nil => exact hr.1
  | cons s ss =>
    rw [Stmt.elseTokens]
    simp

/-- The cases of a branch after the first one, with the block after `else`. -/
theorem moreCases_reads {last : List Stmt} (hlast : ∀ s ∈ last, s.IsRead around)
    (hr : NoClause rest) : ∀ (cases done : List (Expr × List Stmt)) (rounds : Nat),
      (Stmt.caseTokens n .elifKw cases ++ Stmt.elseTokens n last).length < rounds →
      (Stmt.caseTokens n .elifKw cases ++ Stmt.elseTokens n last).length + 1 < f →
      (∀ c ∈ cases, CaseIsRead around c) →
      moreCases (parseStatement f) f around rounds done
          (Stmt.caseTokens n .elifKw cases ++ (Stmt.elseTokens n last ++ rest))
        = .ok ((done.reverse ++ cases, last), rest)
  | _, _, 0, h0, _, _ => absurd h0 (Nat.not_lt_zero _)
  | [], done, rounds + 1, _, hf, _ => by
    rw [Stmt.caseTokens, List.nil_append] at hf
    rw [Stmt.caseTokens, List.nil_append, moreCases, bind_ok line_apply,
      bind_ok (accept_miss (elseTokens_noElif hr))]
    simp only [Bool.false_eq_true, if_false]
    rw [bind_ok (otherwise_reads (by omega) hlast hr), List.append_nil]
    rfl
  | (condition, body) :: cases, done, rounds + 1, h0, hf, h => by
    have first := h (condition, body) (List.mem_cons_self ..)
    have hc : condition.isPrintable = true := first.condition
    have hb : ∀ s ∈ body, s.IsRead around := first.body
    simp only [Stmt.caseTokens, onLine_cons, List.cons_append, List.append_assoc, List.length_cons,
      List.length_append, length_onLine, length_indented] at h0 hf
    have others := moreCases_reads hlast hr cases ((condition, body) :: done) rounds
      (by rw [List.length_append]; omega) (by rw [List.length_append]; omega)
      fun c hc => h c (List.mem_cons_of_mem _ hc)
    rw [Stmt.caseTokens, onLine_cons, List.cons_append, List.cons_append, List.append_assoc,
      List.append_assoc, moreCases, bind_ok line_apply, bind_ok (accept_hit n)]
    simp only [if_true]
    rw [bind_ok (condition_reads hc (by omega)),
      bind_ok (block_reads (by rw [length_indented]; omega) hb _ _), others,
      List.reverse_cons, List.append_assoc]
    rfl

theorem branch_reads {cases : List (Expr × List Stmt)} {last : List Stmt} (hne : cases ≠ [])
    (hcases : ∀ c ∈ cases, CaseIsRead around c) (hlast : ∀ s ∈ last, s.IsRead around) :
    Stmt.ReadsBack around (.branch n cases last) := by
  intro f rest hf hr
  obtain ⟨f, rfl⟩ := Nat.exists_eq_add_one_of_ne_zero (show f ≠ 0 by omega)
  cases cases with
  | nil => exact absurd rfl hne
  | cons c cases =>
    obtain ⟨condition, body⟩ := c
    have first := hcases (condition, body) (List.mem_cons_self ..)
    have hc : condition.isPrintable = true := first.condition
    have hb : ∀ s ∈ body, s.IsRead around := first.body
    simp only [Stmt.tokens, Stmt.caseTokens, onLine_cons, List.cons_append, List.append_assoc,
      List.length_cons, List.length_append, length_onLine, length_indented] at hf
    have others := moreCases_reads (f := f) (n := n) hlast hr cases [(condition, body)] f
      (by rw [List.length_append]; omega) (by rw [List.length_append]; omega)
      fun c hc => hcases c (List.mem_cons_of_mem _ hc)
    have read : branch (parseStatement f) f around n
        (onLine n condition.lexemes ++ (indented n (Stmt.blockTokens body)
          ++ (Stmt.caseTokens n .elifKw cases ++ (Stmt.elseTokens n last ++ rest))))
        = .ok (.branch n ((condition, body) :: cases) last, rest) := by
      rw [branch, bind_ok (condition_reads hc (by omega)),
      bind_ok (block_reads (by rw [length_indented]; omega) hb _ _),
        bind_ok others]
      rfl
    simp only [Stmt.tokens, Stmt.caseTokens, onLine_cons, List.cons_append, List.append_assoc]
    rw [parseStatement, statements, bind_ok line_apply, bind_ok peek_apply]
    simp only [lexemeOf_cons, lineOf_cons]
    rw [bind_ok advance_apply, List.tail_cons]
    exact bind_ok read

/-! ## Loops -/

theorem whileLoop_reads {body last : List Stmt} (he : e.isPrintable = true)
    (hbody : ∀ s ∈ body, s.IsRead { around with inLoop := true })
    (hlast : ∀ s ∈ last, s.IsRead around) : Stmt.ReadsBack around (.whileLoop n e body last) := by
  intro f rest hf hr
  obtain ⟨f, rfl⟩ := Nat.exists_eq_add_one_of_ne_zero (show f ≠ 0 by omega)
  simp only [Stmt.tokens, onLine_cons, List.cons_append, List.length_cons, List.length_append,
    length_onLine, length_indented] at hf
  have read : whileLoop (parseStatement f) f around n
      (onLine n e.lexemes ++ (indented n (Stmt.blockTokens body)
        ++ (Stmt.elseTokens n last ++ rest))) = .ok (.whileLoop n e body last, rest) := by
    rw [whileLoop, bind_ok (condition_reads he (by omega)),
      bind_ok (block_reads (by rw [length_indented]; omega) hbody _ _)]
    exact map_ok (otherwise_reads (by omega) hlast hr)
  simp only [Stmt.tokens, onLine_cons, List.cons_append, List.append_assoc]
  rw [parseStatement, statements, bind_ok line_apply, bind_ok peek_apply]
  simp only [lexemeOf_cons, lineOf_cons]
  rw [bind_ok advance_apply, List.tail_cons]
  exact bind_ok read

/-- What can be assigned to is never put in parentheses. -/
theorem rung_of_isTarget (h : e.isTarget = true) : e.rung = 13 := by
  unfold Expr.isTarget at h
  split at h
  case h_6 => cases h
  all_goals rfl

/-- The target of a loop up to the word after it. -/
theorem target_reads (ht : e.isTarget = true) (h : e.isPrintable = true)
    (hf : e.lexemes.length < f) :
    parseOperand f (onLine n e.lexemes ++ ⟨.mark Keyword.inKw, n⟩ :: ts)
      = .ok (e, ⟨.mark Keyword.inKw, n⟩ :: ts) := by
  obtain ⟨hw, hn⟩ := Expr.isPrintable_iff.mp h
  have bare : e.lexemesAt 5 = e.lexemes := lexemesAt_of_le (by rw [rung_of_isTarget ht]; omega)
  have read : parseOperand f (onLine n (e.lexemesAt 5) ++ ⟨.mark Keyword.inKw, n⟩ :: ts)
      = .ok (e, ⟨.mark Keyword.inKw, n⟩ :: ts) :=
    parseOperand_reads hw hn (by rwa [bare]) (.of_rung rfl (by omega))
  rwa [bare] at read

theorem forLoop_reads {items : Expr} {body last : List Stmt} (ht : e.isTarget = true)
    (he : e.isPrintable = true) (hi : items.isPrintable = true)
    (hbody : ∀ s ∈ body, s.IsRead { around with inLoop := true })
    (hlast : ∀ s ∈ last, s.IsRead around) :
    Stmt.ReadsBack around (.forLoop n e items body last) := by
  intro f rest hf hr
  obtain ⟨f, rfl⟩ := Nat.exists_eq_add_one_of_ne_zero (show f ≠ 0 by omega)
  simp only [Stmt.tokens, onLine_cons, onLine_append, List.cons_append, List.append_assoc,
    List.length_cons, List.length_append, length_onLine, length_indented] at hf
  have values : parseTestList f (onLine n items.lexemes ++ (indented n (Stmt.blockTokens body)
        ++ (Stmt.elseTokens n last ++ rest)))
      = .ok (items, indented n (Stmt.blockTokens body) ++ (Stmt.elseTokens n last ++ rest)) :=
    reads_list hi (by omega) (.of_none rfl) (by simp [indented])
  have read : forLoop (parseStatement f) f around n
      (onLine n e.lexemes ++ ⟨.mark Keyword.inKw, n⟩ ::
        (onLine n items.lexemes ++ (indented n (Stmt.blockTokens body)
          ++ (Stmt.elseTokens n last ++ rest)))) = .ok (.forLoop n e items body last, rest) := by
    rw [forLoop, bind_ok (target_reads ht he (by omega)), bind_ok (check_miss (by simp))]
    simp only [Bool.false_eq_true, if_false, pure_bind, ht, if_true]
    rw [bind_ok (expect_hit n), bind_ok values,
      bind_ok (block_reads (by rw [length_indented]; omega) hbody _ _)]
    exact map_ok (otherwise_reads (by omega) hlast hr)
  simp only [Stmt.tokens, onLine_cons, onLine_append, List.cons_append, List.append_assoc]
  rw [parseStatement, statements, bind_ok line_apply, bind_ok peek_apply]
  simp only [lexemeOf_cons, lineOf_cons]
  rw [bind_ok advance_apply, List.tail_cons]
  exact bind_ok read

/-! ## Functions -/

/-- The parameters of a function up to the closing parenthesis. -/
theorem parameters_reads : ∀ (ps done : List Param) (rounds : Nat), ps.length ≤ rounds →
    areParameters ps = true →
    (∀ p ∈ ps, ∀ q ∈ done, q.name ≠ p.name ∧ (q.default.isSome = true → p.default.isSome = true)) →
    (separated (ps.map Param.lexemes)).length + 1 < f →
    parameters f rounds done
        (onLine n (separated (ps.map Param.lexemes)) ++ ⟨.mark Punct.rparen, n⟩ :: rest)
      = .ok (done.reverse ++ ps, ⟨.mark Punct.rparen, n⟩ :: rest)
  | [], done, 0, _, _, _, _ => by
    rw [List.append_nil]
    rfl
  | [], done, rounds + 1, _, _, _, _ => by
    rw [List.append_nil, parameters]
    refine (bind_ok (check_hit rfl)).trans ?_
    rfl
  | ⟨name, default⟩ :: ps, done, rounds + 1, hr, hp, hd, hf => by
    simp only [areParameters, Bool.and_eq_true, List.all_eq_true, bne_iff_ne, ne_eq,
      Bool.or_eq_true] at hp
    obtain ⟨⟨hlater, hdefault⟩, hps⟩ := hp
    have fresh : (done.any fun p => p.name == name) = false := by
      rw [List.any_eq_false]
      intro q hq heq
      exact (hd _ (List.mem_cons_self ..) q hq).1 (eq_of_beq heq)
    have later : ∀ p ∈ ps, ∀ q ∈ (⟨name, default⟩ : Param) :: done,
        q.name ≠ p.name ∧ (q.default.isSome = true → p.default.isSome = true) := by
      intro p hp q hq
      rcases List.mem_cons.mp hq with rfl | hq
      · refine ⟨fun heq => (hlater p hp).1 heq.symm, fun hsome => ?_⟩
        rcases (hlater p hp).2 with hnone | hsome
        · cases default <;> cases hnone
          cases hsome
        · exact hsome
      · exact hd p (List.mem_cons_of_mem _ hp) q hq
    rw [List.map_cons, separated_cons, List.length_append] at hf
    have shorter : (separated (ps.map Param.lexemes)).length
        ≤ (commaThen (ps.map Param.lexemes)).length := by
      cases ps with
      | nil => exact Nat.le_refl 0
      | cons p ps => exact Nat.le_succ _
    have others := parameters_reads ps (⟨name, default⟩ :: done) rounds
      (Nat.le_of_succ_le_succ hr) hps later (by omega)
    have ends : ps.map Param.lexemes = [] →
        (⟨name, default⟩ :: done).reverse = done.reverse ++ ⟨name, default⟩ :: ps := by
      intro hnil
      rw [List.map_eq_nil_iff.mp hnil, List.reverse_cons]
    have goesOn : ps.map Param.lexemes ≠ [] → parameters f rounds (⟨name, default⟩ :: done)
          (onLine n (separated (ps.map Param.lexemes)) ++ ⟨.mark Punct.rparen, n⟩ :: rest)
        = .ok (done.reverse ++ ⟨name, default⟩ :: ps, ⟨.mark Punct.rparen, n⟩ :: rest) := by
      intro _
      rw [others, List.reverse_cons, List.append_assoc]
      rfl
    cases default with
    | none =>
      have plain : (done.any fun p => p.default.isSome) = false := by
        rw [List.any_eq_false]
        intro q hq hsome
        cases (hd _ (List.mem_cons_self ..) q hq).2 hsome
      have noAssign : lexemeOf (onLine n (commaThen (ps.map Param.lexemes))
          ++ ⟨.mark Punct.rparen, n⟩ :: rest) ≠ .mark Punct.assign :=
        commaThen_cases (p := fun l => l ≠ .mark Punct.assign) n rest _ (by simp) (by simp)
      rw [List.map_cons, separated_cons, onLine_append, List.append_assoc, parameters]
      simp only [Param.lexemes, onLine_cons, onLine_nil, List.cons_append, List.nil_append]
      rw [bind_ok (check_miss (by simp))]
      simp only [Bool.false_eq_true, if_false]
      rw [bind_ok (expectName_hit name n), if_neg (by rw [fresh]; exact Bool.false_ne_true),
        bind_ok (accept_miss noAssign)]
      simp only [Bool.false_eq_true, if_false, plain, pure_bind]
      exact commaThen_reads ends goesOn
    | some e =>
      rw [Param.lexemes, List.length_cons, List.length_cons] at hf
      have value : parseTest f (onLine n e.lexemes ++ (onLine n (commaThen (ps.map Param.lexemes))
            ++ ⟨.mark Punct.rparen, n⟩ :: rest))
          = .ok (e, onLine n (commaThen (ps.map Param.lexemes))
            ++ ⟨.mark Punct.rparen, n⟩ :: rest) :=
        reads_test hdefault (by omega) (commaThen_stops n rest _)
      rw [List.map_cons, separated_cons, onLine_append, List.append_assoc, parameters]
      simp only [Param.lexemes, onLine_cons, List.cons_append]
      rw [bind_ok (check_miss (by simp))]
      simp only [Bool.false_eq_true, if_false]
      rw [bind_ok (expectName_hit name n), if_neg (by rw [fresh]; exact Bool.false_ne_true),
        bind_ok (accept_hit n)]
      simp only [if_true]
      rw [bind_ok (map_ok value)]
      exact commaThen_reads ends goesOn

theorem define_reads {name : String} {params : List Param} {body : List Stmt}
    (hp : areParameters params = true) (hbody : ∀ s ∈ body, s.IsRead ⟨true, false⟩) :
    Stmt.ReadsBack around (.define n name params body) := by
  intro f rest hf hr
  obtain ⟨f, rfl⟩ := Nat.exists_eq_add_one_of_ne_zero (show f ≠ 0 by omega)
  simp only [Stmt.tokens, inParens, onLine_cons, onLine_append, List.cons_append, List.append_assoc,
    List.length_cons, List.length_append, length_onLine, length_indented] at hf
  have nonempty : ∀ g ∈ params.map Param.lexemes, g ≠ [] := by
    intro g hg
    obtain ⟨⟨name, default⟩, -, rfl⟩ := List.mem_map.mp hg
    cases default <;> exact List.cons_ne_nil _ _
  have count := count_le_separated nonempty
  rw [List.length_map] at count
  have params_read : parameters f f [] (onLine n (separated (params.map Param.lexemes))
        ++ ⟨.mark Punct.rparen, n⟩ :: (indented n (Stmt.blockTokens body) ++ rest))
      = .ok (params, ⟨.mark Punct.rparen, n⟩ :: (indented n (Stmt.blockTokens body) ++ rest)) :=
    parameters_reads params [] f (by omega) hp (by simp) (by omega)
  have read : define (parseStatement f) f n (⟨.name name, n⟩ :: ⟨.mark Punct.lparen, n⟩ ::
      (onLine n (separated (params.map Param.lexemes)) ++ ⟨.mark Punct.rparen, n⟩ ::
        (indented n (Stmt.blockTokens body) ++ rest))) =
      .ok (.define n name params body, rest) := by
    rw [define, bind_ok (expectName_hit name n), bind_ok (expect_hit n), bind_ok params_read,
      bind_ok (expect_hit n)]
    exact map_ok (block_reads (by rw [length_indented]; omega) hbody _ _)
  simp only [Stmt.tokens, inParens, onLine_cons, onLine_append, onLine_nil, List.cons_append,
    List.append_assoc, List.nil_append]
  rw [parseStatement, statements, bind_ok line_apply, bind_ok peek_apply]
  simp only [lexemeOf_cons, lineOf_cons]
  rw [bind_ok advance_apply, List.tail_cons]
  exact bind_ok read

/-! ## All statements -/

theorem simple_reads {s : Stmt} (hs : s.isSimple = true) (h : s.wellFormed around = true) :
    s.ReadsBack around := by
  intro f rest hf _
  obtain ⟨f, rfl⟩ := Nat.exists_eq_add_one_of_ne_zero (show f ≠ 0 by omega)
  exact statements_simple hs h (by omega)

mutual

/-- Every well-formed statement is read back. -/
theorem Stmt.readsBack : ∀ (s : Stmt) (around : Surrounding), s.wellFormed around = true →
    s.ReadsBack around
  | .branch n cases last, around, h => by
    rw [Stmt.wellFormed, Bool.and_eq_true, Bool.and_eq_true] at h
    refine branch_reads ?_ (Stmt.readsBack_cases cases around h.1.2)
      (Stmt.readsBack_block last around h.2)
    rintro rfl
    cases h.1.1
  | .whileLoop n condition body last, around, h => by
    rw [Stmt.wellFormed, Bool.and_eq_true, Bool.and_eq_true, Bool.and_eq_true] at h
    exact whileLoop_reads h.1.1.1 (Stmt.readsBack_block body _ h.1.2)
      (Stmt.readsBack_block last around h.2)
  | .forLoop n target items body last, around, h => by
    simp only [Stmt.wellFormed, Bool.and_eq_true] at h
    obtain ⟨⟨⟨⟨⟨ht, he⟩, hi⟩, -⟩, hbody⟩, hlast⟩ := h
    exact forLoop_reads ht he hi (Stmt.readsBack_block body _ hbody)
      (Stmt.readsBack_block last around hlast)
  | .define n name params body, around, h => by
    rw [Stmt.wellFormed, Bool.and_eq_true, Bool.and_eq_true] at h
    exact define_reads h.1.1 (Stmt.readsBack_block body _ h.2)
  | .expr .., _, h | .assign .., _, h | .augment .., _, h | .giveBack .., _, h
  | .declareGlobal .., _, h | .leaveLoop _, _, h | .nextRound _, _, h | .pass _, _, h =>
    simple_reads rfl h

theorem Stmt.readsBack_block : ∀ (ss : List Stmt) (around : Surrounding),
    Stmt.allWellFormed around ss = true → ∀ s ∈ ss, s.IsRead around
  | [], _, _, _, hs => nomatch hs
  | s :: ss, around, h, x, hx => by
    rw [Stmt.allWellFormed, Bool.and_eq_true] at h
    rcases List.mem_cons.mp hx with heq | hx
    · rw [heq]
      exact ⟨h.1, Stmt.readsBack s around h.1⟩
    · exact Stmt.readsBack_block ss around h.2 x hx

theorem Stmt.readsBack_cases : ∀ (cs : List (Expr × List Stmt)) (around : Surrounding),
    Stmt.casesWellFormed around cs = true → ∀ c ∈ cs, CaseIsRead around c
  | [], _, _, _, hc => nomatch hc
  | (condition, body) :: cs, around, h, c, hc => by
    rw [Stmt.casesWellFormed, Bool.and_eq_true, Bool.and_eq_true, Bool.and_eq_true] at h
    rcases List.mem_cons.mp hc with heq | hc
    · rw [heq]
      exact ⟨h.1.1.1, Stmt.readsBack_block body around h.1.2⟩
    · exact Stmt.readsBack_cases cs around h.2 c hc

end

/-! ## Programs -/

/-- One statement of a program. -/
theorem programLines_read {s : Stmt} {done : List Stmt} {rounds : Nat}
    (hl : startsStmt (lexemeOf ts) = true)
    (h : parseStatement f ⟨false, false⟩ ts = .ok ([s], rest)) :
    programLines f (rounds + 1) done ts = programLines f rounds (s :: done) rest := by
  rw [programLines, bind_ok (check_miss (startsStmt_ne hl rfl))]
  simp only [Bool.false_eq_true, if_false]
  rw [bind_ok (accept_miss (startsStmt_ne hl rfl))]
  simp only [Bool.false_eq_true, if_false]
  rw [bind_ok h]
  rfl

theorem startsStmt_tokens {s : Stmt} (h : s.wellFormed around = true) (rest : List Token) :
    startsStmt (lexemeOf (s.tokens ++ rest)) = true := by
  obtain ⟨l, more, ht, hl⟩ := s.starts h
  rwa [ht]

/-- The statements of a program up to the end of the text. -/
theorem programLines_reads : ∀ (ss done : List Stmt) (rounds : Nat),
    (Stmt.blockTokens ss).length < rounds → (Stmt.blockTokens ss).length + 1 < f →
    (∀ s ∈ ss, s.IsRead ⟨false, false⟩) →
    programLines f rounds done (Stmt.blockTokens ss ++ [⟨.mark Layout.finish, last⟩])
      = .ok (done.reverse ++ ss, [⟨.mark Layout.finish, last⟩])
  | _, _, 0, hr, _, _ => absurd hr (Nat.not_lt_zero _)
  | [], done, rounds + 1, _, _, _ => by
    rw [Stmt.blockTokens, List.nil_append, List.append_nil, programLines]
    refine (bind_ok (check_hit rfl)).trans ?_
    rfl
  | s :: ss, done, rounds + 1, hr, hf, h => by
    obtain ⟨hw, hs⟩ := h s (List.mem_cons_self ..)
    have tail : ∀ s ∈ ss, s.IsRead ⟨false, false⟩ := fun s hs => h s (List.mem_cons_of_mem _ hs)
    have width : 0 < s.tokens.length := by
      obtain ⟨l, more, ht, -⟩ := s.starts hw
      rw [ht]
      exact Nat.succ_pos _
    rw [Stmt.blockTokens, List.length_append] at hr hf
    have others := programLines_reads ss (s :: done) rounds (by omega) (by omega) tail
    have read := hs f (Stmt.blockTokens ss ++ [⟨.mark Layout.finish, last⟩]) (by omega)
      (noClause_block tail ⟨by simp, by simp⟩)
    rw [Stmt.blockTokens, List.append_assoc, programLines_read (startsStmt_tokens hw _) read,
      others, List.reverse_cons, List.append_assoc]
    rfl

/-- **The parser undoes printing**: it makes every well-formed program of the program's tokens, with
all its trees and lines. -/
theorem parseTokens_programTokens (program : List Stmt) (last : Nat)
    (h : Stmt.allWellFormed ⟨false, false⟩ program = true) :
    parseTokens (programTokens program last) = .ok program := by
  have width : (programTokens program last).length = (Stmt.blockTokens program).length + 1 := by
    rw [programTokens, List.length_append, List.length_singleton]
  have lines : programLines ((programTokens program last).length + 1)
        ((programTokens program last).length + 1) [] (programTokens program last)
      = .ok (program, [⟨.mark Layout.finish, last⟩]) :=
    programLines_reads program [] _ (by omega) (by omega)
      (Stmt.readsBack_block program ⟨false, false⟩ h)
  change Prod.fst <$> programLines _ _ [] (programTokens program last) = _
  rw [lines]
  rfl

/-- A function whose branch returns a power of a negated name, with a loop after it. -/
def powerProgram : List Stmt :=
  [.define 1 "power" [⟨"x", none⟩, ⟨"y", some (.literal (.int 2))⟩]
    [.branch 2 [(.compare (.name "x") [(.lt, .literal (.int (-1)))],
        [.giveBack 3 (some (.binary .pow (.unary .negate (.name "x")) (.name "y")))])]
      [.branch 5 [(.logic .or (.name "y") (.unary .not (.name "x")), [.pass 6])] []]],
    .whileLoop 7 (.literal (.bool true))
      [.assign 8 [.tuple [.name "x"], .index (.name "a") (.name "i")] (.list []), .leaveLoop 9] []]

theorem parseTokens_programTokens_power :
    Stmt.allWellFormed ⟨false, false⟩ powerProgram = true
      ∧ parseTokens (programTokens powerProgram 10) = .ok powerProgram :=
  ⟨rfl, parseTokens_programTokens powerProgram 10 rfl⟩

end SortTrace.Script
