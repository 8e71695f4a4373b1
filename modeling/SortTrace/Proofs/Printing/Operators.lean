import SortTrace.Proofs.Printing.Atoms

/-!
# Operators are read back

Signs and `not`, binary operators, connectives, chains of comparisons and conditionals. Operators
that lean to the left go on with the loop in which their left operand ended; every other operator is
followed on its own rung.
-/

namespace SortTrace.Script

open Parse

variable {e l r : Expr} {f n line : Nat} {rest : List Token}

/-! ## Signs -/

/-- No sign becomes part of a number. -/
theorem applySign_eq {op : UnaryOp} (h : (Expr.unary op e).wellFormed = true) :
    applySign op e = .unary op e := by
  rw [Expr.wellFormed_unary] at h
  unfold applySign
  split
  · simp [Expr.isInt] at h
  · simp [Expr.wellFormed] at h
  · rfl

theorem factor_sign {op : UnaryOp} (hs : sign? op.lexeme = some op)
    (hw : (Expr.unary op e).wellFormed = true) {ts : List Token}
    (h : nested (parseGoal f) .factor n ts = .ok (e, rest)) :
    factor (parseGoal f) f n (⟨op.lexeme, line⟩ :: ts) = .ok (.unary op e, rest) := by
  rw [factor, bind_ok peek_apply, lexemeOf_cons, hs]
  change (advance >>= fun _ => applySign op <$> nested (parseGoal f) .factor n) _ = _
  rw [bind_ok advance_apply, List.tail_cons]
  refine (map_ok h).trans ?_
  rw [applySign_eq hw]

theorem readsBack_unary {op : UnaryOp} (h : ReadsBack e)
    (hw : (Expr.unary op e).wellFormed = true) : ReadsBack (.unary op e) := by
  refine .of_own ?_ (by cases op <;> simp [Expr.rung, UnaryOp.rung, chainRungs])
    (by cases op <;> simp [Expr.rung, UnaryOp.rung])
  intro f n line rest hf hn hs
  rw [lexemesAt_of_le (Nat.le_refl _)] at hf ⊢
  rw [Expr.lexemes, List.length_cons] at hf
  rw [Expr.height_unary] at hn
  rw [Expr.rung] at hs
  cases op with
  | not =>
    have operand := nested_reads .inversion line (h.reads 3 (by omega)) hf hn hs
    change inversion _ _ _ _ = _
    rw [Expr.lexemes, onLine_cons, List.cons_append, inversion]
    refine (bind_ok (accept_hit line)).trans ?_
    exact map_ok operand
  | negate | keep | invert =>
    have operand := nested_reads .factor line (h.reads 11 (by omega)) hf hn hs
    exact factor_sign rfl hw operand

/-! ## Binary operators -/

/-- A power: its exponent may carry a sign. -/
theorem readsBack_pow (hl : ReadsBack l) (hr : ReadsBack r) : ReadsBack (.binary .pow l r) := by
  refine .of_own ?_ (by simp [Expr.rung, BinOp.rung, chainRungs]) (by simp [Expr.rung, BinOp.rung])
  intro f n line rest hf hn hs
  rw [lexemesAt_of_le (Nat.le_refl _)] at hf ⊢
  rw [Expr.lexemes, List.length_append, List.length_cons] at hf
  rw [Expr.height] at hn
  change (l.lexemesAt 13).length + ((r.lexemesAt 11).length + 1) < f at hf
  have base : primary (parseGoal f) f n (onLine line (l.lexemesAt 13)
        ++ ⟨.op .pow, line⟩ :: (onLine line (r.lexemesAt 11) ++ rest))
      = .ok (l, ⟨.op .pow, line⟩ :: (onLine line (r.lexemesAt 11) ++ rest)) :=
    hl.reads 13 (by omega) f n line _ (by omega) (by omega) (.of_rung rfl (by decide))
  have exponent := nested_reads (f := f) (n := n) .factor line (hr.reads 11 (by omega))
    (show (r.lexemesAt 11).length + 1 < f by omega) (by omega) hs.of_sign
  change power _ _ _ _ = _
  rw [Expr.lexemes, onLine_append, onLine_cons, List.append_assoc, List.cons_append, power]
  refine (bind_ok base).trans ?_
  rw [bind_ok peek_apply, lexemeOf_cons]
  change (advance >>= fun _ => Expr.binary .pow l <$> nested (parseGoal f) .factor n) _ = _
  rw [bind_ok advance_apply, List.tail_cons]
  exact map_ok exponent

theorem readsBack_binary (op : BinOp) (hl : ReadsBack l) (hr : ReadsBack r) :
    ReadsBack (.binary op l r) := by
  by_cases hpow : op = .pow
  · subst hpow
    exact readsBack_pow hl hr
  have chain : op.rung ∈ chainRungs := by
    cases op <;> simp_all [BinOp.rung, chainRungs]
  have leftRung : op.leftRung = op.rung := by
    cases op <;> simp_all [BinOp.leftRung]
  have rightRung : op.rightRung = op.rung + 1 := by
    cases op <;> simp_all [BinOp.rightRung]
  have tight : op.rung < 11 := by
    cases op <;> simp_all [BinOp.rung]
  refine .of_chain chain ?_
  intro f n line rest hf hn hs
  rw [lexemesAt_of_le (Nat.le_refl _), Expr.lexemes, leftRung, rightRung] at hf ⊢
  change ((l.lexemesAt op.rung) ++ .op op :: r.lexemesAt (op.rung + 1)).length < f at hf
  rw [List.length_append, List.length_cons] at hf
  rw [Expr.height] at hn ⊢
  obtain ⟨rounds, links, hrounds, hlinks, left⟩ := hl.chains op.rung chain f n line
    (⟨.op op, line⟩ :: (onLine line (r.lexemesAt (op.rung + 1)) ++ rest)) (by omega) (by omega)
    (.of_rung rfl (by omega))
  obtain ⟨rounds, rfl⟩ := Nat.exists_eq_add_one_of_ne_zero (show rounds ≠ 0 by omega)
  have right := hr.reads (op.rung + 1) (by omega) f n line rest (by omega) (by omega) hs
  refine ⟨rounds, links + 1, ?_, by omega, ?_⟩
  · change f ≤ rounds + ((l.lexemesAt op.rung) ++ .op op :: r.lexemesAt (op.rung + 1)).length
    rw [List.length_append, List.length_cons]
    omega
  · rw [onLine_append, onLine_cons, List.append_assoc, List.cons_append]
    exact left.trans (loopAt_binary chain (by omega) right)

/-! ## Connectives -/

theorem readsBack_logic (op : BoolOp) (hl : ReadsBack l) (hr : ReadsBack r) :
    ReadsBack (.logic op l r) := by
  have chain : op.rung ∈ chainRungs := by
    cases op <;> simp [BoolOp.rung, chainRungs]
  have tight : op.rung < 3 := by
    cases op <;> simp [BoolOp.rung]
  have keywordRung : (Lexeme.mark op.keyword).rung? = some op.rung := by
    cases op <;> rfl
  refine .of_chain chain ?_
  intro f n line rest hf hn hs
  rw [lexemesAt_of_le (Nat.le_refl _), Expr.lexemes] at hf ⊢
  change ((l.lexemesAt op.rung) ++ .mark op.keyword :: r.lexemesAt (op.rung + 1)).length < f at hf
  rw [List.length_append, List.length_cons] at hf
  rw [Expr.height] at hn ⊢
  obtain ⟨rounds, links, hrounds, hlinks, left⟩ := hl.chains op.rung chain f n line
    (⟨.mark op.keyword, line⟩ :: (onLine line (r.lexemesAt (op.rung + 1)) ++ rest)) (by omega)
    (by omega) (.of_rung keywordRung (by omega))
  obtain ⟨rounds, rfl⟩ := Nat.exists_eq_add_one_of_ne_zero (show rounds ≠ 0 by omega)
  have right := hr.reads (op.rung + 1) (by omega) f n line rest (by omega) (by omega) hs
  refine ⟨rounds, links + 1, ?_, by omega, ?_⟩
  · change f ≤ rounds
      + ((l.lexemesAt op.rung) ++ .mark op.keyword :: r.lexemesAt (op.rung + 1)).length
    rw [List.length_append, List.length_cons]
    omega
  · rw [onLine_append, onLine_cons, List.append_assoc, List.cons_append]
    exact left.trans (loopAt_logic (by omega) right)

/-! ## Comparisons -/

theorem compareOp?_hit (op : CompareOp) {ts : List Token}
    (h : lexemeOf ts ≠ .mark Keyword.notKw) :
    compareOp? (onLine line op.lexemes ++ ts) = .ok (some op, ts) := by
  rw [compareOp?, bind_ok peek_apply]
  cases op with
  | same =>
    change (if lexemeOf ts == .mark Keyword.notKw then _ else _ : Parse _) _ = _
    rw [beq_eq_false_iff_ne.mpr h]
    rfl
  | _ => rfl

theorem linkLexemes_stops {ls : List (CompareOp × Expr)} (hs : Stops 4 rest) :
    Stops 5 (onLine line (Expr.linkLexemes ls) ++ rest) := by
  match ls with
  | [] => exact hs.mono (by omega)
  | (op, e) :: ls => cases op <;> exact .of_rung rfl (by omega)

/-- The links of a chain of comparisons. -/
theorem links_reads (line : Nat) (hs : Stops 4 rest) :
    ∀ (ls done : List (CompareOp × Expr)) (rounds : Nat),
      (Expr.linkLexemes ls).length < rounds → (Expr.linkLexemes ls).length < f →
      (∀ p ∈ ls, ReadsBack p.2) → n + Expr.linksHeight ls < maxNesting →
      links (readAt f n 5) rounds done (onLine line (Expr.linkLexemes ls) ++ rest)
        = .ok (done.reverse ++ ls, rest)
  | [], done, 0, hr, _, _, _ => absurd hr (Nat.not_lt_zero _)
  | _ :: _, done, 0, hr, _, _, _ => absurd hr (Nat.not_lt_zero _)
  | [], done, rounds + 1, _, _, _, _ => by
    rw [links, Expr.linkLexemes, onLine_nil, List.nil_append, bind_ok (compareOp?_stop hs),
      List.append_nil]
    rfl
  | (op, e) :: ls, done, rounds + 1, hr, hf, h, hn => by
    have width : 0 < op.lexemes.length := by
      cases op <;> decide
    rw [Expr.linkLexemes] at hr hf
    change (op.lexemes ++ (e.lexemesAt 5 ++ Expr.linkLexemes ls)).length < rounds + 1 at hr
    change (op.lexemes ++ (e.lexemesAt 5 ++ Expr.linkLexemes ls)).length < f at hf
    rw [List.length_append, List.length_append] at hr hf
    rw [Expr.linksHeight] at hn
    have made : ReadsBack e := h (op, e) (List.mem_cons_self ..)
    have operand := made.reads 5 (by omega) f n line (onLine line (Expr.linkLexemes ls) ++ rest)
      (by omega) (by omega) (linkLexemes_stops hs)
    have others := links_reads line hs ls ((op, e) :: done) rounds (by omega) (by omega)
      (fun p hp => h p (List.mem_cons_of_mem _ hp)) (by omega)
    have noWord : lexemeOf (onLine line (e.lexemesAt 5)
        ++ (onLine line (Expr.linkLexemes ls) ++ rest)) ≠ .mark Keyword.notKw := by
      obtain ⟨⟨first, more, hls, -, hnot, -⟩, -⟩ := opening_atRung (opening e) 5
      rw [hls]
      exact hnot (by omega)
    change links _ _ _ (onLine line (op.lexemes ++ (e.lexemesAt 5 ++ Expr.linkLexemes ls))
      ++ rest) = _
    rw [onLine_append, onLine_append, List.append_assoc, List.append_assoc, links,
      bind_ok (compareOp?_hit op noWord)]
    refine (bind_ok operand).trans ?_
    rw [others]
    simp

theorem readsBack_compare {ls : List (CompareOp × Expr)} (h : ReadsBack e)
    (hls : ∀ p ∈ ls, ReadsBack p.2) (hne : ls ≠ []) : ReadsBack (.compare e ls) := by
  refine .of_own ?_ (by simp [Expr.rung, chainRungs]) (by simp [Expr.rung])
  intro f n line rest hf hn hs
  rw [lexemesAt_of_le (Nat.le_refl _), Expr.lexemes] at hf ⊢
  change (e.lexemesAt 5 ++ Expr.linkLexemes ls).length < f at hf
  rw [List.length_append] at hf
  rw [Expr.height] at hn
  have first := h.reads 5 (by omega) f n line (onLine line (Expr.linkLexemes ls) ++ rest)
    (by omega) (by omega) (linkLexemes_stops hs)
  have others := links_reads (f := f) (n := n) line hs ls [] f (by omega) (by omega) hls
    (by omega)
  rw [onLine_append, List.append_assoc]
  change comparison _ _ _ _ = _
  rw [comparison]
  refine (bind_ok first).trans ?_
  refine (bind_ok others).trans ?_
  cases ls with
  | nil => exact absurd rfl hne
  | cons p ls => rfl

/-! ## Conditionals -/

theorem readsBack_ifElse (hc : ReadsBack e) (hy : ReadsBack l) (hn : ReadsBack r) :
    ReadsBack (.ifElse e l r) := by
  refine .of_own ?_ (by simp [Expr.rung, chainRungs]) (by simp [Expr.rung])
  intro f n line rest hf hh hs
  rw [lexemesAt_of_le (Nat.le_refl _), Expr.lexemes] at hf ⊢
  change (l.lexemesAt 1 ++ .mark Keyword.ifKw :: (e.lexemesAt 1 ++ .mark Keyword.elseKw ::
    r.lexemes)).length < f at hf
  simp only [List.length_append, List.length_cons] at hf
  rw [Expr.height] at hh
  have bare : r.lexemesAt 0 = r.lexemes := lexemesAt_of_le (Nat.zero_le _)
  have alternative := nested_reads (f := f) (n := n) .test line
    (hn.reads 0 (by omega)) (by change (r.lexemesAt 0).length + 1 < f; rw [bare]; omega)
    (by omega) hs
  change nested _ _ _ (onLine line (r.lexemesAt 0) ++ rest) = _ at alternative
  rw [bare] at alternative
  have condition := hc.reads 1 (by omega) f n line
    (⟨.mark Keyword.elseKw, line⟩ :: (onLine line r.lexemes ++ rest)) (by omega) (by omega)
    (.of_none rfl)
  have value := hy.reads 1 (by omega) f n line (⟨.mark Keyword.ifKw, line⟩ ::
    (onLine line (e.lexemesAt 1) ++ ⟨.mark Keyword.elseKw, line⟩ ::
      (onLine line r.lexemes ++ rest))) (by omega) (by omega) (.of_rung rfl (by omega))
  simp only [onLine_append, onLine_cons, List.append_assoc, List.cons_append]
  change conditional _ _ _ _ = _
  rw [conditional]
  refine (bind_ok value).trans ?_
  rw [bind_ok (accept_hit line)]
  refine (bind_ok condition).trans ?_
  rw [bind_ok (expect_hit line), bind_ok alternative]
  rfl

end SortTrace.Script
