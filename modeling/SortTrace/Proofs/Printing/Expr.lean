import SortTrace.Proofs.Printing.Operators

/-!
# Expressions are read back

Calls, subscripts and method calls follow their object in the loop of rung 13. With them, every
well-formed expression is read back (`readsBack`), by induction on the expression.
-/

namespace SortTrace.Script

open Parse

variable {e object : Expr} {f n line : Nat} {rest : List Token}

/-! ## What follows an expression directly -/

/-- An expression that goes on with its object by one more round of the loop. -/
theorem ReadsBack.of_round {l : Lexeme} {ls : List Lexeme} (ho : ReadsBack object)
    (hr : e.rung = 13) (hl : l.rung? = some 13) (he : e.lexemes = object.lexemesAt 13 ++ l :: ls)
    (hh : object.height ≤ e.height)
    (round : ∀ f n line rest rounds, ls.length < rounds → ls.length + 1 < f →
      n + e.height < maxNesting →
      trailers (parseGoal f .test n) (rounds + 1) object (⟨l, line⟩ :: (onLine line ls ++ rest))
        = trailers (parseGoal f .test n) rounds e rest) : ReadsBack e := by
  refine .of_trails hr ?_
  intro f n line rest hf hn _
  rw [lexemesAt_of_le (by omega), he] at hf ⊢
  rw [List.length_append, List.length_cons] at hf ⊢
  obtain ⟨rounds, hrounds, front⟩ := ho.trails f n line (⟨l, line⟩ :: (onLine line ls ++ rest))
    (by omega) (by omega) (.of_rung hl (by omega))
  obtain ⟨rounds, rfl⟩ := Nat.exists_eq_add_one_of_ne_zero (show rounds ≠ 0 by omega)
  refine ⟨rounds, by omega, ?_⟩
  rw [onLine_append, onLine_cons, List.append_assoc, List.cons_append, front]
  exact round f n line rest rounds (by omega) (by omega) hn

theorem readsBack_index {i : Expr} (ho : ReadsBack object) (hi : ReadsBack i) :
    ReadsBack (.index object i) := by
  refine .of_round ho rfl rfl rfl (by rw [Expr.height]; omega) ?_
  intro f n line rest rounds hr hf hn
  rw [List.length_append] at hf
  rw [Expr.height] at hn
  have inside : Makes (parseGoal f .test n) line i := fun _ hs =>
    (hi.reads 0 (by omega)).item (by omega) (by omega) hs
  rw [onLine_append, onLine_cons, onLine_nil, List.append_assoc]
  exact trailers_subscript (subscript_index inside rounds)

theorem makes_bound {b : Option Expr} (h : ∀ e, b = some e → ReadsBack e)
    (hf : (Expr.boundLexemes b).length + 1 < f) (hn : n + Expr.boundHeight b < maxNesting) :
    ∀ e, b = some e → Makes (parseGoal f .test n) line e := by
  rintro e rfl rest hs
  rw [Expr.boundHeight] at hn
  exact ((h e rfl).reads 0 (by omega)).item hf (by omega) hs

theorem readsBack_slice {lower upper step : Option Expr} (ho : ReadsBack object)
    (hl : ∀ e, lower = some e → ReadsBack e) (hu : ∀ e, upper = some e → ReadsBack e)
    (hs : ∀ e, step = some e → ReadsBack e) : ReadsBack (.slice object lower upper step) := by
  have lexemes : (Expr.slice object lower upper step).lexemes
      = object.lexemesAt 13 ++ .mark Punct.lbracket :: (Expr.boundLexemes lower
        ++ .mark Punct.colon :: (Expr.boundLexemes upper ++ stepLexemes step
          ++ [.mark Punct.rbracket])) := rfl
  refine .of_round ho rfl rfl lexemes (by rw [Expr.height]; omega) ?_
  intro f n line rest rounds hr hf hn
  have width : (Expr.boundLexemes step).length ≤ (stepLexemes step).length := by
    cases step <;> simp [stepLexemes, Expr.boundLexemes]
  simp only [List.length_append, List.length_cons] at hf
  rw [Expr.height] at hn
  have first : ∀ e, lower = some e → Makes (parseGoal f .test n) line e :=
    makes_bound hl (by omega) (by omega)
  have second : ∀ e, upper = some e → Makes (parseGoal f .test n) line e :=
    makes_bound hu (by omega) (by omega)
  have third : ∀ e, step = some e → Makes (parseGoal f .test n) line e :=
    makes_bound hs (by omega) (by omega)
  simp only [onLine_append, onLine_cons, onLine_nil, List.append_assoc, List.cons_append,
    List.nil_append]
  exact trailers_subscript (subscript_slice first second third rounds)

/-! ## Arguments -/

section Arguments

variable {args : List Expr} {keywords : List (String × Expr)}

theorem keywordGroups_eq : ∀ ks : List (String × Expr), Expr.keywordGroups ks
    = ks.map fun p => .name p.1 :: .mark Punct.assign :: p.2.lexemes
  | [] => rfl
  | (_, _) :: ks => congrArg (_ :: ·) (keywordGroups_eq ks)

theorem height_lt_keywords : ∀ {ks : List (String × Expr)} {p : String × Expr}, p ∈ ks →
    p.2.height < Expr.keywordsHeight ks
  | _ :: _, _, h => by
    rw [Expr.keywordsHeight]
    rcases List.mem_cons.mp h with rfl | h
    · exact Nat.lt_of_lt_of_le (Nat.lt_succ_self _) (Nat.le_max_left _ _)
    · exact Nat.lt_of_lt_of_le (height_lt_keywords h) (Nat.le_max_right _ _)

/-- There are no more arguments than lexemes. -/
theorem count_arguments (args : List Expr) (keywords : List (String × Expr)) :
    args.length + keywords.length
      ≤ (separated (Expr.groups args ++ Expr.keywordGroups keywords)).length := by
  have nonempty : ∀ g ∈ Expr.groups args ++ Expr.keywordGroups keywords, g ≠ [] := by
    intro g hg
    rcases List.mem_append.mp hg with hg | hg
    · exact groups_ne_nil args g hg
    · rw [keywordGroups_eq] at hg
      obtain ⟨p, -, rfl⟩ := List.mem_map.mp hg
      exact List.cons_ne_nil _ _
  have count := count_le_separated nonempty
  rwa [List.length_append, length_groups, keywordGroups_eq, List.length_map,
    ← keywordGroups_eq] at count

theorem callArguments_reads (ha : ∀ e ∈ args, ReadsBack e) (hk : ∀ p ∈ keywords, ReadsBack p.2)
    (hd : (keywords.map Prod.fst).Nodup) {rounds : Nat}
    (hr : (separated (Expr.groups args ++ Expr.keywordGroups keywords)).length ≤ rounds)
    (hf : (separated (Expr.groups args ++ Expr.keywordGroups keywords)).length + 1 < f)
    (hna : n + Expr.itemsHeight args < maxNesting)
    (hnk : n + Expr.keywordsHeight keywords < maxNesting) :
    callArguments (parseGoal f .test n) rounds
        (onLine line (separated (Expr.groups args ++ Expr.keywordGroups keywords))
          ++ ⟨.mark Punct.rparen, line⟩ :: rest) = .ok (⟨args, keywords⟩, rest) := by
  have count := count_arguments args keywords
  refine callArguments_makes (by omega) ?_ ?_ hd
  · refine makes_items ha (fun e he => ?_) hna
    have := length_le_separated
      (List.mem_append_left (Expr.keywordGroups keywords) (mem_groups he))
    omega
  · intro p hp rest hs
    have member : .name p.1 :: .mark Punct.assign :: p.2.lexemes ∈ Expr.keywordGroups keywords := by
      rw [keywordGroups_eq]
      exact List.mem_map_of_mem hp
    have := length_le_separated (List.mem_append_right (Expr.groups args) member)
    have := height_lt_keywords hp
    simp only [List.length_cons] at *
    exact ((hk p hp).reads 0 (by omega)).item (by omega) (by omega) hs

theorem readsBack_call (ho : ReadsBack object) (ha : ∀ e ∈ args, ReadsBack e)
    (hk : ∀ p ∈ keywords, ReadsBack p.2) (hd : (keywords.map Prod.fst).Nodup) :
    ReadsBack (.call object args keywords) := by
  refine .of_round (l := .mark Punct.lparen) ho rfl rfl rfl (by rw [Expr.height]; omega) ?_
  intro f n line rest rounds hr hf hn
  rw [List.length_append] at hr hf
  rw [Expr.height] at hn
  rw [onLine_append, onLine_cons, onLine_nil, List.append_assoc]
  exact trailers_call (callArguments_reads ha hk hd (by omega) (by omega) (by omega) (by omega))

theorem readsBack_method (key : String) (ho : ReadsBack object) (ha : ∀ e ∈ args, ReadsBack e)
    (hk : ∀ p ∈ keywords, ReadsBack p.2) (hd : (keywords.map Prod.fst).Nodup) :
    ReadsBack (.method object key args keywords) := by
  refine .of_round (l := .mark Punct.dot) ho rfl rfl rfl (by rw [Expr.height]; omega) ?_
  intro f n line rest rounds hr hf hn
  simp only [inParens, List.length_append, List.length_cons] at hr hf
  rw [Expr.height] at hn
  simp only [inParens, onLine_append, onLine_cons, onLine_nil, List.append_assoc, List.cons_append]
  exact trailers_method
    (callArguments_reads ha hk hd (by omega) (by omega) (by omega) (by omega)) key

end Arguments

/-! ## All expressions -/

mutual

/-- Every well-formed expression is read back. -/
theorem readsBack : ∀ e : Expr, e.wellFormed = true → ReadsBack e
  | .literal v, h => readsBack_literal v h
  | .name s, _ => readsBack_name s
  | .list es, h => readsBack_list (readsBack_items es h)
  | .tuple es, h => readsBack_tuple (readsBack_items es h)
  | .unary op e, h =>
    have ⟨he, _⟩ := Bool.and_eq_true_iff.mp h
    readsBack_unary (readsBack e he) h
  | .binary op l r, h =>
    have ⟨hl, hr⟩ := Bool.and_eq_true_iff.mp h
    readsBack_binary op (readsBack l hl) (readsBack r hr)
  | .logic op l r, h =>
    have ⟨hl, hr⟩ := Bool.and_eq_true_iff.mp h
    readsBack_logic op (readsBack l hl) (readsBack r hr)
  | .compare first links, h => by
    rw [Expr.wellFormed, Bool.and_eq_true, Bool.and_eq_true] at h
    refine readsBack_compare (readsBack first h.1.1) (readsBack_links links h.2) ?_
    rintro rfl
    cases h.1.2
  | .ifElse condition yes no, h => by
    rw [Expr.wellFormed, Bool.and_eq_true, Bool.and_eq_true] at h
    exact readsBack_ifElse (readsBack condition h.1.1) (readsBack yes h.1.2) (readsBack no h.2)
  | .index object i, h =>
    have ⟨ho, hi⟩ := Bool.and_eq_true_iff.mp h
    readsBack_index (readsBack object ho) (readsBack i hi)
  | .slice object lower upper step, h => by
    rw [Expr.wellFormed, Bool.and_eq_true, Bool.and_eq_true, Bool.and_eq_true] at h
    exact readsBack_slice (readsBack object h.1.1.1) (readsBack_bound lower h.1.1.2)
      (readsBack_bound upper h.1.2) (readsBack_bound step h.2)
  | .call object args keywords, h => by
    rw [Expr.wellFormed, Bool.and_eq_true, Bool.and_eq_true, Bool.and_eq_true] at h
    exact readsBack_call (readsBack object h.1.1.1) (readsBack_items args h.1.1.2)
      (readsBack_keywords keywords h.1.2) (of_decide_eq_true h.2)
  | .method object key args keywords, h => by
    rw [Expr.wellFormed, Bool.and_eq_true, Bool.and_eq_true, Bool.and_eq_true] at h
    exact readsBack_method key (readsBack object h.1.1.1) (readsBack_items args h.1.1.2)
      (readsBack_keywords keywords h.1.2) (of_decide_eq_true h.2)

theorem readsBack_items : ∀ es : List Expr, Expr.allWellFormed es = true → ∀ e ∈ es, ReadsBack e
  | [], _, _, he => nomatch he
  | e :: es, h, x, hx => by
    rw [Expr.allWellFormed, Bool.and_eq_true] at h
    rcases List.mem_cons.mp hx with heq | hx
    · rw [heq]
      exact readsBack e h.1
    · exact readsBack_items es h.2 x hx

theorem readsBack_keywords : ∀ ks : List (String × Expr), Expr.keywordsWellFormed ks = true →
    ∀ p ∈ ks, ReadsBack p.2
  | [], _, _, hp => nomatch hp
  | (key, e) :: ks, h, p, hp => by
    rw [Expr.keywordsWellFormed, Bool.and_eq_true] at h
    rcases List.mem_cons.mp hp with heq | hp
    · rw [heq]
      exact readsBack e h.1
    · exact readsBack_keywords ks h.2 p hp

theorem readsBack_links : ∀ ls : List (CompareOp × Expr), Expr.linksWellFormed ls = true →
    ∀ p ∈ ls, ReadsBack p.2
  | [], _, _, hp => nomatch hp
  | (op, e) :: ls, h, p, hp => by
    rw [Expr.linksWellFormed, Bool.and_eq_true] at h
    rcases List.mem_cons.mp hp with heq | hp
    · rw [heq]
      exact readsBack e h.1
    · exact readsBack_links ls h.2 p hp

theorem readsBack_bound : ∀ b : Option Expr, Expr.boundWellFormed b = true →
    ∀ e, b = some e → ReadsBack e
  | none, _, _, he => nomatch he
  | some e, h, x, hx => by
    rw [← Option.some.inj hx]
    exact readsBack e h

end

/-! ## Whole expressions -/

/-- The parser of an expression makes it of its lexemes. -/
theorem parseTest_reads (h : e.wellFormed = true) (hn : e.height < maxNesting)
    (hf : e.lexemes.length + 1 < f) (hs : Stops 0 rest) :
    parseTest f (onLine line e.lexemes ++ rest) = .ok (e, rest) :=
  ((readsBack e h).reads 0 (by omega)).item hf (by omega) hs

theorem parseTestList_reads (h : e.wellFormed = true) (hn : e.height < maxNesting)
    (hf : e.lexemes.length + 1 < f) (hs : Stops 0 rest)
    (hcomma : lexemeOf rest ≠ .mark Punct.comma) :
    parseTestList f (onLine line e.lexemes ++ rest) = .ok (e, rest) := by
  refine testList_makes (fun rest hs => ?_) hs hcomma f
  exact parseTest_reads h hn hf hs

/-- An operand outside brackets, such as the target of a loop. -/
theorem parseOperand_reads (h : e.wellFormed = true) (hn : e.height < maxNesting)
    (hf : (e.lexemesAt 5).length < f) (hs : Stops 5 rest) :
    parseOperand f (onLine line (e.lexemesAt 5) ++ rest) = .ok (e, rest) :=
  (readsBack e h).reads 5 (by omega) f 0 line rest hf (by omega) hs

end SortTrace.Script
