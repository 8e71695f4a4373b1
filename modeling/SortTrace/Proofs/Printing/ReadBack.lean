import SortTrace.Proofs.Printing.Ladder

/-!
# Reading an expression back

An expression is read back (`ReadsBack`) when, for a place that asks for any rung, the parser of
that rung makes it of its lexemes, if it nests few enough levels and the tokens after it do not go
on with it. It is enough to follow it on its own rung.

An expression is followed down its left side by loops, one for each rung whose operators form chains
and one for what follows an expression directly. So the induction also says where each loop has come
to when it has read the expression: `ChainsAt` and `Trails`.
-/

namespace SortTrace.Script

open Parse

/-- The parser of the rung makes the expression of its lexemes. -/
def ReadsAt (rung : Nat) (e : Expr) : Prop :=
  ∀ f n line rest, (e.lexemesAt rung).length < f → n + e.height < maxNesting → Stops rung rest →
    readAt f n rung (onLine line (e.lexemesAt rung) ++ rest) = .ok (e, rest)

/-- After the lexemes of the expression, the loop over the operators of the rung goes on with it. -/
def ChainsAt (rung : Nat) (e : Expr) : Prop :=
  ∀ f n line rest, (e.lexemesAt rung).length < f → n + e.height < maxNesting →
    Stops (rung + 1) rest →
    ∃ rounds chain, f ≤ rounds + (e.lexemesAt rung).length ∧ chain ≤ e.height ∧
      (readAt f n (rung + 1) >>= loopAt f n rung f 0) (onLine line (e.lexemesAt rung) ++ rest)
        = loopAt f n rung rounds chain e rest

/-- After the lexemes of the expression, the loop over calls and subscripts goes on with it. -/
def Trails (e : Expr) : Prop :=
  ∀ f n line rest, (e.lexemesAt 13).length < f → n + e.height < maxNesting → Stops 14 rest →
    ∃ rounds, f ≤ rounds + (e.lexemesAt 13).length ∧
      readAt f n 13 (onLine line (e.lexemesAt 13) ++ rest)
        = trailers (parseGoal f .test n) rounds e rest

/-- The parsers of all rungs make the expression of its lexemes. -/
structure ReadsBack (e : Expr) : Prop where
  reads : ∀ rung ≤ 13, ReadsAt rung e
  chains : ∀ rung ∈ chainRungs, ChainsAt rung e
  trails : Trails e

variable {e : Expr} {rung f n line rounds : Nat} {rest : List Token}

theorem Expr.rung_le (e : Expr) : e.rung ≤ 13 := by
  cases e with
  | literal v =>
    cases v with
    | int n =>
      simp only [Expr.rung]
      split <;> omega
    | _ => exact Nat.le_refl 13
  | unary op e => cases op <;> simp [Expr.rung, UnaryOp.rung]
  | binary op l r => cases op <;> simp [Expr.rung, BinOp.rung]
  | logic op l r => cases op <;> simp [Expr.rung, BoolOp.rung]
  | _ => simp [Expr.rung]

theorem lexemesAt_of_le (h : rung ≤ e.rung) : e.lexemesAt rung = e.lexemes :=
  if_neg (by omega)

theorem lexemesAt_of_lt (h : e.rung < rung) : e.lexemesAt rung = inParens e.lexemes :=
  if_pos h

theorem trailers_stop (item : Parse Expr) (hs : Stops 13 rest) :
    trailers item rounds e rest = .ok (e, rest) := by
  cases rounds with
  | zero => rfl
  | succ rounds =>
    rw [trailers, bind_ok peek_apply]
    generalize hl : lexemeOf rest = l
    split
    case h_4 => rfl
    all_goals exact absurd hl (hs.ne rfl (by omega))

/-! ## From the rung of an expression to all rungs -/

theorem ReadsAt.of_le (h : ReadsAt e.rung e) (hr : rung ≤ e.rung) : ReadsAt rung e := by
  intro f n line rest hf hn hs
  rw [lexemesAt_of_le hr] at hf ⊢
  have read := h f n line rest (by rwa [lexemesAt_of_le (Nat.le_refl _)]) hn (hs.mono hr)
  rw [lexemesAt_of_le (Nat.le_refl _)] at read
  exact readAt_of_le e.rung_le hr read (opening e) hs

/-- What stands in brackets is read as an expression of its own. -/
theorem ReadsAt.item (h : ReadsAt 0 e) (hf : e.lexemes.length + 1 < f)
    (hn : n + e.height < maxNesting) (hs : Stops 0 rest) :
    parseGoal f .test n (onLine line e.lexemes ++ rest) = .ok (e, rest) := by
  obtain ⟨f, rfl⟩ := Nat.exists_eq_add_one_of_ne_zero (show f ≠ 0 by omega)
  have bare : e.lexemesAt 0 = e.lexemes := lexemesAt_of_le (Nat.zero_le _)
  have read := h f n line rest (by rw [bare]; omega) hn hs
  rw [bare] at read
  exact read

/-- An expression in parentheses. -/
theorem Trails.parens (h : ReadsAt 0 e) (hr : e.rung < 13) : Trails e := by
  intro f n line rest hf hn hs
  rw [lexemesAt_of_lt hr] at hf ⊢
  simp only [inParens, List.length_cons, List.length_append, List.length_nil] at hf
  refine ⟨f, by omega, ?_⟩
  have read : parseGoal f .test n (onLine line e.lexemes ++ ⟨.mark Punct.rparen, line⟩ :: rest)
      = .ok (e, ⟨.mark Punct.rparen, line⟩ :: rest) :=
    h.item (by omega) hn (.of_none rfl)
  have inner : parenthesized (parseGoal f .test n) f
      (onLine line e.lexemes ++ ⟨.mark Punct.rparen, line⟩ :: rest) = .ok (e, rest) := by
    rw [parenthesized, bind_ok (accept_miss ((opening e).ne _ _ rfl))]
    simp only [Bool.false_eq_true, if_false]
    rw [bind_ok read, bind_ok (accept_hit line)]
    rfl
  change primary _ _ _ _ = _
  rw [primary, inParens]
  simp only [onLine_cons, onLine_append, onLine_nil, List.cons_append, List.append_assoc,
    List.nil_append]
  refine bind_ok ?_
  rw [atom, bind_ok peek_apply]
  change (advance >>= fun _ => parenthesized (parseGoal f .test n) f) _ = _
  rw [bind_ok advance_apply]
  exact inner

theorem Trails.reads (h : Trails e) : ReadsAt 13 e := by
  intro f n line rest hf hn hs
  obtain ⟨rounds, -, read⟩ := h f n line rest hf hn (hs.mono (by omega))
  rw [read]
  exact trailers_stop _ hs

/-- It is enough to follow an expression on its own rung. -/
theorem ReadsBack.of_own (hreads : ReadsAt e.rung e)
    (hchains : e.rung ∈ chainRungs → ChainsAt e.rung e) (htrails : e.rung = 13 → Trails e) :
    ReadsBack e := by
  have trails : Trails e := by
    by_cases h : e.rung = 13
    · exact htrails h
    · have := e.rung_le
      exact .parens (hreads.of_le (Nat.zero_le _)) (by omega)
  have reads : ∀ rung ≤ 13, ReadsAt rung e := by
    intro rung hrung
    by_cases hr : rung ≤ e.rung
    · exact hreads.of_le hr
    · intro f n line rest hf hn hs
      have parens : e.lexemesAt rung = e.lexemesAt 13 := by
        rw [lexemesAt_of_lt (by omega), lexemesAt_of_lt (by omega)]
      rw [parens] at hf ⊢
      have read := trails.reads f n line rest hf hn (hs.mono hrung)
      exact readAt_of_le (Nat.le_refl 13) hrung read (opening_atRung (opening e) 13) hs
  refine ⟨reads, fun rung hrung => ?_, trails⟩
  by_cases hr : rung = e.rung
  · subst hr
    exact hchains hrung
  · intro f n line rest hf hn hs
    have same : e.lexemesAt rung = e.lexemesAt (rung + 1) := by
      by_cases hlt : e.rung < rung
      · rw [lexemesAt_of_lt hlt, lexemesAt_of_lt (by omega)]
      · rw [lexemesAt_of_le (by omega), lexemesAt_of_le (by omega)]
    have hlt : rung + 1 ≤ 13 := by
      simp only [chainRungs, List.mem_cons, List.not_mem_nil, or_false] at hrung
      omega
    rw [same] at hf ⊢
    exact ⟨f, 0, by omega, by omega, bind_ok (reads _ hlt f n line rest hf hn hs)⟩

theorem ReadsBack.of_trails (hr : e.rung = 13) (h : Trails e) : ReadsBack e := by
  refine .of_own ?_ ?_ fun _ => h
  · rw [hr]
    exact h.reads
  · rw [hr]
    intro no
    simp [chainRungs] at no

theorem ReadsBack.of_chain (hr : e.rung ∈ chainRungs) (h : ChainsAt e.rung e) : ReadsBack e := by
  refine .of_own ?_ (fun _ => h) ?_
  · intro f n line rest hf hn hs
    obtain ⟨rounds, chain, -, -, read⟩ := h f n line rest hf hn (hs.mono (by omega))
    rw [readAt_chain hr, read]
    exact loopAt_stop hr hs _ _
  · intro h13
    rw [h13] at hr
    simp [chainRungs] at hr

end SortTrace.Script
