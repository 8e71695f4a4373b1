import SortTrace.Proofs.Printing.Reading

/-!
# Down the ladder

The parser of every rung begins with the parser of the next tighter one and then looks at what
follows. So what a tighter rung reads is what a looser one reads, if what comes after does not go
on there (`readAt_of_le`). On the rungs of `chainRungs` a loop takes the operators of the rung one
after the other (`loopAt`), and the loop of rung 13 takes what follows an expression directly.
-/

namespace SortTrace.Script

open Parse

/-- The parser of a rung. -/
def parseAt (parts : Parts) (fuel nesting : Nat) : Nat → Parse Expr
  | 0 => conditional parts fuel nesting
  | 1 => disjunction parts fuel nesting
  | 2 => conjunction parts fuel nesting
  | 3 => inversion parts fuel nesting
  | 4 => comparison parts fuel nesting
  | 12 => power parts fuel nesting
  | 13 => primary parts fuel nesting
  | rung => binary parts fuel nesting (operatorLevels.drop (rung - 5))

/-- The parser of a rung with its knot tied. -/
def readAt (fuel nesting rung : Nat) : Parse Expr :=
  parseAt (parseGoal fuel) fuel nesting rung

/-- The rungs whose operators form chains that lean to the left. -/
def chainRungs : List Nat :=
  [1, 2, 5, 6, 7, 8, 9, 10]

/-- The loop over the operators of a rung, after the given number of operators and the expression
made of them. -/
def loopAt (fuel nesting rung : Nat) : (rounds chain : Nat) → Expr → Parse Expr :=
  match rung with
  | 1 => connected .orKw .or (readAt fuel nesting 2) nesting
  | 2 => connected .andKw .and (readAt fuel nesting 3) nesting
  | rung => operands (operatorLevels.getD (rung - 5) []) (readAt fuel nesting (rung + 1)) nesting

variable {f n rung : Nat} {ts rest : List Token} {e : Expr}

theorem readAt_chain (hr : rung ∈ chainRungs) :
    readAt f n rung = readAt f n (rung + 1) >>= loopAt f n rung f 0 := by
  simp only [chainRungs, List.mem_cons, List.not_mem_nil, or_false] at hr
  rcases hr with rfl | rfl | rfl | rfl | rfl | rfl | rfl | rfl <;> rfl

/-! ## Loops over operators -/

theorem checkNesting_ok {extra : Nat} (h : n + extra ≤ maxNesting) :
    checkNesting n extra ts = .ok ((), ts) := by
  rw [checkNesting, if_neg (by omega)]
  rfl

theorem contains_operators {o : BinOp} (hr : rung ∈ [5, 6, 7, 8, 9, 10]) :
    (operatorLevels.getD (rung - 5) []).contains o = (o.rung == rung) := by
  simp only [List.mem_cons, List.not_mem_nil, or_false] at hr
  rcases hr with rfl | rfl | rfl | rfl | rfl | rfl <;> cases o <;> decide

theorem operands_stop {ops : List BinOp} {operand : Parse Expr} {chain : Nat}
    (h : ∀ o, lexemeOf rest = .op o → ops.contains o = false) (rounds : Nat) :
    operands ops operand n rounds chain e rest = .ok (e, rest) := by
  cases rounds with
  | zero => rfl
  | succ rounds =>
    rw [operands, bind_ok peek_apply]
    generalize lexemeOf rest = l at h
    split
    · next o =>
      rw [h o rfl]
      rfl
    · rfl

theorem connected_stop {word : Keyword} {op : BoolOp} {operand : Parse Expr} {chain : Nat}
    (h : lexemeOf rest ≠ .mark word) (rounds : Nat) :
    connected word op operand n rounds chain e rest = .ok (e, rest) := by
  cases rounds with
  | zero => rfl
  | succ rounds =>
    rw [connected, bind_ok (accept_miss h)]
    rfl

/-- The loop ends where no operator of its rung follows. -/
theorem loopAt_stop (hr : rung ∈ chainRungs) (hs : Stops rung rest) (rounds chain : Nat) :
    loopAt f n rung rounds chain e rest = .ok (e, rest) := by
  have binaryStop (hb : rung ∈ [5, 6, 7, 8, 9, 10]) (operand : Parse Expr) :
      operands (operatorLevels.getD (rung - 5) []) operand n rounds chain e rest
        = .ok (e, rest) := by
    refine operands_stop (fun o ho => ?_) rounds
    rw [contains_operators hb, beq_eq_false_iff_ne]
    have := hs.operator ho
    omega
  simp only [chainRungs, List.mem_cons, List.not_mem_nil, or_false] at hr
  rcases hr with rfl | rfl | rfl | rfl | rfl | rfl | rfl | rfl
  · exact connected_stop (hs.ne rfl (by omega)) rounds
  · exact connected_stop (hs.ne rfl (by omega)) rounds
  all_goals exact binaryStop (by simp) _

/-- One round of the loop over binary operators. -/
theorem loopAt_binary {o : BinOp} {left right : Expr} {line rounds chain : Nat}
    {ts' : List Token} (hr : o.rung ∈ chainRungs) (hn : n + (chain + 1) ≤ maxNesting)
    (h : readAt f n (o.rung + 1) ts = .ok (right, ts')) :
    loopAt f n o.rung (rounds + 1) chain left (⟨.op o, line⟩ :: ts)
      = loopAt f n o.rung rounds (chain + 1) (.binary o left right) ts' := by
  have binaryStep {ops : List BinOp} (ho : ops.contains o = true) :
      operands ops (readAt f n (o.rung + 1)) n (rounds + 1) chain left (⟨.op o, line⟩ :: ts)
        = operands ops (readAt f n (o.rung + 1)) n rounds (chain + 1) (.binary o left right)
          ts' := by
    rw [operands, bind_ok peek_apply]
    simp only [lexemeOf_cons, ho, if_true]
    rw [bind_ok (checkNesting_ok hn), bind_ok advance_apply, List.tail_cons, bind_ok h]
  cases o with
  | pow => simp [chainRungs, BinOp.rung] at hr
  | _ => exact binaryStep (by decide)

/-- One round of the loop over connectives. -/
theorem loopAt_logic {op : BoolOp} {left right : Expr} {line rounds chain : Nat}
    {ts' : List Token} (hn : n + (chain + 1) ≤ maxNesting)
    (h : readAt f n (op.rung + 1) ts = .ok (right, ts')) :
    loopAt f n op.rung (rounds + 1) chain left (⟨.mark op.keyword, line⟩ :: ts)
      = loopAt f n op.rung rounds (chain + 1) (.logic op left right) ts' := by
  have logicStep {operand : Parse Expr} (ho : operand ts = .ok (right, ts')) :
      connected op.keyword op operand n (rounds + 1) chain left (⟨.mark op.keyword, line⟩ :: ts)
        = connected op.keyword op operand n rounds (chain + 1) (.logic op left right) ts' := by
    rw [connected, bind_ok (accept_hit line)]
    simp only [if_true]
    rw [bind_ok (checkNesting_ok hn), bind_ok ho]
  cases op <;> exact logicStep h

/-! ## From a rung to a looser one -/

theorem compareOp?_stop (hs : Stops 4 rest) : compareOp? rest = .ok (none, rest) := by
  rw [compareOp?, bind_ok peek_apply]
  generalize hl : lexemeOf rest = l
  split
  case h_10 => rfl
  all_goals exact absurd hl (hs.ne rfl (by omega))

theorem readAt_down (hr : rung < 13) {ls : List Lexeme} {line : Nat}
    (h : readAt f n (rung + 1) (onLine line ls ++ rest) = .ok (e, rest))
    (ho : Opening (rung + 1) ls) (hs : Stops rung rest) :
    readAt f n rung (onLine line ls ++ rest) = .ok (e, rest) := by
  by_cases hc : rung ∈ chainRungs
  · rw [readAt_chain hc, bind_ok h]
    exact loopAt_stop hc hs _ _
  obtain ⟨⟨l, more, rfl, -, hnot, hsign⟩, -⟩ := ho
  match rung, hr with
  | 0, _ =>
    change disjunction _ _ _ _ = _ at h
    change conditional _ _ _ _ = _
    rw [conditional, bind_ok h, bind_ok (accept_miss (hs.ne rfl (by omega)))]
    rfl
  | 3, _ =>
    change inversion _ _ _ _ = _
    have noWord : lexemeOf (onLine line (l :: more) ++ rest) ≠ .mark Keyword.notKw :=
      hnot (by omega)
    rw [inversion, bind_ok (accept_miss noWord)]
    exact h
  | 4, _ =>
    change binary _ _ _ operatorLevels _ = _ at h
    change comparison _ _ _ _ = _
    rw [comparison]
    have read : links (binary (parseGoal f) f n operatorLevels) f [] rest = .ok ([], rest) := by
      cases f with
      | zero => rfl
      | succ f =>
        rw [links, bind_ok (compareOp?_stop hs)]
        rfl
    rw [bind_ok h, bind_ok read]
    rfl
  | 11, _ =>
    change factor _ _ _ _ = _
    rw [factor, bind_ok peek_apply]
    have noSign : sign? (lexemeOf (onLine line (l :: more) ++ rest)) = none := hsign (by omega)
    rw [noSign]
    exact h
  | 12, _ =>
    change primary _ _ _ _ = _ at h
    change power _ _ _ _ = _
    rw [power, bind_ok h, bind_ok peek_apply]
    generalize hl : lexemeOf rest = next
    split
    · exact absurd hl (hs.ne rfl (by decide))
    · rfl
  | 1, _ | 2, _ | 5, _ | 6, _ | 7, _ | 8, _ | 9, _ | 10, _ => simp [chainRungs] at hc

/-- What a rung reads, every looser one reads. -/
theorem readAt_of_le {tight : Nat} (ht : tight ≤ 13) (hr : rung ≤ tight) {ls : List Lexeme}
    {line : Nat} (h : readAt f n tight (onLine line ls ++ rest) = .ok (e, rest))
    (ho : Opening tight ls) (hs : Stops rung rest) :
    readAt f n rung (onLine line ls ++ rest) = .ok (e, rest) := by
  obtain ⟨d, rfl⟩ := Nat.exists_eq_add_of_le hr
  induction d generalizing rung with
  | zero => exact h
  | succ d ih =>
    have tighter : rung + (d + 1) = rung + 1 + d := by omega
    rw [tighter] at h ho
    have read := ih (hs.mono (by omega)) (by omega) (by omega) h ho
    exact readAt_down (by omega) read (ho.mono (by omega)) hs

end SortTrace.Script
