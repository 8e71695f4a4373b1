import SortTrace.Proofs.Printing.Render

/-!
# Reading what was printed

How the steps of a parser act on tokens whose lexemes are known, what an expression that was printed
begins with (`Opening`), and what may come after one (`Stops`).
-/

namespace SortTrace.Script

/-! ## Steps of parsers -/

namespace Parse

variable {α β : Type} {p : Parse α} {q : α → Parse β} {ts ts' : List Token} {a : α} {m : Mark}
  {l : Lexeme} {n : Nat}

theorem bind_ok (h : p ts = .ok (a, ts')) : (p >>= q) ts = q a ts' := by
  change (p ts >>= fun r => q r.1 r.2) = _
  rw [h]
  rfl

/-- The parts of a sequence that ends well. -/
theorem ok_of_bind {b : β} (h : (p >>= q) ts = .ok (b, ts')) :
    ∃ a mid, p ts = .ok (a, mid) ∧ q a mid = .ok (b, ts') := by
  change (p ts >>= fun r => q r.1 r.2) = _ at h
  cases hp : p ts with
  | error e =>
    rw [hp] at h
    cases h
  | ok r =>
    rw [hp] at h
    exact ⟨r.1, r.2, rfl, h⟩

theorem map_ok {f : α → β} (h : p ts = .ok (a, ts')) : (f <$> p) ts = .ok (f a, ts') := by
  rw [map_eq_pure_bind, bind_ok h]
  rfl

@[simp] theorem pure_apply : (pure a : Parse α) ts = .ok (a, ts) := rfl

@[simp] theorem peek_apply : peek ts = .ok (lexemeOf ts, ts) := rfl

@[simp] theorem peekSecond_apply : peekSecond ts = .ok (lexemeOf ts.tail, ts) := rfl

@[simp] theorem line_apply : line ts = .ok (lineOf ts, ts) := rfl

@[simp] theorem advance_apply : advance ts = .ok ((), ts.tail) := rfl

@[simp] theorem lexemeOf_cons (t : Token) : lexemeOf (t :: ts) = t.lexeme := rfl

@[simp] theorem lineOf_cons (t : Token) : lineOf (t :: ts) = t.line := rfl

theorem check_eq : check m ts = .ok (lexemeOf ts == .mark m, ts) := rfl

theorem check_hit (h : lexemeOf ts = .mark m) : check m ts = .ok (true, ts) := by
  rw [check_eq, h, beq_self_eq_true]

theorem check_miss (h : lexemeOf ts ≠ .mark m) : check m ts = .ok (false, ts) := by
  rw [check_eq, beq_eq_false_iff_ne.mpr h]

theorem accept_hit (n : Nat) : accept m (⟨.mark m, n⟩ :: ts) = .ok (true, ts) := by
  simp [accept]

theorem accept_miss (h : lexemeOf ts ≠ .mark m) : accept m ts = .ok (false, ts) := by
  simp [accept, h]

theorem expect_hit (n : Nat) : expect m (⟨.mark m, n⟩ :: ts) = .ok ((), ts) := by
  rw [expect, bind_ok (accept_hit n)]
  rfl

theorem expectName_hit (s : String) (n : Nat) :
    expectName (⟨.name s, n⟩ :: ts) = .ok (s, ts) := rfl

end Parse

/-! ## Lines of tokens -/

section OnLine

variable (n : Nat) (l : Lexeme) (ls ms : List Lexeme)

@[simp] theorem onLine_nil : onLine n [] = [] := rfl

@[simp] theorem onLine_cons : onLine n (l :: ls) = ⟨l, n⟩ :: onLine n ls := rfl

@[simp] theorem onLine_append : onLine n (ls ++ ms) = onLine n ls ++ onLine n ms :=
  List.map_append

@[simp] theorem length_onLine : (onLine n ls).length = ls.length :=
  List.length_map _

end OnLine

/-! ## What may come after an expression -/

/-- The rung on which a lexeme that follows an expression would go on with it. -/
def Lexeme.rung? : Lexeme → Option Nat
  | .str _ => some 14
  | .op o => some o.rung
  | .mark (.punct p) => match p with
    | .lparen | .lbracket | .dot => some 13
    | .eq | .ne | .lt | .le | .gt | .ge => some 4
    | _ => none
  | .mark (.keyword k) => match k with
    | .inKw | .notKw | .isKw => some 4
    | .andKw => some 2
    | .orKw => some 1
    | .ifKw => some 0
    | _ => none
  | _ => none

/-- Tokens that do not go on with an expression on the given rung or above it. -/
def Stops (rung : Nat) (ts : List Token) : Prop :=
  ∀ r, (Parse.lexemeOf ts).rung? = some r → r < rung

namespace Stops

variable {rung : Nat} {ts : List Token}

theorem mono {rung' : Nat} (h : Stops rung ts) (hle : rung ≤ rung') : Stops rung' ts :=
  fun r hr => Nat.lt_of_lt_of_le (h r hr) hle

theorem of_none {l : Lexeme} {n : Nat} (h : l.rung? = none) : Stops rung (⟨l, n⟩ :: ts) := by
  intro r hr
  rw [Parse.lexemeOf_cons, h] at hr
  cases hr

theorem of_rung {l : Lexeme} {n r : Nat} (h : l.rung? = some r) (hr : r < rung) :
    Stops rung (⟨l, n⟩ :: ts) := by
  intro r' hr'
  rw [Parse.lexemeOf_cons, h] at hr'
  cases hr'
  exact hr

/-- The next token is none of those that would go on. -/
theorem ne {l : Lexeme} {r : Nat} (h : Stops rung ts) (hl : l.rung? = some r) (hr : rung ≤ r) :
    Parse.lexemeOf ts ≠ l := by
  intro heq
  rw [← heq] at hl
  have := h r hl
  omega

/-- Signs stand before their operands only. -/
theorem of_sign (h : Stops 12 ts) : Stops 11 ts := by
  intro r hr
  have bound := h r hr
  suffices r ≠ 11 by omega
  rintro rfl
  unfold Lexeme.rung? at hr
  split at hr
  · cases hr
  · next o _ => cases o <;> cases hr
  · split at hr <;> cases hr
  · split at hr <;> cases hr
  · cases hr

theorem operator {o : BinOp} (h : Stops rung ts) (heq : Parse.lexemeOf ts = .op o) :
    o.rung < rung :=
  h _ (by rw [heq]; rfl)

end Stops

/-! ## What an expression begins with -/

/-- How an expression that stands on a rung begins. -/
structure Opening (rung : Nat) (ls : List Lexeme) : Prop where
  starts : ∃ l rest, ls = l :: rest ∧ startsExpr l = true ∧
    (4 ≤ rung → l ≠ .mark Keyword.notKw) ∧ (12 ≤ rung → sign? l = none)
  /-- Not like a keyword argument. -/
  second : ∀ s, ls.head? = some (.name s) → ls.tail.head? ≠ some (.mark Punct.assign)

namespace Opening

variable {rung : Nat} {ls : List Lexeme}

theorem mono {rung' : Nat} (h : Opening rung ls) (hle : rung' ≤ rung) : Opening rung' ls := by
  obtain ⟨⟨l, rest, hls, hstart, hnot, hsign⟩, second⟩ := h
  exact ⟨⟨l, rest, hls, hstart, fun hr => hnot (by omega), fun hr => hsign (by omega)⟩, second⟩

theorem append (h : Opening rung ls) {l : Lexeme} (hl : l ≠ .mark Punct.assign)
    (rest : List Lexeme) : Opening rung (ls ++ l :: rest) := by
  obtain ⟨⟨first, more, rfl, hstart, hnot, hsign⟩, second⟩ := h
  refine ⟨⟨first, more ++ l :: rest, rfl, hstart, hnot, hsign⟩, fun s hs => ?_⟩
  cases more with
  | nil => simpa using hl
  | cons next more => exact second s hs

/-- The beginning with a lexeme that is no name. -/
theorem single {l : Lexeme} (rest : List Lexeme) (hstart : startsExpr l = true)
    (hname : ∀ s, l ≠ .name s) (hnot : 4 ≤ rung → l ≠ .mark Keyword.notKw)
    (hsign : 12 ≤ rung → sign? l = none) : Opening rung (l :: rest) :=
  ⟨⟨l, rest, rfl, hstart, hnot, hsign⟩, fun s hs => absurd (Option.some.inj hs) (hname s)⟩

theorem inParens (ls : List Lexeme) : Opening rung (inParens ls) :=
  .single _ rfl (by simp) (fun _ => by decide) fun _ => rfl

theorem startsExpr_lexemeOf (h : Opening rung ls) (line : Nat) (rest : List Token) :
    startsExpr (Parse.lexemeOf (onLine line ls ++ rest)) = true := by
  obtain ⟨⟨l, more, rfl, hstart, -⟩, -⟩ := h
  exact hstart

/-- The first token is none that cannot start an expression. -/
theorem ne (h : Opening rung ls) (line : Nat) (rest : List Token) {l : Lexeme}
    (hl : startsExpr l = false) : Parse.lexemeOf (onLine line ls ++ rest) ≠ l := by
  intro heq
  have hstart := h.startsExpr_lexemeOf line rest
  rw [heq, hl] at hstart
  cases hstart

/-- The first two tokens are not those of a keyword argument. -/
theorem second_ne (h : Opening rung ls) (line : Nat) {rest : List Token}
    (hrest : Parse.lexemeOf rest ≠ .mark Punct.assign) (s : String)
    (hs : Parse.lexemeOf (onLine line ls ++ rest) = .name s) :
    Parse.lexemeOf (onLine line ls ++ rest).tail ≠ .mark Punct.assign := by
  obtain ⟨⟨l, more, rfl, -⟩, second⟩ := h
  cases more with
  | nil => exact hrest
  | cons next more =>
    intro heq
    exact second s (congrArg some hs) (congrArg some heq)

end Opening

theorem opening_atRung {e : Expr} (h : Opening e.rung e.lexemes) (rung : Nat) :
    Opening rung (e.lexemesAt rung) := by
  rw [Expr.lexemesAt, Expr.atRung]
  split
  · exact .inParens _
  · exact h.mono (by omega)

/-- Every expression begins as those on its rung do. -/
theorem opening : ∀ e : Expr, Opening e.rung e.lexemes
  | .literal (.int n) => by
    by_cases hn : n < 0
    · simp only [Expr.rung, Expr.lexemes, Literal.lexemes, hn, if_true]
      exact .single _ rfl (by simp) (fun _ => by decide) fun h => by omega
    · simp only [Expr.rung, Expr.lexemes, Literal.lexemes, hn, if_false]
      exact .single _ rfl (by simp) (fun _ => by simp) fun _ => rfl
  | .literal (.bool true) | .literal (.bool false) | .literal .none =>
    .single _ rfl (by simp) (fun _ => by decide) fun _ => rfl
  | .literal (.float _) | .literal (.str _) =>
    .single _ rfl (by simp) (fun _ => by simp) fun _ => rfl
  | .name s => ⟨⟨_, _, rfl, rfl, fun _ => by simp, fun _ => rfl⟩, fun _ _ => by simp [Expr.lexemes]⟩
  | .list _ => .single _ rfl (by simp) (fun _ => by decide) fun _ => rfl
  | .tuple _ => .inParens _
  | .unary op e => by
    cases op with
    | not =>
      exact .single _ rfl (by simp [UnaryOp.lexeme]) (fun h => by contradiction)
        fun h => by contradiction
    | negate | keep | invert =>
      exact .single _ rfl (by simp [UnaryOp.lexeme]) (fun _ => by decide) fun h => by contradiction
  | .binary op l _ => by
    have front := (opening_atRung (opening l) op.leftRung).mono (show op.rung ≤ op.leftRung by
      cases op <;> decide)
    exact front.append (by simp) _
  | .logic op l _ =>
    (opening_atRung (opening l) op.rung).append (by cases op <;> simp [BoolOp.keyword]) _
  | .compare first rest => by
    have front := (opening_atRung (opening first) 5).mono (show 4 ≤ 5 by omega)
    rw [Expr.lexemes]
    cases rest with
    | nil => rwa [Expr.linkLexemes, List.append_nil]
    | cons link rest =>
      obtain ⟨op, e⟩ := link
      cases op <;> exact front.append (by simp) _
  | .ifElse _ yes _ =>
    ((opening_atRung (opening yes) 1).mono (show 0 ≤ 1 by omega)).append (by simp) _
  | .index object _ => (opening_atRung (opening object) 13).append (by simp) _
  | .slice object .. => (opening_atRung (opening object) 13).append (by simp) _
  | .call f .. => (opening_atRung (opening f) 13).append (by simp) _
  | .method object .. => (opening_atRung (opening object) 13).append (by simp) _

end SortTrace.Script
