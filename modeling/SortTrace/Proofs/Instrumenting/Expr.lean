import SortTrace.Proofs.Instrumenting.Threads

/-!
# Expressions on a line

An expression never goes on past the end of its logical line, so its parser does not see what stands
behind the line: `parseGoal_threads`. There is one lemma for every parser. A loop that is given
`r` rounds is compared where fewer than `r` tokens are left, or no more than `r` if it ends at the
end of the line by itself (`Threads.loop`).
-/

namespace SortTrace.Script

open Parse

variable {w : List Token → List Token} {α : Type} {f f' n : Nat} {item item' : Parse Expr}
  {parts parts' : Parts}

/-! ## Nesting -/

theorem checkNesting_threads {p p' : Parse α} {ts : List Token} (extra : Nat)
    (h : ThreadsOn w f f' p p' ts) :
    ThreadsOn w f f' (checkNesting n extra >>= fun _ => p)
      (checkNesting n extra >>= fun _ => p') ts := by
  rw [checkNesting]
  split
  · exact .fail_bind
  · exact h

theorem nested_threads (h : ∀ goal n, Threads w f f' (parts goal n) (parts' goal n))
    (goal : Goal) (n : Nat) :
    Threads w f f' (nested parts goal n) (nested parts' goal n) :=
  fun ts => checkNesting_threads 1 (h goal (n + 1) ts)

/-! ## Loops -/

theorem Threads.none {p p' : Parse α} : Threads w 0 f' p p' :=
  fun _ hf => absurd hf (Nat.not_lt_zero _)

theorem Threads.none_woven {p p' : Parse α} : Threads w f 0 p p' :=
  fun _ _ hf => absurd hf (Nat.not_lt_zero _)

variable [Weaving w]

/-- A loop that ends by itself at the end of the line. -/
theorem Threads.loop {σ : Type} {p p' : Nat → σ → Parse α} (out : σ → α)
    (hend : ∀ r s ts, (lexemeOf ts).isLayout = true → p r s ts = .ok (out s, ts))
    (hend' : ∀ r s ts, (lexemeOf ts).isLayout = true → p' r s ts = .ok (out s, ts))
    (hstep : ∀ r < f, ∀ r' < f', (∀ s, Threads w (r + 1) (r' + 1) (p r s) (p' r' s)) →
      ∀ s, Threads w (r + 2) (r' + 2) (p (r + 1) s) (p' (r' + 1) s)) :
    ∀ r ≤ f, ∀ r' ≤ f', ∀ s, Threads w (r + 1) (r' + 1) (p r s) (p' r' s) := by
  have atEnd (r r' : Nat) (s : σ) (g g' : Nat) (ts : List Token) (hts : leftOnLine ts < 1) :
      ThreadsOn w g g' (p r s) (p' r' s) ts := by
    intro _ _ a rest h
    have layout := isLayout_of_leftOnLine (Nat.lt_one_iff.mp hts)
    rw [hend r s ts layout] at h
    cases h
    exact ⟨[], rfl, nofun, hend' r' s _ (by rwa [Weaving.lexemeOf_eq])⟩
  intro r
  induction r with
  | zero => exact fun _ r' _ s ts hf => atEnd 0 r' s 1 (r' + 1) ts hf hf
  | succ r ih =>
    intro hr r' hr' s
    cases r' with
    | zero => exact fun ts hf hf' => atEnd (r + 1) 0 s (r + 2) 1 ts hf' hf hf'
    | succ r' => exact hstep r (by omega) r' (by omega) (ih (by omega) r' (by omega)) s

/-! ## Sequences -/

theorem moreItems_threads (h : Threads w f f' item item') :
    ∀ r ≤ f, ∀ r' ≤ f', ∀ items, Threads w r r' (moreItems item r items)
      (moreItems item' r' items)
  | 0, _, _, _, _ => .none
  | _ + 1, _, 0, _, _ => .none_woven
  | r + 1, hr, r' + 1, hr', items => by
    refine .accept rfl (.peek fun ts => ?_) (.pure _)
    split
    · exact (h.mono (by omega) (by omega)).bind (fun e =>
        moreItems_threads h r (by omega) r' (by omega) (e :: items)) ts
    · exact .pure _

theorem testList_threads (h : Threads w f f' item item') :
    Threads w f f' (testList item f) (testList item' f') := by
  refine h.bind fun first => .check fun b => ?_
  cases b with
  | false => exact .pure first
  | true => exact (moreItems_threads h f (Nat.le_refl f) f' (Nat.le_refl f') [first]).map _

theorem itemsUntil_threads (close : Punct) (h : Threads w f f' item item') :
    ∀ r ≤ f, ∀ r' ≤ f', ∀ items, Threads w r r' (itemsUntil close item r items)
      (itemsUntil close item' r' items)
  | 0, _, _, _, _ => .none
  | _ + 1, _, 0, _, _ => .none_woven
  | r + 1, hr, r' + 1, hr', items => by
    refine .check fun b => ?_
    cases b with
    | true => exact .pure _
    | false =>
      refine (h.mono (by omega) (by omega)).bind fun next => .accept rfl ?_ (.pure _)
      exact itemsUntil_threads close h r (by omega) r' (by omega) (next :: items)

theorem parenthesized_threads (h : Threads w f f' item item') :
    Threads w f f' (parenthesized item f) (parenthesized item' f') := by
  refine .acceptAny rfl fun b => ?_
  cases b with
  | true => exact .pure _
  | false =>
    refine h.bind fun first => .acceptAny rfl fun b => ?_
    cases b with
    | true => exact .pure first
    | false =>
      refine .acceptAny rfl fun b => ?_
      cases b with
      | true =>
        have others := itemsUntil_threads .rparen h f (Nat.le_refl f) f' (Nat.le_refl f') [first]
        exact others.bind fun items => .expect rfl (.pure _)
      | false => exact .bind (.pure [first]) fun items => .expect rfl (.pure _)

theorem moreStrings_threads : ∀ (r r' : Nat) (text : String),
    Threads w r r' (moreStrings r text) (moreStrings r' text)
  | 0, _, _ => .none
  | _ + 1, 0, _ => .none_woven
  | r + 1, r' + 1, text => by
    refine .peek fun ts => ?_
    generalize hl : lexemeOf ts = l
    cases l with
    | str s => exact .taking (by rw [hl]; rfl) (moreStrings_threads r r' (text ++ s))
    | _ => exact .pure text

/-! ## Primaries -/

theorem atom_takes
    (h : ∀ goal n, Threads w f f' (parts goal n) (parts' goal n)) (n : Nat)
    (ts : List Token) :
    TakesOn w (f + 1) (f' + 1) (atom parts f n) (atom parts' f' n) ts := by
  refine .peek ?_
  generalize hl : lexemeOf ts = l
  have word (hword : l.isLayout = false) : (lexemeOf ts).isLayout = false := by rwa [hl]
  cases l with
  | name | int | float => exact .taking (word rfl) (.pure _)
  | str s => exact .taking (word rfl) ((moreStrings_threads f f' _).map _)
  | op | augment => exact .unexpected
  | mark m =>
    cases m with
    | keyword k =>
      cases k
      case trueKw | falseKw | noneKw => exact .taking (word rfl) (.pure _)
      all_goals exact .unexpected
    | punct p =>
      cases p
      case lparen => exact .taking (word rfl) (parenthesized_threads (h .test n))
      case lbracket =>
        refine .taking (word rfl) ?_
        have items := itemsUntil_threads .rbracket (h .test n) f (Nat.le_refl f) f' (Nat.le_refl f')
          []
        exact items.bind fun items => .expect rfl (.pure _)
      case lbrace => exact .taking (word rfl) (.fail _)
      all_goals exact .unexpected
    | layout => exact .unexpected

/-- The token after the next one is the same, unless the next one belongs to the layout. -/
theorem peekSecond_threads {β : Type} {q q' : Lexeme → Parse β} {ts : List Token}
    (h : ∀ l, ((lexemeOf ts).isLayout = false → l = lexemeOf ts.tail) →
      ThreadsOn w f f' (q (lexemeOf ts.tail)) (q' l) ts) :
    ThreadsOn w f f' (peekSecond >>= q) (peekSecond >>= q') ts := by
  intro hf hf' b rest hb
  rw [bind_ok peekSecond_apply] at hb ⊢
  refine h _ (fun hl => ?_) hf hf' b rest hb
  cases ts with
  | nil => cases hl
  | cons t ts =>
    rw [Weaving.cons_word (w := w) ts hl, List.tail_cons, List.tail_cons, Weaving.lexemeOf_eq]

theorem arguments_threads (h : Threads w f f' item item') :
    ∀ r ≤ f, ∀ r' ≤ f', ∀ args keywords, Threads w r r'
      (arguments item r args keywords) (arguments item' r' args keywords)
  | 0, _, _, _, _, _ => .none
  | _ + 1, _, 0, _, _, _ => .none_woven
  | r + 1, hr, r' + 1, hr', args, keywords => by
    have value : Threads w (r + 1) (r' + 1) item item' := h.mono (by omega) (by omega)
    have again (a : List Expr × List (String × Expr)) : Threads w (r + 1) (r' + 1)
        (do
          if ← accept Punct.comma then arguments item r a.1 a.2
          else pure (Arguments.mk a.1.reverse a.2.reverse))
        (do
          if ← accept Punct.comma then arguments item' r' a.1 a.2
          else pure (Arguments.mk a.1.reverse a.2.reverse)) :=
      .accept rfl (arguments_threads h r (by omega) r' (by omega) a.1 a.2) (.pure _)
    refine .check fun b => ?_
    cases b with
    | true => exact .pure _
    | false =>
      refine .peek fun ts => peekSecond_threads fun next hnext => ?_
      generalize hl : lexemeOf ts = first at hnext
      generalize hl' : lexemeOf ts.tail = second at hnext
      cases first with
      | name key =>
        have word : (lexemeOf ts).isLayout = false := by rw [hl]; rfl
        obtain rfl := hnext rfl
        split
        · refine .takingOn word (.takingOn (by rw [hl']; rfl) ?_)
          split
          · exact .fail_bind
          · have later (key : String) : Threads w (r - 1) (r' - 1) _ _ :=
              (value.bind fun e => .bind (.pure (args, (key, e) :: keywords)) again).mono
                (by omega) (by omega)
            exact later _ ts.tail.tail
        · split
          · exact value.bind (fun e => .bind (.pure _) again) ts
          · exact .fail_bind
      | _ =>
        dsimp only
        split
        · exact value.bind (fun e => .bind (.pure _) again) ts
        · exact .fail_bind

theorem callArguments_threads (h : Threads w f f' item item') :
    Threads w f f' (callArguments item f) (callArguments item' f') := by
  have read := arguments_threads h f (Nat.le_refl f) f' (Nat.le_refl f') [] []
  exact read.bind fun args => .expect rfl (.pure args)

theorem bound?_threads (absent : List Punct) (h : Threads w f f' item item') :
    Threads w f f' (bound? item absent) (bound? item' absent) := by
  refine .peek fun ts => ?_
  split
  · exact .pure _
  · exact h.map _ ts

theorem subscript_threads (object : Expr) (h : Threads w f f' item item') :
    Threads w f f' (subscript item f object) (subscript item' f' object) := by
  have slice (lower : Option Expr) : Threads w f f'
      (do
        expect Punct.colon
        let upper ← bound? item [.colon, .rbracket]
        let step ← if ← accept Punct.colon then bound? item [.rbracket] else pure none
        expect Punct.rbracket
        pure (Expr.slice object lower upper step))
      (do
        expect Punct.colon
        let upper ← bound? item' [.colon, .rbracket]
        let step ← if ← accept Punct.colon then bound? item' [.rbracket] else pure none
        expect Punct.rbracket
        pure (Expr.slice object lower upper step)) := by
    refine .expect rfl ((bound?_threads _ h).bind fun upper => .acceptAny rfl fun b => ?_)
    cases b with
    | true => exact (bound?_threads _ h).bind fun step => .expect rfl (.pure _)
    | false => exact .bind (.pure none) fun step => .expect rfl (.pure _)
  refine .check fun b => ?_
  cases b
  case' true => refine Threads.bind (.pure none) fun lower => ?_
  case' false => refine ((testList_threads h).map some).bind fun lower => ?_
  all_goals
    cases lower with
    | none => exact slice none
    | some i =>
      refine .acceptAny rfl fun b => ?_
      cases b with
      | true => exact .pure _
      | false => exact slice (some i)

theorem trailers_threads (h : Threads w f f' item item') :
    ∀ r ≤ f, ∀ r' ≤ f', ∀ e, Threads w r r' (trailers item r e) (trailers item' r' e)
  | 0, _, _, _, _ => .none
  | _ + 1, _, 0, _, _ => .none_woven
  | r + 1, hr, r' + 1, hr', e => by
    have value : Threads w r r' item item' := h.mono (by omega) (by omega)
    have again (e : Expr) : Threads w r r' (trailers item r e) (trailers item' r' e) :=
      trailers_threads h r (by omega) r' (by omega) e
    refine .peek fun ts => ?_
    generalize hl : lexemeOf ts = l
    have word (hword : l.isLayout = false) : (lexemeOf ts).isLayout = false := by rwa [hl]
    split
    · exact .taking (word rfl) ((callArguments_threads value).bind fun args => again _)
    · exact .taking (word rfl) ((subscript_threads e value).bind again)
    · refine .taking (word rfl) (.expectName fun key => .acceptAny rfl fun b => ?_)
      cases b with
      | true => exact (callArguments_threads value).bind fun args => again _
      | false => exact .fail _
    · exact .pure e

theorem primary_threads (h : ∀ goal n, Threads w f f' (parts goal n) (parts' goal n))
    (n : Nat) : Threads w (f + 1) (f' + 1) (primary parts f n) (primary parts' f' n) :=
  .bindTaken (atom_takes h n) fun e =>
    trailers_threads (h .test n) f (Nat.le_refl f) f' (Nat.le_refl f') e

/-! ## Operators -/

theorem operands_atLineEnd {ts : List Token} (ops : List BinOp) (operand : Parse Expr)
    (n r : Nat) (s : Nat × Expr) (h : (lexemeOf ts).isLayout = true) :
    operands ops operand n r s.1 s.2 ts = .ok (s.2, ts) := by
  obtain ⟨l, hl⟩ := Lexeme.eq_of_isLayout h
  cases r with
  | zero => rfl
  | succ r =>
    rw [operands, bind_ok peek_apply, hl]
    rfl

theorem operands_threads (ops : List BinOp) (n : Nat) {operand operand' : Parse Expr}
    (h : Threads w (f + 1) (f' + 1) operand operand') :
    ∀ r ≤ f, ∀ r' ≤ f', ∀ s : Nat × Expr, Threads w (r + 1) (r' + 1)
      (operands ops operand n r s.1 s.2) (operands ops operand' n r' s.1 s.2) := by
  refine Threads.loop (fun s : Nat × Expr => s.2)
    (fun r s ts => operands_atLineEnd ops operand n r s)
    (fun r s ts => operands_atLineEnd ops operand' n r s) ?_
  intro r hr r' hr' ih s
  refine .peek fun ts => ?_
  generalize hl : lexemeOf ts = l
  cases l with
  | op o =>
    have later : Threads w (r + 1) (r' + 1)
        (do
          let right ← operand
          operands ops operand n r (s.1 + 1) (.binary o s.2 right))
        (do
          let right ← operand'
          operands ops operand' n r' (s.1 + 1) (.binary o s.2 right)) :=
      (h.mono (by omega) (by omega)).bind fun right => ih (s.1 + 1, .binary o s.2 right)
    dsimp only
    split
    · exact checkNesting_threads (s.1 + 1) (.taking (by rw [hl]; rfl) later)
    · exact .pure s.2
  | _ => exact .pure s.2

/-- The sign of a comparison takes one token or two. -/
theorem compareOp?_threads {β : Type} {q q' : Option CompareOp → Parse β}
    (hsome : ∀ op, Threads w (f - 1) (f' - 1) (q (some op)) (q' (some op)))
    (hnone : Threads w f f' (q none) (q' none)) :
    Threads w f f' (compareOp? >>= q) (compareOp? >>= q') := by
  rw [compareOp?, bind_assoc, bind_assoc]
  refine .peek fun ts => ?_
  generalize hl : lexemeOf ts = l
  have word (hword : l.isLayout = false) : (lexemeOf ts).isLayout = false := by rwa [hl]
  have one (op : CompareOp) (hword : l.isLayout = false) : ThreadsOn w f f'
      ((do advance; pure (some op)) >>= q) ((do advance; pure (some op)) >>= q') ts := by
    rw [bind_assoc, bind_assoc]
    exact .taking (word hword) (hsome op)
  have two (op : CompareOp) (hword : l.isLayout = false)
      (hnext : (lexemeOf ts.tail).isLayout = false) : ThreadsOn w f f'
      ((do advance; advance; pure (some op)) >>= q)
      ((do advance; advance; pure (some op)) >>= q') ts := by
    simp only [bind_assoc, pure_bind]
    refine .takingOn (word hword) (.taking hnext ?_)
    exact (hsome op).mono (Nat.sub_le (f - 1) 1) (Nat.sub_le (f' - 1) 1)
  split
  case h_8 =>
    rw [bind_assoc, bind_assoc]
    refine peekSecond_threads fun next hnext => ?_
    rw [hnext (word rfl)]
    split
    · next heq => exact two .notMember rfl (by rw [eq_of_beq heq]; rfl)
    · exact hnone ts
  case h_9 =>
    rw [bind_assoc, bind_assoc]
    refine peekSecond_threads fun next hnext => ?_
    rw [hnext (word rfl)]
    split
    · next heq => exact two .notSame rfl (by rw [eq_of_beq heq]; rfl)
    · exact one .same rfl
  case h_10 => exact hnone ts
  all_goals exact one _ rfl

theorem links_atLineEnd {ts : List Token} (operand : Parse Expr) (r : Nat)
    (done : List (CompareOp × Expr)) (h : (lexemeOf ts).isLayout = true) :
    links operand r done ts = .ok (done.reverse, ts) := by
  obtain ⟨l, hl⟩ := Lexeme.eq_of_isLayout h
  have none : compareOp? ts = .ok (none, ts) := by
    rw [compareOp?, bind_ok peek_apply, hl]
    rfl
  cases r with
  | zero => rfl
  | succ r =>
    rw [links, bind_ok none]
    rfl

theorem links_threads {operand operand' : Parse Expr}
    (h : Threads w (f + 1) (f' + 1) operand operand') :
    ∀ r ≤ f, ∀ r' ≤ f', ∀ done, Threads w (r + 1) (r' + 1)
      (links operand r done) (links operand' r' done) := by
  refine Threads.loop List.reverse (fun r done ts => links_atLineEnd operand r done)
    (fun r done ts => links_atLineEnd operand' r done) ?_
  intro r hr r' hr' ih done
  refine compareOp?_threads (fun op => ?_) (.pure _)
  exact (h.mono (by omega) (by omega)).bind fun e => ih ((op, e) :: done)

theorem connected_atLineEnd {ts : List Token} (word : Keyword) (op : BoolOp)
    (operand : Parse Expr) (n r : Nat) (s : Nat × Expr) (h : (lexemeOf ts).isLayout = true) :
    connected word op operand n r s.1 s.2 ts = .ok (s.2, ts) := by
  obtain ⟨l, hl⟩ := Lexeme.eq_of_isLayout h
  cases r with
  | zero => rfl
  | succ r =>
    rw [connected, bind_ok (accept_miss (by simp [hl]))]
    rfl

theorem connected_threads {word : Keyword} (op : BoolOp)
    (n : Nat) {operand operand' : Parse Expr}
    (h : Threads w (f + 1) (f' + 1) operand operand') :
    ∀ r ≤ f, ∀ r' ≤ f', ∀ s : Nat × Expr, Threads w (r + 1) (r' + 1)
      (connected word op operand n r s.1 s.2) (connected word op operand' n r' s.1 s.2) := by
  refine Threads.loop (fun s : Nat × Expr => s.2)
    (fun r s ts => connected_atLineEnd word op operand n r s)
    (fun r s ts => connected_atLineEnd word op operand' n r s) ?_
  intro r hr r' hr' ih s
  refine .accept rfl ?_ (.pure s.2)
  refine fun ts => checkNesting_threads (s.1 + 1) ?_
  exact (h.mono (by omega) (by omega)).bind (fun right => ih (s.1 + 1, .logic op s.2 right)) ts

section Operators

variable (h : ∀ goal n, Threads w f f' (parts goal n) (parts' goal n)) (n : Nat)

include h

theorem power_threads :
    Threads w (f + 1) (f' + 1) (power parts f n) (power parts' f' n) := by
  refine (primary_threads h n).bind fun base => .peek fun ts => ?_
  generalize hl : lexemeOf ts = l
  split
  · exact .taking (by rw [hl]; rfl) ((nested_threads h .factor n).map _)
  · exact .pure base

theorem factor_threads :
    Threads w (f + 1) (f' + 1) (factor parts f n) (factor parts' f' n) := by
  refine .peek fun ts => ?_
  split
  · next op hop =>
    have word : (lexemeOf ts).isLayout = false := by
      unfold sign? at hop
      split at hop
      case h_4 => cases hop
      all_goals simp_all [Lexeme.isLayout]
    exact .taking word ((nested_threads h .factor n).map _)
  · exact power_threads h n ts

theorem binary_threads (levels : List (List BinOp)) :
    Threads w (f + 1) (f' + 1) (binary parts f n levels) (binary parts' f' n levels) := by
  induction levels with
  | nil => exact factor_threads h n
  | cons ops tighter ih =>
    exact ih.bind fun left =>
      operands_threads ops n ih f (Nat.le_refl f) f' (Nat.le_refl f') (0, left)

theorem comparison_threads :
    Threads w (f + 1) (f' + 1) (comparison parts f n) (comparison parts' f' n) := by
  have operand := binary_threads h n operatorLevels
  refine operand.bind fun first => ?_
  exact (links_threads operand f (Nat.le_refl f) f' (Nat.le_refl f') []).bind fun rest => .pure _

theorem inversion_threads :
    Threads w (f + 1) (f' + 1) (inversion parts f n) (inversion parts' f' n) :=
  .accept rfl ((nested_threads h .inversion n).map _) (comparison_threads h n)

theorem conjunction_threads :
    Threads w (f + 1) (f' + 1) (conjunction parts f n) (conjunction parts' f' n) := by
  have operand := inversion_threads h n
  refine operand.bind fun first => ?_
  exact connected_threads .and n operand f (Nat.le_refl f) f' (Nat.le_refl f') (0, first)

theorem disjunction_threads :
    Threads w (f + 1) (f' + 1) (disjunction parts f n) (disjunction parts' f' n) := by
  have operand := conjunction_threads h n
  refine operand.bind fun first => ?_
  exact connected_threads .or n operand f (Nat.le_refl f) f' (Nat.le_refl f') (0, first)

theorem conditional_threads :
    Threads w (f + 1) (f' + 1) (conditional parts f n) (conditional parts' f' n) := by
  refine (disjunction_threads h n).bind fun value => .accept rfl ?_ (.pure value)
  have condition := (disjunction_threads h n).mono (Nat.le_succ f) (Nat.le_succ f')
  refine condition.bind fun condition => .expect rfl ?_
  exact (nested_threads h .test n).bind fun alternative => .pure _

end Operators

/-! ## The knot -/

/-- The parsers of expressions do not see the calls. -/
theorem parseGoal_threads : ∀ (f f' : Nat) (goal : Goal) (n : Nat),
    Threads w f f' (parseGoal f goal n) (parseGoal f' goal n)
  | 0, _, _, _ => .none
  | _ + 1, 0, _, _ => .none_woven
  | f + 1, f' + 1, goal, n => by
    have parts := parseGoal_threads f f'
    cases goal with
    | test => exact conditional_threads parts n
    | inversion => exact inversion_threads parts n
    | factor => exact factor_threads parts n

theorem parseTest_threads (f f' : Nat) :
    Threads w f f' (parseTest f) (parseTest f') :=
  parseGoal_threads f f' .test 0

theorem parseTestList_threads (f f' : Nat) :
    Threads w f f' (parseTestList f) (parseTestList f') :=
  testList_threads (parseTest_threads f f')

theorem parseOperand_threads (f f' : Nat) :
    Threads w f f' (parseOperand f) (parseOperand f') :=
  (binary_threads (parseGoal_threads f f') 0 operatorLevels).mono (Nat.le_succ f) (Nat.le_succ f')

end SortTrace.Script
