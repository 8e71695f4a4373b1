import SortTrace.Proofs.Printing.ReadBack

/-!
# Reading what stands in brackets

Items, arguments and subscripts are read back when the expressions in them are. The parser of an
item is left open here, and all that is known of it is that it makes certain expressions (`Makes`).
-/

namespace SortTrace.Script

open Parse

/-- The parser makes the expression of its lexemes. -/
def Makes (p : Parse Expr) (line : Nat) (e : Expr) : Prop :=
  ∀ rest, Stops 0 rest → p (onLine line e.lexemes ++ rest) = .ok (e, rest)

variable {item : Parse Expr} {line rounds : Nat} {rest : List Token}

theorem testList_makes {e : Expr} (h : Makes item line e) (hs : Stops 0 rest)
    (hcomma : lexemeOf rest ≠ .mark Punct.comma) (rounds : Nat) :
    testList item rounds (onLine line e.lexemes ++ rest) = .ok (e, rest) := by
  rw [testList, bind_ok (h rest hs), bind_ok (check_miss hcomma)]
  rfl

/-! ## Items -/

theorem separated_cons_cons (g h : List Lexeme) (gs : List (List Lexeme)) :
    separated (g :: h :: gs) = g ++ .mark Punct.comma :: separated (h :: gs) := rfl

/-- Items up to a closing bracket. -/
theorem itemsUntil_makes (close : Punct) (hclose : startsExpr (.mark close) = false)
    (hnone : (Lexeme.mark close).rung? = none) (hcomma : close ≠ .comma) :
    ∀ (es done : List Expr) (rounds : Nat), es.length ≤ rounds → (∀ e ∈ es, Makes item line e) →
      itemsUntil close item rounds done
          (onLine line (separated (Expr.groups es)) ++ ⟨.mark close, line⟩ :: rest)
        = .ok (done.reverse ++ es, ⟨.mark close, line⟩ :: rest)
  | [], done, 0, _, _ => by
    rw [List.append_nil]
    rfl
  | [], done, rounds + 1, _, _ => by
    rw [List.append_nil, itemsUntil]
    refine (bind_ok (check_hit rfl)).trans ?_
    rfl
  | [e], done, rounds + 1, _, h => by
    have made := h e (List.mem_singleton_self e) (⟨.mark close, line⟩ :: rest) (.of_none hnone)
    have noComma : lexemeOf (⟨.mark close, line⟩ :: rest) ≠ .mark Punct.comma := by
      simpa using hcomma
    rw [itemsUntil, Expr.groups, Expr.groups, separated,
      bind_ok (check_miss ((opening e).ne line _ hclose))]
    simp only [Bool.false_eq_true, if_false]
    rw [bind_ok made, bind_ok (accept_miss noComma)]
    simp
  | e :: e' :: es, done, rounds + 1, hr, h => by
    have others := itemsUntil_makes close hclose hnone hcomma (e' :: es) (e :: done) rounds
      (by simpa using hr) fun x hx => h x (List.mem_cons_of_mem _ hx)
    have made := h e (List.mem_cons_self ..)
      (⟨.mark Punct.comma, line⟩ :: (onLine line (separated (Expr.groups (e' :: es)))
        ++ ⟨.mark close, line⟩ :: rest)) (.of_none rfl)
    rw [itemsUntil, Expr.groups, Expr.groups, separated_cons_cons, ← Expr.groups, onLine_append,
      onLine_cons, List.append_assoc, List.cons_append,
      bind_ok (check_miss ((opening e).ne line _ hclose))]
    simp only [Bool.false_eq_true, if_false]
    rw [bind_ok made, bind_ok (accept_hit line)]
    simp only [if_true]
    rw [others]
    simp

/-- A tuple, after its opening parenthesis. -/
theorem parenthesized_makes (es : List Expr) (hr : es.length ≤ rounds)
    (h : ∀ e ∈ es, Makes item line e) :
    parenthesized item rounds
        (onLine line (tupleItems (Expr.groups es)) ++ ⟨.mark Punct.rparen, line⟩ :: rest)
      = .ok (.tuple es, rest) := by
  match es with
  | [] =>
    refine (bind_ok (accept_hit line)).trans ?_
    rfl
  | e :: es =>
    have others : itemsUntil .rparen item rounds [e]
        (onLine line (separated (Expr.groups es)) ++ ⟨.mark Punct.rparen, line⟩ :: rest)
        = .ok (e :: es, ⟨.mark Punct.rparen, line⟩ :: rest) :=
      itemsUntil_makes .rparen rfl rfl (by decide) es [e] rounds (by simp at hr; omega)
        fun x hx => h x (List.mem_cons_of_mem _ hx)
    have made := h e (List.mem_cons_self ..)
      (⟨.mark Punct.comma, line⟩ :: (onLine line (separated (Expr.groups es))
        ++ ⟨.mark Punct.rparen, line⟩ :: rest)) (.of_none rfl)
    have tokens : onLine line (tupleItems (Expr.groups (e :: es)))
          ++ ⟨.mark Punct.rparen, line⟩ :: rest
        = onLine line e.lexemes ++ ⟨.mark Punct.comma, line⟩
          :: (onLine line (separated (Expr.groups es)) ++ ⟨.mark Punct.rparen, line⟩ :: rest) := by
      cases es <;> simp [Expr.groups, tupleItems, separated]
    rw [tokens, parenthesized, bind_ok (accept_miss ((opening e).ne line _ rfl))]
    simp only [Bool.false_eq_true, if_false]
    rw [bind_ok made, bind_ok (accept_miss (by simp))]
    simp only [Bool.false_eq_true, if_false]
    rw [bind_ok (accept_hit line)]
    simp only [if_true]
    rw [bind_ok others, bind_ok (expect_hit line)]
    rfl

/-! ## Arguments -/

/-- The lexemes between an argument and the closing parenthesis. -/
def commaThen : List (List Lexeme) → List Lexeme
  | [] => []
  | g :: gs => .mark Punct.comma :: separated (g :: gs)

theorem separated_cons (g : List Lexeme) (gs : List (List Lexeme)) :
    separated (g :: gs) = g ++ commaThen gs := by
  cases gs with
  | nil => exact (List.append_nil g).symm
  | cons h gs => rfl

section Arguments

variable {gs : List (List Lexeme)}

/-- What follows an argument is a comma or the closing parenthesis. -/
theorem commaThen_cases {p : Lexeme → Prop} (line : Nat) (rest : List Token)
    (gs : List (List Lexeme)) (hcomma : p (.mark Punct.comma)) (hclose : p (.mark Punct.rparen)) :
    p (lexemeOf (onLine line (commaThen gs) ++ ⟨.mark Punct.rparen, line⟩ :: rest)) := by
  cases gs with
  | nil => exact hclose
  | cons g gs => exact hcomma

theorem commaThen_stops (line : Nat) (rest : List Token) (gs : List (List Lexeme)) :
    Stops 0 (onLine line (commaThen gs) ++ ⟨.mark Punct.rparen, line⟩ :: rest) := by
  intro r hr
  rw [commaThen_cases (p := fun l => l.rung? = none) line rest gs rfl rfl] at hr
  cases hr

/-- After an argument, either the closing parenthesis follows or a comma with the others. -/
theorem commaThen_reads {α : Type} {more : Parse α} {last result : α}
    (hend : gs = [] → last = result)
    (hmore : gs ≠ [] → more (onLine line (separated gs) ++ ⟨.mark Punct.rparen, line⟩ :: rest)
      = .ok (result, ⟨.mark Punct.rparen, line⟩ :: rest)) :
    (do if ← accept Punct.comma then more else pure last)
        (onLine line (commaThen gs) ++ (⟨.mark Punct.rparen, line⟩ : Token) :: rest)
      = .ok (result, ⟨.mark Punct.rparen, line⟩ :: rest) := by
  cases gs with
  | nil =>
    rw [commaThen, onLine_nil, List.nil_append, bind_ok (accept_miss (by simp)), hend rfl]
    rfl
  | cons g gs =>
    rw [commaThen, onLine_cons, List.cons_append, bind_ok (accept_hit line)]
    exact hmore (by simp)

/-- Keyword arguments up to the closing parenthesis. -/
theorem arguments_keywords (args : List Expr) :
    ∀ (ks done : List (String × Expr)) (rounds : Nat), ks.length ≤ rounds →
      (∀ p ∈ ks, Makes item line p.2) → ((done.reverse ++ ks).map Prod.fst).Nodup →
      arguments item rounds args done
          (onLine line (separated (Expr.keywordGroups ks)) ++ ⟨.mark Punct.rparen, line⟩ :: rest)
        = .ok (⟨args.reverse, done.reverse ++ ks⟩, ⟨.mark Punct.rparen, line⟩ :: rest)
  | [], done, 0, _, _, _ => by
    rw [List.append_nil]
    rfl
  | [], done, rounds + 1, _, _, _ => by
    rw [List.append_nil, arguments]
    refine (bind_ok (check_hit rfl)).trans ?_
    rfl
  | (key, e) :: ks, done, rounds + 1, hr, h, hd => by
    have fresh : (done.any fun k => k.1 == key) = false := by
      simp only [List.map_append, List.map_cons, List.nodup_append] at hd
      rw [List.any_eq_false]
      intro k hk heq
      exact hd.2.2 k.1 (List.mem_map_of_mem (List.mem_reverse.mpr hk)) key
        (List.mem_cons_self ..) (eq_of_beq heq)
    have others := arguments_keywords args ks ((key, e) :: done) rounds (by simpa using hr)
      (fun p hp => h p (List.mem_cons_of_mem _ hp)) (by simpa using hd)
    have made := h (key, e) (List.mem_cons_self ..) _
      (commaThen_stops line rest (Expr.keywordGroups ks))
    rw [Expr.keywordGroups, separated_cons, onLine_append, onLine_cons, onLine_cons, arguments]
    simp only [List.cons_append, List.append_assoc]
    rw [bind_ok (check_miss (by simp))]
    simp only [Bool.false_eq_true, if_false]
    rw [bind_ok peek_apply, bind_ok peekSecond_apply]
    simp only [List.tail_cons, lexemeOf_cons]
    rw [bind_ok advance_apply, bind_ok advance_apply]
    simp only [List.tail_cons, fresh, Bool.false_eq_true, if_false]
    rw [bind_ok made, pure_bind]
    refine commaThen_reads (fun hnil => ?_) fun _ => ?_
    · cases ks with
      | nil => simp
      | cons p ks => cases hnil
    · rw [others]
      simp

/-- The arguments of a call, with the closing parenthesis. -/
theorem arguments_makes : ∀ (es done : List Expr) (ks : List (String × Expr)) (rounds : Nat),
    es.length + ks.length ≤ rounds → (∀ e ∈ es, Makes item line e) →
      (∀ p ∈ ks, Makes item line p.2) → (ks.map Prod.fst).Nodup →
      arguments item rounds done []
          (onLine line (separated (Expr.groups es ++ Expr.keywordGroups ks))
            ++ ⟨.mark Punct.rparen, line⟩ :: rest)
        = .ok (⟨done.reverse ++ es, ks⟩, ⟨.mark Punct.rparen, line⟩ :: rest)
  | [], done, ks, rounds, hr, _, hk, hd => by
    rw [Expr.groups, List.nil_append, List.append_nil]
    exact arguments_keywords done ks [] rounds (by simpa using hr) hk hd
  | e :: es, done, ks, 0, hr, _, _, _ => absurd hr (by simp)
  | e :: es, done, ks, rounds + 1, hr, h, hk, hd => by
    have others := arguments_makes es (e :: done) ks rounds (by simp at hr; omega)
      (fun x hx => h x (List.mem_cons_of_mem _ hx)) hk hd
    have made := h e (List.mem_cons_self ..) _
      (commaThen_stops line rest (Expr.groups es ++ Expr.keywordGroups ks))
    rw [Expr.groups, List.cons_append, separated_cons, onLine_append, List.append_assoc, arguments,
      bind_ok (check_miss ((opening e).ne line _ rfl))]
    simp only [Bool.false_eq_true, if_false]
    rw [bind_ok peek_apply, bind_ok peekSecond_apply]
    have second := (opening e).second_ne line
      (commaThen_cases (p := fun l => l ≠ .mark Punct.assign) line rest
        (Expr.groups es ++ Expr.keywordGroups ks) (by simp) (by simp))
    generalize onLine line e.lexemes ++ (onLine line (commaThen (Expr.groups es
      ++ Expr.keywordGroups ks)) ++ ⟨.mark Punct.rparen, line⟩ :: rest) = ts at made second ⊢
    generalize lexemeOf ts = first, lexemeOf ts.tail = next at second ⊢
    split
    · exact absurd rfl (second _ rfl)
    · simp only [List.isEmpty_nil, if_true]
      rw [bind_ok made, pure_bind]
      refine commaThen_reads (fun hnil => ?_) fun _ => ?_
      · obtain ⟨hes, hks⟩ := List.append_eq_nil_iff.mp hnil
        cases es with
        | nil =>
          cases ks with
          | nil => simp
          | cons p ks => cases hks
        | cons e es => cases hes
      · rw [others]
        simp

theorem callArguments_makes {es : List Expr} {ks : List (String × Expr)}
    (hr : es.length + ks.length ≤ rounds) (he : ∀ e ∈ es, Makes item line e)
    (hk : ∀ p ∈ ks, Makes item line p.2) (hd : (ks.map Prod.fst).Nodup) :
    callArguments item rounds
        (onLine line (separated (Expr.groups es ++ Expr.keywordGroups ks))
          ++ ⟨.mark Punct.rparen, line⟩ :: rest) = .ok (⟨es, ks⟩, rest) := by
  rw [callArguments, bind_ok (arguments_makes es [] ks rounds hr he hk hd),
    bind_ok (expect_hit line)]
  rfl

end Arguments

/-! ## Subscripts -/

theorem bound?_makes {absent : List Punct} (habsent : ∀ p ∈ absent, startsExpr (.mark p) = false)
    {bound : Option Expr} (h : ∀ e, bound = some e → Makes item line e) {p : Punct}
    (hp : p ∈ absent) (hrest : lexemeOf rest = .mark p) (hs : Stops 0 rest) :
    bound? item absent (onLine line (Expr.boundLexemes bound) ++ rest) = .ok (bound, rest) := by
  rw [bound?, bind_ok peek_apply]
  cases bound with
  | none =>
    have found : (absent.any fun q => lexemeOf rest == .mark q) = true := by
      rw [List.any_eq_true]
      exact ⟨p, hp, by rw [hrest, beq_self_eq_true]⟩
    change (if absent.any fun q => lexemeOf rest == .mark q then _ else _ : Parse _) _ = _
    rw [if_pos found]
    rfl
  | some e =>
    have missing : (absent.any fun q => lexemeOf (onLine line (Expr.boundLexemes (some e))
        ++ rest) == .mark q) = false := by
      rw [List.any_eq_false]
      intro q hq heq
      exact (opening e).ne line _ (habsent q hq) (eq_of_beq heq)
    rw [missing]
    exact map_ok (h e rfl _ hs)

theorem subscript_index {object e : Expr} (h : Makes item line e) (rounds : Nat) :
    subscript item rounds object (onLine line e.lexemes ++ ⟨.mark Punct.rbracket, line⟩ :: rest)
      = .ok (.index object e, rest) := by
  have lower : (some <$> testList item rounds)
      (onLine line e.lexemes ++ ⟨.mark Punct.rbracket, line⟩ :: rest)
      = .ok (some e, ⟨.mark Punct.rbracket, line⟩ :: rest) :=
    map_ok (testList_makes h (.of_none rfl) (by simp) rounds)
  rw [subscript, bind_ok (check_miss ((opening e).ne line _ rfl))]
  simp only [Bool.false_eq_true, if_false]
  rw [bind_ok lower]
  simp only []
  rw [bind_ok (accept_hit line)]
  rfl

/-- The lexemes of the step of a slice with the colon before it. -/
def stepLexemes (step : Option Expr) : List Lexeme :=
  if step.isSome then .mark Punct.colon :: Expr.boundLexemes step else []

/-- The step of a slice is read before what is done with it. -/
theorem step_makes {step : Option Expr} (h : ∀ e, step = some e → Makes item line e)
    (q : Option Expr → Parse Expr) :
    (do
      if ← accept Punct.colon then
        let step ← bound? item [.rbracket]
        q step
      else q none)
        (onLine line (stepLexemes step) ++ (⟨.mark Punct.rbracket, line⟩ : Token) :: rest)
      = q step (⟨.mark Punct.rbracket, line⟩ :: rest) := by
  cases step with
  | none => exact bind_ok (accept_miss (by simp [stepLexemes]))
  | some e =>
    have made : bound? item [.rbracket] (onLine line (Expr.boundLexemes (some e))
        ++ ⟨.mark Punct.rbracket, line⟩ :: rest)
        = .ok (some e, ⟨.mark Punct.rbracket, line⟩ :: rest) :=
      bound?_makes (by decide) h (List.mem_singleton_self _) rfl (.of_none rfl)
    rw [stepLexemes, Option.isSome_some, if_pos rfl, onLine_cons, List.cons_append,
      bind_ok (accept_hit line)]
    exact bind_ok made

theorem subscript_slice {object : Expr} {lower upper step : Option Expr}
    (hl : ∀ e, lower = some e → Makes item line e) (hu : ∀ e, upper = some e → Makes item line e)
    (hs : ∀ e, step = some e → Makes item line e) (rounds : Nat) :
    subscript item rounds object
        (onLine line (Expr.boundLexemes lower) ++ ⟨.mark Punct.colon, line⟩ ::
          (onLine line (Expr.boundLexemes upper) ++ (onLine line (stepLexemes step)
            ++ ⟨.mark Punct.rbracket, line⟩ :: rest)))
      = .ok (.slice object lower upper step, rest) := by
  have upper_read : bound? item [.colon, .rbracket]
        (onLine line (Expr.boundLexemes upper) ++ (onLine line (stepLexemes step)
          ++ ⟨.mark Punct.rbracket, line⟩ :: rest))
      = .ok (upper, onLine line (stepLexemes step) ++ ⟨.mark Punct.rbracket, line⟩ :: rest) := by
    cases step with
    | none =>
      exact bound?_makes (p := .rbracket) (by decide) hu (by simp) rfl (.of_none rfl)
    | some e =>
      exact bound?_makes (p := .colon) (by decide) hu (by simp) rfl (.of_none rfl)
  rw [subscript]
  cases lower with
  | none =>
    rw [Expr.boundLexemes, onLine_nil, List.nil_append, bind_ok (check_hit rfl)]
    simp only [if_true, pure_bind]
    rw [bind_ok (expect_hit line), bind_ok upper_read]
    refine (step_makes hs fun step => _).trans ?_
    exact bind_ok (expect_hit line)
  | some e =>
    rw [Expr.boundLexemes, bind_ok (check_miss ((opening e).ne line _ rfl))]
    simp only [Bool.false_eq_true, if_false]
    rw [bind_ok (map_ok (testList_makes (hl e rfl) (.of_none rfl) (by simp) rounds))]
    simp only [pure_bind]
    rw [bind_ok (accept_miss (by simp))]
    simp only [Bool.false_eq_true, if_false]
    rw [bind_ok (expect_hit line), bind_ok upper_read]
    refine (step_makes hs fun step => _).trans ?_
    exact bind_ok (expect_hit line)

/-! ## What follows an expression directly -/

section Trailers

variable {object e : Expr} {es : List Expr} {ks : List (String × Expr)} {ts : List Token}

theorem trailers_call (h : callArguments item rounds ts = .ok (⟨es, ks⟩, rest)) :
    trailers item (rounds + 1) object (⟨.mark Punct.lparen, line⟩ :: ts)
      = trailers item rounds (.call object es ks) rest := by
  rw [trailers, bind_ok peek_apply, lexemeOf_cons]
  change (advance >>= fun _ => _ : Parse Expr) _ = _
  rw [bind_ok advance_apply, List.tail_cons, bind_ok h]

theorem trailers_subscript (h : subscript item rounds object ts = .ok (e, rest)) :
    trailers item (rounds + 1) object (⟨.mark Punct.lbracket, line⟩ :: ts)
      = trailers item rounds e rest := by
  rw [trailers, bind_ok peek_apply, lexemeOf_cons]
  change (advance >>= fun _ => _ : Parse Expr) _ = _
  rw [bind_ok advance_apply, List.tail_cons, bind_ok h]

theorem trailers_method (h : callArguments item rounds ts = .ok (⟨es, ks⟩, rest)) (name : String) :
    trailers item (rounds + 1) object
        (⟨.mark Punct.dot, line⟩ :: ⟨.name name, line⟩ :: ⟨.mark Punct.lparen, line⟩ :: ts)
      = trailers item rounds (.method object name es ks) rest := by
  rw [trailers, bind_ok peek_apply, lexemeOf_cons]
  change (advance >>= fun _ => _ : Parse Expr) _ = _
  rw [bind_ok advance_apply, List.tail_cons, bind_ok (expectName_hit name line),
    bind_ok (accept_hit line)]
  simp only [if_true]
  rw [bind_ok h]

end Trailers

end SortTrace.Script
