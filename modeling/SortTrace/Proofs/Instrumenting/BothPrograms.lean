import SortTrace.Proofs.Instrumenting.Beside

/-!
# Two programs that differ in calls

When the tokens of a text and those of the text with calls go on beside each other and both are
programs, the programs are the same but for statements that only log: `parseTokens_beside`. The
parsers of statements, of blocks and of whole texts are compared one after the other.
-/

namespace SortTrace.Script

open Parse

variable {x : Lexeme} {around : Surrounding} {f f' n : Nat} {t : Token}
  {ts ts' rest rest' : List Token} {ss ss' : List Stmt}

/-! ## Lines -/

/-- A line of small statements is the same in both texts. -/
theorem simpleLine_joint {ss ss' : List Stmt} (h : InLine x ts ts') (hf : ts.length ≤ f)
    (hf' : ts'.length ≤ f') (hread : simpleLine f around ts = .ok (ss, rest))
    (hread' : simpleLine f' around ts' = .ok (ss', rest')) :
    ss' = ss ∧ rest.length < ts.length ∧ rest'.length < ts'.length ∧ Beside x rest rest' := by
  obtain @⟨used, t, next, next', hu, ht, hnext⟩ := h
  have left : leftOnLine (used ++ t :: next) = used.length := leftOnLine_end hu ht
  simp only [List.length_append, List.length_cons] at hf hf' ⊢
  obtain ⟨first, mid, hsplit, hfirst, hmore, hend, -⟩ :=
    simpleLine_ends (onwards next') hread (by omega) (show _ < f' by omega)
  obtain ⟨second, rfl, rfl⟩ := words_split hfirst ht hsplit
  have hsecond : ∀ y ∈ second, y.lexeme.isLayout = false :=
    fun y hy => hu y (List.mem_append_right _ hy)
  rw [onwards_append hu ht, onwards_append hsecond ht] at hmore
  cases second with
  | cons y second =>
    have word := hsecond y (List.mem_cons_self ..)
    rcases hend with ⟨hl, -⟩ | ⟨hl, -⟩ <;>
    · rw [List.cons_append, lexemeOf_cons] at hl
      rw [hl] at word
      cases word
  | nil =>
    rcases hend with ⟨-, rfl⟩ | ⟨hl, -⟩
    · rw [simpleLine_newline ht hmore] at hread'
      obtain ⟨rfl, rfl⟩ := Prod.mk.inj (Except.ok.inj hread')
      exact ⟨rfl, by omega, by omega, hnext⟩
    · rw [List.nil_append, lexemeOf_cons, ht] at hl
      cases hl

/-- The tokens of a call are read as a statement that only logs, if they can be read. -/
theorem parseStatement_call (hx : x.isWord = true) (hf : (callTokens n x ++ ts).length < f)
    (h : parseStatement f around (callTokens n x ++ ts) = .ok (ss, rest)) :
    rest = ts ∧ Stmt.SameBlock [] ss := by
  have size : (callTokens n x).length = 5 := rfl
  rw [List.length_append, size] at hf
  obtain ⟨g, rfl⟩ := Nat.exists_eq_add_of_lt (show 5 < f by omega)
  have line : parseStatement (5 + g + 1) around (callTokens n x ++ ts)
      = simpleLine (g + 5) around (callTokens n x ++ ts) := by
    rw [Nat.add_comm 5 g]
    rfl
  rw [line] at h
  have logs (arg : Expr) (harg : (Stmt.logs n arg).onlyLogs = true)
      (hread : simpleLine (g + 5) around (callTokens n x ++ ts) = .ok ([.logs n arg], ts)) :
      rest = ts ∧ Stmt.SameBlock [] ss := by
    rw [hread] at h
    cases h
    refine ⟨rfl, ?_⟩
    simp only [Stmt.SameBlock, Stmt.pruneBlock, harg, if_true]
  cases x with
  | name v => exact logs (.name v) (by simp [Stmt.logs, Stmt.onlyLogs]) rfl
  | mark m =>
    cases m with
    | keyword k =>
      cases k with
      | trueKw => exact logs (.literal (.bool true)) (by simp [Stmt.logs, Stmt.onlyLogs]) rfl
      | falseKw => exact logs (.literal (.bool false)) (by simp [Stmt.logs, Stmt.onlyLogs]) rfl
      | noneKw => exact logs (.literal .none) (by simp [Stmt.logs, Stmt.onlyLogs]) rfl
      | _ => cases h
    | punct | layout => cases hx
  | int | float | str | op | augment => cases hx

/-- No statement begins with a further part of another one. -/
theorem parseStatement_orphan (ht : t.lexeme.goesOn = true) :
    parseStatement f around (t :: ts) ≠ .ok (ss, rest) := by
  obtain ⟨l, n⟩ := t
  -- With no rounds left the word is not read, and otherwise no expression begins with it.
  have never : l = .mark Keyword.elifKw ∨ l = .mark Keyword.elseKw → ¬ parseStatement f around
      (⟨l, n⟩ :: ts) = .ok (ss, rest) := by
    rintro (rfl | rfl) h
    all_goals
      cases f with
      | zero => cases h
      | succ f =>
        cases f with
        | zero => cases h
        | succ f => cases h
  exact never (Lexeme.eq_of_goesOn ht)

/-! ## Loops over lines -/

/-- A loop that reads lines up to the end of a text, or up to the end of a block if it `closes`
blocks. -/
structure ReadsLines (f : Nat) (around : Surrounding) (closes : Bool)
    (loop : Nat → List Stmt → Parse (List Stmt)) : Prop where
  line {ts : List Token} (r : Nat) (done : List Stmt) (h : (lexemeOf ts).isLayout = false) :
    loop (r + 1) done ts
      = (parseStatement f around >>= fun next => loop r (next.reverse ++ done)) ts
  finish {ts : List Token} (r : Nat) (done : List Stmt) (h : lexemeOf ts = .mark Layout.finish) :
    loop (r + 1) done ts = .ok (done.reverse, ts)
  indent {ts rest : List Token} {ss : List Stmt} (r : Nat) (done : List Stmt)
    (h : lexemeOf ts = .mark Layout.indent) : loop (r + 1) done ts ≠ .ok (ss, rest)
  dedent {t : Token} {ts rest : List Token} {ss : List Stmt} (r : Nat) (done : List Stmt)
    (ht : t.lexeme = .mark Layout.dedent) (h : loop (r + 1) done (t :: ts) = .ok (ss, rest)) :
    closes = true ∧ ss = done.reverse ∧ rest = ts

theorem blockLines_readsLines :
    ReadsLines f around true (blockLines (parseStatement f around)) where
  line r done h := blockLines_word _ r done _ h
  finish r done h := by
    rw [blockLines, bind_ok (accept_miss (by simp [h]))]
    simp only [Bool.false_eq_true, if_false]
    rw [bind_ok (check_hit h)]
    rfl
  indent r done h hread := by
    rw [blockLines, bind_ok (accept_miss (by simp [h]))] at hread
    simp only [Bool.false_eq_true, if_false] at hread
    rw [bind_ok (check_miss (by simp [h]))] at hread
    simp only [Bool.false_eq_true, if_false] at hread
    rw [bind_ok (accept_miss (by simp [h]))] at hread
    obtain ⟨next, mid, hstmt, -⟩ := ok_of_bind hread
    exact parseStatement_stuck (.inl h) hstmt
  dedent r done ht h := by
    rw [blockLines, bind_ok (accept_cons ht)] at h
    cases h
    exact ⟨rfl, rfl, rfl⟩

theorem programLines_readsLines :
    ReadsLines f ⟨false, false⟩ false (programLines f) where
  line r done h := programLines_word f r done _ h
  finish r done h := by
    rw [programLines, bind_ok (check_hit h)]
    rfl
  indent r done h hread := by
    rw [programLines, bind_ok (check_miss (by simp [h]))] at hread
    simp only [Bool.false_eq_true, if_false] at hread
    rw [bind_ok (accept_miss (by simp [h]))] at hread
    obtain ⟨next, mid, hstmt, -⟩ := ok_of_bind hread
    exact parseStatement_stuck (.inl h) hstmt
  dedent r done ht h := by
    rw [programLines, bind_ok (check_miss (by simp [ht]))] at h
    simp only [Bool.false_eq_true, if_false] at h
    rw [bind_ok (accept_miss (by simp [ht]))] at h
    obtain ⟨next, mid, hstmt, -⟩ := ok_of_bind h
    exact absurd hstmt (parseStatement_stuck (.inr ht))

/-- Only a loop that closes blocks ends at tokens that are stuck, and it leaves such tokens. -/
theorem ReadsLines.stuck {closes : Bool} {loop : Nat → List Stmt → Parse (List Stmt)}
    (hloop : ReadsLines f around closes loop) (hx : x.isWord = true) (h : Stuck x ts) :
    ∀ (r : Nat) (done : List Stmt), ts.length < r → ts.length < f →
      loop r done ts = .ok (ss, rest) →
      closes = true ∧ Stuck x rest ∧ rest.length ≤ ts.length := by
  induction h with
  | @indent t ts ht =>
    intro r done hr _ hread
    obtain ⟨r, rfl⟩ := Nat.exists_eq_add_one_of_ne_zero (Nat.ne_zero_of_lt hr)
    exact absurd hread (hloop.indent r done ht)
  | @dedent t ts ht h _ =>
    intro r done hr _ hread
    obtain ⟨r, rfl⟩ := Nat.exists_eq_add_one_of_ne_zero (Nat.ne_zero_of_lt hr)
    obtain ⟨hcloses, -, rfl⟩ := hloop.dedent r done ht hread
    exact ⟨hcloses, h, Nat.le_succ _⟩
  | @call ts n h ih =>
    intro r done hr hf hread
    have size : (callTokens n x).length = 5 := rfl
    obtain ⟨r, rfl⟩ := Nat.exists_eq_add_one_of_ne_zero (Nat.ne_zero_of_lt hr)
    rw [hloop.line r done rfl] at hread
    obtain ⟨next, mid, hstmt, hmore⟩ := ok_of_bind hread
    obtain ⟨rfl, -⟩ := parseStatement_call hx hf hstmt
    rw [List.length_append, size] at hr hf ⊢
    obtain ⟨hcloses, hrest, shorter⟩ := ih r _ (by omega) (by omega) hmore
    exact ⟨hcloses, hrest, by omega⟩
  | @orphan t ts n ht =>
    intro r done hr hf hread
    have size : (callTokens n x).length = 5 := rfl
    have word : (lexemeOf (t :: ts)).isLayout = false := by
      rw [lexemeOf_cons]
      rcases Lexeme.eq_of_goesOn ht with heq | heq <;>
      · rw [heq]
        rfl
    obtain ⟨r, rfl⟩ := Nat.exists_eq_add_one_of_ne_zero (Nat.ne_zero_of_lt hr)
    rw [hloop.line r done rfl] at hread
    obtain ⟨next, mid, hstmt, hmore⟩ := ok_of_bind hread
    obtain ⟨rfl, -⟩ := parseStatement_call hx hf hstmt
    rw [List.length_append, size, List.length_cons] at hr
    obtain ⟨r, rfl⟩ := Nat.exists_eq_add_one_of_ne_zero (show r ≠ 0 by omega)
    rw [hloop.line r _ word] at hmore
    obtain ⟨next', mid', hstmt', -⟩ := ok_of_bind hmore
    exact absurd hstmt' (parseStatement_orphan ht)

/-- The parsers of statements make the same statements of a logical line and what belongs to it. -/
def StatementJoint (x : Lexeme) (f f' : Nat) (around : Surrounding) : Prop :=
  ∀ ts ts' ss ss' rest rest', InLine x ts ts' → (lexemeOf ts).isLayout = false →
    ts.length < f → ts'.length < f' → parseStatement f around ts = .ok (ss, rest) →
    parseStatement f' around ts' = .ok (ss', rest') → rest'.length < ts'.length ∧
      (Stuck x rest' ∨ rest.length < ts.length ∧ Stmt.SameBlock ss ss' ∧ Beside x rest rest')

/-- Loops over lines make the same statements. -/
theorem ReadsLines.joint {closes : Bool} {loop loop' : Nat → List Stmt → Parse (List Stmt)}
    (hloop : ReadsLines f around closes loop) (hloop' : ReadsLines f' around closes loop')
    (hx : x.isWord = true) (hstmt : StatementJoint x f f' around) :
    ∀ (r' r : Nat) (done done' : List Stmt) (ts ts' : List Token) (ss ss' : List Stmt)
      (rest rest' : List Token), r ≤ f → r' ≤ f' → Beside x ts ts' → ts.length < r →
      ts'.length < r' → Stmt.SameBlock done.reverse done'.reverse →
      loop r done ts = .ok (ss, rest) → loop' r' done' ts' = .ok (ss', rest') →
      rest'.length ≤ ts'.length ∧ (closes = true ∧ Stuck x rest' ∨
        rest.length ≤ ts.length ∧ Stmt.SameBlock ss ss' ∧ Beside x rest rest')
  | 0, _, _, _, _, _, _, _, _, _, _, _, _, _, hr', _, _, _ => absurd hr' (Nat.not_lt_zero _)
  | _, 0, _, _, _, _, _, _, _, _, _, _, _, hr, _, _, _, _ => absurd hr (Nat.not_lt_zero _)
  | r' + 1, r + 1, done, done', ts, ts', ss, ss', rest, rest', hf, hf', hts, hr, hr', hdone, hread,
    hread' => by
    cases hts with
    | @line used t next next' hne hu ht h =>
      have word : ∀ mid, (lexemeOf (used ++ t :: mid)).isLayout = false := by
        intro mid
        cases used with
        | nil => exact absurd rfl hne
        | cons y used => exact hu y (List.mem_cons_self ..)
      rw [hloop.line r done (word next)] at hread
      rw [hloop'.line r' done' (word next')] at hread'
      obtain ⟨ss₁, mid, hfirst, hmore⟩ := ok_of_bind hread
      obtain ⟨ss₁', mid', hfirst', hmore'⟩ := ok_of_bind hread'
      obtain ⟨shorter', stuck | ⟨shorter, same, beside⟩⟩ := hstmt _ _ ss₁ ss₁' mid mid' ⟨hu, ht, h⟩
        (word next) (by omega) (by omega) hfirst hfirst'
      · obtain ⟨hcloses, hrest, wider⟩ :=
          hloop'.stuck hx stuck r' _ (by omega) (by omega) hmore'
        exact ⟨by omega, .inl ⟨hcloses, hrest⟩⟩
      · have both :
            Stmt.SameBlock (ss₁.reverse ++ done).reverse (ss₁'.reverse ++ done').reverse := by
          rw [List.reverse_append, List.reverse_append, List.reverse_reverse, List.reverse_reverse]
          exact hdone.append same
        obtain ⟨wider', goesOn⟩ := joint hloop hloop' hx hstmt r' r _ _ mid mid' ss ss' rest rest'
          (by omega) (by omega) beside (by omega) (by omega) both hmore hmore'
        exact ⟨by omega, goesOn.imp_right fun ⟨wider, hss, hrest⟩ => ⟨by omega, hss, hrest⟩⟩
    | @call ts next' n hts h =>
      have size : (callTokens n x).length = 5 := rfl
      rw [hloop'.line r' done' rfl] at hread'
      obtain ⟨ss₁', mid', hfirst', hmore'⟩ := ok_of_bind hread'
      obtain ⟨rfl, same⟩ := parseStatement_call hx (by omega) hfirst'
      rw [List.length_append, size] at hr' ⊢
      have both : Stmt.SameBlock done.reverse (ss₁'.reverse ++ done').reverse := by
        rw [List.reverse_append, List.reverse_reverse, ← List.append_nil done.reverse]
        exact hdone.append same
      obtain ⟨wider', goesOn⟩ := joint hloop hloop' hx hstmt r' (r + 1) done _ ts mid' ss ss' rest
        rest' hf (by omega) h hr (by omega) both hread hmore'
      exact ⟨by omega, goesOn⟩
    | dedent ht ht' h =>
      obtain ⟨-, rfl, rfl⟩ := hloop.dedent r done ht hread
      obtain ⟨-, rfl, rfl⟩ := hloop'.dedent r' done' ht' hread'
      exact ⟨Nat.le_succ _, .inr ⟨Nat.le_succ _, hdone, h⟩⟩
    | finish hts hts' =>
      rw [hloop.finish r done hts] at hread
      rw [hloop'.finish r' done' hts'] at hread'
      cases hread
      cases hread'
      exact ⟨Nat.le_refl _, .inr ⟨Nat.le_refl _, hdone, .finish hts hts'⟩⟩
    | indent ht | opened ht => exact absurd hread (hloop.indent r done ht)
    | before hts => exact absurd hread (hloop.indent r done hts)
    | stuck _ h =>
      obtain ⟨hcloses, hrest, wider⟩ :=
        hloop'.stuck hx h (r' + 1) done' hr' (by omega) hread'
      exact ⟨wider, .inl ⟨hcloses, hrest⟩⟩

/-! ## Parts of compound statements -/

section Compound

variable (hx : x.isWord = true) (h : ∀ around, StatementJoint x f f' around)

include hx h

/-- The lines of a block that starts with the next line. -/
theorem indented_joint (around : Surrounding) (message message' : String) :
    Joint x f f' (Beside x) (Beside x) Stmt.SameBlock
      (do
        if ← accept Layout.indent then blockLines (parseStatement f around) f []
        else fail message)
      (do
        if ← accept Layout.indent then blockLines (parseStatement f' around) f' []
        else fail message') := by
  intro ts ts' ss ss' rest rest' hts hf hf' hread hread'
  -- A block is opened in both texts, or one of the parsers fails.
  have opens : lexemeOf ts = .mark Layout.indent := by
    by_contra hi
    rw [bind_ok (accept_miss hi)] at hread
    cases hread
  have opens' : lexemeOf ts' = .mark Layout.indent := by
    by_contra hi
    rw [bind_ok (accept_miss hi)] at hread'
    cases hread'
  cases hts with
  | @line used t next next' hne hu ht h =>
    cases used with
    | nil => exact absurd rfl hne
    | cons y used =>
      have word := hu y (List.mem_cons_self ..)
      rw [List.cons_append, lexemeOf_cons] at opens
      rw [opens] at word
      cases word
  | call => cases opens'
  | dedent ht =>
    rw [lexemeOf_cons, ht] at opens
    cases opens
  | finish hts =>
    rw [hts] at opens
    cases opens
  | indent ht ht' hblock =>
    rw [bind_ok (accept_cons ht)] at hread
    rw [bind_ok (accept_cons ht')] at hread'
    simp only [if_true, List.length_cons] at hread hread' hf hf' ⊢
    obtain ⟨shorter', goesOn⟩ := blockLines_readsLines.joint blockLines_readsLines hx (h around)
      f' f [] [] _ _ ss ss' rest rest' (Nat.le_refl f) (Nat.le_refl f') hblock (by omega) (by omega)
      rfl hread hread'
    refine ⟨by omega, goesOn.imp And.right fun both => ?_⟩
    obtain ⟨shorter, same, hrest⟩ := both
    exact ⟨by omega, same, hrest⟩
  | opened _ ht' hblock =>
    rw [bind_ok (accept_cons ht')] at hread'
    simp only [if_true, List.length_cons] at hread' hf' ⊢
    obtain ⟨-, hrest, shorter'⟩ :=
      blockLines_readsLines.stuck hx hblock f' [] (by omega) (by omega) hread'
    exact ⟨by omega, .inl hrest⟩
  | before _ hts' =>
    rcases hts' with hts' | hts' <;>
    · rw [hts'] at opens'
      cases opens'
  | stuck hts => exact absurd opens hts

/-- A colon and a block. -/
theorem block_joint (around : Surrounding) (owner : String) (n n' : Nat) :
    Joint x f f' (InLine x) (Beside x) Stmt.SameBlock (block (parseStatement f) f around owner n)
      (block (parseStatement f') f' around owner n') := by
  refine .bindLine (fun _ => expect_threads rfl) fun _ => ?_
  intro ts ts' ss ss' rest rest' hts hf hf' hread hread'
  by_cases hl : lexemeOf ts = .mark Layout.newline
  · obtain @⟨used, t, next, next', hu, ht, hnext⟩ := hts
    cases used with
    | cons y used =>
      have word := hu y (List.mem_cons_self ..)
      rw [List.cons_append, lexemeOf_cons] at hl
      rw [hl] at word
      cases word
    | nil =>
      simp only [List.nil_append] at hread hread' hf hf' ⊢
      rw [bind_ok (accept_cons ht)] at hread hread'
      simp only [if_true, List.length_cons] at hread hread' hf hf' ⊢
      obtain ⟨shorter', goesOn⟩ := indented_joint hx h around _ _ next next' ss ss' rest rest' hnext
        (by omega) (by omega) hread hread'
      exact ⟨by omega, goesOn.imp_right fun both => ⟨by omega, both.2⟩⟩
  · have hl' : lexemeOf ts' ≠ .mark Layout.newline := by
      obtain @⟨used, t, next, next', hu, ht, hnext⟩ := hts
      cases used with
      | nil => exact hl
      | cons y used => exact hl
    rw [bind_ok (accept_miss hl)] at hread
    rw [bind_ok (accept_miss hl')] at hread'
    obtain ⟨rfl, shorter, shorter', hnext⟩ :=
      simpleLine_joint hts (Nat.le_of_lt hf) (Nat.le_of_lt hf') hread hread'
    exact ⟨Nat.le_of_lt shorter', .inr ⟨Nat.le_of_lt shorter, rfl, hnext⟩⟩

omit hx h in
/-- No further part of a statement is there. -/
theorem otherwise_sinks {lines : Lines} (full : Nat) :
    Sinks x f' (otherwise lines full around) :=
  .line fun _ => .acceptWord (by decide) .pure

/-- The block after `else`, if there is one. -/
theorem otherwise_joint (around : Surrounding) :
    Joint x f f' (Beside x) (Beside x) Stmt.SameBlock (otherwise (parseStatement f) f around)
      (otherwise (parseStatement f') f' around) := by
  refine .line fun n n' => .acceptWord (by decide) ?_ (.pure rfl) .pure
  exact (block_joint hx h around _ n n').mono (Nat.sub_le f 1) (Nat.sub_le f' 1)

omit hx h in
theorem moreCases_sinks {lines : Lines} (full : Nat) (around : Surrounding) :
    ∀ (r : Nat) (cases : List (Expr × List Stmt)),
      Sinks x f' (moreCases lines full around r cases)
  | 0, _ => .pure
  | _ + 1, _ => .line fun _ => .acceptWord (by decide) ((otherwise_sinks full).bind fun _ => .pure)

/-- The further cases of a branch and its last block. -/
theorem moreCases_joint (around : Surrounding) :
    ∀ r ≤ f, ∀ r' ≤ f', ∀ cases cases', Stmt.SameCases cases cases' →
      Joint x r r' (Beside x) (Beside x)
        (fun c c' => Stmt.SameCases c.1 c'.1 ∧ Stmt.SameBlock c.2 c'.2)
        (moreCases (parseStatement f) f around r cases)
        (moreCases (parseStatement f') f' around r' cases')
  | 0, _, _, _, _, _, _ => fun _ _ _ _ _ _ _ hr => absurd hr (Nat.not_lt_zero _)
  | _ + 1, _, 0, _, _, _, _ => fun _ _ _ _ _ _ _ _ hr' => absurd hr' (Nat.not_lt_zero _)
  | r + 1, hr, r' + 1, hr', cases, cases', hcases => by
    have last := (otherwise_joint hx h around).mono hr hr'
    refine .line fun n n' => .acceptWord (by decide) ?_ ?_ ?_
    · have condition (tail : List Token) :
          Threads (onwards tail) r r' (parseTest f) (parseTest f') :=
        (parseTest_threads f f').mono (by omega) (by omega)
      refine .bindLine condition fun condition => ?_
      have body := (block_joint hx h around "'elif' statement" n n').mono (show r ≤ f by omega)
        (show r' ≤ f' by omega)
      refine body.bind (fun body body' same => ?_) fun _ => moreCases_sinks _ around r' _
      exact moreCases_joint around r (by omega) r' (by omega) _ _ (hcases.cons same)
    · exact last.bind (fun last last' same => .pure ⟨hcases.reverse, same⟩) fun _ => .pure
    · exact (otherwise_sinks _).bind fun _ => .pure

/-! ## Compound statements -/

theorem branch_joint (around : Surrounding) (n : Nat) :
    Joint x f f' (InLine x) (Beside x) (fun s s' => Stmt.SameBlock [s] [s'])
      (branch (parseStatement f) f around n) (branch (parseStatement f') f' around n) := by
  refine .bindLine (fun _ => parseTest_threads f f') fun condition => ?_
  refine (block_joint hx h around _ n n).bind (fun body body' same => ?_) fun _ =>
    (moreCases_sinks _ around f' _).bind fun _ => .pure
  have first : Stmt.SameCases [(condition, body)] [(condition, body')] := .cons same rfl
  have cases := moreCases_joint hx h around f (Nat.le_refl f) f' (Nat.le_refl f') _ _ first
  refine cases.bind (fun c c' both => .pure (.single rfl rfl ?_)) fun _ => .pure
  rw [Stmt.prune, Stmt.prune, both.1, both.2]

theorem whileLoop_joint (around : Surrounding) (n : Nat) :
    Joint x f f' (InLine x) (Beside x) (fun s s' => Stmt.SameBlock [s] [s'])
      (whileLoop (parseStatement f) f around n) (whileLoop (parseStatement f') f' around n) := by
  refine .bindLine (fun _ => parseTest_threads f f') fun condition => ?_
  refine (block_joint hx h { around with inLoop := true } _ n n).bind (fun body body' same => ?_)
    fun _ => (otherwise_sinks _).map
  refine (otherwise_joint hx h around).map fun last last' same' => .single rfl rfl ?_
  rw [Stmt.prune, Stmt.prune, same, same']

theorem forLoop_joint (around : Surrounding) (n : Nat) :
    Joint x f f' (InLine x) (Beside x) (fun s s' => Stmt.SameBlock [s] [s'])
      (forLoop (parseStatement f) f around n) (forLoop (parseStatement f') f' around n) := by
  refine .bindLine (fun _ => parseOperand_threads f f') fun first => ?_
  have rest (target : Expr) :
      Joint x f f' (InLine x) (Beside x) (fun s s' => Stmt.SameBlock [s] [s'])
        (if target.isTarget then do
          expect Keyword.inKw
          let items ← parseTestList f
          let body ← block (parseStatement f) f { around with inLoop := true } "'for' statement" n
          Stmt.forLoop n target items body <$> otherwise (parseStatement f) f around
        else fail "cannot assign to expression")
        (if target.isTarget then do
          expect Keyword.inKw
          let items ← parseTestList f'
          let body ← block (parseStatement f') f' { around with inLoop := true } "'for' statement" n
          Stmt.forLoop n target items body <$> otherwise (parseStatement f') f' around
        else fail "cannot assign to expression") := by
    split
    · refine .bindLine (fun _ => expect_threads rfl) fun _ => ?_
      refine .bindLine (fun _ => parseTestList_threads f f') fun items => ?_
      refine (block_joint hx h { around with inLoop := true } _ n n).bind
        (fun body body' same => ?_) fun _ => (otherwise_sinks _).map
      refine (otherwise_joint hx h around).map fun last last' same' => .single rfl rfl ?_
      rw [Stmt.prune, Stmt.prune, same, same']
    · exact .fail _
  have targets (tail : List Token) :
      Threads (onwards tail) f f' (moreTargets f f [first]) (moreTargets f' f' [first]) :=
    moreTargets_threads f (Nat.le_refl f) f' (Nat.le_refl f') [first]
  refine .bindLine (fun _ => check_threads) fun several => ?_
  cases several with
  | true => exact .bindLine (fun tail => (targets tail).map _) rest
  | false => exact .bindLine (fun _ => .pure first) rest

theorem define_joint (n : Nat) :
    Joint x f f' (InLine x) (Beside x) (fun s s' => Stmt.SameBlock [s] [s'])
      (define (parseStatement f) f n) (define (parseStatement f') f' n) := by
  refine .bindLine (fun _ => expectName_threads) fun name => ?_
  refine .bindLine (fun _ => expect_threads rfl) fun _ => ?_
  have params (tail : List Token) :
      Threads (onwards tail) f f' (parameters f f []) (parameters f' f' []) :=
    parameters_threads f (Nat.le_refl f) f' (Nat.le_refl f') []
  refine .bindLine params fun params => .bindLine (fun _ => expect_threads rfl) fun _ => ?_
  refine (block_joint hx h ⟨true, false⟩ _ n n).map fun body body' same => .single rfl rfl ?_
  rw [Stmt.prune, Stmt.prune, same]

/-- Compound statements are the same. -/
theorem compound?_joint (around : Surrounding) (l : Lexeme) :
    (compound? (parseStatement f) f around l = none ∧
      compound? (parseStatement f') f' around l = none) ∨
    ∃ stmt stmt', compound? (parseStatement f) f around l = some stmt ∧
      compound? (parseStatement f') f' around l = some stmt' ∧ ∀ n,
        Joint x f f' (InLine x) (Beside x) (fun s s' => Stmt.SameBlock [s] [s']) (stmt n)
          (stmt' n) := by
  unfold compound?
  split
  · exact .inr ⟨_, _, rfl, rfl, branch_joint hx h around⟩
  · exact .inr ⟨_, _, rfl, rfl, whileLoop_joint hx h around⟩
  · exact .inr ⟨_, _, rfl, rfl, forLoop_joint hx h around⟩
  · exact .inr ⟨_, _, rfl, rfl, define_joint hx h⟩
  · exact .inl ⟨rfl, rfl⟩

end Compound

/-! ## Programs -/

/-- The parsers of statements make the same statements. -/
theorem statement_joint (hx : x.isWord = true) :
    ∀ (f f' : Nat) (around : Surrounding), StatementJoint x f f' around
  | 0, _, _ => fun _ _ _ _ _ _ _ _ hf => absurd hf (Nat.not_lt_zero _)
  | _ + 1, 0, _ => fun _ _ _ _ _ _ _ _ _ hf' => absurd hf' (Nat.not_lt_zero _)
  | f + 1, f' + 1, around => by
    intro ts ts' ss ss' rest rest' hts word hf hf' hread hread'
    obtain @⟨used, t, next, next', hu, ht, hnext⟩ := hts
    cases used with
    | nil =>
      rw [List.nil_append, lexemeOf_cons, ht] at word
      cases word
    | cons y used =>
      obtain ⟨hy, hused⟩ := List.forall_mem_cons.mp hu
      have inside : InLine x (used ++ t :: next) (used ++ t :: next') := ⟨hused, ht, hnext⟩
      simp only [List.cons_append] at hread hread' hf hf' ⊢
      rw [parseStatement, statements_eq _ hy] at hread hread'
      rcases compound?_joint hx (statement_joint hx f f') around y.lexeme with
        ⟨hnone, hnone'⟩ | ⟨stmt, stmt', hsome, hsome', hstmt⟩
      · rw [hnone] at hread
        rw [hnone'] at hread'
        obtain ⟨rfl, shorter, shorter', hrest⟩ :=
          simpleLine_joint ⟨hu, ht, hnext⟩ (Nat.le_of_lt_succ hf) (Nat.le_of_lt_succ hf') hread
            hread'
        exact ⟨shorter', .inr ⟨shorter, rfl, hrest⟩⟩
      · rw [hsome] at hread
        rw [hsome'] at hread'
        simp only [bind_ok advance_apply, List.tail_cons] at hread hread'
        obtain ⟨s, mid, hfirst, hpure⟩ := ok_of_bind hread
        obtain ⟨s', mid', hfirst', hpure'⟩ := ok_of_bind hread'
        cases hpure
        cases hpure'
        simp only [List.length_cons] at hf hf' ⊢
        obtain ⟨shorter', goesOn⟩ := hstmt y.line _ _ s s' rest rest' inside (by omega) (by omega)
          hfirst hfirst'
        exact ⟨by omega, goesOn.imp_right fun both => ⟨by omega, both.2⟩⟩

/-- Tokens that go on beside each other make the same program but for the calls, if both make
one. -/
theorem parseTokens_beside {P P' : List Stmt} (hx : x.isWord = true) (hts : Beside x ts ts')
    (h : parseTokens ts = .ok P) (h' : parseTokens ts' = .ok P') : Stmt.SameBlock P P' := by
  rw [parseTokens_eq] at h h'
  cases hread : programLines (ts.length + 1) (ts.length + 1) [] ts with
  | error e =>
    rw [hread] at h
    cases h
  | ok r =>
    cases hread' : programLines (ts'.length + 1) (ts'.length + 1) [] ts' with
    | error e =>
      rw [hread'] at h'
      cases h'
    | ok r' =>
      obtain ⟨ss, rest⟩ := r
      obtain ⟨ss', rest'⟩ := r'
      rw [hread] at h
      rw [hread'] at h'
      obtain rfl : ss = P := Except.ok.inj h
      obtain rfl : ss' = P' := Except.ok.inj h'
      obtain ⟨-, ⟨hcloses, -⟩ | ⟨-, same, -⟩⟩ := programLines_readsLines.joint
        programLines_readsLines hx (statement_joint hx _ _ _) _ _ [] [] ts ts' ss ss' rest rest'
        (Nat.le_refl _) (Nat.le_refl _) hts (Nat.lt_succ_self _) (Nat.lt_succ_self _) rfl hread
        hread'
      · cases hcloses
      · exact same

end SortTrace.Script
