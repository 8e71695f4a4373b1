import SortTrace.Proofs.Instrumenting.Block

/-!
# Programs between logging calls

When the tokens of logging calls are put after the lines that write, the parser makes the program
with the calls in it: `parseTokens_weave`.
-/

namespace SortTrace.Script

open Parse

variable {writes : Nat → Bool} {var : String} {around : Surrounding} {f f' n : Nat}
  {rest ts : List Token}

/-! ## The layout of blocks -/

theorem ne_layout (h : (lexemeOf ts).isLayout = false) (l : Layout) : lexemeOf ts ≠ .mark l := by
  intro heq
  rw [heq] at h
  cases h

theorem blockLines_word (statements : Parse (List Stmt)) (r : Nat) (done : List Stmt)
    (ts : List Token) (h : (lexemeOf ts).isLayout = false) :
    blockLines statements (r + 1) done ts
      = (statements >>= fun next => blockLines statements r (next.reverse ++ done)) ts := by
  rw [blockLines, bind_ok (accept_miss (ne_layout h _))]
  simp only [Bool.false_eq_true, if_false]
  rw [bind_ok (check_miss (ne_layout h _))]
  simp only [Bool.false_eq_true, if_false]
  rw [bind_ok (accept_miss (ne_layout h _))]
  rfl

/-- No statement begins with a change of indentation. -/
theorem parseStatement_stuck {ss : List Stmt}
    (h : lexemeOf ts = .mark Layout.indent ∨ lexemeOf ts = .mark Layout.dedent) :
    parseStatement f around ts ≠ .ok (ss, rest) := by
  intro hread
  cases f with
  | zero => cases hread
  | succ f =>
    rw [parseStatement, statements, bind_ok line_apply, bind_ok peek_apply] at hread
    rcases h with h | h <;>
    · rw [h] at hread
      obtain ⟨l, mid, -, hread⟩ := ok_of_bind hread
      split at hread <;> cases hread

/-- The layout that a block ends at. -/
theorem blockLines_layout (r r' last : Nat) (ts : List Token) (done ss : List Stmt)
    (rest : List Token) (hts : Follows writes (.between last) ts)
    (layout : (lexemeOf ts).isLayout = true)
    (h : blockLines (parseStatement f around) (r + 1) done ts = .ok (ss, rest)) :
    ss = done.reverse ∧ ∀ done', KeptTo writes var
      (blockLines (parseStatement f' around) (r' + 1) done') last ts rest done'.reverse := by
  obtain ⟨l, hl⟩ := Lexeme.eq_of_isLayout layout
  have hl' : lexemeOf (weave writes var ts) = .mark l := by rwa [lexemeOf_weave]
  cases l with
  | dedent =>
    cases ts with
    | nil => cases hl
    | cons t ts =>
      have ht : t.lexeme = .mark Layout.dedent := hl
      have quiet : endsWritten writes t = false := by
        rw [endsWritten, ht]
        rfl
      rw [blockLines, bind_ok (accept_cons ht)] at h
      cases h
      refine ⟨rfl, fun done' => ⟨?_, Nat.le_succ _, ?_, last, Nat.le_refl last,
        (hts.between_layout ht).2⟩⟩
      · rw [weave_cons quiet, blockLines, bind_ok (accept_cons ht)]
        rfl
      · rw [weave_cons quiet]
        exact Nat.le_succ _
  | finish =>
    rw [blockLines, bind_ok (accept_miss (by simp [hl]))] at h
    simp only [Bool.false_eq_true, if_false] at h
    rw [bind_ok (check_hit hl)] at h
    cases h
    refine ⟨rfl, fun done' => ⟨?_, Nat.le_refl _, Nat.le_refl _, last, Nat.le_refl last, hts⟩⟩
    rw [blockLines, bind_ok (accept_miss (by simp [hl']))]
    simp only [Bool.false_eq_true, if_false]
    rw [bind_ok (check_hit hl')]
    rfl
  | newline =>
    cases ts with
    | nil => cases hl
    | cons t ts => exact absurd rfl (hts.between_layout hl).1
  | indent =>
    rw [blockLines, bind_ok (accept_miss (by simp [hl]))] at h
    simp only [Bool.false_eq_true, if_false] at h
    rw [bind_ok (check_miss (by simp [hl]))] at h
    simp only [Bool.false_eq_true, if_false] at h
    rw [bind_ok (accept_miss (by simp [hl]))] at h
    obtain ⟨next, mid, hread, -⟩ := ok_of_bind h
    exact absurd hread (parseStatement_stuck (.inl hl))

theorem blockLines_keep {last : Nat} {ss : List Stmt}
    (h : StatementKept writes var f f' around) (hts : Follows writes (.between last) ts)
    (hf : ts.length < f) (hf' : (weave writes var ts).length < f')
    (hread : blockLines (parseStatement f around) f [] ts = .ok (ss, rest)) :
    KeptTo writes var (blockLines (parseStatement f' around) f' []) last ts rest
      (Stmt.loggedBlock writes var ss) := by
  obtain ⟨new, rfl, hnew, -⟩ := lines_keep h (blockLines_word _) (blockLines_word _)
    blockLines_layout f (Nat.le_refl f) f' (Nat.le_refl f') last ts [] ss rest hts hf hf' hread
  exact hnew []

/-! ## Parts of compound statements -/

section Compound

variable (h : ∀ around, StatementKept writes var f f' around)

include h

/-- A colon and a block. -/
theorem block_keeps (around : Surrounding) (owner : String) (n : Nat) :
    Keeps writes var f f' .inside (block (parseStatement f) f around owner n)
      (block (parseStatement f') f' around owner n) (Stmt.loggedBlock writes var) := by
  refine .bindInside (expect_threads rfl) fun _ => ?_
  intro last ts ss rest hts hf hf' hread
  by_cases hl : lexemeOf ts = .mark Layout.newline
  · obtain ⟨t, ts, rfl, ht, hw, follows⟩ := hts.inside_next (by rw [hl]; rfl)
    have quiet : endsWritten writes t = false := by
      rw [endsWritten, hw, Bool.and_false]
    rw [weave_cons quiet, List.length_cons] at hf'
    rw [List.length_cons] at hf
    rw [bind_ok (accept_cons ht)] at hread
    simp only [if_true] at hread
    by_cases hi : lexemeOf ts = .mark Layout.indent
    · cases ts with
      | nil => cases hi
      | cons t' ts =>
        have ht' : t'.lexeme = .mark Layout.indent := hi
        have quiet' : endsWritten writes t' = false := by
          rw [endsWritten, ht']
          rfl
        rw [weave_cons quiet', List.length_cons] at hf'
        rw [List.length_cons] at hf
        rw [bind_ok (accept_cons ht')] at hread
        obtain ⟨reads, shorter, shorter', later⟩ := blockLines_keep (h around)
          (follows.between_layout ht').2 (by omega) (by omega) hread
        refine ⟨?_, by simp; omega, ?_, later⟩
        · rw [weave_cons quiet, weave_cons quiet', bind_ok (accept_cons ht)]
          simp only [if_true]
          rw [bind_ok (accept_cons ht')]
          exact reads
        · rw [weave_cons quiet, weave_cons quiet', List.length_cons, List.length_cons]
          omega
    · rw [bind_ok (accept_miss hi)] at hread
      cases hread
  · rw [bind_ok (accept_miss hl)] at hread
    have left : leftOnLine ts ≤ ts.length := leftOnLine_le
    have left' : leftOnLine (weave writes var ts) ≤ (weave writes var ts).length := leftOnLine_le
    rw [leftOnLine_weave] at left'
    have room : leftOnLine ts < f' := by omega
    obtain ⟨reads, follows, shorter, shorter', hss⟩ :=
      simpleLine_inside hts (by omega) room hread
    have plain : Stmt.loggedBlock writes var ss = ss := loggedBlock_simple hss
    refine ⟨?_, Nat.le_of_lt shorter, Nat.le_of_lt shorter', last, Nat.le_refl last, follows⟩
    rw [bind_ok (accept_miss (by rwa [lexemeOf_weave])), plain]
    exact reads

/-- The block after `else`, if there is one. -/
theorem otherwise_keeps (around : Surrounding) :
    Keeps writes var f f' .between (otherwise (parseStatement f) f around)
      (otherwise (parseStatement f') f' around) (Stmt.loggedBlock writes var) := by
  refine .line fun n => .acceptWord (by decide) ?_ (.pure rfl)
  exact (block_keeps h around _ n).mono (Nat.sub_le f 1) (Nat.sub_le f' 1)

/-- The further cases of a branch and its last block. -/
theorem moreCases_keeps (around : Surrounding) :
    ∀ r ≤ f, ∀ r' ≤ f', ∀ cases, Keeps writes var r r' .between
      (moreCases (parseStatement f) f around r cases)
      (moreCases (parseStatement f') f' around r' (Stmt.loggedCases writes var cases))
      (fun c => (Stmt.loggedCases writes var c.1, Stmt.loggedBlock writes var c.2))
  | 0, _, _, _, _ => fun _ _ _ _ _ hr => absurd hr (Nat.not_lt_zero _)
  | _ + 1, _, 0, _, _ => fun _ _ _ _ _ _ hr' => absurd hr' (Nat.not_lt_zero _)
  | r + 1, hr, r' + 1, hr', cases => by
    refine .line fun n => .acceptWord (by decide) ?_ ?_
    · have condition : Threads (weave writes var) r r' (parseTest f) (parseTest f') :=
        (parseTest_threads f f').mono (by omega) (by omega)
      refine .bindInside condition fun condition => ?_
      have body := (block_keeps h around "'elif' statement" n).mono (show r ≤ f by omega)
        (show r' ≤ f' by omega)
      refine body.bind fun body => ?_
      exact moreCases_keeps around r (by omega) r' (by omega) ((condition, body) :: cases)
    · have last := (otherwise_keeps h around).mono hr hr'
      refine last.bind fun last => ?_
      rw [← loggedCases_reverse]
      exact .pure rfl

theorem branch_keeps (around : Surrounding) (n : Nat) :
    Keeps writes var f f' .inside (branch (parseStatement f) f around n)
      (branch (parseStatement f') f' around n) (Stmt.logged writes var) := by
  refine .bindInside (parseTest_threads f f') fun condition => ?_
  refine (block_keeps h around _ n).bind fun body => ?_
  have cases := moreCases_keeps h around f (Nat.le_refl f) f' (Nat.le_refl f') [(condition, body)]
  exact cases.bind fun c => .pure rfl

theorem whileLoop_keeps (around : Surrounding) (n : Nat) :
    Keeps writes var f f' .inside (whileLoop (parseStatement f) f around n)
      (whileLoop (parseStatement f') f' around n) (Stmt.logged writes var) := by
  refine .bindInside (parseTest_threads f f') fun condition => ?_
  refine (block_keeps h { around with inLoop := true } _ n).bind fun body => ?_
  exact (otherwise_keeps h around).map fun last => rfl

theorem forLoop_keeps (around : Surrounding) (n : Nat) :
    Keeps writes var f f' .inside (forLoop (parseStatement f) f around n)
      (forLoop (parseStatement f') f' around n) (Stmt.logged writes var) := by
  refine .bindInside (parseOperand_threads f f') fun first => ?_
  have rest (target : Expr) : Keeps writes var f f' .inside
      (if target.isTarget then do
        expect Keyword.inKw
        let items ← parseTestList f
        let body ← block (parseStatement f) f { around with inLoop := true } "'for' statement" n
        Stmt.forLoop n target items body <$> otherwise (parseStatement f) f around
      else fail "cannot assign to expression")
      (if target.isTarget then do
        expect Keyword.inKw
        let items ← parseTestList f'
        let body ← block (parseStatement f') f' { around with inLoop := true } "'for' statement" n
        Stmt.forLoop n target items body <$> otherwise (parseStatement f') f' around
      else fail "cannot assign to expression") (Stmt.logged writes var) := by
    split
    · refine .bindInside (expect_threads rfl) fun _ => ?_
      refine .bindInside (parseTestList_threads f f') fun items => ?_
      refine (block_keeps h { around with inLoop := true } _ n).bind fun body => ?_
      exact (otherwise_keeps h around).map fun last => rfl
    · exact .fail _
  have targets : Threads (weave writes var) f f' (moreTargets f f [first])
      (moreTargets f' f' [first]) :=
    moreTargets_threads f (Nat.le_refl f) f' (Nat.le_refl f') [first]
  refine .bindInside check_threads fun b => ?_
  cases b with
  | true => exact .bindInside (targets.map _) rest
  | false => exact .bindInside (.pure first) rest

theorem define_keeps (n : Nat) :
    Keeps writes var f f' .inside (define (parseStatement f) f n)
      (define (parseStatement f') f' n) (Stmt.logged writes var) := by
  refine .bindInside expectName_threads fun name => .bindInside (expect_threads rfl) fun _ => ?_
  have params : Threads (weave writes var) f f' (parameters f f []) (parameters f' f' []) :=
    parameters_threads f (Nat.le_refl f) f' (Nat.le_refl f') []
  refine .bindInside params fun params => .bindInside (expect_threads rfl) fun _ => ?_
  exact (block_keeps h ⟨true, false⟩ _ n).map fun body => rfl

end Compound

/-! ## The line of a compound statement -/

theorem branch_line {lines : Lines} {s : Stmt} (h : branch lines f around n ts = .ok (s, rest)) :
    s.line = n := by
  obtain ⟨condition, mid, -, h⟩ := ok_of_bind h
  obtain ⟨body, mid, -, h⟩ := ok_of_bind h
  obtain ⟨cases', mid, -, h⟩ := ok_of_bind h
  cases h
  rfl

theorem whileLoop_line {lines : Lines} {s : Stmt}
    (h : whileLoop lines f around n ts = .ok (s, rest)) : s.line = n := by
  obtain ⟨condition, mid, -, h⟩ := ok_of_bind h
  obtain ⟨body, mid, -, h⟩ := ok_of_bind h
  obtain ⟨last, -, rfl⟩ := ok_of_map h
  rfl

theorem forLoop_line {lines : Lines} {s : Stmt}
    (h : forLoop lines f around n ts = .ok (s, rest)) : s.line = n := by
  obtain ⟨first, mid, -, h⟩ := ok_of_bind h
  obtain ⟨b, mid, -, h⟩ := ok_of_bind h
  obtain ⟨target, mid, h⟩ : ∃ (target : Expr) (mid : List Token),
      (if target.isTarget then do
        expect Keyword.inKw
        let items ← parseTestList f
        let body ← block lines f { around with inLoop := true } "'for' statement" n
        Stmt.forLoop n target items body <$> otherwise lines f around
      else fail "cannot assign to expression") mid = .ok (s, rest) := by
    cases b
    all_goals
      obtain ⟨target, mid, -, h⟩ := ok_of_bind h
      exact ⟨target, mid, h⟩
  split at h
  · obtain ⟨_, mid, -, h⟩ := ok_of_bind h
    obtain ⟨items, mid, -, h⟩ := ok_of_bind h
    obtain ⟨body, mid, -, h⟩ := ok_of_bind h
    obtain ⟨last, -, rfl⟩ := ok_of_map h
    rfl
  · cases h

theorem define_line {lines : Lines} {s : Stmt} (h : define lines f n ts = .ok (s, rest)) :
    s.line = n := by
  obtain ⟨name, mid, -, h⟩ := ok_of_bind h
  obtain ⟨_, mid, -, h⟩ := ok_of_bind h
  obtain ⟨params, mid, -, h⟩ := ok_of_bind h
  obtain ⟨_, mid, -, h⟩ := ok_of_bind h
  obtain ⟨body, -, rfl⟩ := ok_of_map h
  rfl

/-! ## Statements -/

/-- The parser for what follows a word that begins a compound statement. -/
def compound? (lines : Lines) (fuel : Nat) (around : Surrounding) :
    Lexeme → Option (Nat → Parse Stmt)
  | .mark (.keyword .ifKw) => some (branch lines fuel around)
  | .mark (.keyword .whileKw) => some (whileLoop lines fuel around)
  | .mark (.keyword .forKw) => some (forLoop lines fuel around)
  | .mark (.keyword .defKw) => some (define lines fuel)
  | _ => none

theorem statements_eq (lines : Lines) {t : Token} (word : t.lexeme.isLayout = false) :
    statements lines f around (t :: ts) = match compound? lines f around t.lexeme with
      | some stmt => (do advance; pure [← stmt t.line] : Parse (List Stmt)) (t :: ts)
      | none => simpleLine f around (t :: ts) := by
  obtain ⟨l, n⟩ := t
  cases l with
  | mark m =>
    cases m with
    | keyword k => cases k <;> rfl
    | punct p => rfl
    | layout l => cases word
  | _ => rfl

theorem compound?_none {lines : Lines} {l : Lexeme} (h : ∀ w ∈ compoundWords, l ≠ .mark w) :
    compound? lines f around l = none := by
  unfold compound?
  split
  · exact absurd rfl (h .ifKw (by decide))
  · exact absurd rfl (h .whileKw (by decide))
  · exact absurd rfl (h .forKw (by decide))
  · exact absurd rfl (h .defKw (by decide))
  · rfl

/-- Compound statements are read the same, and carry the line of their first word. -/
theorem compound?_keeps (around : Surrounding)
    (h : ∀ around, StatementKept writes var f f' around) (l : Lexeme) :
    (compound? (parseStatement f) f around l = none ∧
      compound? (parseStatement f') f' around l = none) ∨
    ∃ stmt stmt', compound? (parseStatement f) f around l = some stmt ∧
      compound? (parseStatement f') f' around l = some stmt' ∧ ∀ n,
        Keeps writes var f f' .inside (stmt n) (stmt' n) (Stmt.logged writes var) ∧
        ∀ ts s rest, stmt n ts = .ok (s, rest) → s.line = n := by
  unfold compound?
  split
  · exact .inr ⟨_, _, rfl, rfl, fun n => ⟨branch_keeps h around n, fun _ _ _ => branch_line⟩⟩
  · exact .inr ⟨_, _, rfl, rfl, fun n => ⟨whileLoop_keeps h around n, fun _ _ _ => whileLoop_line⟩⟩
  · exact .inr ⟨_, _, rfl, rfl, fun n => ⟨forLoop_keeps h around n, fun _ _ _ => forLoop_line⟩⟩
  · exact .inr ⟨_, _, rfl, rfl, fun n => ⟨define_keeps h n, fun _ _ _ => define_line⟩⟩
  · exact .inl ⟨rfl, rfl⟩

theorem LineRead.congr {p p' : Parse (List Stmt)} {last : Nat} {ss : List Stmt}
    (heq : p (weave writes var ts) = p' (weave writes var ts))
    (h : LineRead writes var p last ts rest ss) : LineRead writes var p' last ts rest ss := by
  cases h with
  | plain last' reads shorter later follows quiet =>
    exact .plain last' (heq ▸ reads) shorter later follows quiet
  | written n hn reads shorter later follows nonempty onLine =>
    exact .written n hn (heq ▸ reads) shorter later follows nonempty onLine

/-- A compound statement after its first word, which is on no line that writes. -/
theorem compound_keeps {stmt stmt' : Nat → Parse Stmt} {last : Nat} {t : Token} {ss : List Stmt}
    (hkeeps : Keeps writes var f f' .inside (stmt t.line) (stmt' t.line) (Stmt.logged writes var))
    (hline : ∀ ts s rest, stmt t.line ts = .ok (s, rest) → s.line = t.line)
    (word : t.lexeme.isLayout = false) (hw : writes t.line = false)
    (follows : Follows writes (.inside last) ts) (hf : ts.length < f)
    (hf' : (weave writes var ts).length < f')
    (h : (do advance; pure [← stmt t.line] : Parse (List Stmt)) (t :: ts) = .ok (ss, rest)) :
    rest.length < (t :: ts).length ∧
      LineRead writes var (do advance; pure [← stmt' t.line]) last (t :: ts) rest ss := by
  rw [bind_ok advance_apply, List.tail_cons] at h
  obtain ⟨s, mid, hstmt, hpure⟩ := ok_of_bind h
  cases hpure
  obtain ⟨reads, shorter, shorter', last', later, follows'⟩ :=
    hkeeps last ts s rest follows hf hf' hstmt
  refine ⟨Nat.lt_succ_of_le shorter, .plain last' ?_ ?_ later follows' ?_⟩
  · rw [weave_cons (endsWritten_of_word word), bind_ok advance_apply, List.tail_cons, bind_ok reads]
    rfl
  · rw [weave_cons (endsWritten_of_word word), List.length_cons]
    exact Nat.lt_succ_of_le shorter'
  · intro s' hs
    obtain rfl := List.mem_singleton.mp hs
    rw [hline ts s' rest hstmt]
    exact hw

/-- The line that a simple statement is on has an end. -/
theorem leftOnLine_lt {phase : Phase} (hts : Follows writes phase ts)
    (hp : ∀ last, phase ≠ .between last) : leftOnLine ts < ts.length := by
  induction hts with
  | nil => exact absurd rfl (hp _)
  | cons hn _ ih =>
    rw [leftOnLine, List.length_cons]
    cases hn with
    | layout => exact absurd rfl (hp _)
    | opens => exact absurd rfl (hp _)
    | opensWritten => exact absurd rfl (hp _)
    | goesOn word =>
      have := ih fun _ => Phase.noConfusion
      rw [word]
      simp
      omega
    | goesOnWritten word =>
      have := ih fun _ => Phase.noConfusion
      rw [word]
      simp
      omega
    | ends hl =>
      rw [hl]
      exact Nat.succ_pos _
    | endsWritten hl =>
      rw [hl]
      exact Nat.succ_pos _

/-- The parsers of statements make the same statements, with the calls in their blocks. -/
theorem statement_kept : ∀ (f f' : Nat) (around : Surrounding),
    StatementKept writes var f f' around
  | 0, _, _ => fun _ _ _ _ _ _ hf => absurd hf (Nat.not_lt_zero _)
  | _ + 1, 0, _ => fun _ _ _ _ _ _ _ hf' => absurd hf' (Nat.not_lt_zero _)
  | f + 1, f' + 1, around => by
    intro last ts ss rest hts word hf hf' hread
    cases ts with
    | nil => cases word
    | cons t ts =>
      have word' : t.lexeme.isLayout = false := word
      have woven : weave writes var (t :: ts) = t :: weave writes var ts :=
        weave_cons (endsWritten_of_word word')
      have inner : ∀ around, StatementKept writes var f f' around := statement_kept f f'
      have wider : (t :: ts).length ≤ (weave writes var (t :: ts)).length := length_le_weave
      rw [parseStatement, statements_eq _ word'] at hread
      rcases compound?_keeps around inner t.lexeme with
        ⟨hnone, hnone'⟩ | ⟨stmt, stmt', hsome, hsome', hstmt⟩
      · have same : simpleLine f' around (weave writes var (t :: ts))
            = parseStatement (f' + 1) around (weave writes var (t :: ts)) := by
          rw [parseStatement, woven, statements_eq _ word', hnone']
        rw [hnone] at hread
        rcases hts.between_word word' with ⟨hw, follows⟩ | ⟨hw, later, -, follows⟩
        · have inside : Follows writes (.inside last) (t :: ts) := .cons (.goesOn word' hw) follows
          have left := leftOnLine_lt inside fun _ => Phase.noConfusion
          have room : leftOnLine (t :: ts) < f' := by omega
          obtain ⟨reads, follows', shorter, shorter', hss⟩ :=
            simpleLine_inside inside (by omega) room hread
          rw [same, ← map_logged_simple fun s hs => (hss s hs).1] at reads
          exact ⟨shorter, .plain last reads shorter' (Nat.le_refl last) follows' fun s hs =>
            (hss s hs).2⟩
        · have inside : Follows writes (.written t.line) (t :: ts) :=
            .cons (.goesOnWritten word') follows
          have left := leftOnLine_lt inside fun _ => Phase.noConfusion
          have room : leftOnLine (t :: ts) < f' := by omega
          obtain ⟨reads, follows', shorter, shorter', hne, hss⟩ :=
            simpleLine_written hw inside (by omega) room hread
          rw [same] at reads
          exact ⟨shorter, .written t.line hw reads shorter' later follows' hne hss⟩
      · rw [hsome] at hread
        rcases hts.between_word word' with ⟨hw, follows⟩ | ⟨-, -, hc, -⟩
        · obtain ⟨hkeeps, hline⟩ := hstmt t.line
          rw [List.length_cons] at hf
          rw [woven, List.length_cons] at hf'
          obtain ⟨shorter, hread'⟩ := compound_keeps hkeeps hline word' hw follows (by omega)
            (by omega) hread
          refine ⟨shorter, hread'.congr ?_⟩
          rw [parseStatement, woven, statements_eq _ word', hsome']
        · rw [compound?_none hc] at hsome
          cases hsome

/-! ## Programs -/

theorem programLines_word (full r : Nat) (done : List Stmt) (ts : List Token)
    (h : (lexemeOf ts).isLayout = false) :
    programLines full (r + 1) done ts = (parseStatement full ⟨false, false⟩ >>= fun next =>
      programLines full r (next.reverse ++ done)) ts := by
  rw [programLines, bind_ok (check_miss (ne_layout h _))]
  simp only [Bool.false_eq_true, if_false]
  rw [bind_ok (accept_miss (ne_layout h _))]
  rfl

/-- The layout that a text ends at. -/
theorem programLines_layout (r r' last : Nat) (ts : List Token) (done ss : List Stmt)
    (rest : List Token) (hts : Follows writes (.between last) ts)
    (layout : (lexemeOf ts).isLayout = true)
    (h : programLines f (r + 1) done ts = .ok (ss, rest)) :
    ss = done.reverse ∧ ∀ done', KeptTo writes var (programLines f' (r' + 1) done') last ts rest
      done'.reverse := by
  obtain ⟨l, hl⟩ := Lexeme.eq_of_isLayout layout
  have stuck (hl : lexemeOf ts = .mark Layout.indent ∨ lexemeOf ts = .mark Layout.dedent) :
      False := by
    rw [programLines, bind_ok (check_miss (by rcases hl with hl | hl <;> simp [hl]))] at h
    simp only [Bool.false_eq_true, if_false] at h
    rw [bind_ok (accept_miss (by rcases hl with hl | hl <;> simp [hl]))] at h
    obtain ⟨next, mid, hread, -⟩ := ok_of_bind h
    exact parseStatement_stuck hl hread
  cases l with
  | finish =>
    rw [programLines, bind_ok (check_hit hl)] at h
    cases h
    refine ⟨rfl, fun done' => ⟨?_, Nat.le_refl _, Nat.le_refl _, last, Nat.le_refl last, hts⟩⟩
    rw [programLines, bind_ok (check_hit (by rwa [lexemeOf_weave]))]
    rfl
  | newline =>
    cases ts with
    | nil => cases hl
    | cons t ts => exact absurd rfl (hts.between_layout hl).1
  | indent => exact (stuck (.inl hl)).elim
  | dedent => exact (stuck (.inr hl)).elim

/-- The parser makes the program with calls after the lines that write. -/
theorem parseTokens_weave {P : List Stmt} (hts : Follows writes (.between 0) ts)
    (h : parseTokens ts = .ok P) :
    parseTokens (weave writes var ts) = .ok (Stmt.loggedBlock writes var P) := by
  rw [parseTokens_eq] at h ⊢
  cases hread : programLines (ts.length + 1) (ts.length + 1) [] ts with
  | error e =>
    rw [hread] at h
    cases h
  | ok r =>
    obtain ⟨ss, rest⟩ := r
    rw [hread] at h
    obtain rfl : ss = P := Except.ok.inj h
    obtain ⟨new, rfl, hnew, -⟩ := lines_keep (statement_kept _ _ _) (programLines_word _)
      (programLines_word _) programLines_layout (ts.length + 1) (Nat.le_refl _)
      ((weave writes var ts).length + 1) (Nat.le_refl _) 0 ts [] ss rest hts (Nat.lt_succ_self _)
      (Nat.lt_succ_self _) hread
    rw [(hnew []).reads]
    rfl

end SortTrace.Script
