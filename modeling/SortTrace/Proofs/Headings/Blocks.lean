import SortTrace.Proofs.Headings.Outline

/-!
# Blocks with the functions in them

The parsers of statements and blocks take the tokens of whole logical lines, and with them the
headings of the functions that they make. So the tokens of a program hold a heading for each of its
functions and begin a function nowhere else (`outline_of_parseTokens`).
-/

namespace SortTrace.Script

open Parse

variable {whole ts rest : List Token} {heads : List (Nat × String)} {fuel n : Nat}
  {around : Surrounding}

/-! ## Lines of small statements -/

theorem smallStatement_outline : Leaves (Outlined whole heads) (smallStatement fuel around)
    fun s ts => s.isSimple = true ∧ Outlined whole heads ts := by
  intro ts s rest hts hread
  have read : Parse.Makes (Outlined whole heads) _ (smallStatement fuel around) :=
    smallStatement_read ExprGrammar.any.exprParts around
  exact ⟨(smallStatement_line hread).2, (read ts s rest hts hread).2⟩

theorem moreStatements_outline (full : Nat) : ∀ (fuel : Nat) (done : List Stmt),
    (∀ s ∈ done, s.isSimple = true) →
    Leaves (Outlined whole heads) (moreStatements full around fuel done) fun ss ts =>
      (∀ s ∈ ss, s.isSimple = true) ∧ Outlined whole heads ts
  | 0, _, hdone => .pure fun _ hts => ⟨fun s hs => hdone s (List.mem_reverse.mp hs), hts⟩
  | fuel + 1, done, hdone => by
    refine smallStatement_outline.bind fun next ts ss rest ⟨hnext, hts⟩ => ?_
    have both : ∀ s ∈ next :: done, s.isSimple = true := List.forall_mem_cons.mpr ⟨hnext, hdone⟩
    have ended : Leaves (Outlined whole heads) (pure (next :: done).reverse) fun ss ts =>
        (∀ s ∈ ss, s.isSimple = true) ∧ Outlined whole heads ts :=
      .pure fun _ hts => ⟨fun s hs => both s (List.mem_reverse.mp hs), hts⟩
    refine (Leaves.after fun _ => .ite (fun _ => .after fun _ => .ite (fun _ => ended) fun _ => ?_)
      fun _ => ended) ts ss rest hts
    exact moreStatements_outline full fuel (next :: done) both

/-- A line of small statements has no function in it, and a line begins behind it. -/
theorem simpleLine_outline : Leaves (Outlined whole heads) (simpleLine fuel around) fun ss ts =>
    AtStart whole (heads ++ Stmt.headings ss) ts := by
  refine (moreStatements_outline fuel fuel [] nofun).bind fun ss ts ss' rest ⟨hss, hts⟩ hread => ?_
  rw [bind_ok peek_apply] at hread
  have none : heads ++ Stmt.headings ss = heads := by rw [headings_simple hss, List.append_nil]
  generalize hl : lexemeOf ts = l at hread
  split at hread
  · cases hread
    rw [none]
    exact Outlined.takeLayout ⟨hts, hl⟩ nofun
  · cases hread
    obtain ⟨front, hwhole, outline⟩ := hts
    rw [none]
    exact ⟨front, hwhole, outline, .inr hl⟩
  · obtain ⟨l', mid, -, hread⟩ := ok_of_bind hread
    split at hread <;> cases hread

/-! ## Blocks -/

theorem acceptLayout_keeps {l : Layout} (hl : l ≠ .finish) :
    Parse.Keeps (AtStart whole heads) (accept l) :=
  accept_keeps fun _ hts => Outlined.takeLayout ⟨hts.1.outlined, hts.2⟩ hl

instance : Parse.Keeps (AtStart whole heads) (accept Layout.newline) := acceptLayout_keeps nofun

instance : Parse.Keeps (AtStart whole heads) (accept Layout.dedent) := acceptLayout_keeps nofun

theorem blockLines_outline {statements : Parse (List Stmt)}
    (h : ∀ heads, Leaves (AtStart whole heads) statements fun ss ts =>
      AtStart whole (heads ++ Stmt.headings ss) ts) :
    ∀ (fuel : Nat) (done : List Stmt),
      Leaves (AtStart whole (heads ++ Stmt.headings done.reverse)) (blockLines statements fuel done)
        fun ss ts => AtStart whole (heads ++ Stmt.headings ss) ts
  | 0, _ => .pure fun _ hts => hts
  | fuel + 1, done => by
    have ended : Leaves (AtStart whole (heads ++ Stmt.headings done.reverse)) (pure done.reverse)
        fun ss ts => AtStart whole (heads ++ Stmt.headings ss) ts := .pure fun _ hts => hts
    refine .after fun _ => .ite (fun _ => ended) fun _ => ?_
    refine .after fun _ => .ite (fun _ => ended) fun _ => ?_
    refine .after fun _ => .ite (fun _ => blockLines_outline h fuel done) fun _ => ?_
    refine (h _).bind fun next => ?_
    have more := blockLines_outline h fuel (next.reverse ++ done)
    rwa [List.reverse_append, List.reverse_reverse, headings_append, ← List.append_assoc] at more

/-- The next token is taken if it is the word of a further part of a statement. -/
theorem acceptWord_outline {α : Type} {word : Keyword} {hit miss : Parse α}
    {post : α → List Token → Prop} (hword : word ≠ .defKw)
    (hhit : Leaves (Outlined whole heads) hit post)
    (hmiss : Leaves (AtStart whole heads) miss post) :
    Leaves (AtStart whole heads) (accept word >>= fun b => if b = true then hit else miss)
      post := by
  refine .acceptIte (fun ts hts => ?_) hhit hmiss
  refine Outlined.take ⟨hts.1.outlined, hts.2⟩ fun heq => hword ?_
  cases heq
  rfl

theorem ok_expectName {name : String} (h : expectName ts = .ok (name, rest)) :
    ∃ k, ts = ⟨.name name, k⟩ :: rest := by
  rw [expectName, bind_ok peek_apply] at h
  generalize hl : lexemeOf ts = l at h
  split at h
  · cases h
    cases ts with
    | nil => cases hl
    | cons t ts => exact ⟨t.line, congrArg (Token.mk · t.line :: ts) hl⟩
  · obtain ⟨l, mid, -, h⟩ := ok_of_bind h
    split at h <;> cases h

theorem ok_expect {m : Mark} {u : Unit} (h : expect m ts = .ok (u, rest))
    (hm : m ≠ .layout .finish) : ∃ k, ts = ⟨.mark m, k⟩ :: rest := by
  by_cases hl : lexemeOf ts = .mark m
  · cases ts with
    | nil =>
      cases hl
      exact absurd rfl hm
    | cons t ts =>
      rw [expect, bind_ok (accept_cons hl)] at h
      cases h
      exact ⟨t.line, congrArg (Token.mk · t.line :: _) hl⟩
  · rw [expect, bind_ok (accept_miss hl)] at h
    obtain ⟨l, mid, -, h⟩ := ok_of_bind h
    split at h <;> cases h

section Blocks

variable {lines : Lines} (h : ∀ around heads, Leaves (AtStart whole heads) (lines around)
  fun ss ts => AtStart whole (heads ++ Stmt.headings ss) ts)

include h

theorem block_outline (owner : String) (ownerLine : Nat) :
    Leaves (Outlined whole heads) (block lines fuel around owner ownerLine) fun ss ts =>
      AtStart whole (heads ++ Stmt.headings ss) ts := by
  refine .after fun _ => .acceptIte (fun ts hts => Outlined.takeLayout hts nofun) ?_
    simpleLine_outline
  refine .acceptIte (fun ts hts => Outlined.takeLayout ⟨hts.1.outlined, hts.2⟩ nofun) ?_ (.fail _)
  refine (blockLines_outline (h around) fuel []).weaken fun ts hts => ?_
  rwa [List.reverse_nil, show Stmt.headings [] = [] from rfl, List.append_nil]

theorem otherwise_outline : Leaves (AtStart whole heads) (otherwise lines fuel around) fun ss ts =>
    AtStart whole (heads ++ Stmt.headings ss) ts := by
  refine .after fun line => acceptWord_outline nofun (block_outline h _ line) ?_
  exact .pure fun ts hts => (List.append_nil heads).symm ▸ hts

theorem moreCases_outline (full : Nat) : ∀ (fuel : Nat) (cases : List (Expr × List Stmt)),
    Leaves (AtStart whole (heads ++ Stmt.headingsOf (Stmt.inCases cases.reverse)))
      (moreCases lines full around fuel cases) fun made ts => AtStart whole
        (heads ++ Stmt.headingsOf (Stmt.inCases made.1) ++ Stmt.headings made.2) ts
  | 0, _ => .pure fun _ hts => (List.append_nil _).symm ▸ hts
  | fuel + 1, cases => by
    refine .after fun line => acceptWord_outline nofun ?_ ?_
    · refine .after fun condition => (block_outline h _ line).bind fun body => ?_
      have more := moreCases_outline full fuel ((condition, body) :: cases)
      rwa [List.reverse_cons, inCases_append, headingsOf_append, ← List.append_assoc,
        headings_case] at more
    · exact (otherwise_outline h).bind fun last => .pure fun ts hts => hts

theorem branch_outline : Leaves (Outlined whole heads) (branch lines fuel around n) fun s ts =>
    AtStart whole (heads ++ Stmt.headings [s]) ts := by
  refine .after fun condition => (block_outline h _ n).bind fun body => ?_
  have cases : Leaves (AtStart whole (heads ++ _)) (moreCases lines fuel around fuel _) _ :=
    moreCases_outline h fuel fuel [(condition, body)]
  rw [List.reverse_singleton, headings_case] at cases
  refine cases.bind fun made => .pure fun ts hts => ?_
  rwa [headings_branch, ← List.append_assoc]

/-- What follows a loop: its body and the block after `else`. -/
theorem looped_outline {s : List Stmt → List Stmt → Stmt}
    (hs : ∀ body last, (s body last).heading? = none ∧
      (s body last).inner = Stmt.inBlock body ++ Stmt.inBlock last) (owner : String)
    (around' : Surrounding) :
    Leaves (Outlined whole heads)
      (do
        let body ← block lines fuel around' owner n
        s body <$> otherwise lines fuel around)
      fun s ts => AtStart whole (heads ++ Stmt.headings [s]) ts := by
  refine (block_outline h owner n).bind fun body => ?_
  refine (otherwise_outline h).map fun last ts hts => ?_
  obtain ⟨none, inner⟩ := hs body last
  rw [headings_singleton, none, inner, headingsOf_append]
  rwa [List.append_assoc] at hts

theorem whileLoop_outline : Leaves (Outlined whole heads) (whileLoop lines fuel around n)
    fun s ts => AtStart whole (heads ++ Stmt.headings [s]) ts :=
  .after fun _ => looped_outline h (fun _ _ => ⟨rfl, rfl⟩) _ _

theorem forLoop_outline : Leaves (Outlined whole heads) (forLoop lines fuel around n)
    fun s ts => AtStart whole (heads ++ Stmt.headings [s]) ts := by
  have looped (target : Expr) : Leaves (Outlined whole heads)
      (if target.isTarget then do
        expect Keyword.inKw
        let items ← parseTestList fuel
        let body ← block lines fuel { around with inLoop := true } "'for' statement" n
        .forLoop n target items body <$> otherwise lines fuel around
      else fail "cannot assign to expression")
      fun s ts => AtStart whole (heads ++ Stmt.headings [s]) ts :=
    .ite (fun _ => .after fun _ => .after fun _ => looped_outline h (fun _ _ => ⟨rfl, rfl⟩) _ _)
      fun _ => .fail _
  refine .after fun first => .after fun several => ?_
  split
  · exact .after looped
  · exact .after looped

/-- Behind the word that begins a function, its name and a bracket make the heading. -/
theorem define_outline {front : List Token} (hwhole : whole = front.reverse
      ++ ⟨.mark Keyword.defKw, n⟩ :: ts) (outline : Outline front heads)
    (layout : Scan.AtLayout front) {s : Stmt} (hread : define lines fuel n ts = .ok (s, rest)) :
    AtStart whole (heads ++ Stmt.headings [s]) rest := by
  obtain ⟨name, mid, hname, hmore⟩ := ok_of_bind hread
  obtain ⟨u, mid', hparen, hrest⟩ := ok_of_bind hmore
  clear hread hmore
  obtain ⟨k, rfl⟩ := ok_expectName hname
  obtain ⟨k', rfl⟩ := ok_expect hparen nofun
  have headed : Outlined whole (heads ++ [(n, name)]) mid' := by
    refine ⟨⟨.mark Punct.lparen, k'⟩ :: ⟨.name name, k⟩ :: ⟨.mark Keyword.defKw, n⟩ :: front, ?_,
      outline.heading layout⟩
    rw [hwhole]
    simp
  have body : Leaves (Outlined whole (heads ++ [(n, name)]))
      (do
        let params ← parameters fuel fuel []
        expect Punct.rparen
        .define n name params
          <$> block lines fuel ⟨true, false⟩ "function definition" n)
      fun s ts => AtStart whole (heads ++ Stmt.headings [s]) ts := by
    refine .after fun params => .after fun _ => (block_outline h _ n).map fun body ts hts => ?_
    rwa [headings_define, List.append_cons]
  exact body mid' s rest headed hrest

theorem statements_outline : Leaves (AtStart whole heads) (statements lines fuel around)
    fun ss ts => AtStart whole (heads ++ Stmt.headings ss) ts := by
  intro ts ss rest hts hread
  rw [statements, bind_ok line_apply, bind_ok peek_apply] at hread
  have one {stmt : Parse Stmt} (hword : lexemeOf ts ≠ .mark Keyword.defKw)
      (hstmt : Leaves (Outlined whole heads) stmt fun s ts =>
        AtStart whole (heads ++ Stmt.headings [s]) ts)
      (hread : (do advance; pure [← stmt] : Parse (List Stmt)) ts = .ok (ss, rest)) :
      AtStart whole (heads ++ Stmt.headings ss) rest := by
    rw [bind_ok advance_apply] at hread
    obtain ⟨s, mid, hs, hmade⟩ := ok_of_bind hread
    cases hmade
    exact hstmt ts.tail s rest (Outlined.take ⟨hts.outlined, rfl⟩ hword) hs
  have other {k : Keyword} (hk : k ≠ .defKw) : Lexeme.mark k ≠ .mark Keyword.defKw := by
    rintro ⟨⟩
    exact hk rfl
  generalize hl : lexemeOf ts = l at hread one
  split at hread
  · exact one (other (by decide)) (branch_outline h) hread
  · exact one (other (by decide)) (whileLoop_outline h) hread
  · exact one (other (by decide)) (forLoop_outline h) hread
  · dsimp only at hread
    rw [bind_ok advance_apply] at hread
    obtain ⟨s, mid, hs, hmade⟩ := ok_of_bind hread
    cases hmade
    obtain ⟨front, hwhole, outline, layout⟩ := hts
    cases ts with
    | nil => cases hl
    | cons t ts =>
      obtain ⟨l, n⟩ := t
      obtain rfl : l = _ := hl
      have begins : Scan.AtLayout front := layout.resolve_right fun finish => by cases finish
      exact define_outline h hwhole outline begins hs
  · obtain ⟨l, mid, -, hread⟩ := ok_of_bind hread
    split at hread <;> cases hread
  · obtain ⟨l, mid, -, hread⟩ := ok_of_bind hread
    split at hread <;> cases hread
  · exact simpleLine_outline ts ss rest hts.outlined hread

end Blocks

/-! ## Programs -/

theorem parseStatement_outline :
    ∀ (fuel : Nat) (around : Surrounding) (heads : List (Nat × String)),
      Leaves (AtStart whole heads) (parseStatement fuel around) fun ss ts =>
        AtStart whole (heads ++ Stmt.headings ss) ts
  | 0, _, _ => .fail _
  | fuel + 1, _, _ => statements_outline (parseStatement_outline fuel)

/-- The lines of a whole text are read up to its end. -/
theorem programLines_outline (full : Nat) : ∀ (r last : Nat) (ts : List Token) (done : List Stmt)
    {ss : List Stmt} {rest : List Token}, Follows (fun _ => false) (.between last) ts →
    ts.length < r → ts.length < full → AtStart whole (Stmt.headings done.reverse) ts →
    programLines full r done ts = .ok (ss, rest) →
    Outlined whole (Stmt.headings ss) rest ∧ lexemeOf rest = .mark Layout.finish
  | 0, _, _, _, _, _, _, hr, _, _, _ => absurd hr (Nat.not_lt_zero _)
  | r + 1, last, ts, done, ss, rest, follows, hr, hfull, hts, hread => by
    cases layout : (lexemeOf ts).isLayout with
    | false =>
      rw [programLines_readsLines.line r done layout] at hread
      obtain ⟨next, mid, hstmt, hmore⟩ := ok_of_bind hread
      have kept (f : Nat) : StatementKept (fun _ => false) "" full f ⟨false, false⟩ :=
        statement_kept full f _
      obtain ⟨shorter, onward⟩ := kept _ last ts next mid follows layout hfull (Nat.lt_succ_self _)
        hstmt
      have more : AtStart whole (Stmt.headings done.reverse ++ Stmt.headings next) mid :=
        parseStatement_outline full _ _ ts next mid hts hstmt
      rw [← headings_append, ← List.reverse_reverse next, ← List.reverse_append] at more
      cases onward with
      | plain last' _ _ _ follows' =>
        exact programLines_outline full r last' mid _ follows' (by omega) (by omega) more hmore
      | written n hn => cases hn
    | true =>
      obtain ⟨l, hl⟩ := Lexeme.eq_of_isLayout layout
      cases ts with
      | nil =>
        rw [programLines_readsLines.finish r done rfl] at hread
        cases hread
        exact ⟨hts.outlined, rfl⟩
      | cons t ts =>
        cases l with
        | finish =>
          rw [programLines_readsLines.finish r done hl] at hread
          cases hread
          exact ⟨hts.outlined, hl⟩
        | newline => exact absurd rfl (follows.between_layout hl).1
        | indent => exact absurd hread (programLines_readsLines.indent r done hl)
        | dedent => cases (programLines_readsLines.dedent r done hl hread).1

/-- Without lines that write, the tokens of a text follow its layout. -/
theorem follows_of_tokenize {text : String} (h : tokenize text #[] = .ok ts) :
    Follows (fun _ => false) (.between 0) ts := by
  obtain ⟨t, hrun, rfl⟩ := Scan.run_of_tokenize h
  have first : Scan.Quiet (fun _ => false) 0 [] (Scan.start text.toList) :=
    ⟨⟨[], rfl, nofun⟩, .nil, fun _ => rfl⟩
  obtain ⟨ended, layout⟩ := (Scan.run_quiet first hrun fun _ _ _ => rfl).1.endLine rfl
  have reaches := ended.reaches
  rw [Scan.phase, if_pos layout] at reaches
  rw [Scan.finish_eq]
  exact reaches.follows (Scan.follows_layout (Scan.lastTokens_layout _ _))

/-- The functions of a program are where its tokens begin functions. -/
theorem outline_of_parseTokens {text : String} {program : List Stmt}
    (htokens : tokenize text #[] = .ok ts) (h : parseTokens ts = .ok program) :
    Outline ts.reverse (Stmt.headings program) := by
  rw [parseTokens_eq] at h
  cases hread : programLines (ts.length + 1) (ts.length + 1) [] ts with
  | error e =>
    rw [hread] at h
    cases h
  | ok made =>
    obtain ⟨ss, rest⟩ := made
    rw [hread] at h
    obtain rfl : ss = program := Except.ok.inj h
    have begins : AtStart ts (Stmt.headings ([] : List Stmt).reverse) ts :=
      ⟨[], rfl, .nil, .inl rfl⟩
    obtain ⟨⟨front, hts, outline⟩, hrest⟩ := programLines_outline (ts.length + 1) _ 0 ts []
      (follows_of_tokenize htokens) (Nat.lt_succ_self _) (Nat.lt_succ_self _) begins hread
    cases rest with
    | nil => rwa [hts, List.append_nil, List.reverse_reverse]
    | cons t rest =>
      -- Nothing is behind the end of the text.
      obtain ⟨words, hwords, once⟩ := (tokenize_wellLaidOut htokens).finish
      rcases List.eq_nil_or_concat rest with rfl | ⟨more, x, rfl⟩
      · rw [hts, List.reverse_append, List.reverse_reverse]
        have ends : t.lexeme = .mark Layout.finish := hrest
        exact outline.other (ends ▸ nofun)
      · rw [hts, List.concat_eq_append, ← List.cons_append, ← List.append_assoc, List.map_append]
          at hwords
        have hmem : t.lexeme ∈ words := (List.append_inj' hwords rfl).1 ▸ by simp
        exact absurd (hrest ▸ hmem) once

end SortTrace.Script
