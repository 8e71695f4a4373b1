import SortTrace.Proofs.Instrumenting.Steps

/-!
# The same piece of text in two places

A piece of text is scanned in the same way wherever it stands: after other tokens, on later lines,
and before more text behind a newline. `Mirrors` relates the two scans, and `run_mirrors` keeps them
related up to the end of the piece.
-/

namespace SortTrace.Script.Scan

/-- Is the newest of the tokens, if there is one, a line end or a change of indentation? -/
def AtLayout (tokens : List Token) : Prop :=
  ({ start [] with tokens } : Scan).atLayout = true

/-- The second scan reads the same piece of text as the first: `k` lines further down, with `tail`
behind the piece and other tokens before it. -/
structure Mirrors (k : Nat) (tail : List Char) (base base' : List Token) (s s' : Scan) : Prop where
  rest : s'.rest = s.rest ++ tail
  line : s'.line = s.line + k
  widths : s'.widths = s.widths
  depth : s'.depth = s.depth
  fresh : s'.fresh = s.fresh
  tokens : ∃ new, s.tokens = new ++ base ∧ s'.tokens = new ++ base'

variable {map map' : Array Nat} {k n width depth : Nat} {tail cs : List Char} {c : Char}
  {base base' : List Token} {s s' t u : Scan} {l : Lexeme}

namespace Mirrors

theorem skip (h : Mirrors k tail base base' s s') (n : Nat) (rest : List Char) :
    Mirrors k tail base base' { s with rest, line := s.line + n }
      { s' with rest := rest ++ tail, line := s'.line + n } := by
  refine ⟨rfl, ?_, h.widths, h.depth, h.fresh, h.tokens⟩
  have hline := h.line
  dsimp only
  omega

theorem push (h : Mirrors k tail base base' s s')
    (hline : reportedLine map' s'.line = reportedLine map s.line) (l : Lexeme) :
    Mirrors k tail base base' (s.push map l) (s'.push map' l) := by
  obtain ⟨new, htokens, htokens'⟩ := h.tokens
  refine ⟨h.rest, h.line, h.widths, h.depth, h.fresh, ⟨l, reportedLine map s.line⟩ :: new, ?_, ?_⟩
  · rw [Scan.push, htokens]
    rfl
  · rw [Scan.push, htokens', hline]
    rfl

theorem withDepth (h : Mirrors k tail base base' s s') (depth : Nat) :
    Mirrors k tail base base' { s with depth } { s' with depth } :=
  ⟨h.rest, h.line, h.widths, rfl, h.fresh, h.tokens⟩

theorem withWidths (h : Mirrors k tail base base' s s') (widths : List Nat) :
    Mirrors k tail base base' { s with widths } { s' with widths } :=
  ⟨h.rest, h.line, rfl, h.depth, h.fresh, h.tokens⟩

theorem withFresh (h : Mirrors k tail base base' s s') (fresh : Bool) :
    Mirrors k tail base base' { s with fresh } { s' with fresh } :=
  ⟨h.rest, h.line, h.widths, h.depth, rfl, h.tokens⟩

theorem atLayout (h : Mirrors k tail base base' s s') (hb : AtLayout base)
    (hb' : AtLayout base') : s'.atLayout = s.atLayout := by
  obtain ⟨new, htokens, htokens'⟩ := h.tokens
  rw [Scan.atLayout, Scan.atLayout, htokens, htokens']
  cases new with
  | nil => exact hb'.trans hb.symm
  | cons t new => rfl

theorem endLine (h : Mirrors k tail base base' s s') (hb : AtLayout base) (hb' : AtLayout base')
    (hline : reportedLine map' s'.line = reportedLine map s.line) :
    Mirrors k tail base base' (s.endLine map) (s'.endLine map') := by
  rw [Scan.endLine, Scan.endLine, h.atLayout hb hb']
  split
  · exact h
  · exact h.push hline _

end Mirrors

/-! ## Inside a line -/

section Reading

variable (h : Mirrors k tail base base' s s')
  (hline : reportedLine map' s'.line = reportedLine map s.line)

include h hline

theorem readWord_mirrors (ht : EndsLine tail) :
    Mirrors k tail base base' (s.readWord map c cs) (s'.readWord map' c (cs ++ tail)) := by
  rw [readWord, readWord, takeWhile_append_stop (ht.stop (by decide)),
    dropWhile_append_stop (ht.stop (by decide))]
  exact (h.skip 0 (cs.dropWhile Text.continuesWord)).push hline _

omit hline in
theorem nest_mirrors (hs : s.nest map c l = .ok depth) : s'.nest map' c l = .ok depth := by
  unfold nest at hs ⊢
  rw [h.depth]
  split at hs
  case h_7 => exact hs
  all_goals
    split at hs
    · cases hs
    · next hd =>
      rw [if_neg hd]
      exact hs

omit h hline in
theorem numberLexeme_any {digits : List Char} {real : Bool} {m : Nat}
    (hs : numberLexeme map n digits real = .ok l) : numberLexeme map' m digits real = .ok l := by
  unfold numberLexeme at hs ⊢
  dsimp only at hs ⊢
  cases real with
  | true =>
    simp only [if_true] at hs ⊢
    split at hs
    · exact hs
    · cases hs
  | false =>
    simp only [Bool.false_eq_true, if_false] at hs ⊢
    split at hs
    · exact hs
    · cases hs

theorem readNumber_mirrors (ht : EndsLine tail) (hs : s.readNumber map c cs = .ok t) :
    ∃ t', s'.readNumber map' c (cs ++ tail) = .ok t' ∧ Mirrors k tail base base' t t' := by
  unfold readNumber at hs ⊢
  rw [numberBody_append ht.stops]
  generalize numberBody cs (c == '.') [c] = body at hs
  obtain ⟨digits, real, rest⟩ := body
  dsimp only at hs ⊢
  split at hs
  · cases hs
  · next hword =>
    have ends : ¬ (rest ++ tail).head?.any Text.startsWord = true := by
      cases rest with
      | nil =>
        cases tail with
        | nil => exact hword
        | cons d tail =>
          obtain rfl := ht d rfl
          exact Bool.false_ne_true
      | cons d rest => exact hword
    rw [if_neg ends]
    cases hl : numberLexeme map s.line digits real with
    | error e =>
      rw [hl] at hs
      cases hs
    | ok l =>
      rw [hl] at hs
      cases hs
      rw [numberLexeme_any hl]
      exact ⟨_, rfl, (h.skip 0 rest).push hline l⟩

theorem readOperator_mirrors (ht : EndsLine tail) (hs : s.readOperator map c cs = .ok t) :
    ∃ t', s'.readOperator map' c (cs ++ tail) = .ok t' ∧ Mirrors k tail base base' t t' := by
  unfold readOperator at hs ⊢
  split at hs
  · next l rest hop =>
    rw [operator?_append ht.stops, hop, Option.map_some]
    cases hd : s.nest map c l with
    | error e =>
      rw [hd] at hs
      cases hs
    | ok depth =>
      rw [hd] at hs
      cases hs
      dsimp only
      rw [nest_mirrors h hd]
      exact ⟨_, rfl, ((h.skip 0 rest).withDepth depth).push hline l⟩
  · cases hs

end Reading

theorem readString_mirrors (h : Mirrors k tail base base' s s')
    (hline : ∀ m, s.line ≤ m → m ≤ s.line + cs.count '\n' →
      reportedLine map' (m + k) = reportedLine map m)
    (hs : s.readString map c cs = .ok t) :
    ∃ t', s'.readString map' c (cs ++ tail) = .ok t' ∧ Mirrors k tail base base' t t' := by
  unfold readString at hs ⊢
  split at hs
  · next content lines rest hbody =>
    have hcount : cs.count '\n' = lines + rest.count '\n' := (stringBody_splits hbody).2.count
    cases hs
    rw [stringBody_append hbody]
    refine ⟨_, rfl, (h.skip lines rest).push ?_ _⟩
    have reported := hline (s.line + lines) (by omega) (by omega)
    have place : s'.line + lines = s.line + lines + k := by
      have hk := h.line
      omega
    exact (congrArg (reportedLine map') place).trans reported
  · cases hs

theorem Mirrors.passLine (h : Mirrors k tail base base' s s') (hb : AtLayout base)
    (hb' : AtLayout base') (hline : reportedLine map' s'.line = reportedLine map s.line) :
    Mirrors k tail base base' (s.passLine map) (s'.passLine map') := by
  rw [Scan.passLine, Scan.passLine, h.depth]
  split
  · exact (h.endLine hb hb' hline).withFresh true
  · exact h

/-- Inside a line the same is read. -/
theorem readToken_mirrors (h : Mirrors k tail base base' s s') (hb : AtLayout base)
    (hb' : AtLayout base') (ht : EndsLine tail)
    (hline : ∀ m, s.line ≤ m → m ≤ s.line + (c :: cs).count '\n' →
      reportedLine map' (m + k) = reportedLine map m)
    (hs : s.readToken map c cs = .ok t) :
    ∃ t', s'.readToken map' c (cs ++ tail) = .ok t' ∧ Mirrors k tail base base' t t' := by
  have here : reportedLine map' s'.line = reportedLine map s.line := by
    rw [h.line]
    exact hline s.line (Nat.le_refl _) (Nat.le_add_right ..)
  unfold readToken at hs ⊢
  split at hs
  · next hc =>
    rw [if_pos hc]
    cases hs
    have passed := (h.passLine hb hb' here).skip 1 cs
    exact ⟨_, rfl, passed⟩
  next hc =>
  rw [if_neg hc]
  rw [List.count_cons_of_ne hc] at hline
  split at hs
  · next hblank =>
    rw [if_pos hblank]
    cases hs
    exact ⟨_, rfl, h.skip 0 cs⟩
  next hblank =>
  rw [if_neg hblank]
  split at hs
  · next hcomment =>
    rw [if_pos hcomment, afterComment_append ht]
    cases hs
    exact ⟨_, rfl, h.skip 0 (afterComment cs)⟩
  next hcomment =>
  rw [if_neg hcomment]
  split at hs
  · next hback =>
    obtain ⟨rest, hrest⟩ := Option.isSome_iff_exists.mp hback.2
    rw [hrest] at hs
    cases hs
    rw [continuation?_append hrest, if_pos ⟨hback.1, rfl⟩]
    exact ⟨_, rfl, h.skip 1 rest⟩
  next hback =>
  have nobackslash : c ≠ '\\' := by
    rintro rfl
    obtain ⟨message, stuck⟩ : ∃ message, s.readOperator map '\\' cs = fail map message s.line :=
      ⟨_, rfl⟩
    rw [if_neg (by decide), if_neg (by simp), if_neg (by decide), stuck] at hs
    cases hs
  rw [if_neg fun hc => nobackslash hc.1]
  split at hs
  · next hquote =>
    rw [if_pos hquote]
    exact readString_mirrors h hline hs
  next hquote =>
  rw [if_neg hquote]
  have ends : (cs ++ tail).head?.any Char.isDigit = cs.head?.any Char.isDigit := by
    cases cs with
    | nil =>
      cases tail with
      | nil => rfl
      | cons d tail =>
        obtain rfl := ht d rfl
        rfl
    | cons d cs => rfl
  rw [ends]
  split at hs
  · next hdigit =>
    rw [if_pos hdigit]
    exact readNumber_mirrors h here ht hs
  next hdigit =>
  rw [if_neg hdigit]
  split at hs
  · next hword =>
    rw [if_pos hword]
    cases hs
    exact ⟨_, rfl, readWord_mirrors h here ht⟩
  · next hword =>
    rw [if_neg hword]
    exact readOperator_mirrors h here ht hs

/-! ## The start of a line -/

theorem close_mirrors (width : Nat) (ws : List Nat) (h : Mirrors k tail base base' s s')
    (hline : reportedLine map' s'.line = reportedLine map s.line) :
    Mirrors k tail base base' (s.close map width ws) (s'.close map' width ws) := by
  induction ws generalizing s s' with
  | nil => exact h.withWidths []
  | cons w ws ih =>
    rw [close, close]
    split
    · exact ih (h.push hline _) hline
    · exact h.withWidths (w :: ws)

theorem indent_mirrors (h : Mirrors k tail base base' s s')
    (hline : reportedLine map' s'.line = reportedLine map s.line)
    (hs : s.indent map width = .ok u) :
    ∃ u', s'.indent map' width = .ok u' ∧ Mirrors k tail base base' u u' := by
  have closed := close_mirrors width s.widths h hline
  unfold indent at hs ⊢
  rw [h.widths]
  dsimp only at hs ⊢
  split at hs
  · next hdeeper =>
    rw [if_pos hdeeper]
    split at hs
    · cases hs
    · next hblocks =>
      rw [if_neg hblocks]
      cases hs
      exact ⟨_, rfl, (h.withWidths (width :: s.widths)).push hline _⟩
  · next hdeeper =>
    rw [if_neg hdeeper, closed.widths]
    split at hs
    · next hwidth =>
      rw [if_pos hwidth]
      cases hs
      exact ⟨_, rfl, closed⟩
    · cases hs

theorem passNewline_mirrors (h : Mirrors k tail base base' s s') (rest : List Char) :
    Mirrors k tail base base' (s.passNewline ('\n' :: rest))
      (s'.passNewline ('\n' :: rest ++ tail)) :=
  h.skip 1 rest

/-- A blank line is blank wherever it stands. At the end of the piece it ends with the newline
behind the piece. -/
theorem blankLine?_mirrors (h : Mirrors k tail base base' s s') (ht : EndsLine tail)
    (hs : s.blankLine? cs = some t) :
    (∃ t', s'.blankLine? (cs ++ tail) = some t' ∧ Mirrors k tail base base' t t') ∨
      (t = { s with rest := [] } ∧ ∃ rest, tail = '\n' :: rest ∧
        s'.blankLine? (cs ++ tail) = some { s' with rest, line := s'.line + 1 }) := by
  -- What stands behind the piece, when all of it is passed.
  have atEnd (hs : s'.blankLine? (cs ++ tail) = some (s'.passNewline tail)) :
      (∃ t', s'.blankLine? (cs ++ tail) = some t' ∧
        Mirrors k tail base base' { s with rest := [] } t') ∨
      (({ s with rest := [] } : Scan) = { s with rest := [] } ∧ ∃ rest, tail = '\n' :: rest ∧
        s'.blankLine? (cs ++ tail) = some { s' with rest, line := s'.line + 1 }) := by
    cases tail with
    | nil => exact .inl ⟨_, hs, h.skip 0 []⟩
    | cons c tail =>
      obtain rfl := ht c rfl
      exact .inr ⟨rfl, tail, rfl, hs⟩
  unfold blankLine? at hs
  split at hs
  · cases hs
    refine atEnd ?_
    cases tail with
    | nil => rfl
    | cons c tail =>
      obtain rfl := ht c rfl
      rfl
  · cases hs
    exact .inl ⟨_, rfl, passNewline_mirrors h _⟩
  · next rest =>
    split at hs
    · next hrest =>
      cases hs
      cases rest with
      | nil =>
        refine atEnd ?_
        cases tail with
        | nil => rfl
        | cons c tail =>
          obtain rfl := ht c rfl
          rfl
      | cons c rest =>
        obtain rfl : c = '\n' := by simpa using hrest
        exact .inl ⟨_, rfl, passNewline_mirrors h _⟩
    · cases hs
  · next rest =>
    cases hs
    have passed : s'.blankLine? ('#' :: rest ++ tail)
        = some (s'.passNewline (afterComment rest ++ tail)) := by
      rw [← afterComment_append ht]
      rfl
    have ends := afterComment_endsLine rest
    generalize afterComment rest = after at ends passed
    cases after with
    | nil => exact atEnd passed
    | cons c after =>
      obtain rfl := ends c rfl
      exact .inl ⟨_, passed, passNewline_mirrors h after⟩
  · cases hs

theorem blankLine?_none (hs : s.blankLine? cs = none) : s'.blankLine? (cs ++ tail) = none := by
  cases cs with
  | nil => cases hs
  | cons c cs =>
    by_cases hreturn : c = '\r'
    · subst hreturn
      cases cs with
      | nil => cases hs
      | cons d cs =>
        have hd : ¬ ((d :: cs).isEmpty || (d :: cs).head? == some '\n') = true := by
          intro hd
          rw [blankLine?, if_pos hd] at hs
          cases hs
        exact if_neg hd
    · unfold blankLine? at hs ⊢
      split at hs
      case h_5 hnil hnew hret hcomment =>
        split
        · next heq => cases heq
        · next heq => exact absurd (congrArg (· :: cs) (List.cons.inj heq).1) (hnew cs)
        · next heq => exact absurd (List.cons.inj heq).1 hreturn
        · next heq => exact absurd (congrArg (· :: cs) (List.cons.inj heq).1) (hcomment cs)
        · rfl
      case h_3 heq => exact absurd (List.cons.inj heq).1 hreturn
      all_goals cases hs

/-! ## Steps and runs -/

/-- A step in a piece of text is the same wherever the piece stands. Only a blank line without an
end at the end of the piece is passed later, with the newline behind the piece. -/
theorem step_mirrors (h : Mirrors k tail base base' s s') (hb : AtLayout base)
    (hb' : AtLayout base') (ht : EndsLine tail) (hne : s.rest ≠ [])
    (hline : ∀ m, s.line ≤ m → m ≤ s.line + s.rest.count '\n' →
      reportedLine map' (m + k) = reportedLine map m)
    (hs : s.step map = .ok t) :
    ∃ t', Mirrors k tail base base' t t' ∧ s'.run map' = t'.run map' := by
  have hne' : s'.rest ≠ [] := by
    rw [h.rest]
    exact fun hnil => hne (List.append_eq_nil_iff.mp hnil).1
  have here : reportedLine map' s'.line = reportedLine map s.line := by
    rw [h.line]
    exact hline s.line (Nat.le_refl _) (Nat.le_add_right ..)
  have hmargin := (margin_splits 0 s.rest).count
  unfold step at hs
  split at hs
  · next hfresh =>
    have hstep' : s'.step map' = _ := if_pos (h.fresh.trans hfresh)
    rw [h.rest, margin_append ht.stops] at hstep'
    dsimp only at hs hstep'
    split at hs
    · next next hblank =>
      cases hs
      rcases blankLine?_mirrors h ht hblank with ⟨t', hblank', ht'⟩ | ⟨rfl, rest, rfl, hblank'⟩
      · rw [hblank'] at hstep'
        exact ⟨t', ht', run_of_step hne' hstep'⟩
      · -- Both runs pass the newline behind the piece next.
        rw [hblank'] at hstep'
        have last : ({ s' with rest := '\n' :: rest } : Scan).step map'
            = .ok { s' with rest, line := s'.line + 1 } := by
          rw [step, h.fresh, if_pos hfresh]
          rfl
        refine ⟨{ s' with rest := '\n' :: rest }, h.skip 0 [], ?_⟩
        rw [run_of_step hne' hstep', run_of_step (List.cons_ne_nil _ _) last]
    · next hblank =>
      rw [blankLine?_none hblank] at hstep'
      cases hi : s.indent map (margin 0 s.rest).1 with
      | error e =>
        rw [hi] at hs
        cases hs
      | ok u =>
        rw [hi] at hs
        obtain ⟨u', hi', hu⟩ := indent_mirrors h here hi
        obtain ⟨shifts, widths, rfl, -, -⟩ := indent_shifts hi
        rw [hi'] at hstep'
        cases hcs : (margin 0 s.rest).2 with
        | nil =>
          rw [hcs] at hblank
          cases hblank
        | cons c cs =>
          rw [hcs] at hs hstep' hmargin
          obtain ⟨t', hread, ht'⟩ := readToken_mirrors (hu.withFresh false) hb hb' ht
            (fun m hm hm' => hline m hm (by dsimp only at hm'; omega)) hs
          exact ⟨t', ht', run_of_step hne' (hstep'.trans hread)⟩
  · next hfresh =>
    cases hcs : s.rest with
    | nil => exact absurd hcs hne
    | cons c cs =>
      rw [hcs] at hs hline
      have hstep' : s'.step map' = readNext map' (c :: cs ++ tail) s' := by
        rw [step, h.fresh, if_neg hfresh, h.rest, hcs]
      obtain ⟨t', hread, ht'⟩ := readToken_mirrors (h.withFresh false) hb hb' ht hline hs
      exact ⟨t', ht', run_of_step hne' (hstep'.trans hread)⟩

/-- A piece of text is scanned in the same way wherever it stands. -/
theorem run_mirrors (h : Mirrors k tail base base' s s') (hb : AtLayout base)
    (hb' : AtLayout base') (ht : EndsLine tail)
    (hline : ∀ m, s.line ≤ m → m ≤ s.line + s.rest.count '\n' →
      reportedLine map' (m + k) = reportedLine map m)
    (hs : s.run map = .ok t) :
    t.rest = [] ∧ ∃ t', Mirrors k tail base base' t t' ∧ s'.run map' = t'.run map' := by
  let kept (u : Scan) : Prop := u.line + u.rest.count '\n' = s.line + s.rest.count '\n' ∧
    s.line ≤ u.line ∧ ∃ u', Mirrors k tail base base' u u' ∧ s'.run map' = u'.run map'
  have hkept : kept t ∧ t.rest = [] := by
    refine run_induction (P := kept) ?_ hs ⟨rfl, Nat.le_refl _, s', h, rfl⟩
    rintro u v hne hstep ⟨hcount, hle, u', hu, hrun⟩
    obtain ⟨hcount', hle'⟩ := step_count hstep hne
    obtain ⟨v', hv, hrun'⟩ := step_mirrors hu hb hb' ht hne
      (fun m hm hm' => hline m (by omega) (by omega)) hstep
    exact ⟨by omega, by omega, v', hv, hrun.trans hrun'⟩
  obtain ⟨⟨-, -, mirrored⟩, hrest⟩ := hkept
  exact ⟨hrest, mirrored⟩

theorem Mirrors.eq (h : Mirrors 0 tail base base s s') :
    s' = { s with rest := s.rest ++ tail } := by
  obtain ⟨new, htokens, htokens'⟩ := h.tokens
  obtain ⟨rest, line, widths, depth, fresh, tokens⟩ := s'
  obtain rfl : tokens = s.tokens := htokens'.trans htokens.symm
  obtain rfl : rest = s.rest ++ tail := h.rest
  obtain rfl : line = s.line := h.line
  obtain rfl : widths = s.widths := h.widths
  obtain rfl : depth = s.depth := h.depth
  obtain rfl : fresh = s.fresh := h.fresh
  rfl

/-- A text that goes on behind a piece of it is scanned from the end of the piece on. -/
theorem run_append (hs : AtLayout s.tokens) (ht : EndsLine tail) (h : s.run map = .ok t) :
    ({ s with rest := s.rest ++ tail } : Scan).run map
      = ({ t with rest := tail } : Scan).run map := by
  have start : Mirrors 0 tail s.tokens s.tokens s { s with rest := s.rest ++ tail } :=
    ⟨rfl, rfl, rfl, rfl, rfl, [], rfl, rfl⟩
  obtain ⟨hrest, t', mirrored, hrun⟩ := run_mirrors start hs hs ht (fun _ _ _ => rfl) h
  rw [hrun, mirrored.eq, hrest]
  rfl

end SortTrace.Script.Scan
