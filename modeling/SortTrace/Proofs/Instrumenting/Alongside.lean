import SortTrace.Proofs.Instrumenting.Layouts
import SortTrace.Proofs.Instrumenting.Lines

/-!
# The same lines inside other blocks

A call may change which blocks are open. The lines behind it are scanned as before, only that other
blocks are opened and closed for them, as long as their widths fit at all: two scans that read the
same piece of text stay `Alongside` each other, and so they do when the second one reads a call
between two lines (`Paired.call`). At their ends the tokens of both go on beside each other
(`Paired.beside`).
-/

namespace SortTrace.Script

/-- Where blocks of the widths `ws` are open the lines have the tokens `ts`, and behind them blocks
of the widths `ws'` are open. -/
def Leads (ws : List Nat) (ls : List LogicalLine) (ts : List Token) (ws' : List Nat) : Prop :=
  ∀ ⦃more rest⦄, LaidOut ws' more rest → LaidOut ws (ls ++ more) (ts ++ rest)

variable {x : Lexeme} {ws ws' widths widths' : List Nat} {ls more : List LogicalLine}
  {ts ts' rest tokens tokens' : List Token}

theorem Leads.nil (ws : List Nat) : Leads ws [] [] ws := fun _ _ h => h

theorem Leads.append (h : Leads ws ls ts widths) (hmore : Leads widths more rest ws') :
    Leads ws (ls ++ more) (ts ++ rest) ws' := by
  intro next following hnext
  rw [List.append_assoc, List.append_assoc]
  exact h (hmore hnext)

/-- Both texts are read up to the same line, the second one with calls between its lines. The
tokens are given newest first. -/
def AtSameLine (x : Lexeme) (ws : List Nat) (ts : List Token) (ws' : List Nat) (ts' : List Token) :
    Prop :=
  ∃ ls ls', WithCalls x ls ls' ∧ Leads [] ls ts.reverse ws ∧ Leads [] ls' ts'.reverse ws'

/-- Both texts are read up to the words of the same line. -/
def InSameLine (x : Lexeme) (ws : List Nat) (ts : List Token) (ws' : List Nat) (ts' : List Token) :
    Prop :=
  ∀ ⦃new⦄, WholeLine new.reverse → AtSameLine x ws (new ++ ts) ws' (new ++ ts')

/-- Both texts have the same line next. -/
theorem AtSameLine.within {width : Nat} {shifts shifts' : List Token}
    (h : AtSameLine x ws tokens ws' tokens')
    (hl : ∀ ts, Leads ws [⟨width, ts⟩] (shifts.reverse ++ ts) widths)
    (hl' : ∀ ts, Leads ws' [⟨width, ts⟩] (shifts'.reverse ++ ts) widths') :
    InSameLine x widths (shifts ++ tokens) widths' (shifts' ++ tokens') := by
  intro new hnew
  obtain ⟨ls, ls', hcalls, leads, leads'⟩ := h
  refine ⟨ls ++ [⟨width, new.reverse⟩], ls' ++ [⟨width, new.reverse⟩], ?_, ?_, ?_⟩
  · exact hcalls.append (.line hnew .nil)
  · rw [List.reverse_append, List.reverse_append, List.append_assoc]
    exact leads.append (hl new.reverse)
  · rw [List.reverse_append, List.reverse_append, List.append_assoc]
    exact leads'.append (hl' new.reverse)

namespace Scan

variable {map map' : Array Nat} {k n width : Nat} {tail cs : List Char} {c : Char}
  {base base' words : List Token} {s s' t t' u u' v e : Scan} {l : Lexeme}

/-! ## Scans that differ in the open blocks -/

theorem endLine_widths (ws : List Nat) :
    ({ s with widths := ws } : Scan).endLine map = { s.endLine map with widths := ws } := by
  have same : ({ s with widths := ws } : Scan).atLayout = s.atLayout := rfl
  rw [endLine, endLine, same]
  split <;> rfl

theorem readString_widths (ws : List Nat) : ({ s with widths := ws } : Scan).readString map c cs
    = (s.readString map c cs).map fun t => { t with widths := ws } := by
  unfold readString
  split <;> rfl

theorem readNumber_widths (ws : List Nat) : ({ s with widths := ws } : Scan).readNumber map c cs
    = (s.readNumber map c cs).map fun t => { t with widths := ws } := by
  unfold readNumber
  dsimp only
  split
  · rfl
  · cases numberLexeme map s.line _ _ <;> rfl

theorem readOperator_widths (ws : List Nat) : ({ s with widths := ws } : Scan).readOperator map c cs
    = (s.readOperator map c cs).map fun t => { t with widths := ws } := by
  unfold readOperator
  split
  · next l rest _ =>
    have same : ({ s with widths := ws } : Scan).nest map c l = s.nest map c l := rfl
    rw [same]
    cases s.nest map c l <;> rfl
  · rfl

/-- What is read inside a line does not hang on the open blocks. -/
theorem readToken_widths (ws : List Nat) : ({ s with widths := ws } : Scan).readToken map c cs
    = (s.readToken map c cs).map fun t => { t with widths := ws } := by
  unfold readToken
  split
  · dsimp only
    rw [endLine_widths]
    split <;> rfl
  split
  · rfl
  split
  · rfl
  split
  · rfl
  split
  · exact readString_widths ws
  split
  · exact readNumber_widths ws
  split
  · rfl
  · exact readOperator_widths ws

theorem blankLine?_widths (ws : List Nat) : ({ s with widths := ws } : Scan).blankLine? cs
    = (s.blankLine? cs).map fun t => { t with widths := ws } := by
  have passed (cs : List Char) : ({ s with widths := ws } : Scan).passNewline cs
      = { s.passNewline cs with widths := ws } := by
    unfold passNewline
    split <;> rfl
  unfold blankLine?
  split
  · rfl
  · rw [passed]
    rfl
  · split
    · rw [passed]
      rfl
    · rfl
  · rw [passed]
    rfl
  · rfl

/-! ## The start of a line -/

theorem close_leads (map : Array Nat) (width : Nat) (ws : List Nat) (s : Scan) :
    ∃ shifts widths, s.close map width ws = { s with widths, tokens := shifts ++ s.tokens } ∧
      (∀ y ∈ shifts, IsShift (reportedLine map s.line) y) ∧
      (widths.headD 0 = width → ∀ ts, Leads ws [⟨width, ts⟩] (shifts.reverse ++ ts) widths) := by
  induction ws generalizing s with
  | nil => exact ⟨[], [], rfl, List.forall_mem_nil _, fun hw ts more rest h => .line hw h⟩
  | cons w ws ih =>
    rw [close]
    split
    · next hw =>
      obtain ⟨shifts, widths, heq, hshifts, leads⟩ := ih (s.push map (.mark Layout.dedent))
      refine ⟨shifts ++ [⟨.mark Layout.dedent, reportedLine map s.line⟩], widths, ?_, ?_, ?_⟩
      · rw [heq, List.append_assoc]
        rfl
      · intro y hy
        rcases List.mem_append.mp hy with hy | hy
        · exact hshifts y hy
        · exact .inr (List.mem_singleton.mp hy)
      · intro hwidth ts more rest h
        rw [List.reverse_append]
        exact .dedent rfl hw (leads hwidth ts h)
    · exact ⟨[], w :: ws, rfl, List.forall_mem_nil _, fun hw ts more rest h => .line hw h⟩

/-- For a line of the given width blocks are opened or closed. -/
theorem indent_leads (h : s.indent map width = .ok u) :
    ∃ shifts widths, u = { s with widths, tokens := shifts ++ s.tokens } ∧
      (∀ y ∈ shifts, IsShift (reportedLine map s.line) y) ∧
      ∀ ts, Leads s.widths [⟨width, ts⟩] (shifts.reverse ++ ts) widths := by
  unfold indent at h
  dsimp only at h
  split at h
  · next hdeeper =>
    split at h
    · cases h
    · cases h
      refine ⟨[_], width :: s.widths, rfl, fun y hy => .inl (List.mem_singleton.mp hy), ?_⟩
      intro ts more rest hrest
      exact .indent rfl hdeeper (.line rfl hrest)
  · split at h
    · next hwidth =>
      cases h
      obtain ⟨shifts, widths, heq, hshifts, leads⟩ := close_leads map width s.widths s
      rw [heq] at hwidth
      exact ⟨shifts, widths, heq, hshifts, leads hwidth⟩
    · cases h

theorem atLayout_shifts {shifts : List Token} (hs : ∀ y ∈ shifts, IsShift n y)
    (hb : AtLayout base) : AtLayout (shifts ++ base) := by
  cases shifts with
  | nil => exact hb
  | cons y shifts => rcases hs y (List.mem_cons_self ..) with rfl | rfl <;> rfl

/-! ## Reading alongside -/

/-- Both scans read the same piece of text, as scans that mirror each other do, but in other
blocks. -/
inductive Alongside (x : Lexeme) (k : Nat) (tail : List Char) (s s' : Scan) : Prop
  | between (mirrors : Mirrors k tail s.tokens s'.tokens s { s' with widths := s.widths })
    (fresh : s.fresh = true) (layout : AtLayout s.tokens) (layout' : AtLayout s'.tokens)
    (lines : AtSameLine x s.widths s.tokens s'.widths s'.tokens)
  | within {base base' words : List Token}
    (mirrors : Mirrors k tail base base' s { s' with widths := s.widths }) (fresh : s.fresh = false)
    (layout : AtLayout base) (layout' : AtLayout base') (tokens : s.tokens = words ++ base)
    (hwords : ∀ y ∈ words, y.lexeme.isLayout = false)
    (lines : InSameLine x s.widths base s'.widths base')

/-- What ends a logical line is its words and a line end, or nothing if it has no words. -/
theorem endLine_whole (map : Array Nat) (hb : AtLayout base) (htokens : s.tokens = words ++ base)
    (hwords : ∀ y ∈ words, y.lexeme.isLayout = false) :
    ∃ new, (s.endLine map).tokens = new ++ base ∧ WholeLine new.reverse := by
  cases words with
  | nil =>
    have still : s.atLayout = true := by
      rw [atLayout, htokens]
      exact hb
    rw [endLine, if_pos still]
    exact ⟨[], htokens, .inl rfl⟩
  | cons y words =>
    have word : s.atLayout = false := atLayout_word htokens (hwords y (List.mem_cons_self ..))
    rw [endLine, word]
    refine ⟨⟨.mark Layout.newline, reportedLine map s.line⟩ :: y :: words, ?_, .inr ?_⟩
    · exact congrArg (List.cons _) htokens
    · refine ⟨(y :: words).reverse, _, List.reverse_cons, by simp, fun z hz => ?_, rfl⟩
      exact hwords z (List.mem_reverse.mp hz)

theorem Mirrors.rebase (h : Mirrors k tail base base' s s') :
    Mirrors k tail s.tokens s'.tokens s s' :=
  ⟨h.rest, h.line, h.widths, h.depth, h.fresh, [], rfl, rfl⟩

namespace Alongside

/-- Inside a line the same is read in both texts. -/
theorem read (h : Alongside x k tail s s') (fresh : s.fresh = false) (ht : EndsLine tail)
    (hline : ∀ m, s.line ≤ m → m ≤ s.line + (c :: cs).count '\n' →
      reportedLine map' (m + k) = reportedLine map m)
    (hs : s.readToken map c cs = .ok t) :
    ∃ t', s'.readToken map' c (cs ++ tail) = .ok t' ∧ Alongside x k tail t t' := by
  obtain ⟨_, hfresh⟩ |
    @⟨base, base', words, mirrors, -, layout, layout', tokens, hwords, lines⟩ := h
  · rw [fresh] at hfresh
    cases hfresh
  obtain ⟨t', hread, mirrors'⟩ := readToken_mirrors mirrors layout layout' ht hline hs
  have hread' : s'.readToken map' c (cs ++ tail)
      = (({ s' with widths := s.widths } : Scan).readToken map' c (cs ++ tail)).map
        fun t => { t with widths := s'.widths } :=
    readToken_widths (s := { s' with widths := s.widths }) s'.widths
  rw [hread] at hread'
  refine ⟨{ t' with widths := s'.widths }, hread', ?_⟩
  have again := mirrors'.withWidths t.widths
  have inside (words' : List Token) (hwidths : t.widths = s.widths) (hfresh : t.fresh = false)
      (htokens : t.tokens = words' ++ base) (hwords' : ∀ y ∈ words', y.lexeme.isLayout = false) :
      Alongside x k tail t { t' with widths := s'.widths } :=
    .within again hfresh layout layout' htokens hwords' (hwidths ▸ lines)
  cases readToken_reading hs with
  | skip n rest => exact inside words rfl fresh tokens hwords
  | token n rest l depth h hl =>
    obtain ⟨word, -, spelled⟩ := hl
    refine inside (⟨l, _⟩ :: words) rfl fresh (congrArg (List.cons _) tokens) ?_
    exact List.forall_mem_cons.mpr ⟨spelled.isLayout, hwords⟩
  | newline rest h =>
    by_cases hdepth : s.depth = 0
    · have passed : s.passLine map = { s.endLine map with fresh := true } := if_pos hdepth
      rw [passed] at again mirrors' ⊢
      obtain ⟨new, hnew, hwhole⟩ := endLine_whole map layout tokens hwords
      obtain ⟨new', htokens, htokens'⟩ := mirrors'.tokens
      obtain rfl : new = new' := List.append_cancel_right (hnew.symm.trans htokens)
      have both : AtSameLine x (s.endLine map).widths (s.endLine map).tokens s'.widths
          t'.tokens := by
        rw [widths_endLine, hnew, htokens']
        exact lines hwhole
      refine .between again.rebase rfl atLayout_endLine ?_ both
      exact (mirrors'.atLayout layout layout').trans atLayout_endLine
    · have passed : s.passLine map = s := if_neg hdepth
      rw [passed] at inside ⊢
      exact inside words rfl fresh tokens hwords

theorem mirrors (h : Alongside x k tail s s') : ∃ base base', AtLayout base ∧ AtLayout base' ∧
    Mirrors k tail base base' s { s' with widths := s.widths } := by
  cases h with
  | between mirrors _ layout layout' => exact ⟨_, _, layout, layout', mirrors⟩
  | within mirrors _ layout layout' => exact ⟨_, _, layout, layout', mirrors⟩

theorem skip (h : Alongside x k tail s s') (n : Nat) (rest : List Char) :
    Alongside x k tail { s with rest, line := s.line + n }
      { s' with rest := rest ++ tail, line := s'.line + n } := by
  cases h with
  | between mirrors fresh layout layout' lines =>
    exact .between (mirrors.skip n rest) fresh layout layout' lines
  | within mirrors fresh layout layout' tokens hwords lines =>
    exact .within (mirrors.skip n rest) fresh layout layout' tokens hwords lines

/-- A blank line is passed in both texts. -/
theorem blank (h : Alongside x k tail s s') (ht : EndsLine tail) (fresh' : s'.fresh = true)
    (hs : s.blankLine? cs = some t)
    (hstep : ∀ u, s'.blankLine? (cs ++ tail) = some u → s'.run map' = u.run map')
    (hrun : s'.run map' = .ok e) : ∃ t', Alongside x k tail t t' ∧ t'.run map' = .ok e := by
  obtain ⟨base, base', layout, layout', mirrors⟩ := h.mirrors
  obtain ⟨n, rest, -, -, -, rfl⟩ := blankLine?_skips hs
  have hblank' : s'.blankLine? (cs ++ tail)
      = (({ s' with widths := s.widths } : Scan).blankLine? (cs ++ tail)).map
        fun t => { t with widths := s'.widths } :=
    blankLine?_widths (s := { s' with widths := s.widths }) s'.widths
  rcases blankLine?_mirrors mirrors ht hs with ⟨t', hread, mirrors'⟩ | ⟨hend, more, rfl, hread⟩
  · obtain ⟨n', rest', -, -, -, rfl⟩ := blankLine?_skips hread
    obtain rfl : rest' = rest ++ tail := mirrors'.rest
    have line := mirrors.line
    have line' := mirrors'.line
    dsimp only at line line'
    obtain rfl : n' = n := by omega
    rw [hread] at hblank'
    exact ⟨_, h.skip n' rest, (hstep _ hblank').symm.trans hrun⟩
  · -- The newline behind the piece is passed with the line.
    rw [hread] at hblank'
    rw [hend]
    refine ⟨_, h.skip 0 [], ?_⟩
    have last : ({ s' with rest := '\n' :: more } : Scan).step map'
        = .ok { s' with rest := more, line := s'.line + 1 } := by
      rw [Scan.step, fresh', if_pos rfl]
      rfl
    have passed := run_of_step (List.cons_ne_nil '\n' more) last
    exact passed.trans ((hstep _ hblank').symm.trans hrun)

/-- At the start of a line both scans open and close blocks for the same width. -/
theorem indent (mirrors : Mirrors k tail s.tokens s'.tokens s { s' with widths := s.widths })
    (layout : AtLayout s.tokens) (layout' : AtLayout s'.tokens)
    (lines : AtSameLine x s.widths s.tokens s'.widths s'.tokens)
    (hi : s.indent map width = .ok u) (hi' : s'.indent map' width = .ok u') :
    Alongside x k tail { u with fresh := false } { u' with fresh := false } ∧
      u.line = s.line := by
  obtain ⟨shifts, widths, rfl, hshifts, leads⟩ := indent_leads hi
  obtain ⟨shifts', widths', rfl, hshifts', leads'⟩ := indent_leads hi'
  have started : Mirrors k tail (shifts ++ s.tokens) (shifts' ++ s'.tokens)
      { s with widths, tokens := shifts ++ s.tokens, fresh := false }
      { s' with widths, tokens := shifts' ++ s'.tokens, fresh := false } :=
    ⟨mirrors.rest, mirrors.line, rfl, mirrors.depth, rfl, [], rfl, rfl⟩
  have noWords : shifts ++ s.tokens = [] ++ (shifts ++ s.tokens) := rfl
  refine ⟨?_, rfl⟩
  exact .within started rfl (atLayout_shifts hshifts layout) (atLayout_shifts hshifts' layout')
    noWords (List.forall_mem_nil _) (lines.within leads leads')

/-- A step in a piece of text is the same in other blocks, if it can be made there. -/
theorem step (h : Alongside x k tail s s') (ht : EndsLine tail) (hne : s.rest ≠ [])
    (hline : ∀ m, s.line ≤ m → m ≤ s.line + s.rest.count '\n' →
      reportedLine map' (m + k) = reportedLine map m)
    (hs : s.step map = .ok t) (hrun : s'.run map' = .ok e) :
    ∃ t', Alongside x k tail t t' ∧ t'.run map' = .ok e := by
  obtain ⟨_, _, -, -, related⟩ := h.mirrors
  have rest : s'.rest = s.rest ++ tail := related.rest
  have hne' : s'.rest ≠ [] := by
    rw [rest]
    exact fun hnil => hne (List.append_eq_nil_iff.mp hnil).1
  cases h with
  | within mirrors fresh layout layout' tokens hwords lines =>
    have fresh' : s'.fresh = false := mirrors.fresh.trans fresh
    cases hcs : s.rest with
    | nil => exact absurd hcs hne
    | cons c cs =>
      rw [hcs] at hline rest
      rw [step_inside fresh hcs] at hs
      have inside : Alongside x k tail s s' :=
        .within mirrors fresh layout layout' tokens hwords lines
      obtain ⟨t', hread, along⟩ := inside.read fresh ht hline hs
      refine ⟨t', along, ?_⟩
      rw [← run_of_step hne' ((step_inside fresh' rest).trans hread), hrun]
  | between mirrors fresh layout layout' lines =>
    have fresh' : s'.fresh = true := mirrors.fresh.trans fresh
    have hstep' : s'.step map' = _ := if_pos fresh'
    have hmargin := (margin_splits 0 s.rest).count
    rw [rest, margin_append ht.stops] at hstep'
    rw [Scan.step, if_pos fresh] at hs
    dsimp only at hs hstep'
    split at hs
    · next next hblank =>
      cases hs
      refine blank (.between mirrors fresh layout layout' lines) ht fresh' hblank ?_ hrun
      intro u hu
      rw [hu] at hstep'
      exact run_of_step hne' hstep'
    · next hblank =>
      rw [blankLine?_none hblank] at hstep'
      cases hi : s.indent map (margin 0 s.rest).1 with
      | error e =>
        rw [hi] at hs
        cases hs
      | ok u =>
        cases hi' : s'.indent map' (margin 0 s.rest).1 with
        | error e' =>
          rw [hi'] at hstep'
          rw [run_of_error hne' hstep'] at hrun
          cases hrun
        | ok u' =>
          rw [hi] at hs
          rw [hi'] at hstep'
          obtain ⟨first, line⟩ := indent mirrors layout layout' lines hi hi'
          cases hcs : (margin 0 s.rest).2 with
          | nil =>
            rw [hcs] at hblank
            cases hblank
          | cons c cs =>
            rw [hcs] at hs hstep' hmargin
            have hline' : ∀ m, u.line ≤ m → m ≤ u.line + (c :: cs).count '\n' →
                reportedLine map' (m + k) = reportedLine map m := by
              intro m hm hm'
              exact hline m (by omega) (by omega)
            obtain ⟨t', hread, along⟩ := first.read rfl ht hline' hs
            refine ⟨t', along, ?_⟩
            rw [← run_of_step hne' (hstep'.trans hread), hrun]

/-- A piece of text is scanned in the same way in other blocks, if it can be scanned there. -/
theorem run (h : Alongside x k tail s s') (ht : EndsLine tail)
    (hline : ∀ m, s.line ≤ m → m ≤ s.line + s.rest.count '\n' →
      reportedLine map' (m + k) = reportedLine map m)
    (hs : s.run map = .ok t) (hrun : s'.run map' = .ok e) :
    t.rest = [] ∧ t.line = s.line + s.rest.count '\n' ∧
      ∃ t', Alongside x k tail t t' ∧ t'.run map' = .ok e := by
  let kept (u : Scan) : Prop := u.line + u.rest.count '\n' = s.line + s.rest.count '\n' ∧
    s.line ≤ u.line ∧ ∃ u', Alongside x k tail u u' ∧ u'.run map' = .ok e
  have hkept : kept t ∧ t.rest = [] := by
    refine run_induction (P := kept) ?_ hs ⟨rfl, Nat.le_refl _, s', h, hrun⟩
    rintro u v hne hstep ⟨hcount, hle, u', hu, hrun'⟩
    obtain ⟨hcount', hle'⟩ := step_count hstep hne
    obtain ⟨v', hv, hrun''⟩ := hu.step ht hne
      (fun m hm hm' => hline m (by omega) (by omega)) hstep hrun'
    exact ⟨by omega, by omega, v', hv, hrun''⟩
  obtain ⟨⟨hcount, -, along⟩, hrest⟩ := hkept
  rw [hrest, List.count_nil, Nat.add_zero] at hcount
  exact ⟨hrest, hcount, along⟩

end Alongside

/-- Nothing is read yet. -/
theorem alongside_start (x : Lexeme) (cs tail : List Char) :
    Alongside x 0 tail (start cs) (start (cs ++ tail)) :=
  .between ⟨rfl, rfl, rfl, rfl, rfl, [], rfl, rfl⟩ rfl rfl rfl ⟨[], [], .nil, .nil _, .nil _⟩

/-! ## Calls -/

/-- Where the scan of a call comes to its end, the call is at a width that fits. -/
theorem indent_of_run {var : String} (fresh : s.fresh = true)
    (hmargin : margin 0 s.rest = (width, callText var ++ tail)) (hrun : s.run map = .ok e) :
    ∃ u, s.indent map width = .ok u := by
  have hne : s.rest ≠ [] := by
    intro hnil
    rw [hnil] at hmargin
    cases hmargin
  cases hi : s.indent map width with
  | ok u => exact ⟨u, rfl⟩
  | error fault =>
    have stuck : s.step map = .error fault := by
      rw [step, if_pos fresh, hmargin]
      dsimp only
      rw [callText, List.cons_append, hi]
      rfl
    rw [run_of_error hne stuck] at hrun
    cases hrun

/-- From the beginning of a line at `b` the scanner has read a call. -/
structure ReadsCall (x : Lexeme) (map : Array Nat) (tail : List Char) (b t : Scan) : Prop where
  rest : t.rest = tail
  line : t.line = b.line
  depth : t.depth = 0
  fresh : t.fresh = false
  leads : ∃ width n ts, (t.endLine map).tokens = ts.reverse ++ b.tokens ∧
    Leads b.widths [⟨width, callTokens n x⟩] ts t.widths

theorem readsCall_of_run {line var : String} (hvar : isIdentifier var = true)
    (fresh : s.fresh = true) (depth : s.depth = 0)
    (hrest : s.rest = (Source.logCall line var).toList ++ tail) (hrun : s.run map = .ok e) :
    ∃ t, t.run map = .ok e ∧ ReadsCall (wordLexeme var) map tail s t := by
  obtain ⟨width, hmargin⟩ := margin_logCall_blanks line var tail
  rw [← hrest] at hmargin
  obtain ⟨u, hindent⟩ := indent_of_run fresh hmargin hrun
  rw [run_callText hvar fresh depth hmargin hindent] at hrun
  obtain ⟨shifts, widths, rfl, -, leads⟩ := indent_leads hindent
  let n := reportedLine map s.line
  refine ⟨_, hrun, rfl, rfl, depth, rfl, width, n, _, ?_, leads (callTokens n (wordLexeme var))⟩
  rw [List.reverse_append, List.reverse_reverse, List.append_assoc]
  rfl

/-! ## The ends of lines -/

/-- Both scans are at the end of a line, or the second one is at the end of the call after it. -/
structure Paired (x : Lexeme) (map map' : Array Nat) (k : Nat) (t t' : Scan) : Prop where
  line : t'.line = t.line + k
  depth : t'.depth = t.depth
  fresh : t.fresh = true → t.atLayout = true
  fresh' : t'.fresh = true → t'.atLayout = true
  lines : AtSameLine x t.widths (t.endLine map).tokens t'.widths (t'.endLine map').tokens

theorem Alongside.paired (h : Alongside x k tail t t')
    (hline : reportedLine map' t'.line = reportedLine map t.line) : Paired x map map' k t t' := by
  cases h with
  | between mirrors fresh layout layout' lines =>
    have ended : t.endLine map = t := if_pos layout
    have ended' : t'.endLine map' = t' := if_pos layout'
    refine ⟨mirrors.line, mirrors.depth, fun _ => layout, fun _ => layout', ?_⟩
    rw [ended, ended']
    exact lines
  | within mirrors fresh layout layout' tokens hwords lines =>
    have fresh' : t'.fresh = false := mirrors.fresh.trans fresh
    obtain ⟨new, hnew, hwhole⟩ := endLine_whole map layout tokens hwords
    obtain ⟨new', htokens, htokens'⟩ := (mirrors.endLine layout layout' hline).tokens
    obtain rfl : new = new' := List.append_cancel_right (hnew.symm.trans htokens)
    rw [endLine_widths] at htokens'
    refine ⟨mirrors.line, mirrors.depth, by simp [fresh], by simp [fresh'], ?_⟩
    have ended : (t'.endLine map').tokens = new ++ _ := htokens'
    rw [hnew, ended]
    exact lines hwhole

namespace Paired

/-- Both texts go on with the next line. -/
theorem next (h : Paired x map map' k t t') (cs tail : List Char) :
    Alongside x k tail { t.nextLine map with rest := cs }
      { t'.nextLine map' with rest := cs ++ tail } := by
  have line := h.line
  have depth : (t'.endLine map').depth = (t.endLine map).depth := by
    rw [depth_endLine, depth_endLine, h.depth]
  refine .between ⟨rfl, ?_, rfl, depth, rfl, [], rfl, rfl⟩ rfl atLayout_endLine atLayout_endLine ?_
  · dsimp only [nextLine]
    omega
  · have lines := h.lines
    have same : (t.endLine map).widths = t.widths := widths_endLine
    have same' : (t'.endLine map').widths = t'.widths := widths_endLine
    rw [← same, ← same'] at lines
    exact lines

/-- Behind the line the second text has a call. -/
theorem call {line var : String} (h : Paired (wordLexeme var) map map' k t t')
    (hvar : isIdentifier var = true) (hdepth : t.depth = 0)
    (hrest : t'.rest = '\n' :: ((Source.logCall line var).toList ++ tail))
    (hrun : t'.run map' = .ok e) :
    ∃ t'', Paired (wordLexeme var) map map' (k + 1) t t'' ∧ t''.rest = tail ∧
      t''.run map' = .ok e := by
  have depth' : t'.depth = 0 := h.depth.trans hdepth
  generalize hcs : (Source.logCall line var).toList ++ tail = cs at hrest
  rw [run_newline depth' h.fresh' hrest] at hrun
  have depth'' : ({ t'.nextLine map' with rest := cs } : Scan).depth = 0 :=
    depth_endLine.trans depth'
  obtain ⟨t'', hrun', read⟩ := readsCall_of_run hvar rfl depth'' hcs.symm hrun
  have fresh'' : t''.fresh = true → t''.atLayout = true := fun hf =>
    absurd (read.fresh.symm.trans hf) Bool.false_ne_true
  have hdepth'' : t''.depth = t.depth := read.depth.trans hdepth.symm
  refine ⟨t'', ⟨?_, hdepth'', h.fresh, fresh'', ?_⟩, read.rest, hrun'⟩
  · have line : t''.line = t'.line + 1 := read.line
    have line' := h.line
    omega
  · obtain ⟨ls, ls', hcalls, leads, leads'⟩ := h.lines
    obtain ⟨width, n, ts, htokens, called⟩ := read.leads
    have added := hcalls.append (.call width n .nil)
    rw [List.append_nil] at added
    refine ⟨ls, _, added, leads, ?_⟩
    have called' : Leads (t'.endLine map').widths [⟨width, callTokens n _⟩] ts t''.widths := called
    rw [widths_endLine] at called'
    have tokens : (t''.endLine map').tokens = ts.reverse ++ (t'.endLine map').tokens := htokens
    rw [tokens, List.reverse_append, List.reverse_reverse]
    exact leads'.append called'

/-- Where both texts end their tokens go on beside each other. -/
theorem beside (h : Paired x map map' k t t') : Beside x (t.finish map) (t'.finish map') := by
  obtain ⟨ls, ls', hcalls, leads, leads'⟩ := h.lines
  have last (ws : List Nat) (n : Nat) : LaidOut ws [] (lastTokens ws.length n) := by
    induction ws with
    | nil => exact .finish rfl
    | cons w ws ih => exact .close rfl ih
  have laid := leads (last t.widths (reportedLine map t.line))
  have laid' := leads' (last t'.widths (reportedLine map' t'.line))
  rw [← finish_eq, List.append_nil] at laid laid'
  exact laid.beside laid' hcalls

end Paired

end Scan

end SortTrace.Script
