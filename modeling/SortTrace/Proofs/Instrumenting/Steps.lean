import SortTrace.Proofs.Instrumenting.Spelling

/-!
# What a step of the scanner does

Inside a line the scanner passes its end, skips a piece of the text or reads one token
(`Reading`); at the start of a logical line it may open and close blocks before, or pass a blank
line (`Stepping`). What every step preserves holds of a whole run (`run_induction`).
-/

namespace SortTrace.Script.Scan

variable {map : Array Nat} {c : Char} {cs rest : List Char} {l : Lexeme} {n width : Nat}
  {s t u : Scan}

@[simp] theorem reportedLine_empty (n : Nat) : reportedLine #[] n = n := rfl

/-! ## Ends of lines -/

/-- The end of a physical line is passed; it ends the logical line if no bracket is open. -/
def passLine (map : Array Nat) (s : Scan) : Scan :=
  if s.depth = 0 then { s.endLine map with fresh := true } else s

@[simp] theorem line_endLine : (s.endLine map).line = s.line := by
  rw [endLine]
  split <;> rfl

@[simp] theorem line_passLine : (s.passLine map).line = s.line := by
  rw [passLine]
  split
  · exact line_endLine
  · rfl

/-! ## Brackets -/

/-- The number of brackets that are open behind a lexeme where so many are open before it. -/
def depthAfter : Lexeme → Nat → Nat
  | .mark (.punct .lparen), n | .mark (.punct .lbracket), n | .mark (.punct .lbrace), n => n + 1
  | .mark (.punct .rparen), n | .mark (.punct .rbracket), n | .mark (.punct .rbrace), n => n - 1
  | _, n => n

theorem depthAfter_of_nest {depth : Nat} (h : s.nest map c l = .ok depth) :
    depth = depthAfter l s.depth := by
  revert h
  unfold nest depthAfter
  split <;> split <;> simp_all [fail]

theorem depthAfter_word (word : String) (n : Nat) : depthAfter (wordLexeme word) n = n := by
  unfold wordLexeme
  split <;> rfl

theorem depthAfter_number {line : Nat} {digits : List Char} {real : Bool}
    (h : numberLexeme map line digits real = .ok l) (n : Nat) : depthAfter l n = n := by
  unfold numberLexeme at h
  dsimp only at h
  split at h
  all_goals
    split at h
    · cases h
      rfl
    · cases h

/-! ## Inside a line -/

/-- What the scanner can do inside a line whose text goes on with `cs`. -/
inductive Reading (map : Array Nat) (s : Scan) (cs : List Char) : Scan → Prop
  | newline (rest : List Char) (h : cs = '\n' :: rest) :
    Reading map s cs { s.passLine map with rest, line := s.line + 1 }
  | skip (n : Nat) (rest : List Char) (h : Cuts n cs rest) (hs : Skips False cs rest) :
    Reading map s cs { s with rest, line := s.line + n }
  | token (n : Nat) (rest : List Char) (l : Lexeme) (depth : Nat) (h : Cuts n cs rest)
    (hl : ∃ word, cs = word ++ rest ∧ Spells word l) (hd : depth = depthAfter l s.depth) :
    Reading map s cs ({ s with rest, line := s.line + n, depth }.push map l)

theorem Reading.suffix (h : Reading map s cs t) : t.rest <:+ cs := by
  cases h with
  | newline rest h =>
    subst h
    exact List.suffix_cons _ _
  | skip n rest h => exact h.suffix
  | token n rest l depth h => exact h.suffix

theorem readString_reading (hc : c = '"' ∨ c = '\'') (h : s.readString map c cs = .ok t) :
    Reading map s (c :: cs) t := by
  unfold readString at h
  split at h
  · next content lines rest hbody =>
    obtain ⟨-, hcuts⟩ := stringBody_splits hbody
    obtain ⟨word, rfl, alone, -⟩ := stringBody_alone hbody
    have plain : c ≠ '\n' := by rcases hc with rfl | rfl <;> decide
    cases h
    exact .token lines rest _ s.depth (.cons plain hcuts) ⟨c :: word, rfl, .string hc alone⟩ rfl
  · cases h

theorem readNumber_reading (hc : c.isDigit = true ∨ c = '.') (h : s.readNumber map c cs = .ok t) :
    Reading map s (c :: cs) t := by
  have hcuts := numberBody_splits cs (c == '.') [c]
  obtain ⟨word, hword, hdigits, alone⟩ := numberBody_alone cs (c == '.') [c]
  unfold readNumber at h
  generalize numberBody cs (c == '.') [c] = body at h hcuts hword hdigits alone
  obtain ⟨digits, real, rest⟩ := body
  dsimp only at h hcuts hword hdigits alone
  have literal : digits = c :: word := hdigits
  subst literal
  have plain : c ≠ '\n' := by
    rintro rfl
    simp at hc
  split at h
  · cases h
  · cases hl : numberLexeme map s.line (c :: word) real with
    | error e =>
      rw [hl] at h
      cases h
    | ok l =>
      rw [hl] at h
      cases h
      exact .token 0 rest l s.depth (.cons plain hcuts)
        ⟨c :: word, congrArg (c :: ·) hword, .number hc alone hl⟩ (depthAfter_number hl _).symm

theorem readWord_reading (hc : Text.startsWord c = true) :
    Reading map s (c :: cs) (s.readWord map c cs) := by
  have hcuts : Cuts 0 cs (cs.dropWhile Text.continuesWord) := dropWhile_splits (by decide) cs
  have plain : c ≠ '\n' := by
    rintro rfl
    cases hc
  refine .token 0 _ _ s.depth (.cons plain hcuts) ⟨c :: cs.takeWhile Text.continuesWord, ?_, ?_⟩
    (depthAfter_word _ _).symm
  · rw [List.cons_append, List.takeWhile_append_dropWhile]
  · exact .word hc fun x hx => List.all_eq_true.mp List.all_takeWhile x hx

theorem readOperator_reading (hc : c ≠ '\n') (h : s.readOperator map c cs = .ok t) :
    Reading map s (c :: cs) t := by
  unfold readOperator at h
  split at h
  · next l rest hop =>
    have hcuts := operator?_splits hop
    cases hd : s.nest map c l with
    | error e =>
      rw [hd] at h
      cases h
    | ok depth =>
      rw [hd] at h
      cases h
      exact .token 0 rest l depth (.cons hc hcuts) (operator?_alone hop) (depthAfter_of_nest hd)
  · cases h

/-- What starts with a character inside a line is read. -/
theorem readToken_reading (h : s.readToken map c cs = .ok t) : Reading map s (c :: cs) t := by
  unfold readToken at h
  split at h
  · next hc =>
    subst hc
    cases h
    have done : Reading map s ('\n' :: cs)
        { s.passLine map with rest := cs, line := s.line + 1 } := .newline cs rfl
    have line : (s.passLine map).line = s.line := line_passLine
    rw [← line] at done
    exact done
  next hc =>
  split at h
  · next hblank =>
    cases h
    exact .skip 0 cs (.cons hc (.refl cs)) (.blank hblank (.refl cs))
  split at h
  · next hcomment =>
    cases h
    exact .skip 0 _ (.cons hc (afterComment_splits cs)) (hcomment ▸ .comment (.refl _))
  split at h
  · next hback =>
    obtain ⟨rest, hrest⟩ := Option.isSome_iff_exists.mp hback.2
    rw [hrest] at h
    cases h
    exact .skip 1 rest (.cons hc (continuation?_splits hrest))
      (hback.1 ▸ .joined hrest (.refl rest))
  split at h
  · exact readString_reading ‹_› h
  split at h
  · next hnumber => exact readNumber_reading (hnumber.imp_right And.left) h
  split at h
  · cases h
    exact readWord_reading ‹_›
  · exact readOperator_reading hc h

/-! ## Indentation -/

/-- The token stands for a change of indentation on line `n`. -/
def IsShift (n : Nat) (t : Token) : Prop :=
  t = ⟨.mark Layout.indent, n⟩ ∨ t = ⟨.mark Layout.dedent, n⟩

theorem close_shifts (map : Array Nat) (width : Nat) (ws : List Nat) (s : Scan) :
    ∃ shifts widths, s.close map width ws = { s with widths, tokens := shifts ++ s.tokens } ∧
      ∀ x ∈ shifts, IsShift (reportedLine map s.line) x := by
  induction ws generalizing s with
  | nil => exact ⟨[], [], rfl, nofun⟩
  | cons w ws ih =>
    rw [close]
    split
    · obtain ⟨shifts, widths, heq, hshifts⟩ := ih (s.push map (.mark Layout.dedent))
      refine ⟨shifts ++ [⟨.mark Layout.dedent, reportedLine map s.line⟩], widths, ?_, ?_⟩
      · rw [heq, List.append_assoc]
        rfl
      · intro x hx
        rcases List.mem_append.mp hx with hx | hx
        · exact hshifts x hx
        · exact .inr (List.mem_singleton.mp hx)
    · exact ⟨[], w :: ws, rfl, nofun⟩

/-- A line of the given width opens or closes blocks. -/
theorem indent_shifts (h : s.indent map width = .ok u) :
    ∃ shifts widths, u = { s with widths, tokens := shifts ++ s.tokens } ∧
      widths.headD 0 = width ∧ ∀ x ∈ shifts, IsShift (reportedLine map s.line) x := by
  unfold indent at h
  dsimp only at h
  split at h
  · split at h
    · cases h
    · cases h
      refine ⟨[_], width :: s.widths, rfl, rfl, fun x hx => ?_⟩
      exact .inl (List.mem_singleton.mp hx)
  · split at h
    · next hwidth =>
      cases h
      obtain ⟨shifts, widths, heq, hshifts⟩ := close_shifts map width s.widths s
      rw [heq] at hwidth
      exact ⟨shifts, widths, heq, hwidth, hshifts⟩
    · cases h

/-- Before `rest` a line of the text `cs` ends, if the text goes on at all. -/
def EndsWithLine (cs rest : List Char) : Prop :=
  rest = [] ∨ ∃ piece, cs = piece ++ '\n' :: rest

theorem EndsWithLine.append {cs rest : List Char} (h : EndsWithLine cs rest) (piece : List Char) :
    EndsWithLine (piece ++ cs) rest := by
  rcases h with h | ⟨more, rfl⟩
  · exact .inl h
  · exact .inr ⟨piece ++ more, (List.append_assoc ..).symm⟩

/-- Where no newline is passed, the text has ended. -/
theorem EndsWithLine.eq_nil {cs rest : List Char} (h : EndsWithLine cs rest)
    (hcuts : Cuts 0 cs rest) : rest = [] := by
  rcases h with h | ⟨piece, rfl⟩
  · exact h
  · have count := hcuts.count
    rw [List.count_append, List.count_cons_self] at count
    omega

theorem passNewline_skips (cs : List Char) (hcs : EndsLine cs) (s : Scan) :
    ∃ n rest, Cuts n cs rest ∧ EndsWithLine cs rest ∧ Skips True cs rest ∧
      s.passNewline cs = { s with rest, line := s.line + n } := by
  cases cs with
  | nil => exact ⟨0, [], .refl [], .inl rfl, .refl [], rfl⟩
  | cons c cs =>
    obtain rfl := hcs c rfl
    exact ⟨1, cs, .newline (.refl cs), .inr ⟨[], rfl⟩, .newline trivial (.refl cs), rfl⟩

theorem afterComment_endsLine (cs : List Char) : EndsLine (afterComment cs) := by
  intro c hc
  have stops := List.head?_dropWhile_not (fun c => c != '\n') cs
  rw [show (cs.dropWhile fun c => c != '\n').head? = some c from hc] at stops
  simpa using stops

/-- A blank line is passed with its end, or up to the end of the text. -/
theorem blankLine?_skips (h : s.blankLine? cs = some t) :
    ∃ n rest, Cuts n cs rest ∧ EndsWithLine cs rest ∧ Skips True cs rest ∧
      t = { s with rest, line := s.line + n } := by
  unfold blankLine? at h
  split at h
  · cases h
    exact ⟨0, [], .refl [], .inl rfl, .refl [], rfl⟩
  · cases h
    exact ⟨1, _, .newline (.refl _), .inr ⟨[], rfl⟩, .newline trivial (.refl _), rfl⟩
  · next rest =>
    split at h
    · next hrest =>
      cases h
      have ends : EndsLine rest := by
        intro c hc
        rw [hc] at hrest
        cases rest with
        | nil => cases hc
        | cons d rest => simpa using hrest
      obtain ⟨n, rest', hcuts, hend, hskips, heq⟩ := passNewline_skips rest ends s
      exact ⟨n, rest', .cons (by decide) hcuts, hend.append ['\r'], .blank (by simp) hskips, heq⟩
    · cases h
  · next rest =>
    cases h
    obtain ⟨n, rest', hcuts, hend, hskips, heq⟩ := passNewline_skips (afterComment rest)
      (afterComment_endsLine rest) s
    have whole := (afterComment_splits rest).trans hcuts
    obtain ⟨comment, hcomment, -⟩ := afterComment_splits rest
    have ended := hend.append ('#' :: comment)
    rw [List.cons_append, ← hcomment] at ended
    rw [Nat.zero_add] at whole
    exact ⟨n, rest', .cons (by decide) whole, ended, .comment hskips, heq⟩
  · cases h

/-! ## Steps -/

/-- What one step of the scanner can do. -/
inductive Stepping (map : Array Nat) (s : Scan) : Scan → Prop
  | inside {t : Scan} (hfresh : s.fresh = false) (h : Reading map s s.rest t) : Stepping map s t
  | blank (n : Nat) (rest : List Char) (hfresh : s.fresh = true) (h : Cuts n s.rest rest)
    (hend : EndsWithLine s.rest rest) (hskips : Skips True s.rest rest) :
    Stepping map s { s with rest, line := s.line + n }
  | starts {t : Scan} (shifts : List Token) (widths : List Nat) (hfresh : s.fresh = true)
    (hfilled : s.blankLine? (margin 0 s.rest).2 = none)
    (hwidth : widths.headD 0 = (margin 0 s.rest).1)
    (hshifts : ∀ x ∈ shifts, IsShift (reportedLine map s.line) x)
    (h : Reading map { s with widths, tokens := shifts ++ s.tokens, fresh := false }
      (margin 0 s.rest).2 t) : Stepping map s t

theorem step_inside (hfresh : s.fresh = false) (hrest : s.rest = c :: cs) :
    s.step map = s.readToken map c cs := by
  have same : { s with fresh := false } = s := by
    rw [← hfresh]
  rw [step, hfresh, hrest, readNext, same]
  rfl

theorem step_stepping (h : s.step map = .ok t) (hs : s.rest ≠ []) : Stepping map s t := by
  by_cases hfresh : s.fresh = true
  · have hmargin := margin_splits 0 s.rest
    rw [step, if_pos hfresh] at h
    dsimp only at h
    split at h
    · next next hblank =>
      cases h
      obtain ⟨n, rest, hcuts, hend, hskips, rfl⟩ := blankLine?_skips hblank
      have whole := hmargin.trans hcuts
      obtain ⟨blanks, hblanks, -⟩ := hmargin
      have ended := hend.append blanks
      rw [← hblanks] at ended
      rw [Nat.zero_add] at whole
      exact .blank n rest hfresh whole ended ((Skips.margin 0 s.rest).trans hskips)
    · next hblank =>
      cases hi : s.indent map (margin 0 s.rest).1 with
      | error e =>
        rw [hi] at h
        cases h
      | ok u =>
        rw [hi] at h
        obtain ⟨shifts, widths, rfl, hwidths, hshifts⟩ := indent_shifts hi
        have hfilled := hblank
        cases hcs : (margin 0 s.rest).2 with
        | nil =>
          rw [hcs] at hblank
          cases hblank
        | cons c cs =>
          rw [hcs] at h
          have read : Reading map { s with widths, tokens := shifts ++ s.tokens, fresh := false }
              (margin 0 s.rest).2 t := hcs ▸ readToken_reading h
          exact .starts shifts widths hfresh hfilled hwidths hshifts read
  · have hfresh : s.fresh = false := Bool.not_eq_true _ ▸ hfresh
    cases hcs : s.rest with
    | nil => exact absurd hcs hs
    | cons c cs =>
      rw [step_inside hfresh hcs] at h
      exact .inside hfresh (hcs ▸ readToken_reading h)

theorem run_of_rest (h : s.rest = []) : s.run map = .ok s := by
  rw [run, dif_pos h]

theorem run_of_step (hs : s.rest ≠ []) (h : s.step map = .ok t) : s.run map = t.run map := by
  rw [run, dif_neg hs]
  split
  · next next hnext =>
    rw [h] at hnext
    cases hnext
    rfl
  · next e herror =>
    rw [h] at herror
    cases herror

theorem run_of_error {e : Fault} (hs : s.rest ≠ []) (h : s.step map = .error e) :
    s.run map = .error e := by
  rw [run, dif_neg hs]
  split
  · next next hnext =>
    rw [h] at hnext
    cases hnext
  · next e' herror =>
    rw [h] at herror
    cases herror
    rfl

/-- What holds at first and is kept by every step holds at the end of the text. -/
theorem run_induction {P : Scan → Prop}
    (hstep : ∀ s t, s.rest ≠ [] → s.step map = .ok t → P s → P t)
    (h : s.run map = .ok t) (hs : P s) : P t ∧ t.rest = [] := by
  induction s using run.induct map with
  | case1 s hrest =>
    rw [run_of_rest hrest] at h
    cases h
    exact ⟨hs, hrest⟩
  | case2 s hrest next hnext ih =>
    rw [run_of_step hrest hnext] at h
    exact ih h (hstep s next hrest hnext hs)
  | case3 s hrest e herror =>
    rw [run, dif_neg hrest] at h
    split at h
    · next next hnext =>
      rw [hnext] at herror
      cases herror
    · cases h

theorem rest_of_run (h : s.run map = .ok t) : t.rest = [] :=
  (run_induction (P := fun _ => True) (fun _ _ _ _ _ => trivial) h trivial).2

/-- The tokens of a text are those of a scan that has come to its end. -/
theorem run_of_tokenize {text : String} {map : Array Nat} {ts : List Token}
    (h : tokenize text map = .ok ts) :
    ∃ e, (start text.toList).run map = .ok e ∧ e.finish map = ts := by
  rw [tokenize] at h
  cases hrun : (start text.toList).run map with
  | error e =>
    rw [hrun] at h
    cases h
  | ok e =>
    rw [hrun] at h
    exact ⟨e, rfl, Except.ok.inj h⟩

/-! ## Lines -/

theorem Reading.count (h : Reading map s cs t) :
    t.line + t.rest.count '\n' = s.line + cs.count '\n' ∧ s.line ≤ t.line := by
  cases h with
  | newline rest h =>
    subst h
    rw [List.count_cons_self]
    dsimp only
    omega
  | skip n rest h =>
    have hcount := h.count
    dsimp only
    omega
  | token n rest l depth h =>
    have hcount := h.count
    dsimp only [push]
    omega

/-- The scanner counts the newlines that it passes. -/
theorem step_count (h : s.step map = .ok t) (hs : s.rest ≠ []) :
    t.line + t.rest.count '\n' = s.line + s.rest.count '\n' ∧ s.line ≤ t.line := by
  cases step_stepping h hs with
  | inside _ hread => exact hread.count
  | blank n rest _ hcuts _ =>
    have hcount := hcuts.count
    dsimp only
    omega
  | starts shifts widths _ _ _ _ hread =>
    have hmargin := (margin_splits 0 s.rest).count
    have hcount := hread.count
    dsimp only at hcount
    omega

end SortTrace.Script.Scan
