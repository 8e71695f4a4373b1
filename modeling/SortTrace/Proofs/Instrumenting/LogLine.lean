import SortTrace.Proofs.Instrumenting.Steps
import SortTrace.Settings
import SortTrace.Source.Instrumented

/-!
# Scanning a logging call

From the line that is put after a line that writes the scanner reads the words of the call
(`run_logCall`), at the indentation of that line (`margin_logCall`), or in a block of its own where
the line opens one.
-/

namespace SortTrace.Script.Scan

open Text Source

variable {map : Array Nat} {c d : Char} {cs word rest tail : List Char} {width : Nat} {s : Scan}
  {var : String}

/-! ## Words -/

theorem alpha_bounds (h : c.isAlpha = true) :
    (65 ≤ c.toNat ∧ c.toNat ≤ 90) ∨ (97 ≤ c.toNat ∧ c.toNat ≤ 122) := by
  rcases Bool.or_eq_true_iff.mp (show (c.isUpper || c.isLower) = true from h) with upper | lower
  · exact .inl (of_decide_eq_true upper)
  · obtain ⟨from97, upTo122⟩ := Bool.and_eq_true_iff.mp lower
    exact .inr ⟨of_decide_eq_true from97, of_decide_eq_true upTo122⟩

theorem digit_bounds (h : c.isDigit = true) : 48 ≤ c.toNat ∧ c.toNat ≤ 57 := by
  simp only [Char.isDigit, Bool.and_eq_true, decide_eq_true_eq, ge_iff_le,
    UInt32.le_iff_toNat_le] at h
  exact h

theorem isLetter_of_alpha (h : c.isAlpha = true) : isLetter c = true := by
  have bounds := alpha_bounds h
  rw [isLetter, if_pos (by omega), h]

theorem continuesWord_of_alphanum (h : c.isAlphanum = true) : continuesWord c = true := by
  rw [Char.isAlphanum, Bool.or_eq_true] at h
  rcases h with h | h
  · rw [continuesWord, isLetter_of_alpha h, Bool.or_true, Bool.true_or]
  · have bounds := digit_bounds h
    have numeral : isNumeral c = true := by
      rw [isNumeral, if_pos (by omega), h]
    rw [continuesWord, numeral, Bool.or_true]

/-- The names that may be watched are words of the script language. -/
theorem word_of_isIdentifier (h : isIdentifier var = true) :
    ∃ c cs, var.toList = c :: cs ∧ startsWord c = true ∧ ∀ x ∈ cs, continuesWord x = true := by
  unfold isIdentifier at h
  split at h
  · cases h
  · next c cs hvar =>
    rw [Bool.and_eq_true, Bool.or_eq_true, List.all_eq_true] at h
    obtain ⟨hc, hcs⟩ := h
    refine ⟨c, cs, hvar, ?_, fun x hx => ?_⟩
    · rcases hc with hc | hc
      · rw [startsWord, hc, Bool.true_or]
      · rw [startsWord, isLetter_of_alpha hc, Bool.or_true]
    · rcases Bool.or_eq_true_iff.mp (hcs x hx) with hx | hx
      · rw [continuesWord, hx, Bool.true_or, Bool.true_or]
      · exact continuesWord_of_alphanum hx

theorem not_digit_of_startsWord (h : startsWord c = true) : ¬ c.isDigit = true := by
  intro hdigit
  have bounds := digit_bounds hdigit
  rw [startsWord, Bool.or_eq_true] at h
  rcases h with h | h
  · obtain rfl := eq_of_beq h
    cases hdigit
  · rw [isLetter, if_pos (by omega)] at h
    have letter := alpha_bounds h
    omega

theorem readToken_word (h : startsWord c = true) :
    s.readToken map c cs = .ok (s.readWord map c cs) := by
  have other {d : Char} (hd : startsWord d = false) : c ≠ d := by
    rintro rfl
    rw [h] at hd
    cases hd
  have hdigit := not_digit_of_startsWord h
  have hnew : c ≠ '\n' := other rfl
  have hblank : ¬ (c = ' ' ∨ c = '\t' ∨ c = '\r' ∨ c = '\x0c') := by
    rintro (hc | hc | hc | hc)
    · exact other rfl hc
    · exact other rfl hc
    · exact other rfl hc
    · exact other rfl hc
  have hcomment : c ≠ '#' := other rfl
  have hback : ¬ (c = '\\' ∧ (continuation? cs).isSome = true) := fun hc => other rfl hc.1
  have hquote : ¬ (c = '"' ∨ c = '\'') := by
    rintro (hc | hc)
    · exact other rfl hc
    · exact other rfl hc
  have hnumber : ¬ (c.isDigit = true ∨ c = '.' ∧ cs.head?.any Char.isDigit = true) := by
    rintro (hc | hc)
    · exact hdigit hc
    · exact other rfl hc.1
  rw [readToken, if_neg hnew, if_neg hblank, if_neg hcomment, if_neg hback, if_neg hquote,
    if_neg hnumber, if_pos h]

/-- A word up to a character that cannot go on with it. -/
theorem readToken_name (hc : startsWord c = true) (hw : ∀ x ∈ word, continuesWord x = true)
    (hd : continuesWord d = false) : s.readToken map c (word ++ d :: rest)
      = .ok ({ s with rest := d :: rest }.push map (wordLexeme (String.ofList (c :: word)))) := by
  have front : (word ++ d :: rest).takeWhile continuesWord = word := by
    rw [List.takeWhile_append_of_pos hw, List.takeWhile_cons, hd]
    exact List.append_nil word
  have back : (word ++ d :: rest).dropWhile continuesWord = d :: rest := by
    rw [List.dropWhile_append_of_pos hw, List.dropWhile_cons, hd]
    rfl
  rw [readToken_word hc, readWord, front, back]
  rfl

theorem readToken_lparen (h : s.depth = 0) :
    s.readToken map '(' cs
      = .ok ({ s with rest := cs, depth := 1 }.push map (.mark Punct.lparen)) := by
  have opened : s.nest map '(' (.mark Punct.lparen) = .ok 1 := by
    rw [nest, h]
    rfl
  have read : s.readOperator map '(' cs = (s.nest map '(' (.mark Punct.lparen)).map fun depth =>
    { s with rest := cs, depth }.push map (.mark Punct.lparen) := rfl
  have token : s.readToken map '(' cs = s.readOperator map '(' cs := rfl
  rw [token, read, opened]
  rfl

theorem readToken_rparen (h : s.depth = 1) :
    s.readToken map ')' cs
      = .ok ({ s with rest := cs, depth := 0 }.push map (.mark Punct.rparen)) := by
  have closed : s.nest map ')' (.mark Punct.rparen) = .ok 0 := by
    rw [nest, h]
    rfl
  have read : s.readOperator map ')' cs = (s.nest map ')' (.mark Punct.rparen)).map fun depth =>
    { s with rest := cs, depth }.push map (.mark Punct.rparen) := rfl
  have token : s.readToken map ')' cs = s.readOperator map ')' cs := rfl
  rw [token, read, closed]
  rfl

/-! ## The indentation -/

/-- Can the character stand before the first token of a line without ending it? -/
def isMargin (c : Char) : Bool :=
  c = ' ' ∨ c = '\t' ∨ c = '\x0c'

theorem margin_stops (hd : isMargin d = false) : margin width (d :: rest) = (width, d :: rest) := by
  rw [margin]
  all_goals
    rintro cs heq
    cases heq
    cases hd

/-- The blanks and tabs of a line make its width, if no form feed takes it back to the margin. -/
theorem margin_indentation_append {line : List Char} (hfeed : '\x0c' ∉ line.takeWhile isMargin) :
    margin width ((line.takeWhile fun c => c = ' ' ∨ c = '\t') ++ cs)
      = margin (margin width line).1 cs := by
  fun_induction margin width line with
  | case1 width cs ih =>
    rw [List.takeWhile_cons] at hfeed ⊢
    exact ih fun h => hfeed (List.mem_cons_of_mem _ h)
  | case2 width cs ih =>
    rw [List.takeWhile_cons] at hfeed ⊢
    exact ih fun h => hfeed (List.mem_cons_of_mem _ h)
  | case3 width cs ih =>
    rw [List.takeWhile_cons] at hfeed
    exact absurd (List.mem_cons_self ..) hfeed
  | case4 width line hspace htab _ =>
    have nothing : (line.takeWhile fun c => c = ' ' ∨ c = '\t') = [] := by
      cases line with
      | nil => rfl
      | cons c cs =>
        have other : ¬ (c = ' ' ∨ c = '\t') := by
          rintro (rfl | rfl)
          · exact hspace cs rfl
          · exact htab cs rfl
        rw [List.takeWhile_cons, decide_eq_false other]
        rfl
    rw [nothing]
    rfl

theorem margin_indentation {line : List Char} (hfeed : '\x0c' ∉ line.takeWhile isMargin)
    (hd : isMargin d = false) :
    margin width ((line.takeWhile fun c => c = ' ' ∨ c = '\t') ++ d :: rest)
      = ((margin width line).1, d :: rest) :=
  (margin_indentation_append hfeed).trans (margin_stops hd)

/-- A line of the width of the innermost block changes nothing. -/
theorem indent_same (h : s.widths.headD 0 = width) : s.indent map width = .ok s := by
  have still : s.close map width s.widths = s := by
    cases hw : s.widths with
    | nil =>
      rw [close, ← hw]
    | cons w ws =>
      rw [hw] at h
      obtain rfl : w = width := h
      rw [close, if_neg (Nat.lt_irrefl w), ← hw]
  rw [indent]
  dsimp only
  rw [if_neg (by omega), still, if_pos h]

/-! ## The line -/

/-- The tokens of a logging call on line `n` without the end of its line, newest first. What is
logged is the word `x`. -/
def logWords (n : Nat) (x : Lexeme) : List Token :=
  [⟨.mark Punct.rparen, n⟩, ⟨x, n⟩, ⟨.mark Punct.lparen, n⟩, ⟨.name Builtin.logState.name, n⟩]

/-- A word in parentheses. -/
theorem run_parens (hfresh : s.fresh = false) (hdepth : s.depth = 0)
    (hrest : s.rest = '(' :: (c :: (cs ++ ')' :: tail))) (hc : startsWord c = true)
    (hcs : ∀ x ∈ cs, continuesWord x = true) :
    s.run map = ({ s with
      rest := tail
      tokens := [⟨.mark Punct.rparen, reportedLine map s.line⟩,
        ⟨wordLexeme (String.ofList (c :: cs)), reportedLine map s.line⟩,
        ⟨.mark Punct.lparen, reportedLine map s.line⟩] ++ s.tokens } : Scan).run map := by
  have stops : continuesWord ')' = false := rfl
  have first : s.step map
      = .ok ({ s with
          rest := c :: (cs ++ ')' :: tail)
          depth := 1 }.push map (.mark Punct.lparen)) :=
    (step_inside hfresh hrest).trans (readToken_lparen hdepth)
  rw [run_of_step (by rw [hrest]; exact List.cons_ne_nil _ _) first]
  generalize hs₁ : push map (.mark Punct.lparen) _ = s₁
  have rest₁ : s₁.rest = c :: (cs ++ ')' :: tail) := by rw [← hs₁]; rfl
  have fresh₁ : s₁.fresh = false := by rw [← hs₁]; exact hfresh
  have second : s₁.step map
      = .ok ({ s₁ with rest := ')' :: tail }.push map
          (wordLexeme (String.ofList (c :: cs)))) :=
    (step_inside fresh₁ rest₁).trans (readToken_name hc hcs stops)
  rw [run_of_step (by rw [rest₁]; exact List.cons_ne_nil _ _) second]
  generalize hs₂ : push map (wordLexeme (String.ofList (c :: cs))) _ = s₂
  have rest₂ : s₂.rest = ')' :: tail := by rw [← hs₂]; rfl
  have fresh₂ : s₂.fresh = false := by rw [← hs₂]; exact fresh₁
  have depth₂ : s₂.depth = 1 := by rw [← hs₂, ← hs₁]; rfl
  have third : s₂.step map
      = .ok ({ s₂ with rest := tail, depth := 0 }.push map (.mark Punct.rparen)) :=
    (step_inside fresh₂ rest₂).trans (readToken_rparen depth₂)
  rw [run_of_step (by rw [rest₂]; exact List.cons_ne_nil _ _) third]
  subst hs₂ hs₁
  rw [← hdepth]
  rfl

/-- The call itself, on the line that is put in. -/
def callText (var : String) : List Char :=
  'l' :: ("og_state".toList ++ '(' :: (var.toList ++ [')']))

theorem toList_logCall (line var : String) : (logCall line var).toList = indentation line ++
    ((if opensBlock line then blockIndentation.toList else []) ++ callText var) := by
  rw [logCall]
  simp only [String.toList_append, String.toList_ofList, List.append_assoc]
  split <;> rfl

/-- The width of the indentation of the call after a line. -/
def callWidth (line : String) : Nat :=
  (margin 0 line.toList).1 + if opensBlock line then 4 else 0

theorem margin_blockIndentation (hd : isMargin d = false) :
    margin width (blockIndentation.toList ++ d :: rest) = (width + 4, d :: rest) := by
  have blanks : blockIndentation.toList = [' ', ' ', ' ', ' '] := rfl
  rw [blanks]
  exact margin_stops hd

theorem margin_logCall {line : String} (hfeed : '\x0c' ∉ line.toList.takeWhile isMargin) :
    margin 0 ((logCall line var).toList ++ tail) = (callWidth line, callText var ++ tail) := by
  have stops : isMargin 'l' = false := rfl
  rw [toList_logCall, callWidth, List.append_assoc, List.append_assoc]
  split
  · have front : margin 0 (indentation line ++ (blockIndentation.toList ++ (callText var ++ tail)))
        = margin (margin 0 line.toList).1 (blockIndentation.toList ++ (callText var ++ tail)) :=
      margin_indentation_append hfeed
    rw [front]
    exact margin_blockIndentation stops
  · exact margin_indentation hfeed stops

theorem margin_blanks (blanks : List Char) (h : ∀ c ∈ blanks, c = ' ' ∨ c = '\t') (width : Nat)
    (cs : List Char) : ∃ width', margin width (blanks ++ cs) = margin width' cs := by
  induction blanks generalizing width with
  | nil => exact ⟨width, rfl⟩
  | cons c blanks ih =>
    obtain ⟨hc, hblanks⟩ := List.forall_mem_cons.mp h
    rcases hc with rfl | rfl
    · exact ih hblanks _
    · exact ih hblanks _

/-- The line of a call holds blanks and the call, whatever line it comes after. -/
theorem margin_logCall_blanks (line var : String) (tail : List Char) :
    ∃ width, margin 0 ((logCall line var).toList ++ tail) = (width, callText var ++ tail) := by
  have blanks : (indentation line ++ if opensBlock line then blockIndentation.toList else []).all
      (fun c => c = ' ' ∨ c = '\t') = true := by
    rw [List.all_append, indentation, List.all_takeWhile, Bool.true_and]
    split <;> rfl
  obtain ⟨width, hwidth⟩ := margin_blanks _
    (fun c hc => of_decide_eq_true (List.all_eq_true.mp blanks c hc)) 0 (callText var ++ tail)
  refine ⟨width, ?_⟩
  rw [toList_logCall, ← List.append_assoc, List.append_assoc, hwidth]
  exact margin_stops rfl

/-- From a line with a call on it the scanner reads the words of the call, in a block of the width
of the line. -/
theorem run_callText {u : Scan} (hvar : isIdentifier var = true) (hfresh : s.fresh = true)
    (hdepth : s.depth = 0) (hmargin : margin 0 s.rest = (width, callText var ++ tail))
    (hindent : s.indent map width = .ok u) :
    s.run map = ({ u with
      rest := tail
      fresh := false
      tokens := logWords (reportedLine map s.line) (wordLexeme var) ++ u.tokens } :
        Scan).run map := by
  obtain ⟨c, cs, hname, hc, hcs⟩ := word_of_isIdentifier hvar
  have call : callText var ++ tail = 'l' :: ("og_state".toList ++ '(' :: (c :: (cs ++ ')' :: tail)))
      := by
    rw [callText, hname]
    simp
  have named : String.ofList (c :: cs) = var := by
    rw [← hname, String.ofList_toList]
  have continues : ∀ x ∈ "og_state".toList, continuesWord x = true := List.all_eq_true.mp rfl
  have free : wordLexeme (String.ofList ('l' :: "og_state".toList)) = .name Builtin.logState.name :=
    by decide
  have starts : startsWord 'l' = true := rfl
  have stops : continuesWord '(' = false := rfl
  have first : s.step map = .ok ({ u with rest := '(' :: (c :: (cs ++ ')' :: tail)), fresh := false
      }.push map (.name Builtin.logState.name)) := by
    have blank : s.blankLine? ('l' :: ("og_state".toList ++ '(' :: (c :: (cs ++ ')' :: tail))))
        = none := rfl
    rw [step, if_pos hfresh, hmargin, call]
    dsimp only
    rw [blank, hindent, ← free]
    exact readToken_name starts continues stops
  have nonempty : s.rest ≠ [] := by
    intro hrest
    rw [hrest, call] at hmargin
    cases hmargin
  obtain ⟨shifts, widths, rfl, -, -⟩ := indent_shifts hindent
  rw [run_of_step nonempty first]
  generalize hs₁ : push map (.name Builtin.logState.name) _ = s₁
  refine (run_parens (s := s₁) (by subst hs₁; rfl) (by subst hs₁; exact hdepth)
    (by subst hs₁; rfl) hc hcs).trans ?_
  subst hs₁
  rw [named]
  rfl

theorem wordLexeme_name (hk : Keyword.ofText? var = none) : wordLexeme var = .name var := by
  rw [wordLexeme, hk]

/-- After a line that writes, the scanner reads the call that logs the list, in a block of its own
width. -/
theorem run_logCall {line : String} {u : Scan} (hvar : isIdentifier var = true)
    (hk : Keyword.ofText? var = none) (hfeed : '\x0c' ∉ line.toList.takeWhile isMargin)
    (hfresh : s.fresh = true) (hdepth : s.depth = 0)
    (hindent : s.indent map (callWidth line) = .ok u)
    (hrest : s.rest = (logCall line var).toList ++ tail) :
    s.run map = ({ u with
      rest := tail
      fresh := false
      tokens := logWords (reportedLine map s.line) (.name var) ++ u.tokens } :
        Scan).run map := by
  have width : margin 0 s.rest = (callWidth line, callText var ++ tail) := by
    rw [hrest, margin_logCall hfeed]
  rw [run_callText hvar hfresh hdepth width hindent, wordLexeme_name hk]

end SortTrace.Script.Scan
