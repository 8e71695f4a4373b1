import SortTrace.Proofs.Scanning.OwnLines
import SortTrace.Source.Labels

/-!
# Where the lines of a text begin

The scanner comes to the beginning of every line of a text, with the number of the line, unless the
line begins inside a string literal that a backslash lets go on over the end of the line before it
(`exists_atLine`).
-/

namespace SortTrace

open Text

/-! ## Lines of a text -/

/-- A line begins behind these characters. -/
def BeginsLine (passed : List Char) : Prop :=
  passed = [] ∨ passed.getLast? = some '\n'

namespace Text

variable {passed cs rest : List Char} {c : Char}

theorem splitLines_newline (cs : List Char) : splitLines ('\n' :: cs) = [] :: splitLines cs := rfl

theorem splitLines_cons (hc : c ≠ '\n') (cs : List Char) :
    ∃ line lines, splitLines cs = line :: lines ∧ splitLines (c :: cs) = (c :: line) :: lines := by
  cases hcs : splitLines cs with
  | nil => exact absurd hcs (splitLines_ne_nil cs)
  | cons line lines => exact ⟨line, lines, rfl, by rw [splitLines, if_neg hc, hcs]⟩

theorem length_splitLines (cs : List Char) : (splitLines cs).length = cs.count '\n' + 1 := by
  induction cs with
  | nil => rfl
  | cons c cs ih =>
    by_cases hc : c = '\n'
    · subst hc
      rw [splitLines_newline, List.length_cons, ih, List.count_cons_self]
    · obtain ⟨line, lines, hcs, hline⟩ := splitLines_cons hc cs
      rw [hline, List.length_cons, List.count_cons_of_ne hc, ← ih, hcs, List.length_cons]

/-- The first line of a text is what stands before its first newline. -/
theorem head?_splitLines (cs : List Char) :
    (splitLines cs).head? = some (cs.takeWhile fun c => c != '\n') := by
  induction cs with
  | nil => rfl
  | cons c cs ih =>
    by_cases hc : c = '\n'
    · subst hc
      rfl
    · obtain ⟨line, lines, hcs, hline⟩ := splitLines_cons hc cs
      rw [hcs] at ih
      have first : (c :: cs).takeWhile (fun c => c != '\n') = c :: line := by
        rw [List.takeWhile_cons, if_pos (bne_iff_ne.mpr hc), ← Option.some.inj ih]
      rw [hline, first]
      rfl

/-- Behind the beginning of a line stand the lines of the rest of the text. -/
theorem drop_splitLines (h : BeginsLine passed) (rest : List Char) :
    (splitLines (passed ++ rest)).drop (passed.count '\n') = splitLines rest := by
  induction passed with
  | nil => rfl
  | cons c passed ih =>
    have behind : passed ≠ [] → BeginsLine passed := fun hne =>
      .inr (by rw [← h.resolve_left (List.cons_ne_nil _ _), List.getLast?_cons_of_ne_nil hne])
    by_cases hc : c = '\n'
    · subst hc
      rw [List.count_cons_self, List.cons_append, splitLines_newline, List.drop_succ_cons]
      by_cases hne : passed = []
      · exact ih (.inl hne)
      · exact ih (behind hne)
    · have hne : passed ≠ [] := by
        rintro rfl
        rcases h with h | h
        · cases h
        · exact hc (Option.some.inj h)
      obtain ⟨line, lines, hcs, hline⟩ := splitLines_cons hc (passed ++ rest)
      have more := ih (behind hne)
      have inside : '\n' ∈ passed := List.mem_of_getLast? ((behind hne).resolve_left hne)
      obtain ⟨k, hk⟩ := Nat.exists_eq_add_one.mpr (List.count_pos_iff.mpr inside)
      rw [hcs, hk, List.drop_succ_cons] at more
      rw [List.cons_append, hline, List.count_cons_of_ne hc, hk, List.drop_succ_cons, more]

theorem getElem?_splitLines (h : BeginsLine passed) (rest : List Char) :
    (splitLines (passed ++ rest))[passed.count '\n']?
      = some (rest.takeWhile fun c => c != '\n') := by
  rw [← head?_splitLines, ← drop_splitLines h rest, List.head?_drop]

end Text

/-! ## The scanner at the beginning of a line -/

namespace Script.Scan

variable {text cs rest : List Char} {c : Char} {k n : Nat} {s t u : Scan}

/-- Line `k + 1` of the text begins inside a string literal that is read. -/
def InsideString (text : List Char) (k : Nat) : Prop :=
  ∃ s t, ComesTo (start text) s ∧ Goes s t ∧ s.line ≤ k ∧ k < s.line + literalLines s.ahead

theorem not_insideString {text : String} (h : StringsOnLine text) :
    ¬ InsideString text.toList k := by
  rintro ⟨s, t, hs, ht, from_line, to_line⟩
  rw [h s t hs ht] at to_line
  exact Nat.not_lt_of_le from_line to_line

/-- The scanner is at the beginning of line `k + 1` of the text. -/
structure AtLine (text : List Char) (k : Nat) (s : Scan) : Prop where
  comes : ComesTo (start text) s
  line : s.line = k + 1
  begins : ∃ passed, text = passed ++ s.rest ∧ BeginsLine passed

/-- What is passed over `n` ends of lines is the string literal at the start of the text, or it goes
to the beginning of the next line. -/
def LiteralOrLine (n : Nat) (cs rest : List Char) : Prop :=
  n = literalLines cs ∨ n = 1 ∧ ∃ front, cs = front ++ '\n' :: rest

theorem literalLines_plain (hc : ¬(c = '"' ∨ c = '\'')) : literalLines (c :: cs) = 0 :=
  if_neg hc

theorem pastNewline_lines (cs : List Char) : (pastNewline cs).1 = 0 ∨
    (pastNewline cs).1 = 1 ∧ cs = '\n' :: (pastNewline cs).2 := by
  unfold pastNewline
  split
  · exact .inr ⟨rfl, rfl⟩
  · exact .inl rfl

theorem blankEnd?_lines (h : blankEnd? cs = some (n, rest)) : LiteralOrLine n cs rest := by
  unfold blankEnd? at h
  split at h
  · cases h
    exact .inl rfl
  · cases h
    exact .inr ⟨rfl, [], rfl⟩
  · next cs =>
    split at h
    · obtain ⟨rfl, rfl⟩ := Prod.mk.inj (Option.some.inj h)
      exact (pastNewline_lines cs).imp id fun ⟨one, hcs⟩ => ⟨one, ['\r'], congrArg ('\r' :: ·) hcs⟩
    · cases h
  · next cs =>
    obtain ⟨rfl, rfl⟩ := Prod.mk.inj (Option.some.inj h)
    obtain ⟨comment, hcomment, -⟩ := afterComment_splits cs
    refine (pastNewline_lines (afterComment cs)).imp id fun ⟨one, hcs⟩ => ⟨one, '#' :: comment, ?_⟩
    have whole : cs = comment ++ '\n' :: (pastNewline (afterComment cs)).2 := by
      rw [← hcs, ← hcomment]
    exact congrArg ('#' :: ·) whole
  · cases h

theorem line_of_word {l : Lexeme} (h : (Piece.word l n rest).add #[] c s = .ok t) :
    t.line = s.line + n := by
  rw [Piece.add] at h
  cases hnest : s.nest #[] c l with
  | error e =>
    rw [hnest] at h
    cases h
  | ok depth =>
    rw [hnest] at h
    cases h
    rfl

theorem ofNumber_lines {body : List Char × Bool × List Char}
    (h : (Piece.ofNumber body).add #[] c s = .ok t) : t.line = s.line := by
  obtain ⟨digits, real, rest⟩ := body
  rw [Piece.ofNumber] at h
  split at h
  · cases h
  · split at h
    · exact line_of_word h
    · cases h
    · cases h

theorem add_lines (h : (piece c cs).add #[] c s = .ok t) :
    ∃ n, t.line = s.line + n ∧ LiteralOrLine n (c :: cs) t.rest := by
  by_cases hquote : c = '"' ∨ c = '\''
  · rw [piece_quote hquote] at h
    cases hr : stringBody c cs [] 0 with
    | none =>
      rw [hr] at h
      cases h
    | some r =>
      rw [hr] at h
      exact ⟨r.2.1, line_of_word h, .inl (literalLines_quote hquote hr).symm⟩
  · have stays (hline : t.line = s.line) :
        ∃ n, t.line = s.line + n ∧ LiteralOrLine n (c :: cs) t.rest :=
      ⟨0, hline, .inl (literalLines_plain hquote).symm⟩
    unfold piece at h
    split at h
    · next hc =>
      subst hc
      cases h
      exact ⟨1, rfl, .inr ⟨rfl, [], rfl⟩⟩
    split at h
    · cases h
      exact stays rfl
    split at h
    · cases h
      exact stays rfl
    split at h
    · next joined =>
      obtain ⟨rfl, joined⟩ := joined
      obtain ⟨rest, hrest⟩ := Option.isSome_iff_exists.mp joined
      rw [hrest] at h
      cases h
      refine ⟨1, rfl, .inr ⟨rfl, ?_⟩⟩
      unfold continuation? at hrest
      split at hrest
      · cases hrest
        exact ⟨['\\'], rfl⟩
      · cases hrest
        exact ⟨['\\', '\r'], rfl⟩
      · cases hrest
    split at h
    · exact stays (ofNumber_lines h)
    split at h
    · exact stays (line_of_word h)
    · cases hop : operator? c cs with
      | none =>
        rw [hop] at h
        cases h
      | some r =>
        rw [hop] at h
        exact stays (line_of_word h)

/-- A step goes over the ends of lines in the string literal ahead, or to the beginning of the next
line. -/
theorem step_lines (h : Goes s t) :
    ∃ n, t.line = s.line + n ∧ LiteralOrLine n s.ahead t.rest := by
  obtain ⟨hs, h⟩ := h
  by_cases hfresh : s.fresh = true
  · rw [ahead, if_pos hfresh]
    cases hblank : blankEnd? (margin 0 s.rest).2 with
    | some past =>
      obtain ⟨n, rest⟩ := past
      rw [step_fresh hfresh, hblank] at h
      cases h
      exact ⟨n, rfl, blankEnd?_lines hblank⟩
    | none =>
      obtain ⟨c, cs, hcs⟩ := cons_of_blankEnd? hblank
      rw [step_fresh hfresh, hblank, hcs] at h
      cases hindent : s.indent #[] (margin 0 s.rest).1 with
      | error e =>
        rw [hindent] at h
        cases h
      | ok u =>
        rw [hindent] at h
        obtain ⟨shifts, widths, rfl, -, -⟩ := indent_shifts hindent
        rw [hcs]
        exact add_lines (s := { s with widths, tokens := shifts ++ s.tokens, fresh := false })
          (readToken_eq.symm.trans h)
  · have inside : s.fresh = false := Bool.not_eq_true _ ▸ hfresh
    obtain ⟨c, cs, hcs⟩ := List.exists_cons_of_ne_nil hs
    rw [step_inside inside hcs, readToken_eq] at h
    rw [ahead, if_neg hfresh, hcs]
    exact add_lines h

theorem ahead_suffix (s : Scan) : s.ahead <:+ s.rest := by
  rw [ahead]
  split
  · exact (margin_splits 0 s.rest).suffix
  · exact List.suffix_rfl

theorem step_suffix (h : Goes s t) : t.rest <:+ s.rest := by
  cases step_stepping h.2 h.1 with
  | inside _ hread => exact hread.suffix
  | blank _ _ _ hcuts => exact hcuts.suffix
  | starts _ _ _ _ _ _ hread => exact hread.suffix.trans (margin_splits 0 s.rest).suffix

theorem suffix_of_comesTo (h : ComesTo s t) : t.rest <:+ s.rest := by
  induction h with
  | refl => exact List.suffix_rfl
  | tail _ ht ih => exact (step_suffix ht).trans ih

theorem count_of_comesTo (h : ComesTo s t) :
    t.line + t.rest.count '\n' = s.line + s.rest.count '\n' := by
  induction h with
  | refl => rfl
  | tail _ ht ih => exact (step_count ht.2 ht.1).1.trans ih

/-- Every line up to that of the scanner begins inside a string literal or has been reached. -/
structure LinesReached (text : List Char) (s : Scan) : Prop where
  comes : ComesTo (start text) s
  lines : ∀ k < s.line, InsideString text k ∨ ∃ t, AtLine text k t

theorem LinesReached.start (text : List Char) : LinesReached text (Scan.start text) where
  comes := .refl
  lines k hk := by
    obtain rfl := Nat.lt_one_iff.mp hk
    exact .inr ⟨Scan.start text, .refl, rfl, [], rfl, .inl rfl⟩

theorem LinesReached.step (h : LinesReached text s) (ht : Goes s t) : LinesReached text t := by
  obtain ⟨n, hline, crosses⟩ := step_lines ht
  refine ⟨h.comes.tail ht, fun k hk => ?_⟩
  by_cases before : k < s.line
  · exact h.lines k before
  by_cases literal : n = literalLines s.ahead
  · exact .inl ⟨s, t, h.comes, ht, by omega, by omega⟩
  · obtain ⟨one, last, hlast⟩ := crosses.resolve_left literal
    obtain ⟨front, hfront⟩ := suffix_of_comesTo h.comes
    obtain ⟨blanks, hblanks⟩ := ahead_suffix s
    refine .inr ⟨t, h.comes.tail ht, by omega, front ++ blanks ++ last ++ ['\n'], ?_, .inr ?_⟩
    · calc text = front ++ s.rest := hfront.symm
        _ = front ++ blanks ++ last ++ ['\n'] ++ t.rest := by rw [← hblanks, hlast]; simp
    · simp

/-- The beginning of a line that does not begin inside a string literal is reached. -/
theorem exists_atLine (h : (Scan.start text).run #[] = .ok u) (hk : k < (splitLines text).length)
    (hk' : ¬ InsideString text k) : ∃ s, AtLine text k s := by
  obtain ⟨reached, hrest⟩ := run_induction (P := LinesReached text)
    (fun s t hs hstep h => h.step ⟨hs, hstep⟩) h (.start text)
  have count : u.line + u.rest.count '\n' = 1 + text.count '\n' := count_of_comesTo reached.comes
  rw [hrest, List.count_nil] at count
  rw [length_splitLines] at hk
  exact (reached.lines k (by omega)).resolve_left hk'

/-- What the scanner finds at the beginning of a line is that line and the lines behind it. -/
theorem AtLine.line_eq (h : AtLine text k s) :
    (splitLines text)[k]? = some (s.rest.takeWhile fun c => c != '\n') := by
  obtain ⟨passed, hpassed, begins⟩ := h.begins
  have count : s.line + s.rest.count '\n' = 1 + text.count '\n' := count_of_comesTo h.comes
  have line := h.line
  rw [hpassed, List.count_append] at count
  have before : passed.count '\n' = k := by omega
  rw [← before, hpassed, getElem?_splitLines begins]

/-- The scanner finds the line there, and behind it the end of the text or a newline. -/
theorem AtLine.rest_eq {line : List Char} (h : AtLine text k s)
    (hline : (splitLines text)[k]? = some line) :
    ∃ tail, s.rest = line ++ tail ∧ EndsLine tail ∧ ∀ c ∈ line, c ≠ '\n' := by
  obtain rfl := Option.some.inj (hline.symm.trans h.line_eq)
  refine ⟨s.rest.dropWhile fun c => c != '\n', List.takeWhile_append_dropWhile.symm, ?_, ?_⟩
  · intro c hc
    have stops := List.head?_dropWhile_not (fun c => c != '\n') s.rest
    rw [Option.mem_def.mp hc] at stops
    simpa using stops
  · exact fun c hc => bne_iff_ne.mp (List.all_eq_true.mp List.all_takeWhile c hc)

end Script.Scan

end SortTrace
