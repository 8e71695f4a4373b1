import SortTrace.Proofs.Headings.Lines
import SortTrace.Proofs.Instrumenting.Names
import SortTrace.Proofs.Literals
import SortTrace.Proofs.Scanning.Rescaled

/-!
# Lines that read like headings

A line seems to define a function if the word before a function, a space and a name stand at its
beginning (`definedName?_eq_some`). Where the scanner comes to the beginning of such a line, it
reads that word on that line, and behind it the whole of what the line seems to name
(`run_heading`).
-/

namespace SortTrace

open Text

/-! ## Blanks -/

namespace Text

variable {c : Char} {cs ws rest : List Char}

/-- The characters are blanks on one line. -/
def BlankOnLine (cs : List Char) : Prop :=
  ∀ c ∈ cs, isBlank c = true ∧ c ≠ '\n'

/-- The code points of the blanks. -/
def blankPoints : List Nat :=
  [0x9, 0xa, 0xb, 0xc, 0xd, 0x20, 0x85, 0xa0, 0x1680, 0x2000, 0x2001, 0x2002, 0x2003, 0x2004,
    0x2005, 0x2006, 0x2007, 0x2008, 0x2009, 0x200a, 0x2028, 0x2029, 0x202f, 0x205f, 0x3000]

theorem toNat_mem_blankPoints (h : isBlank c = true) : c.toNat ∈ blankPoints := by
  simp only [isBlank, Bool.or_eq_true, Bool.and_eq_true, decide_eq_true_eq, beq_iff_eq] at h
  simp only [blankPoints, List.mem_cons, List.not_mem_nil, or_false]
  omega

/-- What is known of the code points of the blanks holds of the blanks. -/
theorem of_blankPoints {P : Char → Prop} (h : ∀ n ∈ blankPoints, P (Char.ofNat n))
    (hc : isBlank c = true) : P c :=
  Char.ofNat_toNat c ▸ h c.toNat (toNat_mem_blankPoints hc)

theorem trimLeft_append (hws : ∀ w ∈ ws, isBlank w = true) (hc : isBlank c = false) :
    trimLeft (ws ++ c :: rest) = c :: rest := by
  rw [trimLeft, List.dropWhile_append_of_pos hws, List.dropWhile_cons, hc]
  rfl

/-- A text that is not blank is blanks and what begins with its first other character. -/
theorem trimLeft_splits (h : trimLeft cs = c :: rest) :
    ∃ ws, cs = ws ++ c :: rest ∧ (∀ w ∈ ws, isBlank w = true) ∧ isBlank c = false := by
  refine ⟨cs.takeWhile isBlank, ?_, fun w hw => List.all_eq_true.mp List.all_takeWhile w hw, ?_⟩
  · rw [← h, trimLeft, List.takeWhile_append_dropWhile]
  · have stops := List.head?_dropWhile_not isBlank cs
    rw [← trimLeft, h] at stops
    simpa using stops

end Text

/-! ## The name that a line seems to define -/

namespace Source

variable {line : List Char} {name : String} {c : Char}

theorem isBlank_of_isNameChar (h : isNameChar c = true) : isBlank c = false := by
  by_contra blank
  have odd := of_blankPoints (P := fun c => isNameChar c = false) (by decide)
    (Bool.not_eq_false _ ▸ blank)
  rw [h] at odd
  cases odd

/-- What a line looks like that seems to define a function. -/
theorem definedName?_eq_some : definedName? line = some name ↔ ∃ ws ws' c cs,
    line = ws ++ 'd' :: 'e' :: 'f' :: ' ' :: (ws' ++ c :: cs) ∧ (∀ w ∈ ws, isBlank w = true) ∧
      (∀ w ∈ ws', isBlank w = true) ∧ isNameChar c = true ∧
      name.toList = (c :: cs).takeWhile isNameChar := by
  constructor
  · intro h
    unfold definedName? at h
    split at h
    · next rest hline =>
      obtain ⟨ws, rfl, hws, -⟩ := trimLeft_splits hline
      dsimp only at h
      split at h
      · cases h
      · next hname =>
        cases h
        cases hrest : trimLeft rest with
        | nil =>
          rw [hrest] at hname
          exact absurd rfl hname
        | cons c cs =>
          obtain ⟨ws', rfl, hws', -⟩ := trimLeft_splits hrest
          rw [hrest] at hname
          refine ⟨ws, ws', c, cs, rfl, hws, hws', ?_, String.toList_ofList⟩
          rw [List.takeWhile_cons] at hname
          split at hname
          · assumption
          · exact absurd rfl hname
    · cases h
  · rintro ⟨ws, ws', c, cs, rfl, hws, hws', hc, hname⟩
    have named : (trimLeft (ws' ++ c :: cs)).takeWhile isNameChar = name.toList := by
      rw [trimLeft_append hws' (isBlank_of_isNameChar hc), hname]
    have filled : ¬ name.toList.isEmpty = true := by
      rw [hname, List.takeWhile_cons, if_pos hc]
      exact Bool.false_ne_true
    rw [definedName?, trimLeft_append hws rfl]
    refine (if_neg ?_).trans (congrArg some ?_)
    · rwa [named]
    · rw [named, String.ofList_toList]

end Source

namespace Script.Scan

variable {c : Char} {cs ws : List Char} {s t u : Scan}

/-! ## Blanks before the scanner -/

/-- What anything but a word, a number or an operator begins with. -/
def gapOrQuote : List Char :=
  ['\n', ' ', '\t', '\r', '\x0c', '#', '\\', '"', '\'', '.']

/-- A blank that the scanner passes inside a line is one of a margin or a carriage return. -/
theorem readToken_blank (hc : Text.isBlank c = true) (hn : c ≠ '\n')
    (h : s.readToken #[] c cs = .ok t) : isMargin c = true ∨ c = '\r' := by
  have kinds := of_blankPoints (P := fun c => (c = '\n' ∨ isMargin c = true ∨ c = '\r') ∨
    (c ∉ gapOrQuote ∧ c.isDigit = false ∧ startsWord c = false ∧
      ∀ p ∈ spellingsByLength, p.1.head? ≠ some c)) (by decide +kernel) hc
  rcases kinds with gap | ⟨other, digit, word, sign⟩
  · exact gap.resolve_left hn
  · -- Nothing that can be read begins with any other blank.
    have unspelled : operator? c cs = none := by
      rw [← Option.not_isSome_iff_eq_none, Option.isSome_iff_exists]
      rintro ⟨r, hr⟩
      obtain ⟨p, more, hp, hmore, -⟩ := operator?_spelling hr
      have hmem := List.mem_of_find?_eq_some hp
      obtain ⟨d, w, hd⟩ := List.exists_cons_of_ne_nil (spellings_ne_nil p hmem)
      rw [hd, List.cons_append] at hmore
      exact sign p hmem (by rw [hd, (List.cons.inj hmore).1]; rfl)
    have bad : piece c cs = .ofOperator c (operator? c cs) := by
      simp only [gapOrQuote, List.mem_cons, List.not_mem_nil, or_false, not_or] at other
      simp [piece, other, digit, word]
    rw [readToken_eq, bad, unspelled] at h
    cases h

/-- A run that ends well makes a step, unless the text has ended. -/
theorem step_of_run (hs : s.rest ≠ []) (h : s.run #[] = .ok u) :
    ∃ t, s.step #[] = .ok t ∧ t.run #[] = .ok u := by
  cases hstep : s.step #[] with
  | error e =>
    rw [run_of_error hs hstep] at h
    cases h
  | ok t => exact ⟨t, rfl, by rwa [← run_of_step hs hstep]⟩

/-- Inside a line blanks are passed. -/
theorem run_gap (hfresh : s.fresh = false) (hws : BlankOnLine ws) (hrest : s.rest = ws ++ cs)
    (h : s.run #[] = .ok u) : ({ s with rest := cs } : Scan).run #[] = .ok u := by
  induction ws generalizing s with
  | nil =>
    obtain rfl : s.rest = cs := hrest
    exact h
  | cons w ws ih =>
    obtain ⟨⟨hw, hn⟩, hws⟩ := List.forall_mem_cons.mp hws
    have some_rest : s.rest ≠ [] := by
      rw [hrest]
      exact List.cons_ne_nil _ _
    obtain ⟨t, hstep, hrun⟩ := step_of_run some_rest h
    rw [step_inside hfresh hrest] at hstep
    have gap := goes_gap hfresh (readToken_blank hw hn hstep) hrest
    rw [run_of_step gap.1 gap.2] at h
    exact ih (s := { s with rest := ws ++ cs }) hfresh hws rfl h

/-- A line with something behind its blanks is not blank. -/
theorem blankEnd?_blanks (hws : BlankOnLine ws) (hc : Text.isBlank c = false)
    (hcomment : c ≠ '#') : blankEnd? (ws ++ c :: cs) = none := by
  have plain {d : Char} (hd : Text.isBlank d = true) : c ≠ d := by
    rintro rfl
    rw [hd] at hc
    cases hc
  cases ws with
  | nil => exact blankEnd?_plain (plain rfl) (plain rfl) hcomment cs
  | cons w ws =>
    obtain ⟨⟨hw, hn⟩, hmore⟩ := List.forall_mem_cons.mp hws
    by_cases hreturn : w = '\r'
    · subst hreturn
      cases ws with
      | nil => exact blankEnd?_return (plain rfl) cs
      | cons v ws => exact blankEnd?_return (hmore v (List.mem_cons_self ..)).2 _
    · refine blankEnd?_plain hn hreturn ?_ _
      rintro rfl
      cases hw

theorem readToken_rest (rest : List Char) :
    ({ s with rest } : Scan).readToken #[] c cs = s.readToken #[] c cs := by
  rw [readToken_eq, readToken_eq]
  cases piece c cs with
  | lineEnd =>
    have layout : ({ s with rest } : Scan).atLayout = s.atLayout := rfl
    rw [Piece.add, Piece.add, passLine, passLine, endLine, endLine, layout]
    dsimp only
    split
    · split <;> rfl
    · rfl
  | _ => rfl

/-- At the beginning of a line blocks are opened or closed, and blanks are passed. -/
theorem run_indented (hws : BlankOnLine ws) (hrest : s.rest = ws ++ c :: cs)
    (hc : Text.isBlank c = false) (hcomment : c ≠ '#') (h : s.run #[] = .ok u) :
    ∃ t : Scan, t.run #[] = .ok u ∧ t.fresh = false ∧ t.rest = c :: cs ∧ t.line = s.line := by
  have some_rest : s.rest ≠ [] := by
    rw [hrest]
    exact List.append_ne_nil_of_right_ne_nil _ (List.cons_ne_nil _ _)
  by_cases hfresh : s.fresh = true
  · have inner : BlankOnLine (ws.dropWhile isMargin) := fun w hw =>
      hws w ((List.dropWhile_sublist _).subset hw)
    obtain ⟨d, ds, hd⟩ : ∃ d ds, ws.dropWhile isMargin ++ c :: cs = d :: ds :=
      List.exists_cons_of_ne_nil (List.append_ne_nil_of_right_ne_nil _ (List.cons_ne_nil _ _))
    have stops : ∀ x ∈ (ws.dropWhile isMargin ++ c :: cs).head?, isMargin x = false := by
      cases hinner : ws.dropWhile isMargin with
      | nil =>
        rintro x ⟨⟩
        by_contra blank
        have kinds : c = ' ' ∨ c = '\t' ∨ c = '\x0c' :=
          of_decide_eq_true (Bool.not_eq_false _ ▸ blank)
        rcases kinds with rfl | rfl | rfl <;> cases hc
      | cons w more =>
        rintro x ⟨⟩
        have first := List.head?_dropWhile_not isMargin ws
        rw [hinner] at first
        simpa using first
    have hmargin : (margin 0 s.rest).2 = d :: ds := by
      have blanks : ∀ x ∈ ws.takeWhile isMargin, isMargin x = true :=
        List.all_eq_true.mp List.all_takeWhile
      have split := margin_filled blanks stops 0
      rw [← List.append_assoc, List.takeWhile_append_dropWhile, ← hrest] at split
      rw [split, hd]
    obtain ⟨t, hstep, hrun⟩ := step_of_run some_rest h
    have filled : blankEnd? (ws.dropWhile isMargin ++ c :: cs) = none :=
      blankEnd?_blanks inner hc hcomment
    rw [step_fresh hfresh, hmargin, ← hd, filled] at hstep
    cases hindent : s.indent #[] (margin 0 s.rest).1 with
    | error e =>
      rw [hindent] at hstep
      cases hstep
    | ok v =>
      rw [hindent] at hstep
      obtain ⟨shifts, widths, rfl, -, -⟩ := indent_shifts hindent
      let here : Scan := { s with widths, tokens := shifts ++ s.tokens, fresh := false }
      let begun : Scan := { here with rest := d :: ds }
      have read : begun.step #[] = .ok t := by
        rw [step_inside (s := begun) rfl rfl]
        rw [readToken_rest (s := here), ← hstep, hd]
        rfl
      have ended : begun.run #[] = .ok u := by
        rw [run_of_step (List.cons_ne_nil d ds) read, hrun]
      exact ⟨_, run_gap (s := begun) rfl inner hd.symm ended, rfl, rfl, rfl⟩
  · have inside : s.fresh = false := Bool.not_eq_true _ ▸ hfresh
    exact ⟨_, run_gap inside hws hrest h, inside, rfl, rfl⟩

/-! ## The word before a function -/

/-- Whether a word or a number stands there, a name is the whole word. -/
theorem readToken_listed (hc : Source.isNameChar c = true) (h : s.readToken #[] c cs = .ok t) :
    ∃ l, t.tokens = ⟨l, s.line⟩ :: s.tokens ∧
      ∀ name ∈ l.name?, name.toList = c :: cs.takeWhile continuesWord := by
  have kinds : c.isDigit = true ∨ startsWord c = true := by
    rw [Source.isNameChar, Char.isAlphanum, Bool.or_eq_true, Bool.or_eq_true] at hc
    rcases hc with (letter | digit) | underscore
    · exact .inr (by rw [startsWord, isLetter_of_alpha letter, Bool.or_true])
    · exact .inl digit
    · exact .inr (by rw [startsWord, underscore, Bool.true_or])
  rcases kinds with digit | word
  · rw [readToken_digit digit, readNumber] at h
    dsimp only at h
    split at h
    · cases h
    · cases hl : numberLexeme #[] s.line (numberBody cs (c == '.') [c]).1
        (numberBody cs (c == '.') [c]).2.1 with
      | error e =>
        rw [hl] at h
        cases h
      | ok l =>
        rw [hl] at h
        cases h
        refine ⟨l, rfl, fun name hname => ?_⟩
        rw [numberLexeme_name? hl] at hname
        cases hname
  · rw [readToken_word word] at h
    cases h
    refine ⟨_, rfl, fun name hname => ?_⟩
    split at hname
    · cases hname
    · obtain rfl := Option.some.inj hname
      exact String.toList_ofList

theorem endLine_suffix : s.tokens <:+ (s.endLine #[]).tokens := by
  rw [endLine]
  split
  · exact List.suffix_rfl
  · exact List.suffix_cons _ _

theorem step_tokens (h : s.step #[] = .ok t) (hs : s.rest ≠ []) : s.tokens <:+ t.tokens := by
  have reading {v : Scan} {cs : List Char} (hread : Reading #[] v cs t) :
      v.tokens <:+ t.tokens := by
    cases hread with
    | newline =>
      rw [passLine]
      split
      · exact endLine_suffix
      · exact List.suffix_rfl
    | skip => exact List.suffix_rfl
    | token => exact List.suffix_cons _ _
  cases step_stepping h hs with
  | inside _ hread => exact reading hread
  | blank => exact List.suffix_rfl
  | starts shifts _ _ _ _ _ hread => exact (List.suffix_append shifts _).trans (reading hread)

/-- What is read is kept. -/
theorem run_tokens (h : s.run #[] = .ok u) : s.tokens <:+ u.tokens :=
  (run_induction (P := fun t => s.tokens <:+ t.tokens)
    (fun _ _ hs hstep ht => ht.trans (step_tokens hstep hs)) h List.suffix_rfl).1

/-- At the end of the text only tokens of the layout are added. -/
theorem finish_suffix (s : Scan) : s.tokens <:+ (s.finish #[]).reverse := by
  rw [finish_eq, List.reverse_append, List.reverse_reverse]
  exact endLine_suffix.trans (List.suffix_append _ _)

/-- At the beginning of a line that reads like a heading the scanner reads the word before a
function and a name behind it, if it is one. -/
theorem run_heading (hws : BlankOnLine ws) (hws' : BlankOnLine ws')
    (hc : Source.isNameChar c = true)
    (hrest : s.rest = ws ++ 'd' :: 'e' :: 'f' :: ' ' :: (ws' ++ c :: cs)) (h : s.run #[] = .ok u) :
    ∃ l newer older, u.tokens = newer ++ ⟨l, s.line⟩ :: ⟨.mark Keyword.defKw, s.line⟩ :: older ∧
      ∀ name ∈ l.name?, name.toList = c :: cs.takeWhile continuesWord := by
  obtain ⟨t, hrun, hfresh, hrest, hline⟩ := run_indented hws hrest rfl (by decide) h
  let begun : Scan := { t with rest := ' ' :: (ws' ++ c :: cs) }.push #[] (.mark Keyword.defKw)
  have read : t.readToken #[] 'd' (['e', 'f'] ++ ' ' :: (ws' ++ c :: cs)) = .ok begun :=
    readToken_name rfl (List.all_eq_true.mp (by decide)) (by decide)
  rw [run_of_step (hrest ▸ List.cons_ne_nil _ _) ((step_inside hfresh hrest).trans read)] at hrun
  have blanks : BlankOnLine (' ' :: ws') := List.forall_mem_cons.mpr ⟨⟨rfl, by decide⟩, hws'⟩
  have named := run_gap (s := begun) hfresh blanks rfl hrun
  obtain ⟨v, hstep, hended⟩ := step_of_run (List.cons_ne_nil c cs) named
  rw [step_inside (s := { begun with rest := c :: cs }) hfresh rfl] at hstep
  obtain ⟨l, htokens, hname⟩ := readToken_listed hc hstep
  obtain ⟨newer, hnewer⟩ := run_tokens hended
  refine ⟨l, newer, t.tokens, ?_, hname⟩
  rw [← hnewer, htokens, ← hline]
  rfl

end Script.Scan

end SortTrace
