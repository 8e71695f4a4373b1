import SortTrace.Proofs.Scanning.SameLine

/-!
# Blank lines and comments

A line that holds nothing but blanks, a carriage return at its end or a comment may stand before any
logical line: it leaves no trace but that everything behind it stands one line further down
(`tokenize_blankLine`). The text before it is scanned to its end by itself (`run_onto`), the scanner
then passes the blank line in one step, and on what follows the two scans stay abreast.
-/

namespace SortTrace.Script

open Scan

/-- A line of blanks, which may end with a carriage return or with a comment. -/
inductive BlankLine : List Char → Prop
  | blank {blanks : List Char} (h : ∀ c ∈ blanks, isMargin c = true) : BlankLine blanks
  | returns {blanks : List Char} (h : ∀ c ∈ blanks, isMargin c = true) :
    BlankLine (blanks ++ ['\r'])
  | comment {blanks comment : List Char} (h : ∀ c ∈ blanks, isMargin c = true)
    (hcomment : '\n' ∉ comment) : BlankLine (blanks ++ '#' :: comment)

namespace Scan

/-- The text is empty or ends with a newline. -/
def OfLines (cs : List Char) : Prop :=
  ∀ c ∈ cs.getLast?, c = '\n'

/-- The scanner reads the text to its end, where the line has ended and a logical line may start. -/
structure EndsAtLine (text : List Char) (s : Scan) : Prop where
  lines : OfLines text
  run : (start text).run #[] = .ok s
  fresh : s.fresh = true

/-- The first text is made of whole lines, and the second one goes on with `more` behind it. -/
def Onto (more cs cs' : List Char) : Prop :=
  OfLines cs ∧ cs' = cs ++ more

variable {c : Char} {cs line more rest : List Char} {s s' t : Scan} {k : Nat} {base : List Token}

/-- An empty text ends at the start of its only line. -/
theorem EndsAtLine.nil : EndsAtLine [] (start []) where
  lines := by
    intro c hc
    cases hc
  run := run_of_rest rfl
  fresh := rfl

/-! ## A text that goes on -/

theorem OfLines.suffix (h : OfLines cs) (hrest : rest <:+ cs) : OfLines rest := by
  obtain ⟨front, rfl⟩ := hrest
  intro c hc
  refine h c ?_
  rw [List.getLast?_append, Option.mem_def.mp hc]
  rfl

/-- Lines that are not empty start with a whole line. -/
theorem OfLines.first (h : OfLines cs) (hcs : cs ≠ []) :
    ∃ line more, cs = line ++ '\n' :: more ∧ '\n' ∉ line := by
  have newline : '\n' ∈ cs := by
    rw [← h _ (List.getLast?_eq_some_getLast hcs)]
    exact List.getLast_mem hcs
  obtain ⟨line, more, hcs, hline⟩ := List.eq_append_cons_of_mem newline
  exact ⟨line, more, hcs, hline⟩

theorem sameLine_onto (more : List Char) {after : List Char} (hline : '\n' ∉ line)
    (h : OfLines (line ++ '\n' :: after)) :
    SameLine (Onto more) (Onto more) false line ('\n' :: after) ('\n' :: (after ++ more)) where
  onLine := hline
  ends := .newline ⟨h.suffix ((List.suffix_cons _ _).trans (List.suffix_append _ _)), rfl⟩
  noReturn := Bool.noConfusion
  rest := by
    intro rest hrest
    refine ⟨h.suffix ?_, by rw [List.append_assoc, List.cons_append]⟩
    obtain ⟨front, rfl⟩ := hrest
    rw [List.append_assoc]
    exact List.suffix_append _ _
  comment := ⟨h.suffix (List.suffix_append _ _), rfl⟩

/-- A string literal that ends is the same where the text goes on. -/
theorem string_onto (more : List Char) (h : OfLines cs) {quote : Char}
    (hbody : stringBody quote cs [] 0 ≠ none) : Piece.Alike (Onto more) (Onto more)
      (.ofString (stringBody quote cs [] 0)) (.ofString (stringBody quote (cs ++ more) [] 0)) := by
  cases hr : stringBody quote cs [] 0 with
  | none => exact absurd hr hbody
  | some r =>
    rw [stringBody_append hr]
    exact .word _ _ ⟨h.suffix (stringBody_splits hr).2.suffix, rfl⟩

/-- What is still to be read is related in the same way wherever the scanner stands. -/
theorem Abreast.onto {R : List Char → List Char → Prop} {f : Nat → Nat}
    (h : Abreast R R k f base s s') : R s.rest s'.rest := by
  cases hfresh : s.fresh with
  | true => exact h.starts hfresh
  | false => exact h.within hfresh

/-- The scan of a text that goes on is the scan of the text, with more to be read. -/
theorem Abreast.eq (h : Abreast (Onto more) (Onto more) 0 id [] s s') :
    s' = { s with rest := s.rest ++ more } := by
  obtain ⟨new, htokens, htokens'⟩ := h.tokens
  have hrest := h.onto.2
  obtain ⟨⟨hline, hwidths, hdepth, hfresh, -⟩, -, -⟩ := h
  obtain ⟨rest, line, widths, depth, fresh, tokens⟩ := s'
  rw [Token.map_down_zero, ← htokens] at htokens'
  rw [List.map_id] at hwidths
  subst hrest hline hwidths hdepth hfresh htokens'
  rfl

/-- Where the scanner goes on, a string literal ends. -/
theorem stringBody_of_add (hc : c = '"' ∨ c = '\'') (h : (piece c cs).add #[] c s = .ok t) :
    stringBody c cs [] 0 ≠ none := by
  intro hbody
  rw [piece_quote hc, hbody] at h
  cases h

/-- A line that is not blank is read by going behind the piece that it starts with. -/
theorem add_of_step (hfresh : s.fresh = true) (hmargin : (margin 0 s.rest).2 = c :: cs)
    (hblank : blankEnd? (c :: cs) = none) (ht : s.step #[] = .ok t) :
    ∃ u, (piece c cs).add #[] c u = .ok t := by
  rw [step_fresh hfresh, hmargin, hblank] at ht
  cases hu : s.indent #[] (margin 0 s.rest).1 with
  | error e =>
    rw [hu] at ht
    cases ht
  | ok u =>
    rw [hu] at ht
    exact ⟨{ u with fresh := false }, readToken_eq.symm.trans ht⟩

/-- A step inside whole lines is the same where the text goes on. -/
theorem step_onto (h : Abreast (Onto more) (Onto more) 0 id [] s s') (hs : s.rest ≠ [])
    (ht : s.step #[] = .ok t) :
    ∃ t', s'.step #[] = .ok t' ∧ Abreast (Onto more) (Onto more) 0 id [] t t' := by
  suffices answers :
      Answers 0 (Abreast (Onto more) (Onto more) 0 id []) (s.step #[]) (s'.step #[]) by
    rcases answers.both with ⟨u, u', hu, hu', abreast⟩ | ⟨e, herror, -⟩
    · rw [hu] at ht
      cases ht
      exact ⟨u', hu', abreast⟩
    · rw [herror] at ht
      cases ht
  obtain ⟨lines, hrest'⟩ := h.onto
  obtain ⟨line, after, hrest, hline⟩ := lines.first hs
  rw [hrest] at lines hrest'
  rw [List.append_assoc, List.cons_append] at hrest'
  have same := sameLine_onto more hline lines
  -- A string literal is alike because it ends.
  have string {c : Char} {rest : List Char} (hsuffix : c :: rest <:+ line)
      (hbody : stringBody c (rest ++ '\n' :: after) [] 0 ≠ none) :
      Piece.Alike (Onto more) (Onto more) (.ofString (stringBody c (rest ++ '\n' :: after) [] 0))
        (.ofString (stringBody c (rest ++ '\n' :: (after ++ more)) [] 0)) := by
    have alike := string_onto more ((same.suffix hsuffix).behind.rest rest List.suffix_rfl).1 hbody
    rwa [List.append_assoc] at alike
  cases hfresh : s.fresh with
  | true =>
    have stops (after : List Char) : margin 0 (line ++ '\n' :: after)
        = ((margin 0 line).1, (margin 0 line).2 ++ '\n' :: after) :=
      margin_append (EndsLine.newline after).stops
    refine step_fresh_abreast strictMono_id rfl (fun _ _ h => h) h.toTracks hfresh ?_ ?_
    · rw [hrest, hrest', stops, stops]
      rfl
    · have behind := (margin_splits 0 line).suffix
      rw [hrest, hrest', stops, stops]
      refine (same.suffix behind).lineAlike (fun _ _ h => h) fun _ c rest heq hc => ?_
      have filled : blankEnd? (c :: (rest ++ '\n' :: after)) = none := by
        rcases hc with rfl | rfl <;> rfl
      have hmargin : (margin 0 s.rest).2 = c :: (rest ++ '\n' :: after) := by
        rw [hrest, stops, heq]
        rfl
      obtain ⟨u, hadd⟩ := add_of_step hfresh hmargin filled ht
      exact string (heq ▸ behind) (stringBody_of_add hc hadd)
  | false =>
    cases line with
    | nil =>
      exact step_within_abreast (fun _ _ h => h) h.toTracks hfresh hrest hrest'
        (.lineEnd ⟨lines.suffix (List.suffix_cons _ _), rfl⟩)
    | cons c line =>
      refine step_within_abreast (fun _ _ h => h) h.toTracks hfresh hrest hrest'
        (same.behind.piece (List.ne_of_not_mem_cons hline).symm (fun _ _ h => h) fun hc => ?_)
      rw [step_inside hfresh hrest, readToken_eq] at ht
      exact string List.suffix_rfl (stringBody_of_add hc ht)

/-- A text that goes on behind its last line is scanned from there on. -/
theorem run_onto (h : EndsAtLine cs s) (more : List Char) :
    (start (cs ++ more)).run #[] = ({ s with rest := more } : Scan).run #[] := by
  let onward (u : Scan) : Prop := ∃ u', (start (cs ++ more)).run #[] = u'.run #[] ∧
    Abreast (Onto more) (Onto more) 0 id [] u u'
  have first : onward (start cs) := by
    refine ⟨start (cs ++ more), rfl, .start id cs (cs ++ more), ?_, ?_⟩
    · exact fun _ => ⟨h.lines, rfl⟩
    · exact fun _ => ⟨h.lines, rfl⟩
  have kept : onward s ∧ s.rest = [] := by
    refine run_induction (P := onward) ?_ h.run first
    rintro u v hne hv ⟨u', hrun, abreast⟩
    obtain ⟨v', hv', abreast'⟩ := step_onto abreast hne hv
    have hne' : u'.rest ≠ [] := by
      rw [abreast.onto.2]
      exact List.append_ne_nil_of_left_ne_nil hne more
    exact ⟨v', hrun.trans (run_of_step hne' hv'), abreast'⟩
  obtain ⟨⟨s', hrun, abreast⟩, hrest⟩ := kept
  rw [hrun, abreast.eq, hrest]
  rfl

/-! ## The same text further down -/

theorem Piece.Alike.refl (p : Piece) : Piece.Alike Eq Eq p p := by
  cases p with
  | lineEnd rest => exact .lineEnd rfl
  | gap n rest => exact .gap n rfl
  | word l n rest => exact .word l n rfl
  | malformed message => exact .malformed message
  | oversize => exact .oversize

theorem LineAlike.refl {reads : Prop} (cs : List Char) : LineAlike reads Eq Eq cs cs := by
  cases hblank : blankEnd? cs with
  | some past => exact .blank hblank hblank rfl
  | none =>
    obtain ⟨c, cs, rfl⟩ := cons_of_blankEnd? hblank
    exact .filled hblank hblank fun _ => .refl _

/-- The same text is scanned alike further down. -/
theorem run_down (h : Abreast Eq Eq k id base s s') :
    Answers k (Tracks k id base) (s.run #[]) (s'.run #[]) := by
  refine run_matched (fun u u' (hu : Abreast Eq Eq k id base u u') => ?_) h
  have hrest := hu.onto
  by_cases hend : u.rest = []
  · exact .ended .refl .refl hend (hrest ▸ hend) hu.toTracks
  · refine .step .refl .refl hend (hrest ▸ hend) ?_
    cases hfresh : u.fresh with
    | true =>
      exact step_fresh_abreast strictMono_id rfl (fun _ _ h => h) hu.toTracks hfresh (hrest ▸ rfl)
        (hrest ▸ .refl _)
    | false =>
      obtain ⟨c, cs, hcs⟩ := List.exists_cons_of_ne_nil hend
      exact step_within_abreast (fun _ _ h => h) hu.toTracks hfresh hcs (hrest ▸ hcs) (.refl _)

/-! ## The blank line -/

theorem blankEnd?_blankLine (hline : BlankLine line) (more : List Char) :
    blankEnd? (margin 0 (line ++ '\n' :: more)).2 = some (1, more) := by
  cases hline with
  | blank h =>
    rw [margin_filled h (by rintro c ⟨⟩; rfl)]
    rfl
  | returns h =>
    rw [List.append_assoc, margin_filled h (by rintro c ⟨⟩; rfl)]
    rfl
  | comment h hcomment =>
    rw [List.append_assoc, margin_filled h (by rintro c ⟨⟩; rfl), List.cons_append, blankEnd?,
      afterComment_onLine hcomment]
    rfl

/-- Where a logical line may start, a blank line is passed. -/
theorem run_blankLine (hfresh : s.fresh = true) (hline : BlankLine line) (more : List Char) :
    ({ s with rest := line ++ '\n' :: more } : Scan).run #[]
      = ({ s with rest := more, line := s.line + 1 } : Scan).run #[] := by
  refine run_of_step (List.append_ne_nil_of_right_ne_nil _ (List.cons_ne_nil _ _)) ?_
  rw [step_fresh (s := { s with rest := line ++ '\n' :: more }) hfresh, blankEnd?_blankLine hline]

-- The scan of a given text is found by computing it.
deriving instance DecidableEq for Scan

end Scan

/-- A blank line between a text that ends where a logical line may start and what follows leaves the
tokens and the errors as they are, those behind it one line further down. -/
theorem tokenize_blankLine {a b line : String} {s : Scan} (ha : EndsAtLine a.toList s)
    (hline : BlankLine line.toList) :
    Answers 1 (fun ts ts' => ∃ more, ts = s.tokens.reverse ++ more ∧
        ts' = s.tokens.reverse ++ more.map (Token.down 1))
      (tokenize (a ++ b) #[]) (tokenize (a ++ line ++ "\n" ++ b) #[]) := by
  have text : (a ++ line ++ "\n" ++ b).toList = a.toList ++ (line.toList ++ '\n' :: b.toList) := by
    simp
  have passed : (start (a ++ line ++ "\n" ++ b).toList).run #[]
      = ({ s with rest := b.toList, line := s.line + 1 } : Scan).run #[] := by
    rw [text, run_onto ha, run_blankLine ha.fresh hline]
  have abreast : Abreast Eq Eq 1 id s.tokens { s with rest := b.toList }
      { s with rest := b.toList, line := s.line + 1 } :=
    ⟨⟨rfl, (List.map_id _).symm, rfl, rfl, [], rfl, rfl⟩, fun _ => rfl, fun _ => rfl⟩
  rw [tokenize, tokenize, passed, String.toList_append, run_onto ha]
  exact (run_down abreast).map fun _ _ ended => ended.finish

/-- A comment between two lines of a block, which stands deeper than both. -/
theorem tokenize_blankLine_inside :
    let a := "if x:\n    y\n"
    let line := "\t\x0c        # z:"
    let b := "    z\n"
    let before : List Token := [⟨.mark Keyword.ifKw, 1⟩, ⟨.name "x", 1⟩, ⟨.mark Punct.colon, 1⟩,
      ⟨.mark Layout.newline, 1⟩, ⟨.mark Layout.indent, 2⟩, ⟨.name "y", 2⟩,
      ⟨.mark Layout.newline, 2⟩]
    let more : List Token := [⟨.name "z", 3⟩, ⟨.mark Layout.newline, 3⟩, ⟨.mark Layout.dedent, 4⟩,
      ⟨.mark Layout.finish, 4⟩]
    EndsAtLine a.toList ⟨[], 3, [4], 0, true, before.reverse⟩ ∧ BlankLine line.toList ∧
      tokenize (a ++ b) #[] = .ok (before ++ more) ∧
      tokenize (a ++ line ++ "\n" ++ b) #[] = .ok (before ++ more.map (Token.down 1)) := by
  intro a line b before more
  have last : a.toList.getLast? = some '\n' := by decide +kernel
  have ends : EndsAtLine a.toList ⟨[], 3, [4], 0, true, before.reverse⟩ :=
    ⟨fun c hc => (Option.some.inj (last.symm.trans hc)).symm, by decide +kernel, rfl⟩
  have text : "\t\x0c        ".toList ++ '#' :: " z:".toList = line.toList := by decide +kernel
  have blanks : "\t\x0c        ".toList.all isMargin = true := by decide +kernel
  have comment : BlankLine line.toList :=
    text ▸ .comment (List.all_eq_true.mp blanks) (by decide)
  have tokens : tokenize (a ++ b) #[] = .ok (before ++ more) := by decide +kernel
  refine ⟨ends, comment, tokens, ?_⟩
  rcases (tokenize_blankLine (b := b) ends comment).both with
    ⟨ts, ts', hts, hts', more', rfl, rfl⟩ | ⟨e, herror, -⟩
  · have same : before ++ more = before ++ more' := Except.ok.inj (tokens.symm.trans hts)
    rw [hts', List.append_cancel_left same]
    rfl
  · cases tokens.symm.trans herror

end SortTrace.Script
