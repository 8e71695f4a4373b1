import SortTrace.Proofs.Scanning.OwnLines

/-!
# Carriage returns at the ends of lines

A carriage return before a newline is a blank inside a line, a part of a comment, the end of a blank
line and a part of the end of a line behind a backslash. In a text without carriage returns all ends
of lines may therefore have one, unless a string literal goes on over one of them: there the
backslash and the carriage return are taken for an escape, and the newline behind them ends the line
and leaves the literal without its end. `tokenize_withReturns` says both: the tokens or the error
are those of the text, or the first such literal is an error.
-/

namespace SortTrace.Script

open Text

/-- A carriage return before every newline. -/
def returned (cs : List Char) : List Char :=
  cs.flatMap fun c => if c = '\n' then ['\r', '\n'] else [c]

/-- The text with a carriage return at the end of every line. -/
def withReturns (text : String) : String :=
  String.ofList (returned text.toList)

namespace Scan

/-- The second text is the first one, which has no carriage returns, with one before every
newline. -/
def Returned (cs cs' : List Char) : Prop :=
  '\r' ∉ cs ∧ cs' = returned cs

/-- Inside a line that holds as well, unless a comment has taken the carriage return with it. -/
inductive ReturnsOn : List Char → List Char → Prop
  | whole {cs : List Char} (h : '\r' ∉ cs) : ReturnsOn cs (returned cs)
  | newline {more : List Char} (h : '\r' ∉ more) : ReturnsOn ('\n' :: more) ('\n' :: returned more)

variable {quote c : Char} {cs cs' line tail content content' : List Char} {n n' : Nat}
  {s s' t : Scan}

theorem Returned.returnsOn (h : Returned cs cs') : ReturnsOn cs cs' :=
  h.2 ▸ .whole h.1

@[simp] theorem returned_newline (cs : List Char) :
    returned ('\n' :: cs) = '\r' :: '\n' :: returned cs := rfl

theorem returned_cons (hc : c ≠ '\n') (cs : List Char) : returned (c :: cs) = c :: returned cs := by
  rw [returned, List.flatMap_cons, if_neg hc]
  rfl

theorem returned_append (hline : '\n' ∉ line) (tail : List Char) :
    returned (line ++ tail) = line ++ returned tail := by
  induction line with
  | nil => rfl
  | cons c line ih =>
    have hc := (List.ne_of_not_mem_cons hline).symm
    rw [List.cons_append, returned_cons hc, ih (List.not_mem_of_not_mem_cons hline)]
    rfl

theorem returned_ne_nil (hcs : cs ≠ []) : returned cs ≠ [] := by
  cases cs with
  | nil => exact absurd rfl hcs
  | cons c cs =>
    by_cases hc : c = '\n'
    · subst hc
      exact List.cons_ne_nil _ _
    · rw [returned_cons hc]
      exact List.cons_ne_nil _ _

/-- A text is a line and what stands behind it, also with carriage returns. -/
theorem sameLine_returned (hreturn : '\r' ∉ cs) : ∃ line tail, cs = line ++ tail ∧
    returned cs = line ++ returned tail ∧
    SameLine Returned ReturnsOn true line tail (returned tail) := by
  obtain ⟨line, hcs, hcount⟩ := afterComment_splits cs
  have ends := afterComment_endsLine cs
  generalize afterComment cs = tail at hcs ends
  have hline : '\n' ∉ line := List.count_eq_zero.mp hcount
  subst hcs
  have hbehind : '\r' ∉ tail := fun hmem => hreturn (List.mem_append_right _ hmem)
  refine ⟨line, tail, rfl, returned_append hline tail, hline, ?_,
    fun _ hmem => hreturn (List.mem_append_left _ hmem), ?_, ?_⟩
  · cases tail with
    | nil => exact .none ⟨nofun, rfl⟩
    | cons c tail =>
      obtain rfl := ends c rfl
      exact .returns ⟨List.not_mem_of_not_mem_cons hbehind, rfl⟩
  · intro rest hrest
    have onLine : '\n' ∉ rest := fun hmem => hline (hrest.subset hmem)
    rw [← returned_append onLine]
    refine .whole fun hmem => hreturn ?_
    rcases List.mem_append.mp hmem with hmem | hmem
    · exact List.mem_append_left _ (hrest.subset hmem)
    · exact List.mem_append_right _ hmem
  · cases tail with
    | nil => exact .whole nofun
    | cons c tail =>
      obtain rfl := ends c rfl
      exact .newline (List.not_mem_of_not_mem_cons hbehind)

/-! ## String literals -/

/-- A literal that does not end on its line has no end in front of a carriage return. -/
theorem stringBody_returned (hquote : quote = '"' ∨ quote = '\'')
    (h : ∀ r, stringBody quote cs content n = some r → r.2.1 ≠ n) :
    stringBody quote (returned cs) content' n' = none := by
  have other : quote ≠ '\n' ∧ '\\' ≠ quote ∧ '\r' ≠ quote := by
    rcases hquote with rfl | rfl <;> decide
  induction cs using body_induction quote generalizing content content' with
  | nil => rfl
  | newline cs =>
    rw [returned_newline, stringBody_plain (by decide) other.2.2 (by decide)]
    exact stringBody_newline
  | close cs => exact absurd rfl (h _ (stringBody_close other.1))
  | back => exact stringBody_back other.2.1
  | escape e cs ih =>
    rw [returned_cons (by decide)]
    by_cases he : e = '\n'
    · -- The carriage return is escaped, and the newline behind it ends the line.
      subst he
      obtain ⟨_, escaped⟩ := stringBody_escape other.2.1 (c := '\r') (by decide) content'
      rw [returned_newline, escaped]
      exact stringBody_newline
    · obtain ⟨_, same⟩ := stringBody_escape other.2.1 he content
      obtain ⟨_, same'⟩ := stringBody_escape other.2.1 he content'
      rw [returned_cons he, same']
      exact ih fun r hr => h r ((same _ _).trans hr)
  | plain c cs hnew hq hback ih =>
    rw [returned_cons hnew, stringBody_plain hnew hq hback]
    exact ih fun r hr => h r ((stringBody_plain hnew hq hback).trans hr)

/-- A literal that ends on its line, or has no end, is read alike in both texts. -/
theorem string_returned (hquote : quote = '"' ∨ quote = '\'')
    (h : SameLine Returned ReturnsOn true line tail (returned tail))
    (hown : ∀ r, stringBody quote (line ++ tail) [] 0 = some r → r.2.1 = 0) :
    Piece.Alike Returned ReturnsOn (.ofString (stringBody quote (line ++ tail) [] 0))
      (.ofString (stringBody quote (line ++ returned tail) [] 0)) := by
  refine h.string hquote hown fun hnone => ?_
  rw [← returned_append h.onLine]
  exact stringBody_returned hquote fun r hr => by cases hnone.symm.trans hr

/-! ## Two scans -/

/-- One scan reads the text, the other one the text with carriage returns. -/
abbrev Returns (s s' : Scan) : Prop :=
  Abreast Returned ReturnsOn 0 id [] s s'

theorem Returned.start (h : Returned cs cs') : Returns (start cs) (start cs') :=
  ⟨.start id cs cs', fun _ => h, fun _ => h.returnsOn⟩

theorem margin_returned (width : Nat) (cs : List Char) :
    margin width (returned cs) = ((margin width cs).1, returned (margin width cs).2) := by
  obtain ⟨line, hcs, hcount⟩ := afterComment_splits cs
  have ends := afterComment_endsLine cs
  generalize afterComment cs = tail at hcs ends
  have hline : '\n' ∉ line := List.count_eq_zero.mp hcount
  have hbehind : '\n' ∉ (margin width line).2 :=
    fun hmem => hline ((margin_splits width line).suffix.subset hmem)
  have stops : Stops (returned tail) := by
    cases tail with
    | nil => exact EndsLine.nil.stops
    | cons c tail =>
      obtain rfl := ends c rfl
      exact fun c hc => .inr (Option.some.inj hc).symm
  rw [hcs, returned_append hline, margin_append stops, margin_append ends.stops,
    returned_append hbehind]

/-- A step of the first scan that reads no literal over the end of a line is one of the second scan,
perhaps behind a carriage return. -/
theorem step_returned (h : Returns s s') (hs : s.rest ≠ [])
    (hown : ∀ t, Goes s t → literalLines s.ahead = 0) : ∃ u, ComesTo s' u ∧ u.rest ≠ [] ∧
      Answers 0 Returns (s.step #[]) (u.step #[]) := by
  cases hfresh : s.fresh with
  | true =>
    obtain ⟨hreturn, hrest'⟩ := h.starts hfresh
    have hs' : s'.rest ≠ [] := hrest' ▸ returned_ne_nil hs
    have behind := (margin_splits 0 s.rest).suffix
    obtain ⟨line, tail, hahead, hahead', same⟩ :=
      sameLine_returned fun hmem => hreturn (behind.subset hmem)
    refine ⟨s', .refl, hs', ?_⟩
    refine step_fresh_abreast strictMono_id rfl (fun _ _ => Returned.returnsOn) h.toTracks hfresh
      ?_ ?_
    · rw [hrest', margin_returned]
      rfl
    · rw [hrest', margin_returned, hahead', hahead]
      refine same.lineAlike (fun _ _ => Returned.returnsOn) fun ⟨u, hindent⟩ c rest heq hc => ?_
      subst heq
      exact string_returned hc same.behind fun r hr =>
        lines_fresh hown hfresh hahead hc hindent hr
  | false =>
    have within := h.within hfresh
    generalize hcs : s.rest = cs at within
    generalize hcs' : s'.rest = cs' at within
    cases within with
    | newline hmore =>
      refine ⟨s', .refl, hcs' ▸ List.cons_ne_nil _ _, ?_⟩
      exact step_within_abreast (fun _ _ => Returned.returnsOn) h.toTracks hfresh hcs hcs'
        (.lineEnd ⟨hmore, rfl⟩)
    | whole hreturn =>
      obtain ⟨line, tail, rfl, hreturned, same⟩ := sameLine_returned hreturn
      rw [hreturned] at hcs'
      cases line with
      | nil =>
        cases tail with
        | nil => exact absurd hcs hs
        | cons c tail =>
          obtain rfl := same.ends.endsLine c rfl
          -- The carriage return is passed like a blank.
          have passed := goes_gap (h.fresh.trans hfresh) (.inr rfl) hcs'
          refine ⟨_, .single passed, List.cons_ne_nil _ _, ?_⟩
          exact step_within_abreast (fun _ _ => Returned.returnsOn)
            (h.toTracks.skip 0 s.rest ('\n' :: returned tail)) hfresh hcs rfl
            (.lineEnd ⟨List.not_mem_of_not_mem_cons hreturn, rfl⟩)
      | cons c line =>
        refine ⟨s', .refl, hcs' ▸ List.cons_ne_nil _ _, ?_⟩
        refine step_within_abreast (fun _ _ => Returned.returnsOn) h.toTracks hfresh hcs hcs' ?_
        refine same.behind.piece (List.ne_of_not_mem_cons same.onLine).symm
          (fun _ _ => Returned.returnsOn) fun hc => ?_
        exact string_returned hc same.behind fun r hr => lines_inside hown hfresh hcs hc hr

/-- Where the first scan reads a literal over the end of a line, the second one finds no end of
it. -/
theorem step_unterminated (h : Returns s s') (ht : Goes s t) (hlines : literalLines s.ahead ≠ 0) :
    s'.rest ≠ [] ∧
      s'.step #[] = .error (.syntaxError "unterminated string literal" s.line) := by
  obtain ⟨quote, rest, hahead, hquote, hbody⟩ := literal_of_lines hlines
  have hnew : quote ≠ '\n' := by rcases hquote with rfl | rfl <;> decide
  have none : stringBody quote (returned rest) [] 0 = none := stringBody_returned hquote hbody
  have fails (u : Scan) : u.readToken #[] quote (returned rest)
      = .error (.syntaxError "unterminated string literal" u.line) := by
    rw [readToken_eq, piece_quote hquote, none]
    rfl
  cases hfresh : s.fresh with
  | true =>
    rw [ahead, if_pos hfresh] at hahead
    have filled (cs : List Char) : blankEnd? (quote :: cs) = Option.none := by
      rcases hquote with rfl | rfl <;> rfl
    have hrest' := (h.starts hfresh).2
    refine ⟨hrest' ▸ returned_ne_nil ht.1, ?_⟩
    have read := ht.2
    rw [step_fresh hfresh, hahead, filled] at read
    rw [step_fresh (h.fresh.trans hfresh), hrest', margin_returned, hahead, returned_cons hnew,
      filled]
    rcases (h.indent strictMono_id rfl (margin 0 s.rest).1).both with
      ⟨u, u', hu, hu', tracks⟩ | ⟨e, he, -⟩
    · obtain ⟨shifts, widths, rfl, -⟩ := indent_shifts hu
      have line : u'.line = s.line := tracks.line
      rw [← line]
      exact (congrArg (Except.bind · _) hu').trans (fails { u' with fresh := false })
    · cases (congrArg (Except.bind · _) he).symm.trans read
  | false =>
    rw [ahead, hfresh, if_neg Bool.false_ne_true] at hahead
    have within := h.within hfresh
    rw [hahead] at within
    have hrest' : s'.rest = quote :: returned rest := by
      generalize s'.rest = cs' at within ⊢
      cases within with
      | newline => exact absurd rfl hnew
      | whole => exact returned_cons hnew rest
    refine ⟨hrest' ▸ List.cons_ne_nil _ _, ?_⟩
    rw [step_inside (h.fresh.trans hfresh) hrest', fails, h.line]
    rfl

/-- Without literals over the ends of lines both texts are scanned alike. -/
theorem run_returned (h : Returns s s') (hown : s.OwnLines) :
    Answers 0 (Tracks 0 id []) (s.run #[]) (s'.run #[]) := by
  let related (u u' : Scan) : Prop := Returns u u' ∧ u.OwnLines
  have first : related s s' := ⟨h, hown⟩
  refine run_matched ?_ first
  rintro s s' ⟨h, hown⟩
  by_cases hs : s.rest = []
  · have hs' : s'.rest = [] := by
      cases hfresh : s.fresh with
      | true =>
        rw [(h.starts hfresh).2, hs]
        rfl
      | false =>
        have within := h.within hfresh
        rw [hs] at within
        generalize s'.rest = cs' at within
        cases within
        rfl
    exact .ended .refl .refl hs hs' h.toTracks
  · obtain ⟨u, hu, hne, answers⟩ := step_returned h hs hown.here
    exact .step .refl hu hs hne (answers.besides fun t ht => hown.onward (.single ⟨hs, ht⟩))

/-- The first literal over the end of a line ends the second scan. -/
theorem run_unterminated (h : Returns s s') (ht : JoinsFirst s t) :
    s'.run #[] = .error (.syntaxError "unterminated string literal" t.line) := by
  induction ht generalizing s' with
  | here ht hlines =>
    obtain ⟨hs', fails⟩ := step_unterminated h ht hlines
    exact run_of_error hs' fails
  | later ht hlines _ ih =>
    obtain ⟨u, hu, hne, answers⟩ := step_returned h ht.1 fun _ _ => hlines
    rw [ht.2] at answers
    generalize hstep : u.step #[] = next at answers
    cases answers with
    | ok related => rw [run_of_comesTo hu, run_of_step hne hstep, ih related]

end Scan

open Scan

/-- Carriage returns at the ends of the lines make no difference to a text that has none, where no
string literal goes on over the end of a line. Where one does, the first of them has no end any
more, and that is the error. -/
theorem tokenize_withReturns {text : String} (hreturn : '\r' ∉ text.toList) :
    (StringsOnLine text → ∀ map, tokenize (withReturns text) map = tokenize text map) ∧
    (¬ StringsOnLine text → ∃ s, JoinsFirst (start text.toList) s ∧
      ∀ map, tokenize (withReturns text) map
        = .error (.syntaxError "unterminated string literal" (reportedLine map s.line))) := by
  have texts : Returned text.toList (withReturns text).toList := ⟨hreturn, String.toList_ofList⟩
  constructor
  · intro hstrings
    exact tokenize_of_tracks (run_returned texts.start hstrings)
  · intro hstrings
    obtain ⟨s, hs⟩ := exists_joinsFirst hstrings
    refine ⟨s, hs, fun map => ?_⟩
    rw [tokenize_relined, tokenize, run_unterminated texts.start hs]
    rfl

/-- A comment, a blank line, a line that a backslash joins to the next one, and a list over two
lines. -/
theorem tokenize_withReturns_joined :
    let text := "x = 1 \\\n + 2 # 3\n\nwhile x:\n  x = [x,\n4]\n"
    '\r' ∉ text.toList ∧ StringsOnLine text ∧
      withReturns text = "x = 1 \\\r\n + 2 # 3\r\n\r\nwhile x:\r\n  x = [x,\r\n4]\r\n" ∧
      tokenize (withReturns text) #[] = tokenize text #[] := by
  intro text
  have plain : '\r' ∉ text.toList := by decide +kernel
  have strings : StringsOnLine text := by decide +kernel
  exact ⟨plain, strings, by decide +kernel, (tokenize_withReturns plain).1 strings #[]⟩

/-- A string literal that a backslash joins to the next line loses its end with the carriage
return. -/
theorem continued_string_unterminated :
    let text := "x = 'a\\\nb'\n"
    '\r' ∉ text.toList ∧
      tokenize text #[] = .ok [⟨.name "x", 1⟩, ⟨.mark Punct.assign, 1⟩, ⟨.str "ab", 2⟩,
        ⟨.mark Layout.newline, 2⟩, ⟨.mark Layout.finish, 3⟩] ∧
      tokenize (withReturns text) #[] = .error (.syntaxError "unterminated string literal" 1) := by
  decide +kernel

end SortTrace.Script
