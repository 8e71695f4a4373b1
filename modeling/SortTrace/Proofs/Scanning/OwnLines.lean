import SortTrace.Proofs.Scanning.SameLine

/-!
# String literals on lines of their own

A string literal goes on over the end of a line where a backslash stands before the newline, and
what the next line starts with is then a part of its content. `StringsOnLine` says of a text that
this happens nowhere on the way of the scanner, whatever stands in its comments.
-/

namespace SortTrace.Script

namespace Scan

variable {quote c : Char} {cs content : List Char} {n : Nat} {s t u : Scan}

/-- What stands before the scanner, behind the margin where a line starts. -/
def ahead (s : Scan) : List Char :=
  if s.fresh then (margin 0 s.rest).2 else s.rest

/-- The number of ends of lines that the string literal at the start of a text goes on over. -/
def literalLines : List Char → Nat
  | [] => 0
  | quote :: cs =>
    if quote = '"' ∨ quote = '\'' then ((stringBody quote cs [] 0).map fun r => r.2.1).getD 0 else 0

/-- From here on no string literal is read that goes on over the end of a line. -/
def OwnLines (s : Scan) : Prop :=
  ∀ t u, ComesTo s t → Goes t u → literalLines t.ahead = 0

/-- The first string literal from `s` on that goes on over the end of a line is read at `t`. -/
inductive JoinsFirst : Scan → Scan → Prop
  | here {s t : Scan} (ht : Goes s t) (hlines : literalLines s.ahead ≠ 0) : JoinsFirst s s
  | later {s t u : Scan} (ht : Goes s t) (hlines : literalLines s.ahead = 0)
    (hu : JoinsFirst t u) : JoinsFirst s u

theorem OwnLines.here (h : s.OwnLines) : ∀ t, Goes s t → literalLines s.ahead = 0 :=
  fun t ht => h s t .refl ht

/-- What holds here holds from every later place on. -/
theorem OwnLines.onward (h : s.OwnLines) (ht : ComesTo s t) : t.OwnLines :=
  fun u v hu hv => h u v (ht.trans hu) hv

theorem ownLines_of_rest (hs : s.rest = []) : s.OwnLines := by
  intro t u ht hu
  rcases ht.cases_head with rfl | ⟨v, hv, -⟩
  · exact absurd hs hu.1
  · exact absurd hs hv.1

theorem ownLines_of_error {e : Fault} (he : s.step #[] = .error e) : s.OwnLines := by
  intro t u ht hu
  rcases ht.cases_head with rfl | ⟨v, hv, -⟩
  · cases he.symm.trans hu.2
  · cases he.symm.trans hv.2

theorem ownLines_of_step (hs : s.rest ≠ []) (ht : s.step #[] = .ok t) :
    s.OwnLines ↔ literalLines s.ahead = 0 ∧ t.OwnLines := by
  refine ⟨fun h => ⟨h.here t ⟨hs, ht⟩, h.onward (.single ⟨hs, ht⟩)⟩, ?_⟩
  rintro ⟨here, later⟩ u v hu hv
  rcases hu.cases_head with rfl | ⟨w, hw, hu⟩
  · exact here
  · cases ht.symm.trans hw.2
    exact later u v hu hv

/-- Where not all literals end on their lines there is a first one. -/
theorem exists_joinsFirst (h : ¬ s.OwnLines) : ∃ t, JoinsFirst s t := by
  induction s using run.induct #[] with
  | case1 s hs => exact absurd (ownLines_of_rest hs) h
  | case2 s hs t ht ih =>
    by_cases hlines : literalLines s.ahead = 0
    · have later : ¬ t.OwnLines := fun own => h ((ownLines_of_step hs ht).mpr ⟨hlines, own⟩)
      obtain ⟨u, hu⟩ := ih later
      exact ⟨u, .later ⟨hs, ht⟩ hlines hu⟩
    · exact ⟨s, .here ⟨hs, ht⟩ hlines⟩
  | case3 s _ e he => exact absurd (ownLines_of_error he) h

/-- Reading the text tells whether all string literals end on their lines. -/
def OwnLines.decidable (s : Scan) : Decidable s.OwnLines :=
  if hs : s.rest = [] then
    .isTrue (ownLines_of_rest hs)
  else match ht : s.step #[] with
    | .error _ => .isTrue (ownLines_of_error ht)
    | .ok t =>
      have := decidable t
      decidable_of_iff (literalLines s.ahead = 0 ∧ t.OwnLines) (ownLines_of_step hs ht).symm
termination_by s.rest.length
decreasing_by exact step_shorter ht hs

/-! ## Literals that are read -/

theorem literalLines_quote {r : List Char × Nat × List Char} (hquote : quote = '"' ∨ quote = '\'')
    (hr : stringBody quote cs [] 0 = some r) : literalLines (quote :: cs) = r.2.1 := by
  rw [literalLines, if_pos hquote, hr]
  rfl

/-- Only a literal goes on over the ends of lines. -/
theorem literal_of_lines (h : literalLines cs ≠ 0) : ∃ quote rest, cs = quote :: rest ∧
    (quote = '"' ∨ quote = '\'') ∧ ∀ r, stringBody quote rest [] 0 = some r → r.2.1 ≠ 0 := by
  cases cs with
  | nil => exact absurd rfl h
  | cons quote rest =>
    by_cases hquote : quote = '"' ∨ quote = '\''
    · exact ⟨quote, rest, rfl, hquote, fun r hr => literalLines_quote hquote hr ▸ h⟩
    · exact absurd (if_neg hquote) h

theorem add_literal {r : List Char × Nat × List Char} (hquote : quote = '"' ∨ quote = '\'')
    (hr : stringBody quote cs [] 0 = some r) (s : Scan) :
    ∃ t, (piece quote cs).add #[] quote s = .ok t := by
  rw [piece_quote hquote, hr]
  exact ⟨_, rfl⟩

/-- A literal inside a line is read if it has an end. -/
theorem lines_inside {r : List Char × Nat × List Char}
    (hown : ∀ t, Goes s t → literalLines s.ahead = 0) (hfresh : s.fresh = false)
    (hrest : s.rest = quote :: cs) (hquote : quote = '"' ∨ quote = '\'')
    (hr : stringBody quote cs [] 0 = some r) : r.2.1 = 0 := by
  obtain ⟨t, ht⟩ := add_literal hquote hr s
  have zero := hown t ⟨hrest ▸ List.cons_ne_nil quote cs,
    (step_inside hfresh hrest).trans (readToken_eq.trans ht)⟩
  rw [ahead, hfresh, hrest] at zero
  exact (literalLines_quote hquote hr).symm.trans zero

/-- A literal at the start of a line is read if it has an end and its line fits a block. -/
theorem lines_fresh {r : List Char × Nat × List Char}
    (hown : ∀ t, Goes s t → literalLines s.ahead = 0) (hfresh : s.fresh = true)
    (hmargin : (margin 0 s.rest).2 = quote :: cs) (hquote : quote = '"' ∨ quote = '\'')
    (hindent : s.indent #[] (margin 0 s.rest).1 = .ok u) (hr : stringBody quote cs [] 0 = some r) :
    r.2.1 = 0 := by
  obtain ⟨t, ht⟩ := add_literal hquote hr { u with fresh := false }
  have filled : blankEnd? (quote :: cs) = none := by
    rcases hquote with rfl | rfl <;> rfl
  have read : s.step #[] = .ok t := by
    rw [step_fresh hfresh, hmargin, filled, hindent]
    exact readToken_eq.trans ht
  have hs : s.rest ≠ [] := by
    intro hs
    rw [hs] at hmargin
    cases hmargin
  have zero := hown t ⟨hs, read⟩
  rw [ahead, if_pos hfresh, hmargin] at zero
  exact (literalLines_quote hquote hr).symm.trans zero

/-! ## Reading a literal -/

theorem stringBody_close (hquote : quote ≠ '\n') :
    stringBody quote (quote :: cs) content n = some (content.reverse, n, cs) := by
  rw [stringBody.eq_def]
  exact (if_neg hquote).trans (if_pos rfl)

theorem stringBody_newline : stringBody quote ('\n' :: cs) content n = none := by
  rw [stringBody.eq_def]
  exact if_pos rfl

theorem stringBody_plain (hnew : c ≠ '\n') (hquote : c ≠ quote) (hback : c ≠ '\\') :
    stringBody quote (c :: cs) content n = stringBody quote cs (c :: content) n := by
  rw [stringBody.eq_def]
  simp only [hnew, hquote, hback, if_false]

theorem stringBody_join (hquote : '\\' ≠ quote) :
    stringBody quote ('\\' :: '\n' :: cs) content n = stringBody quote cs content (n + 1) := by
  rw [stringBody.eq_def]
  simp [hquote]

theorem stringBody_back (hquote : '\\' ≠ quote) :
    stringBody quote ['\\'] content n = none := by
  rw [stringBody.eq_def]
  simp [hquote]

/-- An escape adds the same to the content wherever it stands. -/
theorem stringBody_escape (hquote : '\\' ≠ quote) (he : c ≠ '\n') (content : List Char) :
    ∃ content', ∀ cs n, stringBody quote ('\\' :: c :: cs) content n
      = stringBody quote cs content' n := by
  have unfolded (cs : List Char) (n : Nat) := stringBody.eq_def quote ('\\' :: c :: cs) content n
  simp only [hquote, he, if_true, if_false, Char.reduceEq] at unfolded
  by_cases hn : c = 'n'
  · exact ⟨_, fun cs n => (unfolded cs n).trans (if_pos hn)⟩
  by_cases ht : c = 't'
  · exact ⟨_, fun cs n => (unfolded cs n).trans ((if_neg hn).trans (if_pos ht))⟩
  simp only [hn, ht, if_false] at unfolded
  by_cases hr : c = 'r'
  · exact ⟨_, fun cs n => (unfolded cs n).trans (if_pos hr)⟩
  by_cases hz : c = '0'
  · exact ⟨_, fun cs n => (unfolded cs n).trans ((if_neg hr).trans (if_pos hz))⟩
  simp only [hr, hz, if_false] at unfolded
  by_cases hself : c = '\\' ∨ c = '\'' ∨ c = '"'
  · exact ⟨_, fun cs n => (unfolded cs n).trans (if_pos hself)⟩
  · exact ⟨_, fun cs n => (unfolded cs n).trans (if_neg hself)⟩

/-- A literal is read up to its closing quote or to the end of a line, escape by escape. -/
theorem body_induction (quote : Char) {P : List Char → Prop} (nil : P [])
    (newline : ∀ cs, P ('\n' :: cs)) (close : ∀ cs, P (quote :: cs)) (back : P ['\\'])
    (escape : ∀ e cs, P cs → P ('\\' :: e :: cs))
    (plain : ∀ c cs, c ≠ '\n' → c ≠ quote → c ≠ '\\' → P cs → P (c :: cs)) : ∀ cs, P cs
  | [] => nil
  | c :: cs => by
    by_cases hnew : c = '\n'
    · exact hnew ▸ newline cs
    by_cases hquote : c = quote
    · exact hquote ▸ close cs
    by_cases hback : c = '\\'
    · subst hback
      cases cs with
      | nil => exact back
      | cons e cs => exact escape e cs (body_induction quote nil newline close back escape plain cs)
    · exact plain c cs hnew hquote hback
        (body_induction quote nil newline close back escape plain cs)

/-- A string literal that goes on over no end of a line is there without the lines behind it. -/
theorem stringBody_onLine {line tail : List Char} {r : List Char × Nat × List Char}
    (hquote : quote = '"' ∨ quote = '\'') (hline : '\n' ∉ line) (ht : EndsLine tail)
    (h : stringBody quote (line ++ tail) content n = some r) (hr : r.2.1 = n) :
    ∃ rest, stringBody quote line content n = some (r.1, n, rest) := by
  have other : quote ≠ '\n' ∧ '\\' ≠ quote := by rcases hquote with rfl | rfl <;> decide
  induction line using body_induction quote generalizing content with
  | nil =>
    cases tail with
    | nil => cases h
    | cons c tail =>
      obtain rfl := ht c rfl
      cases stringBody_newline.symm.trans h
  | newline cs => exact absurd (List.mem_cons_self ..) hline
  | close cs =>
    rw [List.cons_append, stringBody_close other.1] at h
    cases h
    exact ⟨cs, stringBody_close other.1⟩
  | back =>
    cases tail with
    | nil => cases (stringBody_back other.2).symm.trans h
    | cons c tail =>
      obtain rfl := ht c rfl
      rw [List.singleton_append, stringBody_join other.2] at h
      have joined := (stringBody_splits h).1
      omega
  | escape e cs ih =>
    have he : e ≠ '\n' := fun he => hline (he ▸ List.mem_cons_of_mem _ (List.mem_cons_self ..))
    obtain ⟨content', same⟩ := stringBody_escape other.2 he content
    rw [List.cons_append, List.cons_append, same] at h
    rw [same]
    exact ih (fun hmem => hline (List.mem_cons_of_mem _ (List.mem_cons_of_mem _ hmem))) h
  | plain c cs hnew hq hback ih =>
    rw [List.cons_append, stringBody_plain hnew hq hback] at h
    rw [stringBody_plain hnew hq hback]
    exact ih (fun hmem => hline (List.mem_cons_of_mem _ hmem)) h

/-- Where lines go on alike, literals that end on them or have no end do as well. -/
theorem SameLine.string {starts within : List Char → List Char → Prop} {returned : Bool}
    {line tail tail' : List Char} (hquote : quote = '"' ∨ quote = '\'')
    (h : SameLine starts within returned line tail tail')
    (hown : ∀ r, stringBody quote (line ++ tail) [] 0 = some r → r.2.1 = 0)
    (hnone : stringBody quote (line ++ tail) [] 0 = none →
      stringBody quote (line ++ tail') [] 0 = none) :
    Piece.Alike starts within (.ofString (stringBody quote (line ++ tail) [] 0))
      (.ofString (stringBody quote (line ++ tail') [] 0)) := by
  cases hr : stringBody quote (line ++ tail) [] 0 with
  | none =>
    rw [hnone hr]
    exact .malformed _
  | some r =>
    obtain ⟨rest, hbody⟩ := stringBody_onLine hquote h.onLine h.ends.endsLine hr (hown r hr)
    have here : stringBody quote (line ++ tail) [] 0 = some (r.1, 0, rest ++ tail) :=
      stringBody_append hbody
    rw [← hr, here, stringBody_append hbody]
    exact .word _ _ (h.rest rest (stringBody_splits hbody).2.suffix)

end Scan

open Scan

/-- No string literal that is read goes on over the end of a line. -/
def StringsOnLine (text : String) : Prop :=
  (start text.toList).OwnLines

instance (text : String) : Decidable (StringsOnLine text) :=
  OwnLines.decidable (start text.toList)

end SortTrace.Script
