import SortTrace.Proofs.Scanning.Abreast

/-!
# Lines that go on alike

Two texts that are the same up to the ends of their lines start with the same pieces there, whatever
the next lines are. One of the lines may end with a carriage return before its newline. A string
literal is the only piece that may go on over the end of a line without being cut there, and is left
to who knows more about the texts.
-/

namespace SortTrace.Script.Scan

open Text

/-- Both texts end, or both lines end, the second one perhaps with a carriage return, and the next
lines are related. -/
inductive LineEnds (starts : List Char → List Char → Prop) :
    (returned : Bool) → List Char → List Char → Prop
  | none {returned : Bool} (h : starts [] []) : LineEnds starts returned [] []
  | newline {more more' : List Char} (h : starts more more') :
    LineEnds starts false ('\n' :: more) ('\n' :: more')
  | returns {more more' : List Char} (h : starts more more') :
    LineEnds starts true ('\n' :: more) ('\r' :: '\n' :: more')

/-- Two texts go on with the same line, and behind any part of it they are related. -/
structure SameLine (starts within : List Char → List Char → Prop) (returned : Bool)
    (line tail tail' : List Char) : Prop where
  onLine : '\n' ∉ line
  ends : LineEnds starts returned tail tail'
  /-- Two carriage returns would not end a line. -/
  noReturn : returned = true → '\r' ∉ line
  rest : ∀ rest, rest <:+ line → within (rest ++ tail) (rest ++ tail')
  comment : within tail (afterComment tail')

variable {starts within : List Char → List Char → Prop} {returned : Bool} {c : Char}
  {line rest tail tail' : List Char}

namespace LineEnds

theorem endsLine (h : LineEnds starts returned tail tail') : EndsLine tail := by
  cases h with
  | none => exact .nil
  | newline | returns => exact .newline _

theorem stops (h : LineEnds starts returned tail tail') : Stops tail' := by
  cases h with
  | none => exact EndsLine.nil.stops
  | newline => exact (EndsLine.newline _).stops
  | returns => exact fun c hc => .inr (Option.some.inj hc).symm

/-- The ends of the lines are passed alike. -/
theorem pastNewline (h : LineEnds starts false tail tail') :
    ∃ n rest rest', Scan.pastNewline tail = (n, rest) ∧ Scan.pastNewline tail' = (n, rest') ∧
      starts rest rest' := by
  cases h with
  | none h => exact ⟨0, [], [], rfl, rfl, h⟩
  | newline h => exact ⟨1, _, _, rfl, rfl, h⟩

/-- A comment takes the carriage return with it. -/
theorem afterComment (h : LineEnds starts returned tail tail') :
    LineEnds starts false tail (Scan.afterComment tail') := by
  cases h with
  | none h => exact .none h
  | newline h | returns h => exact .newline h

end LineEnds

/-! ## Margins -/

theorem margin_margin {blanks : List Char} (hb : ∀ c ∈ blanks, isMargin c = true) (width : Nat)
    (cs : List Char) : margin width (blanks ++ cs) = margin (margin width blanks).1 cs := by
  induction blanks generalizing width with
  | nil => rfl
  | cons c blanks ih =>
    obtain ⟨hc, hblanks⟩ := List.forall_mem_cons.mp hb
    have kinds : c = ' ' ∨ c = '\t' ∨ c = '\x0c' := of_decide_eq_true hc
    rcases kinds with rfl | rfl | rfl <;> exact ih hblanks _

/-- What stands behind a margin does not change its width. -/
theorem margin_filled {blanks cs : List Char} (hb : ∀ c ∈ blanks, isMargin c = true)
    (hcs : ∀ c ∈ cs.head?, isMargin c = false) (width : Nat) :
    margin width (blanks ++ cs) = ((margin width blanks).1, cs) := by
  rw [margin_margin hb]
  cases cs with
  | nil => rfl
  | cons c cs => exact margin_stops (hcs c rfl)

/-! ## Looking past the end of the line -/

theorem afterComment_onLine (hline : '\n' ∉ line) (tail : List Char) :
    afterComment (line ++ tail) = afterComment tail :=
  List.dropWhile_append_of_pos fun c hc => by
    rw [bne_iff_ne]
    rintro rfl
    exact hline hc

theorem EndsLine.afterComment (h : EndsLine tail) : Scan.afterComment tail = tail := by
  cases tail with
  | nil => rfl
  | cons c tail =>
    obtain rfl := h c rfl
    rfl

theorem blankEnd?_plain (hc : c ≠ '\n') (hc' : c ≠ '\r') (hc'' : c ≠ '#') (cs : List Char) :
    blankEnd? (c :: cs) = none := by
  rw [blankEnd?]
  · exact List.cons_ne_nil c cs
  · rintro rest ⟨⟩
    exact hc rfl
  · rintro rest ⟨⟩
    exact hc' rfl
  · rintro rest ⟨⟩
    exact hc'' rfl

/-- A carriage return inside a line does not make the line blank. -/
theorem blankEnd?_return (hc : c ≠ '\n') (cs : List Char) :
    blankEnd? ('\r' :: c :: cs) = none := by
  have inside : ¬ ((c :: cs).isEmpty || (c :: cs).head? == some '\n') = true := by
    simpa using hc
  exact if_neg inside

theorem continuation?_plain (hc : c ≠ '\n') (hc' : c ≠ '\r') (cs : List Char) :
    continuation? (c :: cs) = none := by
  rw [continuation?]
  · rintro rest ⟨⟩
    exact hc rfl
  · rintro rest ⟨⟩
    exact hc' rfl

theorem continuation?_return (hc : c ≠ '\n') (cs : List Char) :
    continuation? ('\r' :: c :: cs) = none := by
  rw [continuation?]
  · rintro rest ⟨⟩
  · rintro rest ⟨⟩
    exact hc rfl

theorem head?_any_stops {p : Char → Bool} (hp : p '\n' = false) (hp' : p '\r' = false)
    (ht : Stops tail) : (rest ++ tail).head?.any p = rest.head?.any p := by
  cases rest with
  | cons c rest => rfl
  | nil =>
    cases tail with
    | nil => rfl
    | cons c tail =>
      have stop := ht.stop hp hp' c rfl
      simpa using stop

namespace SameLine

/-- Behind any part of the line the texts go on with the same line. -/
theorem suffix (h : SameLine starts within returned line tail tail') (hrest : rest <:+ line) :
    SameLine starts within returned rest tail tail' where
  onLine := fun hmem => h.onLine (hrest.subset hmem)
  ends := h.ends
  noReturn := fun hreturned hmem => h.noReturn hreturned (hrest.subset hmem)
  rest := fun _ hsuffix => h.rest _ (hsuffix.trans hrest)
  comment := h.comment

theorem behind (h : SameLine starts within returned (c :: line) tail tail') :
    SameLine starts within returned line tail tail' :=
  h.suffix (List.suffix_cons c line)

/-- A backslash joins the next lines in both texts, or in none. -/
theorem continuation (h : SameLine starts within returned line tail tail')
    (hstarts : ∀ cs cs', starts cs cs' → within cs cs') :
    Option.Rel within (continuation? (line ++ tail)) (continuation? (line ++ tail')) := by
  obtain ⟨onLine, ends, noReturn, -, -⟩ := h
  match line with
  | [] =>
    cases ends with
    | none => exact .none
    | newline h | returns h => exact .some (hstarts _ _ h)
  | c :: line =>
    have hc := (List.ne_of_not_mem_cons onLine).symm
    replace onLine := List.not_mem_of_not_mem_cons onLine
    by_cases hreturn : c = '\r'
    · subst hreturn
      match line with
      | [] =>
        cases ends with
        | none => exact .none
        | newline h => exact .some (hstarts _ _ h)
        | returns => exact absurd (List.mem_singleton_self _) (noReturn rfl)
      | d :: line =>
        have plain := (List.ne_of_not_mem_cons onLine).symm
        rw [List.cons_append, List.cons_append, continuation?_return plain,
          List.cons_append, List.cons_append, continuation?_return plain]
        exact .none
    · rw [List.cons_append, List.cons_append, continuation?_plain hc hreturn,
        continuation?_plain hc hreturn]
      exact .none

theorem number (h : SameLine starts within returned line tail tail') :
    Piece.Alike starts within (.ofNumber (numberBody (line ++ tail) (c == '.') [c]))
      (.ofNumber (numberBody (line ++ tail') (c == '.') [c])) := by
  rw [numberBody_append h.ends.endsLine.stops, numberBody_append h.ends.stops]
  have hrest := (numberBody_splits line (c == '.') [c]).suffix
  generalize numberBody line (c == '.') [c] = body at hrest
  obtain ⟨digits, real, rest⟩ := body
  rw [Piece.ofNumber, Piece.ofNumber, head?_any_stops rfl rfl h.ends.endsLine.stops,
    head?_any_stops rfl rfl h.ends.stops]
  split
  · exact .malformed _
  split
  · exact .word _ 0 (h.rest rest hrest)
  · exact .malformed _
  · exact .oversize

theorem word (h : SameLine starts within returned line tail tail') :
    Piece.Alike starts within (.ofWord c (line ++ tail)) (.ofWord c (line ++ tail')) := by
  have plain : continuesWord '\n' = false ∧ continuesWord '\r' = false := by decide
  have stop := h.ends.endsLine.stops.stop plain.1 plain.2
  have stop' := h.ends.stops.stop plain.1 plain.2
  rw [Piece.ofWord, Piece.ofWord, takeWhile_append_stop stop, takeWhile_append_stop stop',
    dropWhile_append_stop stop, dropWhile_append_stop stop']
  exact .word _ 0 (h.rest _ (List.dropWhile_suffix _))

theorem operator (h : SameLine starts within returned line tail tail') :
    Piece.Alike starts within (.ofOperator c (operator? c (line ++ tail)))
      (.ofOperator c (operator? c (line ++ tail'))) := by
  rw [operator?_append h.ends.endsLine.stops, operator?_append h.ends.stops]
  cases hop : operator? c line with
  | none => exact .malformed _
  | some r => exact .word r.1 0 (h.rest r.2 (operator?_splits hop).suffix)

/-- Both texts start with the same piece. -/
theorem piece (h : SameLine starts within returned line tail tail') (hc : c ≠ '\n')
    (hstarts : ∀ cs cs', starts cs cs' → within cs cs')
    (hstring : c = '"' ∨ c = '\'' → Piece.Alike starts within
      (.ofString (stringBody c (line ++ tail) [] 0))
      (.ofString (stringBody c (line ++ tail') [] 0))) :
    Piece.Alike starts within (piece c (line ++ tail)) (piece c (line ++ tail')) := by
  have joined := h.continuation hstarts
  have both {x y : Option (List Char)} (hxy : Option.Rel within x y) : y.isSome = x.isSome := by
    cases hxy <;> rfl
  have joins {x y : Option (List Char)} (hxy : Option.Rel within x y) (hx : x.isSome = true) :
      Piece.Alike starts within (.gap 1 (x.getD [])) (.gap 1 (y.getD [])) := by
    cases hxy with
    | none => cases hx
    | some hnext => exact .gap 1 hnext
  have first {tail : List Char} (ht : Stops tail) :
      (line ++ tail).head?.any Char.isDigit = line.head?.any Char.isDigit :=
    head?_any_stops rfl rfl ht
  have digit := (first h.ends.stops).trans (first h.ends.endsLine.stops).symm
  rw [Scan.piece, Scan.piece, if_neg hc, if_neg hc, both joined, digit]
  split
  · exact .gap 0 (h.rest line List.suffix_rfl)
  split
  · rw [afterComment_onLine h.onLine, afterComment_onLine h.onLine, h.ends.endsLine.afterComment]
    exact .gap 0 h.comment
  split
  · next back => exact joins joined back.2
  split
  · exact hstring ‹_›
  split
  · exact h.number
  split
  · exact h.word
  · exact h.operator

/-- Both lines are blank, or both go on with the same piece. -/
theorem lineAlike {reads : Prop} (h : SameLine starts within returned line tail tail')
    (hstarts : ∀ cs cs', starts cs cs' → within cs cs')
    (hstring : reads → ∀ c rest, line = c :: rest → c = '"' ∨ c = '\'' → Piece.Alike starts within
      (.ofString (stringBody c (rest ++ tail) [] 0))
      (.ofString (stringBody c (rest ++ tail') [] 0))) :
    LineAlike reads starts within (line ++ tail) (line ++ tail') := by
  cases line with
  | nil =>
    cases h.ends with
    | none hstart => exact .blank rfl rfl hstart
    | newline hstart | returns hstart => exact .blank rfl rfl hstart
  | cons c line =>
    have hc := (List.ne_of_not_mem_cons h.onLine).symm
    have same (hreads : reads) := h.behind.piece hc hstarts (hstring hreads c line rfl)
    by_cases hcomment : c = '#'
    · subst hcomment
      obtain ⟨n, rest, rest', hpast, hpast', hstart⟩ := h.ends.afterComment.pastNewline
      refine .blank (n := n) ?_ ?_ hstart
      · rw [List.cons_append, blankEnd?, afterComment_onLine h.behind.onLine,
          h.ends.endsLine.afterComment, hpast]
      · rw [List.cons_append, blankEnd?, afterComment_onLine h.behind.onLine, hpast']
    by_cases hreturn : c = '\r'
    · subst hreturn
      cases line with
      | nil =>
        cases h.ends with
        | none hstart => exact .blank rfl rfl hstart
        | newline hstart => exact .blank rfl rfl hstart
        | returns => exact absurd (List.mem_singleton_self _) (h.noReturn rfl)
      | cons d line =>
        have hd := (List.ne_of_not_mem_cons h.behind.onLine).symm
        exact .filled (blankEnd?_return hd _) (blankEnd?_return hd _) same
    · exact .filled (blankEnd?_plain hc hreturn hcomment _) (blankEnd?_plain hc hreturn hcomment _)
        same

end SameLine

end SortTrace.Script.Scan
