import SortTrace.Proofs.Instrumenting.Steps

/-!
# What stands before the scanner

Inside a line the scanner finds the end of the line, a gap, a word or something that it cannot read.
Which of these it is hangs on the text alone (`piece`), and what becomes of the scan on the piece
alone (`Piece.add`): reading is one after the other (`readToken_eq`). Where a line starts, the text
says likewise whether the line is passed as a blank one (`blankEnd?`).
-/

namespace SortTrace.Script.Scan

open Text

/-- What a text starts with inside a line, and the text behind it. -/
inductive Piece where
  /-- The end of the line. -/
  | lineEnd (rest : List Char)
  /-- A blank, a comment, or a backslash that joins two lines. -/
  | gap (lines : Nat) (rest : List Char)
  /-- A lexeme, which may go on over the ends of lines. -/
  | word (l : Lexeme) (lines : Nat) (rest : List Char)
  /-- Something that is no lexeme. -/
  | malformed (message : String)
  /-- An integer that 64 bits do not hold. -/
  | oversize

namespace Piece

/-- Go behind a piece that starts with `c`. -/
def add (map : Array Nat) (c : Char) (s : Scan) : Piece → Except Fault Scan
  | lineEnd rest => .ok { s.passLine map with rest, line := s.line + 1 }
  | gap lines rest => .ok { s with rest, line := s.line + lines }
  | word l lines rest => (s.nest map c l).map fun depth =>
    { s with rest, line := s.line + lines, depth }.push map l
  | malformed message => fail map message s.line
  | oversize => .error .overflow

/-- A string literal with the given content over so many line ends, with the text behind it. -/
def ofString : Option (List Char × Nat × List Char) → Piece
  | some (content, lines, rest) => .word (.str (String.ofList content)) lines rest
  | none => .malformed "unterminated string literal"

/-- A number literal of the given extent, with the text behind it. -/
def ofNumber : List Char × Bool × List Char → Piece
  | (digits, real, rest) =>
    if rest.head?.any startsWord then .malformed "invalid decimal literal"
    else match numberLexeme #[] 0 digits real with
      | .ok l => .word l 0 rest
      | .error (.syntaxError message _) => .malformed message
      | .error _ => .oversize

/-- A name or a keyword behind its first character. -/
def ofWord (c : Char) (cs : List Char) : Piece :=
  .word (wordLexeme (String.ofList (c :: cs.takeWhile continuesWord))) 0
    (cs.dropWhile continuesWord)

/-- An operator or a piece of punctuation that starts with `c`, with the text behind it. -/
def ofOperator (c : Char) : Option (Lexeme × List Char) → Piece
  | some (l, rest) => .word l 0 rest
  | none => .malformed s!"invalid character '{c}'"

end Piece

/-- What the text `c :: cs` starts with inside a line. -/
def piece (c : Char) (cs : List Char) : Piece :=
  if c = '\n' then .lineEnd cs
  else if c = ' ' ∨ c = '\t' ∨ c = '\r' ∨ c = '\x0c' then .gap 0 cs
  else if c = '#' then .gap 0 (afterComment cs)
  else if c = '\\' ∧ (continuation? cs).isSome then .gap 1 ((continuation? cs).getD [])
  else if c = '"' ∨ c = '\'' then .ofString (stringBody c cs [] 0)
  else if c.isDigit ∨ (c = '.' ∧ cs.head?.any Char.isDigit) then
    .ofNumber (numberBody cs (c == '.') [c])
  else if startsWord c then .ofWord c cs
  else .ofOperator c (operator? c cs)

variable {map : Array Nat} {c : Char} {cs rest : List Char} {l : Lexeme} {n depth : Nat}
  {s t : Scan}

theorem readString_eq :
    s.readString map c cs = (Piece.ofString (stringBody c cs [] 0)).add map c s := by
  rw [readString]
  cases stringBody c cs [] 0 <;> rfl

theorem readNumber_eq : s.readNumber map c cs
    = (Piece.ofNumber (numberBody cs (c == '.') [c])).add map c s := by
  rw [readNumber]
  generalize numberBody cs (c == '.') [c] = body
  obtain ⟨digits, real, rest⟩ := body
  rw [Piece.ofNumber]
  dsimp only
  split
  · rfl
  · unfold numberLexeme
    dsimp only
    split
    · split <;> rfl
    · split <;> rfl

theorem nest_wordLexeme (word : String) : s.nest map c (wordLexeme word) = .ok s.depth := by
  unfold wordLexeme
  split <;> rfl

theorem readWord_eq : .ok (s.readWord map c cs) = (Piece.ofWord c cs).add map c s := by
  rw [Piece.ofWord, Piece.add, nest_wordLexeme]
  rfl

theorem readOperator_eq : s.readOperator map c cs
    = (Piece.ofOperator c (operator? c cs)).add map c s := by
  rw [readOperator]
  cases operator? c cs <;> rfl

/-- Inside a line the scanner goes behind the piece that it finds. -/
theorem readToken_eq : s.readToken map c cs = (piece c cs).add map c s := by
  unfold readToken piece
  split
  · have line : (s.passLine map).line = s.line := line_passLine
    rw [Piece.add, ← line]
    rfl
  split
  · rfl
  split
  · rfl
  split
  · rfl
  split
  · exact readString_eq
  split
  · exact readNumber_eq
  split
  · exact readWord_eq
  · exact readOperator_eq

theorem piece_quote (hc : c = '"' ∨ c = '\'') :
    piece c cs = .ofString (stringBody c cs [] 0) := by
  rcases hc with rfl | rfl <;> rfl

/-! ## Words -/

/-- A word that can be read is no layout. -/
theorem isLayout_of_piece (h : piece c cs = .word l n rest) : l.isLayout = false := by
  unfold piece at h
  split at h
  · cases h
  split at h
  · cases h
  split at h
  · cases h
  split at h
  · cases h
  split at h
  · rw [Piece.ofString.eq_def] at h
    split at h <;> cases h
    rfl
  split at h
  · rw [Piece.ofNumber] at h
    split at h
    · cases h
    · split at h <;> cases h
      next hl => exact numberLexeme_isLayout hl
  split at h
  · cases h
    rw [wordLexeme]
    split <;> rfl
  · rw [Piece.ofOperator.eq_def] at h
    split at h
    · next hop =>
      cases h
      obtain ⟨p, more, hp, -, heq⟩ := operator?_spelling hop
      obtain ⟨rfl, -⟩ := Prod.mk.inj heq
      exact spellings_isLayout p (List.mem_of_find?_eq_some hp)
    · cases h

/-! ## Blank lines -/

/-- The text behind a newline, if there is one, and the number of newlines passed. -/
def pastNewline : List Char → Nat × List Char
  | '\n' :: rest => (1, rest)
  | rest => (0, rest)

/-- The end of a blank line, or of one that holds nothing but a comment, where `cs` is its text
behind the margin. -/
def blankEnd? : List Char → Option (Nat × List Char)
  | [] => some (0, [])
  | '\n' :: rest => some (1, rest)
  | '\r' :: rest =>
    if rest.isEmpty || rest.head? == some '\n' then some (pastNewline rest) else none
  | '#' :: rest => some (pastNewline (afterComment rest))
  | _ => none

theorem passNewline_eq (cs : List Char) (s : Scan) : s.passNewline cs
    = { s with rest := (pastNewline cs).2, line := s.line + (pastNewline cs).1 } := by
  unfold passNewline
  split
  · rfl
  · next plain =>
    rw [pastNewline]
    · rfl
    · exact plain

theorem blankLine?_eq (cs : List Char) (s : Scan) : s.blankLine? cs
    = (blankEnd? cs).map fun past => { s with rest := past.2, line := s.line + past.1 } := by
  unfold blankLine?
  split
  · rfl
  · rfl
  · rw [passNewline_eq, blankEnd?]
    split <;> rfl
  · rw [passNewline_eq]
    rfl
  · next nonempty newline feed comment =>
    rw [blankEnd?]
    · rfl
    all_goals assumption

/-- A line that is not blank starts with a piece of its own. -/
theorem cons_of_blankEnd? (h : blankEnd? cs = none) : ∃ c rest, cs = c :: rest := by
  cases cs with
  | nil => cases h
  | cons c rest => exact ⟨c, rest, rfl⟩

/-- At the start of a line the scanner passes it, or opens and closes blocks and reads on. -/
theorem step_fresh (h : s.fresh = true) : s.step map = match blankEnd? (margin 0 s.rest).2 with
    | some (n, rest) => .ok { s with rest, line := s.line + n }
    | none => (s.indent map (margin 0 s.rest).1).bind (readNext map (margin 0 s.rest).2) := by
  rw [step, if_pos h]
  dsimp only
  rw [blankLine?_eq]
  cases blankEnd? (margin 0 s.rest).2 <;> rfl

end SortTrace.Script.Scan
