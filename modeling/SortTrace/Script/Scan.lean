import SortTrace.Decimal.Reading
import SortTrace.Fault
import SortTrace.Script.Token
import SortTrace.Text.Letter

/-!
# From text to tokens

Blocks are marked by indentation. At the start of a logical line its leading blanks are measured
and compared with the widths of the open blocks: a deeper line opens a block, a shallower one closes
blocks until its width is met again. Inside brackets, and after a backslash at the end of a line,
the text goes on and layout is suspended; blank lines and comment lines leave no trace.

`Scan.step` reads one token, or skips what is none, and always leaves less text than it found
(`Scan.step_shorter`), which is why `Scan.run` ends. `tokenize` is the whole way from a text to its
tokens, with line numbers reported through a map for texts whose lines come from elsewhere.
-/

namespace SortTrace.Script

open Text Decimal

/-- The deepest bracket nesting accepted. -/
def maxBrackets : Nat := 200

/-- The deepest block nesting accepted. -/
def maxBlocks : Nat := 100

/-- The line to report for a line of the text: its entry in the map, or itself past the end. -/
def reportedLine (map : Array Nat) (line : Nat) : Nat :=
  map[line - 1]?.getD line

/-- A text that is partly read. -/
structure Scan where
  /-- What is still to be read. -/
  rest : List Char
  /-- The line that `rest` starts on, counted from one. -/
  line : Nat
  /-- The indentation of the open blocks, innermost first. -/
  widths : List Nat
  /-- How many brackets are open. -/
  depth : Nat
  /-- Does `rest` start a logical line whose indentation is still to be measured? -/
  fresh : Bool
  /-- The tokens read so far, newest first. -/
  tokens : List Token

namespace Scan

/-- Nothing is read yet. -/
def start (text : List Char) : Scan :=
  { rest := text, line := 1, widths := [], depth := 0, fresh := true, tokens := [] }

/-- Add a token at the current line. -/
def push (map : Array Nat) (l : Lexeme) (s : Scan) : Scan :=
  { s with tokens := ⟨l, reportedLine map s.line⟩ :: s.tokens }

/-- A syntax error at a line of the text. -/
def fail {α : Type} (map : Array Nat) (message : String) (line : Nat) : Except Fault α :=
  .error (.syntaxError message (reportedLine map line))

/-- Is there no token yet, or is the newest one a line end or a change of indentation? -/
def atLayout (s : Scan) : Bool :=
  match s.tokens with
  | [] => true
  | t :: _ => match t.lexeme with
    | .mark (.layout .finish) => false
    | .mark (.layout _) => true
    | _ => false

/-- End the logical line, if anything stands on it. -/
def endLine (map : Array Nat) (s : Scan) : Scan :=
  if s.atLayout then s else s.push map (.mark Layout.newline)

/-! ## Indentation -/

/-- The width of the leading blanks, and what follows them. A tab goes to the next multiple of
eight and a form feed back to the margin. -/
def margin : (width : Nat) → List Char → Nat × List Char
  | width, ' ' :: cs => margin (width + 1) cs
  | width, '\t' :: cs => margin ((width / 8 + 1) * 8) cs
  | _, '\x0c' :: cs => margin 0 cs
  | width, cs => (width, cs)

theorem margin_length (width : Nat) (cs : List Char) :
    (margin width cs).2.length ≤ cs.length := by
  fun_induction margin width cs <;> simp_all <;> omega

/-- The text from the next newline on. -/
def afterComment (cs : List Char) : List Char :=
  cs.dropWhile fun c => c != '\n'

theorem length_dropWhile_le {α : Type} (p : α → Bool) (xs : List α) :
    (xs.dropWhile p).length ≤ xs.length :=
  (List.dropWhile_suffix p).length_le

/-- Past a newline, if the text starts with one. -/
def passNewline (cs : List Char) (s : Scan) : Scan :=
  match cs with
  | '\n' :: rest => { s with rest, line := s.line + 1 }
  | rest => { s with rest }

/-- Past a line whose text after the leading blanks is `cs`, if it holds nothing but a comment. -/
def blankLine? (cs : List Char) (s : Scan) : Option Scan :=
  match cs with
  | [] => some { s with rest := [] }
  | '\n' :: _ => some (s.passNewline cs)
  | '\r' :: rest =>
    if rest.isEmpty || rest.head? == some '\n' then some (s.passNewline rest) else none
  | '#' :: rest => some (s.passNewline (afterComment rest))
  | _ => none

/-- Close blocks that are wider than `width`, with a token for each. -/
def close (map : Array Nat) (width : Nat) : List Nat → Scan → Scan
  | w :: ws, s =>
    if width < w then close map width ws (s.push map (.mark Layout.dedent))
    else { s with widths := w :: ws }
  | [], s => { s with widths := [] }

/-- Open or close blocks for a line of the given width. -/
def indent (map : Array Nat) (width : Nat) (s : Scan) : Except Fault Scan :=
  let current := s.widths.headD 0
  if current < width then
    if maxBlocks ≤ s.widths.length then fail map "too many levels of indentation" s.line
    else .ok ({ s with widths := width :: s.widths }.push map (.mark Layout.indent))
  else
    let closed := s.close map width s.widths
    if closed.widths.headD 0 = width then .ok closed
    else fail map "unindent does not match any outer indentation level" s.line

/-! ## Tokens on a line -/

/-- Past a backslash that ends its line. -/
def continuation? : List Char → Option (List Char)
  | '\n' :: rest => some rest
  | '\r' :: '\n' :: rest => some rest
  | _ => none

/-- The rest of a string literal up to its closing quote: its content with escapes replaced, the
number of lines it continues over, and the text after it. -/
def stringBody (quote : Char) : List Char → (content : List Char) → (lines : Nat) →
    Option (List Char × Nat × List Char)
  | [], _, _ => none
  | c :: cs, content, lines =>
    if c = '\n' then none
    else if c = quote then some (content.reverse, lines, cs)
    else if c = '\\' then
      match cs with
      | [] => none
      | e :: cs =>
        if e = 'n' then stringBody quote cs ('\n' :: content) lines
        else if e = 't' then stringBody quote cs ('\t' :: content) lines
        else if e = 'r' then stringBody quote cs ('\r' :: content) lines
        else if e = '0' then stringBody quote cs ('\x00' :: content) lines
        else if e = '\\' ∨ e = '\'' ∨ e = '"' then stringBody quote cs (e :: content) lines
        else if e = '\n' then stringBody quote cs content (lines + 1)
        else stringBody quote cs (e :: '\\' :: content) lines
    else stringBody quote cs (c :: content) lines

theorem stringBody_length {quote : Char} {cs content : List Char} {lines : Nat}
    {r : List Char × Nat × List Char} (h : stringBody quote cs content lines = some r) :
    r.2.2.length < cs.length := by
  fun_induction stringBody quote cs content lines <;> grind

/-- The extent of a number literal after its first characters, which are given newest first: its
characters, whether it has a point or an exponent, and the text after it. -/
def numberBody : List Char → (real : Bool) → (taken : List Char) → List Char × Bool × List Char
  | [], real, taken => (taken.reverse, real, [])
  | c :: cs, real, taken =>
    if c.isDigit ∨ c = '_' then numberBody cs real (c :: taken)
    else if c = '.' ∧ !real then numberBody cs true (c :: taken)
    else if c = 'e' ∨ c = 'E' then
      match cs with
      | d :: cs' =>
        if d.isDigit ∨ d = '+' ∨ d = '-' then numberBody cs' true (d :: c :: taken)
        else (taken.reverse, real, c :: cs)
      | [] => (taken.reverse, real, c :: cs)
    else (taken.reverse, real, c :: cs)

theorem numberBody_length (cs : List Char) (real : Bool) (taken : List Char) :
    (numberBody cs real taken).2.2.length ≤ cs.length := by
  fun_induction numberBody cs real taken <;> grind

/-- The operators of three characters. -/
def threeCharacterSigns : List (List Char × Lexeme) :=
  [(['*', '*', '='], .augment .pow), (['/', '/', '='], .augment .floorDiv),
    (['<', '<', '='], .augment .shiftLeft), (['>', '>', '='], .augment .shiftRight)]

/-- The operators and the punctuation of two characters. -/
def twoCharacterSigns : List (List Char × Lexeme) :=
  [(['*', '*'], .op .pow), (['/', '/'], .op .floorDiv), (['<', '<'], .op .shiftLeft),
    (['>', '>'], .op .shiftRight), (['=', '='], .mark Punct.eq), (['!', '='], .mark Punct.ne),
    (['<', '='], .mark Punct.le), (['>', '='], .mark Punct.ge), (['+', '='], .augment .add),
    (['-', '='], .augment .sub), (['*', '='], .augment .mul), (['/', '='], .augment .div),
    (['%', '='], .augment .mod), (['&', '='], .augment .bitAnd), (['|', '='], .augment .bitOr),
    (['^', '='], .augment .bitXor)]

/-- The operators and the punctuation of one character. -/
def oneCharacterSigns : List (List Char × Lexeme) :=
  [(['('], .mark Punct.lparen), (['['], .mark Punct.lbracket), (['\x7b'], .mark Punct.lbrace),
    ([')'], .mark Punct.rparen), ([']'], .mark Punct.rbracket), (['\x7d'], .mark Punct.rbrace),
    ([','], .mark Punct.comma), ([':'], .mark Punct.colon), (['.'], .mark Punct.dot),
    ([';'], .mark Punct.semicolon), (['='], .mark Punct.assign), (['+'], .op .add),
    (['-'], .op .sub), (['*'], .op .mul), (['/'], .op .div), (['%'], .op .mod),
    (['&'], .op .bitAnd), (['|'], .op .bitOr), (['^'], .op .bitXor), (['~'], .mark Punct.tilde),
    (['<'], .mark Punct.lt), (['>'], .mark Punct.gt)]

/-- Every operator and piece of punctuation with its spelling, longer ones first. -/
def spellingsByLength : List (List Char × Lexeme) :=
  threeCharacterSigns ++ twoCharacterSigns ++ oneCharacterSigns

/-- The longest operator at the start of the text `c :: cs`, and the text after it. -/
def operator? (c : Char) (cs : List Char) : Option (Lexeme × List Char) :=
  (spellingsByLength.find? fun p => p.1.isPrefixOf (c :: cs)).map fun p =>
    (p.2, cs.drop (p.1.length - 1))

theorem operator?_length {c : Char} {cs : List Char} {r : Lexeme × List Char}
    (h : operator? c cs = some r) : r.2.length ≤ cs.length := by
  obtain ⟨p, _, rfl⟩ := Option.map_eq_some_iff.1 h
  simp

/-- The lexeme of a number literal. -/
def numberLexeme (map : Array Nat) (line : Nat) (digits : List Char) (real : Bool) :
    Except Fault Lexeme :=
  let digits := digits.filter fun c => c != '_'
  if real then
    match readFloat? digits with
    | some x => .ok (.float x)
    | none => fail map "invalid syntax" line
  else
    match readInt64? digits with
    | some n => .ok (.int n)
    | none => .error .overflow

/-- Count the brackets: the nesting after a token, which is written as `c`. -/
def nest (map : Array Nat) (c : Char) (l : Lexeme) (s : Scan) : Except Fault Nat :=
  match l with
  | .mark (.punct .lparen) | .mark (.punct .lbracket) | .mark (.punct .lbrace) =>
    if maxBrackets ≤ s.depth then fail map "too many nested parentheses" s.line
    else .ok (s.depth + 1)
  | .mark (.punct .rparen) | .mark (.punct .rbracket) | .mark (.punct .rbrace) =>
    if s.depth = 0 then fail map s!"unmatched '{c}'" s.line else .ok (s.depth - 1)
  | _ => .ok s.depth

/-- Read a string literal whose opening quote is `quote`. -/
def readString (map : Array Nat) (quote : Char) (cs : List Char) (s : Scan) : Except Fault Scan :=
  match stringBody quote cs [] 0 with
  | some (content, lines, rest) =>
    .ok ({ s with rest, line := s.line + lines }.push map (.str (String.ofList content)))
  | none => fail map "unterminated string literal" s.line

/-- Read a number literal that starts with `c`. -/
def readNumber (map : Array Nat) (c : Char) (cs : List Char) (s : Scan) : Except Fault Scan :=
  let (digits, real, rest) := numberBody cs (c == '.') [c]
  if rest.head?.any startsWord then fail map "invalid decimal literal" s.line
  else (numberLexeme map s.line digits real).map fun l => { s with rest }.push map l

/-- Read a name or a keyword that starts with `c`. -/
def readWord (map : Array Nat) (c : Char) (cs : List Char) (s : Scan) : Scan :=
  let word := String.ofList (c :: cs.takeWhile continuesWord)
  let l := match Keyword.ofText? word with
    | some k => .mark k
    | none => .name word
  { s with rest := cs.dropWhile continuesWord }.push map l

/-- Read an operator or a piece of punctuation that starts with `c`. -/
def readOperator (map : Array Nat) (c : Char) (cs : List Char) (s : Scan) : Except Fault Scan :=
  match operator? c cs with
  | some (l, rest) => (s.nest map c l).map fun depth => { s with rest, depth }.push map l
  | none => fail map s!"invalid character '{c}'" s.line

/-- Read what starts with `c` inside a line. -/
def readToken (map : Array Nat) (c : Char) (cs : List Char) (s : Scan) : Except Fault Scan :=
  if c = '\n' then
    let s := if s.depth = 0 then { s.endLine map with fresh := true } else s
    .ok { s with rest := cs, line := s.line + 1 }
  else if c = ' ' ∨ c = '\t' ∨ c = '\r' ∨ c = '\x0c' then .ok { s with rest := cs }
  else if c = '#' then .ok { s with rest := afterComment cs }
  else if c = '\\' ∧ (continuation? cs).isSome then
    .ok { s with rest := (continuation? cs).getD [], line := s.line + 1 }
  else if c = '"' ∨ c = '\'' then s.readString map c cs
  else if c.isDigit ∨ (c = '.' ∧ cs.head?.any Char.isDigit) then s.readNumber map c cs
  else if startsWord c then .ok (s.readWord map c cs)
  else s.readOperator map c cs

/-! ## The whole text -/

/-- Read what starts the text `cs` inside a line. -/
def readNext (map : Array Nat) (cs : List Char) (s : Scan) : Except Fault Scan :=
  match cs with
  | [] => .ok { s with rest := [] }
  | c :: cs => readToken map c cs { s with fresh := false }

/-- Read one token, skip one blank or comment, or pass one empty line. -/
def step (map : Array Nat) (s : Scan) : Except Fault Scan :=
  if s.fresh then
    let (width, cs) := margin 0 s.rest
    match s.blankLine? cs with
    | some next => .ok next
    | none => (s.indent map width).bind (readNext map cs)
  else s.readNext map s.rest

@[simp] theorem rest_push (map : Array Nat) (l : Lexeme) (s : Scan) :
    (s.push map l).rest = s.rest := rfl

@[simp] theorem rest_passNewline_length (cs : List Char) (s : Scan) :
    (s.passNewline cs).rest.length ≤ cs.length := by
  unfold passNewline
  split <;> simp

theorem blankLine?_shorter {cs : List Char} {s s' : Scan} (h : s.blankLine? cs = some s')
    (hcs : cs ≠ []) : s'.rest.length < cs.length := by
  unfold blankLine? at h
  split at h
  · exact absurd rfl hcs
  · next rest => cases h; simp [passNewline]
  · next rest =>
    split at h
    · cases h
      exact Nat.lt_succ_of_le (rest_passNewline_length rest s)
    · cases h
  · next rest =>
    cases h
    have h1 := rest_passNewline_length (afterComment rest) s
    have h2 : (afterComment rest).length ≤ rest.length := length_dropWhile_le _ rest
    simp only [List.length_cons]
    omega
  · cases h

theorem readNumber_shorter {map : Array Nat} {c : Char} {cs : List Char} {s s' : Scan}
    (h : s.readNumber map c cs = .ok s') : s'.rest.length ≤ cs.length := by
  have hb := numberBody_length cs (c == '.') [c]
  unfold readNumber at h
  generalize numberBody cs (c == '.') [c] = b at h hb
  obtain ⟨digits, real, rest⟩ := b
  simp only at h hb
  split at h
  · cases h
  · cases hl : numberLexeme map s.line digits real with
    | error e => simp [hl, Except.map] at h
    | ok l => simp only [hl, Except.map, Except.ok.injEq] at h; subst h; exact hb

theorem readOperator_shorter {map : Array Nat} {c : Char} {cs : List Char} {s s' : Scan}
    (h : s.readOperator map c cs = .ok s') : s'.rest.length ≤ cs.length := by
  unfold readOperator at h
  split at h
  · next l rest ho =>
    have hb := operator?_length ho
    cases hd : s.nest map c l with
    | error e => simp [hd, Except.map] at h
    | ok d => simp only [hd, Except.map, Except.ok.injEq] at h; subst h; exact hb
  · cases h

theorem readString_shorter {map : Array Nat} {c : Char} {cs : List Char} {s s' : Scan}
    (h : s.readString map c cs = .ok s') : s'.rest.length ≤ cs.length := by
  unfold readString at h
  split at h
  · next content lines rest hb =>
    have := stringBody_length hb
    cases h
    exact Nat.le_of_lt this
  · cases h

theorem continuation?_length {cs rest : List Char} (h : continuation? cs = some rest) :
    rest.length ≤ cs.length := by
  unfold continuation? at h
  split at h <;> simp_all
  omega

theorem readToken_shorter {map : Array Nat} {c : Char} {cs : List Char} {s s' : Scan}
    (h : s.readToken map c cs = .ok s') : s'.rest.length ≤ cs.length := by
  unfold readToken at h
  split at h
  · cases h; exact Nat.le_refl _
  split at h
  · cases h; exact Nat.le_refl _
  split at h
  · cases h; exact length_dropWhile_le _ cs
  split at h
  · next hc =>
    obtain ⟨rest, hr⟩ := Option.isSome_iff_exists.1 hc.2
    cases h
    simpa [hr] using continuation?_length hr
  split at h
  · exact readString_shorter h
  split at h
  · exact readNumber_shorter h
  split at h
  · cases h; exact length_dropWhile_le _ cs
  · exact readOperator_shorter h

theorem readNext_shorter {map : Array Nat} {cs : List Char} {s s' : Scan}
    (h : s.readNext map cs = .ok s') : s'.rest = [] ∨ s'.rest.length < cs.length := by
  unfold readNext at h
  split at h
  · cases h; exact .inl rfl
  · exact .inr (Nat.lt_succ_of_le (readToken_shorter h))

/-- A step reads at least one character of a text that is not empty. -/
theorem step_shorter {map : Array Nat} {s s' : Scan} (h : s.step map = .ok s')
    (hs : s.rest ≠ []) : s'.rest.length < s.rest.length := by
  have hpos : 0 < s.rest.length := List.length_pos_iff.2 hs
  have done : ∀ cs : List Char, cs.length ≤ s.rest.length →
      s'.rest = [] ∨ s'.rest.length < cs.length → s'.rest.length < s.rest.length := by
    intro cs hle hr
    rcases hr with hr | hr
    · simpa [hr] using hpos
    · omega
  unfold step at h
  split at h
  · have hle := margin_length 0 s.rest
    generalize margin 0 s.rest = m at h hle
    obtain ⟨width, cs⟩ := m
    simp only at h hle
    split at h
    · next next hb =>
      cases h
      cases cs with
      | nil =>
        simp only [blankLine?, Option.some.injEq] at hb
        exact done [] (Nat.zero_le _) (.inl (by rw [← hb]))
      | cons c cs => exact done _ hle (.inr (blankLine?_shorter hb (by simp)))
    · cases hi : s.indent map width with
      | error e => simp [hi, Except.bind] at h
      | ok t =>
        simp only [hi, Except.bind] at h
        exact done cs hle (readNext_shorter h)
  · exact done s.rest (Nat.le_refl _) (readNext_shorter h)

/-- Read to the end of the text. -/
def run (map : Array Nat) (s : Scan) : Except Fault Scan :=
  if _hs : s.rest = [] then .ok s
  else match _h : s.step map with
    | .ok next => run map next
    | .error e => .error e
termination_by s.rest.length
decreasing_by exact step_shorter _h _hs

/-- At the end of the text the last line and all blocks end. -/
def finish (map : Array Nat) (s : Scan) : List Token :=
  let s := s.endLine map
  let s := s.widths.foldl (fun s _ => s.push map (.mark Layout.dedent)) s
  (s.push map (.mark Layout.finish)).tokens.reverse

end Scan

/-- The tokens of a text; line `n` of it is reported as entry `n` of the map, if there is one. -/
def tokenize (text : String) (map : Array Nat) : Except Fault (List Token) :=
  ((Scan.start text.toList).run map).map fun s => s.finish map

end SortTrace.Script
