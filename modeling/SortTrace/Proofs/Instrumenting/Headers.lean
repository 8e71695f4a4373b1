import SortTrace.Proofs.Instrumenting.Source

/-!
# Calls after lines that open blocks

The call after a line that opens a block is indented by four blanks more than the line, whatever the
indentation of the block is. A block that is indented less lies between the two: the call opens a
block of its own, which the first line of the other one closes without coming back to any open
block. The text with the calls is then rejected at that line (`parseProgram_narrow`), though the
source is a program.
-/

namespace SortTrace.Script.Scan

open Source Source.Interleaving

variable {map : Array Nat} {ls before blank after : List String} {line next var : String}
  {width k last : Nat} {cs tail : List Char} {e : Fault} {s t u : Scan}

/-! ## Blank lines -/

/-- The line holds nothing but blanks and a comment. -/
def isBlank (line : String) : Bool :=
  ((start []).blankLine? (margin 0 line.toList).2).isSome

/-- A blank line is passed with its end. -/
theorem blankLine?_newline (hcs : '\n' ∉ cs) (h : ((start []).blankLine? cs).isSome = true)
    (tail : List Char) : s.blankLine? (cs ++ '\n' :: tail)
      = some { s with rest := tail, line := s.line + 1 } := by
  cases cs with
  | nil => rfl
  | cons c cs =>
    have other : c ≠ '\n' := fun heq => hcs (heq ▸ List.mem_cons_self ..)
    unfold blankLine? at h
    split at h
    case h_1 heq => cases heq
    case h_2 heq => exact absurd (List.cons.inj heq).1 other
    case h_3 rest heq =>
      obtain ⟨rfl, rfl⟩ := List.cons.inj heq
      cases cs with
      | nil => rfl
      | cons d cs =>
        have hd : d ≠ '\n' := fun heq => hcs (by simp [heq])
        simp [hd] at h
    case h_4 rest heq =>
      obtain ⟨rfl, rfl⟩ := List.cons.inj heq
      have comment : '\n' ∉ cs := fun hmem => hcs (List.mem_cons_of_mem _ hmem)
      have passed : afterComment (cs ++ '\n' :: tail) = '\n' :: tail := by
        have stops : ∀ x ∈ cs, (x != '\n') = true := fun x hx =>
          bne_iff_ne.mpr fun heq => comment (heq ▸ hx)
        rw [afterComment, List.dropWhile_append_of_pos stops]
        rfl
      have read : s.blankLine? ('#' :: (cs ++ '\n' :: tail))
          = some (s.passNewline (afterComment (cs ++ '\n' :: tail))) := rfl
      rw [List.cons_append, read, passed]
      rfl
    case h_5 => cases h

theorem run_blank (hfresh : s.fresh = true) (hline : '\n' ∉ line.toList)
    (hblank : isBlank line = true) :
    ({ s with rest := line.toList ++ '\n' :: cs } : Scan).run map
      = ({ s with rest := cs, line := s.line + 1 } : Scan).run map := by
  have onLine : '\n' ∉ (margin 0 line.toList).2 := by
    have count := (margin_splits 0 line.toList).count
    rw [List.count_eq_zero.mpr hline] at count
    exact List.count_eq_zero.mp (by omega)
  refine run_of_step (by simp) ?_
  rw [step, if_pos hfresh, margin_append (EndsLine.newline cs).stops]
  dsimp only
  rw [blankLine?_newline onLine hblank]

/-- Blank lines are passed. -/
theorem run_blanks (hfresh : s.fresh = true)
    (hblank : ∀ line ∈ blank, '\n' ∉ line.toList ∧ isBlank line = true) :
    ({ s with rest := Text.ended blank ++ cs } : Scan).run map
      = ({ s with rest := cs, line := s.line + blank.length } : Scan).run map := by
  induction blank generalizing s with
  | nil => rfl
  | cons line blank ih =>
    obtain ⟨hline, hfirst⟩ := hblank line (List.mem_cons_self ..)
    have others := ih (s := { s with line := s.line + 1 }) hfresh fun l hl =>
      hblank l (List.mem_cons_of_mem _ hl)
    have text : Text.ended (line :: blank) ++ cs
        = line.toList ++ '\n' :: (Text.ended blank ++ cs) := by
      simp [Text.ended]
    have place : s.line + 1 + blank.length = s.line + (line :: blank).length := by
      rw [List.length_cons]
      omega
    rw [text, run_blank hfresh hline hfirst, ← place]
    exact others

/-! ## Indentation -/

theorem indent_deeper (hwidth : s.widths.headD 0 < width) (hroom : s.widths.length < maxBlocks) :
    s.indent map width
      = .ok ({ s with widths := width :: s.widths }.push map (.mark Layout.indent)) := by
  rw [indent]
  dsimp only
  rw [if_pos hwidth, if_neg (Nat.not_le.mpr hroom)]

/-- A line that is less deep than the innermost block and deeper than the one around it. -/
theorem indent_between {w : Nat} {ws : List Nat} (hs : s.widths = w :: ws) (hw : width < w)
    (hws : ws.headD 0 < width) : s.indent map width
      = fail map "unindent does not match any outer indentation level" s.line := by
  have closed : ((s.close map width s.widths).widths).headD 0 ≠ width := by
    rw [hs, close, if_pos hw]
    cases ws with
    | nil =>
      rw [close]
      exact Nat.ne_of_lt hws
    | cons w' ws =>
      have still : ¬ width < w' := Nat.not_lt.mpr (Nat.le_of_lt hws)
      rw [close, if_neg still]
      exact Nat.ne_of_lt hws
  have inside : ¬ s.widths.headD 0 < width := by
    rw [hs]
    exact Nat.not_lt.mpr (Nat.le_of_lt hw)
  rw [indent]
  dsimp only
  rw [if_neg inside, if_neg closed]

/-- The indentation of a line that is not blank is measured first. -/
theorem run_of_indent_error (hfresh : s.fresh = true) (htail : EndsLine tail)
    (hblank : isBlank line = false)
    (hindent : ({ s with rest := line.toList ++ tail } : Scan).indent map (margin 0 line.toList).1
      = .error e) :
    ({ s with rest := line.toList ++ tail } : Scan).run map = .error e := by
  have some : (start []).blankLine? (margin 0 line.toList).2 = none :=
    Option.not_isSome_iff_eq_none.mp (Bool.not_eq_true _ ▸ hblank)
  refine run_of_error ?_ ?_
  · intro hnil
    rw [(List.append_eq_nil_iff.mp hnil).1] at some
    cases some
  · rw [step, if_pos hfresh, margin_append htail.stops]
    dsimp only
    rw [blankLine?_none some, hindent]
    rfl

/-! ## Narrow blocks -/

/-- The line behind other lines is a logical line by itself and opens a block. -/
structure OpensBlock (before : List String) (line : String) : Prop where
  starts : (closed? before).isSome = true
  ends : (firstWord? before line).isSome = true
  opens : opensBlock line = true
  feed : '\x0c' ∉ line.toList.takeWhile isMargin

theorem opensBlock_iff {before : List String} {line : String} : OpensBlock before line ↔
    (closed? before).isSome = true ∧ (firstWord? before line).isSome = true ∧
      opensBlock line = true ∧ '\x0c' ∉ line.toList.takeWhile isMargin :=
  ⟨fun h => ⟨h.starts, h.ends, h.opens, h.feed⟩, fun ⟨hs, he, ho, hf⟩ => ⟨hs, he, ho, hf⟩⟩

instance (before : List String) (line : String) : Decidable (OpensBlock before line) :=
  decidable_of_iff' _ opensBlock_iff

theorem callWidth_opens (h : opensBlock line = true) :
    callWidth line = (margin 0 line.toList).1 + 4 := by
  rw [callWidth, if_pos h]

/-- What stands in a source: lines, one that writes and opens a block, blank lines, and the first
line of the block, which is indented less than the call. -/
structure Narrow (ls before : List String) (line : String) (blank : List String) (next : String)
    (after : List String) (var : String) : Prop where
  lines : ls = before ++ line :: (blank ++ next :: after)
  writes : isMutation line var = true
  opens : OpensBlock before line
  blank : ∀ l ∈ blank, isBlank l = true ∧ isMutation l var = false
  holds : isBlank next = false
  deeper : (margin 0 line.toList).1 < (margin 0 next.toList).1
  narrow : (margin 0 next.toList).1 < (margin 0 line.toList).1 + 4

theorem joined_head (next : String) (after : List String) :
    ∃ tail, Text.joined (next :: after) = next.toList ++ tail ∧ EndsLine tail := by
  cases after with
  | nil => exact ⟨[], by simp [Text.joined, Text.joinLines], .nil⟩
  | cons line after =>
    exact ⟨'\n' :: Text.joined (line :: after), Text.joined_cons (List.cons_ne_nil _ _), .newline _⟩

theorem joined_through (htext : Text.joined (next :: after) = next.toList ++ tail) :
    Text.joined (before ++ line :: (blank ++ next :: after))
      = Text.ended before
        ++ (line.toList ++ '\n' :: (Text.ended blank ++ (next.toList ++ tail))) := by
  rw [Text.joined_append (List.cons_ne_nil _ _), Text.joined_cons (by simp),
    Text.joined_append (List.cons_ne_nil _ _), htext]

/-- Past the end of a line and the blank lines after it. -/
theorem run_through_blanks (hdepth : s.depth = 0) (hfresh : s.fresh = false)
    (hrest : s.rest = '\n' :: (Text.ended blank ++ cs))
    (hblank : ∀ line ∈ blank, '\n' ∉ line.toList ∧ isBlank line = true) :
    s.run map = ({ s.nextLine map with rest := cs, line := s.line + 1 + blank.length } :
      Scan).run map := by
  have inside : s.fresh = true → s.atLayout = true := by
    rw [hfresh]
    exact Bool.noConfusion
  exact (run_newline hdepth inside hrest).trans (run_blanks (s := s.nextLine map) rfl hblank)

/-- The block of a line could be opened in the source, so there is room for it. -/
theorem room_of_run (hdepth : s.depth = 0) (hfresh : s.fresh = false)
    (hrest : s.rest = '\n' :: (Text.ended blank ++ (next.toList ++ tail)))
    (hblank : ∀ line ∈ blank, '\n' ∉ line.toList ∧ isBlank line = true) (htail : EndsLine tail)
    (hnext : isBlank next = false) (hdeeper : s.widths.headD 0 < (margin 0 next.toList).1)
    (hrun : s.run map = .ok t) : s.widths.length < maxBlocks := by
  by_contra full
  rw [run_through_blanks hdepth hfresh hrest hblank] at hrun
  have same : (s.nextLine map).widths = s.widths := widths_endLine
  have stuck : ({ s.nextLine map with
      rest := next.toList ++ tail
      line := s.line + 1 + blank.length } : Scan).indent map (margin 0 next.toList).1
      = fail map "too many levels of indentation" (s.line + 1 + blank.length) := by
    rw [indent]
    dsimp only
    rw [same, if_pos hdeeper, if_pos (Nat.not_lt.mp full)]
  have failed := run_of_indent_error
    (s := { s.nextLine map with line := s.line + 1 + blank.length }) rfl htail hnext stuck
  rw [failed] at hrun
  cases hrun

/-- The call after a line that opens a block opens it, four blanks deeper than the line. -/
theorem run_call_opens (hvar : isIdentifier var = true) (hk : Keyword.ofText? var = none)
    (hopens : opensBlock line = true) (hfeed : '\x0c' ∉ line.toList.takeWhile isMargin)
    (hdepth : s.depth = 0) (hfresh : s.fresh = false)
    (hwidth : s.widths.headD 0 = (margin 0 line.toList).1) (hroom : s.widths.length < maxBlocks)
    (hrest : s.rest = '\n' :: ((logCall line var).toList ++ tail)) :
    s.run map = ({
      rest := tail
      line := s.line + 1
      widths := callWidth line :: s.widths
      depth := 0
      fresh := false
      tokens := logWords (reportedLine map (s.line + 1)) (.name var) ++
        ⟨.mark Layout.indent, reportedLine map (s.line + 1)⟩ :: (s.endLine map).tokens } :
          Scan).run map := by
  have widths : (s.nextLine map).widths = s.widths := widths_endLine
  have depth : (s.nextLine map).depth = 0 := depth_endLine.trans hdepth
  have deeper : (s.nextLine map).widths.headD 0 < callWidth line := by
    rw [widths, hwidth, callWidth_opens hopens]
    omega
  have room : (s.nextLine map).widths.length < maxBlocks := by rwa [widths]
  have opened : ({ s.nextLine map with
      rest := (logCall line var).toList ++ tail } : Scan).indent map (callWidth line) = .ok _ :=
    indent_deeper deeper room
  rw [run_call hvar hk hfeed hdepth hfresh opened hrest]
  dsimp only [push]
  rw [widths, depth]
  rfl

/-- The first line of a block that is less deep than the call closes no open block. -/
theorem run_narrow (hvar : isIdentifier var = true) (hk : Keyword.ofText? var = none)
    (h : Narrow ls before line blank next after var)
    (hblank : ∀ line ∈ blank, '\n' ∉ line.toList ∧ isBlank line = true)
    (hdepth : s.depth = 0) (hfresh : s.fresh = false)
    (hwidth : s.widths.headD 0 = (margin 0 line.toList).1) (hroom : s.widths.length < maxBlocks)
    (htail : EndsLine tail)
    (hrest : s.rest = '\n' :: ((logCall line var).toList ++
      '\n' :: (Text.ended blank ++ (next.toList ++ tail)))) :
    s.run map = fail map "unindent does not match any outer indentation level"
      (s.line + 2 + blank.length) := by
  rw [run_call_opens hvar hk h.opens.opens h.opens.feed hdepth hfresh hwidth hroom hrest]
  generalize hs : Scan.mk _ _ _ _ _ _ = s'
  have widths : s'.widths = callWidth line :: s.widths := by rw [← hs]
  have depth : s'.depth = 0 := by rw [← hs]
  have fresh : s'.fresh = false := by rw [← hs]
  have place : s'.line + 1 + blank.length = s.line + 2 + blank.length := by rw [← hs]
  have rest : s'.rest = '\n' :: (Text.ended blank ++ (next.toList ++ tail)) := by rw [← hs]
  rw [run_through_blanks depth fresh rest hblank, place]
  have widths' : (s'.nextLine map).widths = callWidth line :: s.widths :=
    widths_endLine.trans widths
  have narrow : (margin 0 next.toList).1 < callWidth line := by
    rw [callWidth_opens h.opens.opens]
    exact h.narrow
  have deeper : s.widths.headD 0 < (margin 0 next.toList).1 := by
    rw [hwidth]
    exact h.deeper
  exact run_of_indent_error (s := { s'.nextLine map with line := s.line + 2 + blank.length }) rfl
    htail h.holds (indent_between widths' narrow deeper)

/-- The text with the calls, up to the first line of the block. -/
theorem Narrow.made (h : Narrow ls before line blank next after var) :
    ∃ tail, Text.joined (ofLinesFrom var 1 ls).lines
        = Text.ended (ofLinesFrom var 1 before).lines ++ (line.toList ++ '\n' ::
          ((logCall line var).toList ++ '\n' :: (Text.ended blank ++ (next.toList ++ tail)))) ∧
      EndsLine tail := by
  have quiet : ∀ n, (ofLinesFrom var n blank).lines = blank := fun n =>
    lines_quiet fun l hl => (h.blank l hl).2
  have first : ∀ n, ∃ more, (ofLinesFrom var n (next :: after)).lines = next :: more := fun n =>
    ⟨_, by rw [ofLinesFrom_cons]; rfl⟩
  obtain ⟨more, hmore⟩ := first (1 + before.length + 1 + blank.length)
  obtain ⟨tail, htext, htail⟩ := joined_head next more
  have behind : (ofLinesFrom var (1 + before.length + 1) (blank ++ next :: after)).lines
      = blank ++ next :: more := by
    rw [ofLinesFrom_append, lines_append, quiet, hmore]
  have lines : (ofLinesFrom var 1 ls).lines = (ofLinesFrom var 1 before).lines ++
      line :: ((logCall line var :: blank) ++ next :: more) := by
    rw [h.lines, ofLinesFrom_append, lines_append, ofLinesFrom_cons, if_pos h.writes]
    exact congrArg ((ofLinesFrom var 1 before).lines ++ line :: logCall line var :: ·) behind
  refine ⟨tail, ?_, htail⟩
  rw [lines, joined_through htext]
  simp [Text.ended]

/-- The first line of the block is reported as itself. -/
theorem Narrow.reported (h : Narrow ls before line blank next after var) :
    reportedLine (ofLinesFrom var 1 ls).origins.toArray
        ((ofLinesFrom var 1 before).length + 1 + 2 + blank.length)
      = before.length + blank.length + 2 := by
  have quiet : ∀ n, (ofLinesFrom var n blank).length = blank.length := fun n =>
    length_quiet fun l hl => (h.blank l hl).2
  have apart : ls = (before ++ line :: blank) ++ next :: after := by
    rw [h.lines, List.append_assoc]
    rfl
  have place : (ofLinesFrom var 1 before).length + 1 + 2 + blank.length
      = (ofLinesFrom var 1 (before ++ line :: blank)).length + 1 := by
    rw [ofLinesFrom_append, ofLinesFrom_cons, if_pos h.writes, List.length_append,
      List.length_cons, List.length_append, quiet]
    simp only [List.length_cons, List.length_nil]
    omega
  rw [place, apart, reportedLine_kept, List.length_append, List.length_cons]
  omega

/-- In the source the block is opened, so there is room for the block of the call. -/
theorem Narrow.room (h : Narrow ls before line blank next after var)
    (honLine : ∀ line ∈ ls, '\n' ∉ line.toList) (hrun : (start (Text.joined ls)).run #[] = .ok t)
    (reached : Reached ls var before k last s)
    (hread : ({ s with rest := line.toList } : Scan).run #[] = .ok u) (hdepth : u.depth = 0)
    {first : Token} (words : WordsRead s (margin 0 line.toList).1 first u) :
    u.widths.length < maxBlocks := by
  have blanks : ∀ l ∈ blank, '\n' ∉ l.toList ∧ isBlank l = true := fun l hl =>
    ⟨honLine l (by rw [h.lines]; simp [hl]), (h.blank l hl).1⟩
  obtain ⟨tail, htext, htail⟩ := joined_head next after
  obtain ⟨s', boundary, -⟩ := reached.made []
  have atEnd := run_append (s := { s with rest := line.toList }) boundary.atLayout
    (.newline (Text.ended blank ++ (next.toList ++ tail))) hread
  rw [h.lines, joined_through htext, reached.run] at hrun
  have deeper : u.widths.headD 0 < (margin 0 next.toList).1 := by
    rw [words.width]
    exact h.deeper
  exact room_of_run (s := { u with rest := '\n' :: (Text.ended blank ++ (next.toList ++ tail)) })
    hdepth words.fresh rfl blanks htail h.holds deeper (atEnd.symm.trans hrun)

/-- The first line of the block closes the block that the call has opened, and no other. -/
theorem Narrow.rejected (h : Narrow ls before line blank next after var)
    (hvar : isIdentifier var = true) (hk : Keyword.ofText? var = none)
    (honLine : ∀ line ∈ ls, '\n' ∉ line.toList) (hrun : (start (Text.joined ls)).run #[] = .ok t)
    (htakes : ∀ front line more, before = front ++ line :: more → isMutation line var = true →
      TakesCall front line) :
    (start (Text.joined (ofLinesFrom var 1 ls).lines)).run (ofLinesFrom var 1 ls).origins.toArray
      = .error (.syntaxError "unindent does not match any outer indentation level"
          (before.length + blank.length + 2)) := by
  have hls := h.lines
  obtain ⟨k, last, s, reached⟩ := reached_closed hvar hk honLine h.opens.starts htakes hls
  obtain ⟨first, hword⟩ := Option.isSome_iff_exists.mp h.opens.ends
  have onLine : '\n' ∉ line.toList := honLine line (by rw [hls]; simp)
  have blanks : ∀ l ∈ blank, '\n' ∉ l.toList ∧ isBlank l = true := fun l hl =>
    ⟨honLine l (by rw [hls]; simp [hl]), (h.blank l hl).1⟩
  obtain ⟨u, -, hdepth, hread, words⟩ := reached.words onLine hword
  have room := h.room honLine hrun reached hread hdepth words
  have place : s.line + k = (ofLinesFrom var 1 before).length + 1 := by
    rw [reached.line, reached.calls]
    omega
  have kept : reportedLine (ofLinesFrom var 1 ls).origins.toArray (s.line + k) = s.line := by
    rw [place, hls, reportedLine_kept, reached.line]
  obtain ⟨tail, htext, htail⟩ := h.made
  rw [htext]
  generalize hrest : Text.ended blank ++ (next.toList ++ tail) = cs
  obtain ⟨s', boundary, hmade⟩ := reached.made
    (line.toList ++ '\n' :: ((logCall line var).toList ++ '\n' :: cs))
  obtain ⟨v, hread', both⟩ := boundary.line_read
    (.newline ((logCall line var).toList ++ '\n' :: cs)) onLine kept hread words
  have width : v.widths.headD 0 = (margin 0 line.toList).1 := by rw [both.widths, words.width]
  have room' : v.widths.length < maxBlocks := by rwa [both.widths]
  have line' : v.line = (ofLinesFrom var 1 before).length + 1 :=
    (both.line.trans boundary.line).trans place
  rw [hmade, hread']
  rw [← hrest] at both
  rw [run_narrow hvar hk h blanks (both.depth.trans hdepth) both.fresh width room' htail both.rest,
    line', fail, h.reported]

end SortTrace.Script.Scan

namespace SortTrace.Script

open Source Scan

/-- After a line that writes and opens a block the call is put four blanks deeper than the line. A
block that is indented less is rejected at its first line. -/
theorem parseProgram_narrow {source var next : String} {P : List Stmt} {before blank : List String}
    {line : String} {after : List String} (hvar : isIdentifier var = true)
    (hk : Keyword.ofText? var = none) (hread : parseProgram source #[] = .ok P)
    (hnarrow : Narrow (Text.lines source) before line blank next after var)
    (htakes : ∀ front line more, before = front ++ line :: more → isMutation line var = true →
      TakesCall front line) :
    let s := Instrumented.ofSource source var
    parseProgram s.text s.origins.toArray
      = .error (.syntaxError "unindent does not match any outer indentation level"
          (before.length + blank.length + 2)) := by
  intro s
  obtain ⟨ts, htokens, -⟩ := tokenize_of_parseProgram hread
  rw [tokenize, Text.toList_lines] at htokens
  cases hrun : (start (Text.joined (Text.lines source))).run #[] with
  | error e =>
    rw [hrun] at htokens
    cases htokens
  | ok e =>
    have rejected := hnarrow.rejected hvar hk (fun _ => Text.lines_onLine) hrun htakes
    have tokens : tokenize s.text s.origins.toArray
        = .error (.syntaxError "unindent does not match any outer indentation level"
            (before.length + blank.length + 2)) := by
      rw [Instrumented.tokenize_ofSource]
      exact congrArg (Except.map _) rejected
    rw [parseProgram, tokens]
    rfl

/-- A block that is indented by two blanks. -/
theorem parseProgram_narrow_two :
    let source := "arr = [1]\nif arr[0] == 1:\n  print(1)\n"
    let s := Instrumented.ofSource source "arr"
    (∃ P, parseProgram source #[] = .ok P) ∧ parseProgram s.text s.origins.toArray
      = .error (.syntaxError "unindent does not match any outer indentation level" 3) := by
  intro source s
  have tokens : tokenize source #[] = .ok [⟨.name "arr", 1⟩, ⟨.mark Punct.assign, 1⟩,
      ⟨.mark Punct.lbracket, 1⟩, ⟨.int 1, 1⟩, ⟨.mark Punct.rbracket, 1⟩, ⟨.mark Layout.newline, 1⟩,
      ⟨.mark Keyword.ifKw, 2⟩, ⟨.name "arr", 2⟩, ⟨.mark Punct.lbracket, 2⟩, ⟨.int 0, 2⟩,
      ⟨.mark Punct.rbracket, 2⟩, ⟨.mark Punct.eq, 2⟩, ⟨.int 1, 2⟩, ⟨.mark Punct.colon, 2⟩,
      ⟨.mark Layout.newline, 2⟩, ⟨.mark Layout.indent, 3⟩, ⟨.name "print", 3⟩,
      ⟨.mark Punct.lparen, 3⟩, ⟨.int 1, 3⟩, ⟨.mark Punct.rparen, 3⟩, ⟨.mark Layout.newline, 3⟩,
      ⟨.mark Layout.dedent, 4⟩, ⟨.mark Layout.finish, 4⟩] := by decide +kernel
  have reads : parseProgram source #[] = .ok [
      .assign 1 [.name "arr"] (.list [.literal (.int 1)]),
      .branch 2 [(.compare (.index (.name "arr") (.literal (.int 0))) [(.eq, .literal (.int 1))],
        [.expr 3 (.call (.name "print") [.literal (.int 1)] [])])] []] :=
    (parseProgram_of_tokenize tokens).trans rfl
  have lines : Text.lines source
      = ["arr = [1]"] ++ "if arr[0] == 1:" :: ([] ++ "  print(1)" :: [""]) := by decide
  have narrow : Narrow (Text.lines source) ["arr = [1]"] "if arr[0] == 1:" [] "  print(1)" [""]
      "arr" :=
    ⟨lines, by decide, by decide +kernel, nofun, by decide, by decide, by decide⟩
  exact ⟨⟨_, reads⟩, parseProgram_narrow (by decide) (by decide) reads narrow (by
    intro front line more hbefore hm
    obtain _ | ⟨_, _ | front⟩ := front <;> cases hbefore
    exact absurd hm (by decide))⟩

end SortTrace.Script
