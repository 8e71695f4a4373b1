import SortTrace.Proofs.Instrumenting.Lines
import SortTrace.Proofs.Instrumenting.Origins
import SortTrace.Proofs.Instrumenting.Program

/-!
# Sources with logging calls

The text with the calls is scanned beside the source. `Reached` says that both scans are behind the
ends of the same lines, and `ReadTo` that they are at the end of the last of them; the lines in
between are read by `Reached.quiet` and `Reached.written`.
-/

namespace SortTrace.Script.Scan

open Source Source.Interleaving

variable {ls done chunk rest : List String} {line var : String} {k last lastWritten : Nat}
  {b t : Scan}

/-! ## Both scans -/

/-- The scans of a source and of its text with calls are behind the ends of some of the lines. -/
structure Reached (ls : List String) (var : String) (done : List String) (k last : Nat) (b : Scan) :
    Prop where
  line : b.line = done.length + 1
  calls : (ofLinesFrom var 1 done).length = done.length + k
  run : ∀ cs, (start (Text.ended done ++ cs)).run #[] = ({ b with rest := cs } : Scan).run #[]
  made : ∀ cs, ∃ b', Boundary (writesLine ls var) var k last b b' ∧
    (start (Text.ended (ofLinesFrom var 1 done).lines ++ cs)).run
        (ofLinesFrom var 1 ls).origins.toArray
      = ({ b' with rest := cs } : Scan).run (ofLinesFrom var 1 ls).origins.toArray

/-- The scans are at the end of the last of some of the lines. -/
structure ReadTo (ls : List String) (var : String) (done : List String) (k last : Nat) (t : Scan) :
    Prop where
  scanned : (start (Text.joined done)).run #[] = .ok t
  nonempty : done ≠ []
  line : t.line = done.length
  calls : (ofLinesFrom var 1 done).length = done.length + k
  run : ∀ cs, EndsLine cs →
    (start (Text.joined done ++ cs)).run #[] = ({ t with rest := cs } : Scan).run #[]
  made : ∀ cs, EndsLine cs → ∃ t',
    Ended (writesLine ls var) var (ofLinesFrom var 1 ls).origins.toArray k last t t' ∧
      t'.rest = cs ∧ (start (Text.joined (ofLinesFrom var 1 done).lines ++ cs)).run
          (ofLinesFrom var 1 ls).origins.toArray
        = t'.run (ofLinesFrom var 1 ls).origins.toArray

theorem reached_start (ls : List String) (var : String) : Reached ls var [] 0 0 (start []) where
  line := rfl
  calls := rfl
  run _ := rfl
  made _ := ⟨start [], ⟨rfl, rfl, rfl, rfl, rfl, rfl, rfl, .nil, rfl, rfl, Nat.zero_lt_one, nofun⟩,
    rfl⟩

theorem lines_ne_nil (h : done ≠ []) : (ofLinesFrom var 1 done).lines ≠ [] := by
  cases done with
  | nil => exact absurd rfl h
  | cons line done =>
    rw [ofLinesFrom_cons]
    exact List.cons_ne_nil _ _

theorem ReadTo.next (h : ReadTo ls var done k last t) (hdepth : t.depth = 0) :
    Reached ls var done k last (t.nextLine #[]) where
  line := congrArg (· + 1) h.line
  calls := h.calls
  run cs := by
    obtain ⟨t', ended, -, -⟩ := h.made [] .nil
    rw [← Text.joined_newline cs h.nonempty, h.run _ (.newline cs)]
    refine (run_newline (s := { t with rest := '\n' :: cs }) hdepth ended.fresh rfl).trans ?_
    rw [nextLine_rest]
  made cs := by
    obtain ⟨t', ended, hrest, hrun⟩ := h.made ('\n' :: cs) (.newline cs)
    have depth' : t'.depth = 0 := ended.depth.trans hdepth
    refine ⟨t'.nextLine _, ended.next hdepth, ?_⟩
    rw [← Text.joined_newline cs (lines_ne_nil h.nonempty), hrun]
    exact run_newline depth' ended.fresh' hrest

/-- At the end of the texts the tokens of one are those of the other with calls in them. -/
theorem ReadTo.finish (h : ReadTo ls var ls k last t) :
    ∃ t', (start (Text.joined (ofLinesFrom var 1 ls).lines)).run
          (ofLinesFrom var 1 ls).origins.toArray = .ok t' ∧
        t'.finish (ofLinesFrom var 1 ls).origins.toArray
          = weave (writesLine ls var) var (t.finish #[]) ∧
        Follows (writesLine ls var) (.between 0) (t.finish #[]) := by
  obtain ⟨t', ended, hrest', hrun⟩ := h.made [] .nil
  rw [List.append_nil, run_of_rest hrest'] at hrun
  exact ⟨t', hrun, ended.finish⟩

/-! ## Lines -/

/-- A line among others. -/
theorem line_among {m : Nat} (hls : ls = done ++ (chunk ++ rest)) (hm : done.length < m)
    (hm' : m ≤ done.length + chunk.length) :
    ∃ front line back, chunk = front ++ line :: back ∧
      ls = (done ++ front) ++ line :: (back ++ rest) ∧ m = (done ++ front).length + 1 := by
  have inside : m - done.length - 1 < chunk.length := by omega
  have split : chunk = chunk.take (m - done.length - 1) ++
      chunk[m - done.length - 1] :: chunk.drop (m - done.length - 1 + 1) := by
    rw [List.getElem_cons_drop, List.take_append_drop]
  refine ⟨_, _, _, split, ?_, ?_⟩
  · rw [hls, ← List.cons_append, List.append_assoc, ← List.append_assoc (List.take ..), ← split]
  · rw [List.length_append, List.length_take]
    omega

/-- Lines that do not write. -/
theorem Reached.quiet (h : Reached ls var done k last b) (hls : ls = done ++ (chunk ++ rest))
    (hne : chunk ≠ []) (honLine : ∀ line ∈ ls, '\n' ∉ line.toList)
    (hquiet : ∀ line ∈ chunk, isMutation line var = false)
    (hrun : (start (Text.joined (done ++ chunk))).run #[] = .ok t) :
    ReadTo ls var (done ++ chunk) k last t := by
  have onLine : ∀ line ∈ chunk, '\n' ∉ line.toList := by
    intro line hline
    refine honLine line ?_
    rw [hls]
    simp [hline]
  have count := Text.count_joined hne onLine
  have hline := h.line
  have place : ∀ m, b.line ≤ m → m ≤ b.line + (Text.joined chunk).count '\n' →
      reportedLine (ofLinesFrom var 1 ls).origins.toArray (m + k) = m ∧
        writesLine ls var m = false := by
    intro m hm hm'
    have above : done.length < m := by omega
    have below : m ≤ done.length + chunk.length := by omega
    obtain ⟨front, line, back, hchunk, hls', rfl⟩ := line_among hls above below
    have hfront : ∀ line ∈ front, isMutation line var = false := fun l hl =>
      hquiet l (by rw [hchunk]; exact List.mem_append_left _ hl)
    have calls : (done ++ front).length + 1 + k
        = (ofLinesFrom var 1 (done ++ front)).length + 1 := by
      rw [ofLinesFrom_append, List.length_append, List.length_append, length_quiet hfront, h.calls]
      omega
    rw [calls, hls', reportedLine_kept, writesLine_append]
    exact ⟨rfl, hquiet line (by simp [hchunk])⟩
  have whole : start (Text.joined (done ++ chunk))
      = start (Text.ended done ++ Text.joined chunk) := by
    rw [Text.joined_append hne]
  have scanned := hrun
  rw [whole, h.run] at hrun
  have read (cs : List Char) (hcs : EndsLine cs) {b' : Scan}
      (boundary : Boundary (writesLine ls var) var k last b b') :=
    boundary.quiet (fun m hm hm' => (place m hm hm').1) (fun m hm hm' => (place m hm hm').2)
      hcs hrun
  refine ⟨scanned, List.append_ne_nil_of_right_ne_nil _ hne, ?_, ?_, ?_, ?_⟩
  · obtain ⟨b', boundary, -⟩ := h.made []
    have ends := (read [] .nil boundary).1
    rw [List.length_append]
    omega
  · rw [ofLinesFrom_append, List.length_append, List.length_append, length_quiet hquiet, h.calls]
    omega
  · intro cs hcs
    obtain ⟨b', boundary, -⟩ := h.made []
    rw [Text.joined_append hne, List.append_assoc, h.run]
    exact run_append (s := { b with rest := Text.joined chunk }) boundary.atLayout hcs hrun
  · intro cs hcs
    obtain ⟨b', boundary, hrun'⟩ := h.made (Text.joined chunk ++ cs)
    obtain ⟨-, t', hread, hrest, ended⟩ := read cs hcs boundary
    refine ⟨t', ended, hrest, ?_⟩
    rw [← hread, ← hrun', ofLinesFrom_append, lines_append, lines_quiet hquiet,
      Text.joined_append hne, List.append_assoc]

/-! ## Lines that write -/

/-- The scan of lines that end outside brackets. A string that is open there, or a backslash in
front of the next line, is a fault of the scan. -/
def closed? (ls : List String) : Option Scan :=
  match (start (Text.joined ls)).run #[] with
  | .ok s => if s.depth = 0 then some s else none
  | .error _ => none

theorem closed?_eq_some {s : Scan} :
    closed? ls = some s ↔ (start (Text.joined ls)).run #[] = .ok s ∧ s.depth = 0 := by
  rw [closed?]
  split <;> rename_i hrun
  · rw [hrun, Option.ite_none_right_eq_some, Option.some.injEq, Except.ok.injEq]
    constructor
    · rintro ⟨hdepth, rfl⟩
      exact ⟨rfl, hdepth⟩
    · rintro ⟨rfl, hdepth⟩
      exact ⟨hdepth, rfl⟩
  · simp [hrun]

/-- The first token of a line behind other lines, where it ends outside brackets. -/
def firstWord? (before : List String) (line : String) : Option Token :=
  (closed? (before ++ [line])).bind fun s =>
    s.tokens.reverse.find? fun t => t.line == before.length + 1 && !t.lexeme.isLayout

/-- The line behind other lines is a logical line by itself that can have a call after it. -/
structure TakesCall (before : List String) (line : String) : Prop where
  starts : (closed? before).isSome = true
  /-- The line holds a token, and the first one begins no compound statement. -/
  ends : ∃ first ∈ firstWord? before line, ∀ w ∈ compoundWords, first.lexeme ≠ .mark w
  opens : opensBlock line = false
  /-- No form feed takes the width of the indentation back to zero. -/
  feed : '\x0c' ∉ line.toList.takeWhile isMargin

theorem takesCall_iff {before : List String} {line : String} : TakesCall before line ↔
    (closed? before).isSome = true ∧
      (∃ first ∈ firstWord? before line, ∀ w ∈ compoundWords, first.lexeme ≠ .mark w) ∧
      opensBlock line = false ∧ '\x0c' ∉ line.toList.takeWhile isMargin :=
  ⟨fun h => ⟨h.starts, h.ends, h.opens, h.feed⟩, fun ⟨hs, he, ho, hf⟩ => ⟨hs, he, ho, hf⟩⟩

instance (before : List String) (line : String) : Decidable (TakesCall before line) :=
  decidable_of_iff' _ takesCall_iff

/-- A logical line by itself is read from its first word on. -/
theorem Reached.words {first : Token} (h : Reached ls var done k last b)
    (hline : '\n' ∉ line.toList) (hword : firstWord? done line = some first) :
    ∃ t, (start (Text.joined (done ++ [line]))).run #[] = .ok t ∧ t.depth = 0 ∧
      ({ b with rest := line.toList } : Scan).run #[] = .ok t ∧
      WordsRead b (margin 0 line.toList).1 first t := by
  obtain ⟨t, hclosed, hfirst⟩ := Option.bind_eq_some_iff.mp hword
  obtain ⟨whole, hdepth⟩ := closed?_eq_some.mp hclosed
  have alone : Text.joined [line] = line.toList := rfl
  have hrun := whole
  rw [Text.joined_append (List.cons_ne_nil _ _), h.run, alone] at hrun
  rw [← h.line] at hfirst
  obtain ⟨b', boundary, -⟩ := h.made []
  exact ⟨t, whole, hdepth, hrun, wordsRead_of_run boundary.fresh boundary.earlier hline hrun hfirst⟩

/-- A line that writes, with the call after it. -/
theorem Reached.written (h : Reached ls var done k lastWritten b) (hls : ls = done ++ line :: rest)
    (hvar : isIdentifier var = true) (hk : Keyword.ofText? var = none)
    (hline : '\n' ∉ line.toList) (hm : isMutation line var = true)
    (htakes : TakesCall done line) :
    ∃ t, t.depth = 0 ∧ ReadTo ls var (done ++ [line]) (k + 1) b.line t := by
  have hne : [line] ≠ [] := List.cons_ne_nil _ _
  have alone : Text.joined [line] = line.toList := rfl
  obtain ⟨first, hword, hc⟩ := htakes.ends
  obtain ⟨t, whole, hdepth, hrun, words⟩ := h.words hline hword
  have writes : writesLine ls var b.line = true := by
    rw [hls, h.line, writesLine_append, hm]
  have place : b.line + k = (ofLinesFrom var 1 done).length + 1 := by
    rw [h.line, h.calls]
    omega
  have kept : reportedLine (ofLinesFrom var 1 ls).origins.toArray (b.line + k) = b.line := by
    rw [place, hls, reportedLine_kept, h.line]
  have call : reportedLine (ofLinesFrom var 1 ls).origins.toArray (b.line + k + 1) = b.line := by
    rw [place, hls, reportedLine_call hm, h.line]
  have read (cs : List Char) {b' : Scan}
      (boundary : Boundary (writesLine ls var) var k lastWritten b b') :=
    boundary.written cs hvar hk htakes.opens htakes.feed hline writes kept call hrun hdepth words
      hc
  refine ⟨t, hdepth, whole, List.append_ne_nil_of_right_ne_nil _ hne, ?_, ?_, ?_, ?_⟩
  · obtain ⟨b', boundary, -⟩ := h.made []
    rw [(read [] boundary).1, h.line, List.length_append]
    rfl
  · rw [ofLinesFrom_append, ofLinesFrom_cons, if_pos hm, List.length_append, List.length_append,
      h.calls, ofLinesFrom]
    simp only [List.length_cons, List.length_append, List.length_nil]
    omega
  · intro cs hcs
    obtain ⟨b', boundary, -⟩ := h.made []
    rw [Text.joined_append hne, List.append_assoc, h.run, alone]
    exact run_append (s := { b with rest := line.toList }) boundary.atLayout hcs hrun
  · intro cs hcs
    obtain ⟨b', boundary, hrun'⟩ := h.made
      (line.toList ++ '\n' :: ((logCall line var).toList ++ cs))
    obtain ⟨-, t', hread, hrest, ended⟩ := read cs boundary
    refine ⟨t', ended, hrest, ?_⟩
    rw [← hread, ← hrun', lines_written hm, Text.joined_append (List.cons_ne_nil _ _)]
    simp [Text.joined, Text.joinLines]

/-! ## All lines -/

/-- Up to a line that can have a call after it. -/
theorem Reached.upTo (h : Reached ls var done k last b)
    (hls : ls = done ++ (chunk ++ line :: rest)) (honLine : ∀ line ∈ ls, '\n' ∉ line.toList)
    (hquiet : ∀ line ∈ chunk, isMutation line var = false)
    (htakes : TakesCall (done ++ chunk) line) : ∃ b', Reached ls var (done ++ chunk) k last b' := by
  cases chunk with
  | nil =>
    rw [List.append_nil]
    exact ⟨b, h⟩
  | cons next chunk =>
    obtain ⟨s, hs⟩ := Option.isSome_iff_exists.mp htakes.starts
    obtain ⟨hrun, hdepth⟩ := closed?_eq_some.mp hs
    have read := h.quiet hls (List.cons_ne_nil _ _) honLine hquiet hrun
    exact ⟨_, read.next hdepth⟩

/-- Lines are read to the end of the last one, where those that write can have a call after them.
The lines of `chunk` are known not to write, and wait to be read. -/
theorem Reached.all {after : List String} (hvar : isIdentifier var = true)
    (hk : Keyword.ofText? var = none) (honLine : ∀ line ∈ ls, '\n' ∉ line.toList) {e : Scan}
    (hrun : (start (Text.joined (done ++ (chunk ++ rest)))).run #[] = .ok e)
    (htakes : ∀ before line more, done ++ (chunk ++ rest) = before ++ line :: more →
      isMutation line var = true → TakesCall before line)
    (h : Reached ls var done k last b) (hls : ls = done ++ (chunk ++ rest) ++ after)
    (hquiet : ∀ line ∈ chunk, isMutation line var = false) (hne : chunk ++ rest ≠ []) :
    ∃ k last, ReadTo ls var (done ++ (chunk ++ rest)) k last e := by
  induction rest generalizing done chunk k last b with
  | nil =>
    rw [List.append_nil] at hls hne hrun ⊢
    rw [List.append_assoc] at hls
    exact ⟨k, last, h.quiet hls hne honLine hquiet hrun⟩
  | cons line rest ih =>
    cases hm : isMutation line var with
    | false =>
      have known : done ++ (chunk ++ line :: rest) = done ++ ((chunk ++ [line]) ++ rest) := by
        rw [List.append_assoc chunk]
        rfl
      rw [known] at hrun htakes hls ⊢
      refine ih hrun htakes h hls ?_ (by simp)
      intro l hl
      rcases List.mem_append.mp hl with hl | hl
      · exact hquiet l hl
      · rw [List.mem_singleton.mp hl]
        exact hm
    | true =>
      have apart : done ++ (chunk ++ line :: rest) = (done ++ chunk) ++ line :: rest :=
        (List.append_assoc ..).symm
      have takes := htakes _ line rest apart hm
      have whole : ls = done ++ (chunk ++ line :: (rest ++ after)) := by
        rw [hls]
        simp
      obtain ⟨b', reached⟩ := h.upTo whole honLine hquiet takes
      rw [← List.append_assoc] at whole
      have onLine : '\n' ∉ line.toList := honLine line (by rw [whole]; simp)
      obtain ⟨t, hdepth, read⟩ := reached.written whole hvar hk onLine hm takes
      cases rest with
      | nil =>
        rw [apart] at hrun ⊢
        obtain rfl : e = t := Except.ok.inj (hrun.symm.trans read.scanned)
        exact ⟨_, _, read⟩
      | cons next rest =>
        have behind : done ++ (chunk ++ line :: next :: rest)
            = (done ++ chunk ++ [line]) ++ ([] ++ next :: rest) := by
          simp
        rw [behind] at hrun htakes hls ⊢
        exact ih hrun htakes (read.next hdepth) hls nofun (by simp)

/-- Lines that end outside brackets are read up to the beginning of the next one. -/
theorem reached_closed {before : List String} (hvar : isIdentifier var = true)
    (hk : Keyword.ofText? var = none) (honLine : ∀ line ∈ ls, '\n' ∉ line.toList)
    (hclosed : (closed? before).isSome = true)
    (htakes : ∀ front line more, before = front ++ line :: more → isMutation line var = true →
      TakesCall front line)
    (hls : ls = before ++ rest) : ∃ k last b, Reached ls var before k last b := by
  cases before with
  | nil => exact ⟨0, 0, _, reached_start ls var⟩
  | cons line before =>
    obtain ⟨s, hs⟩ := Option.isSome_iff_exists.mp hclosed
    obtain ⟨hrun, hdepth⟩ := closed?_eq_some.mp hs
    have all : ls = [] ++ ([] ++ line :: before) ++ rest := hls
    have read : ∃ k last, ReadTo ls var (line :: before) k last s :=
      Reached.all hvar hk honLine hrun htakes (reached_start ls var) all nofun
        (List.cons_ne_nil line before)
    obtain ⟨k, last, read⟩ := read
    exact ⟨k, last, _, read.next hdepth⟩

end SortTrace.Script.Scan

namespace SortTrace.Script

open Source Scan

/-- Calls after the lines that write are read as calls after the statements of those lines. -/
theorem parseProgram_ofSource {source var : String} {P : List Stmt}
    (hvar : isIdentifier var = true) (hk : Keyword.ofText? var = none)
    (hread : parseProgram source #[] = .ok P)
    (htakes : ∀ before line after, Text.lines source = before ++ line :: after →
      isMutation line var = true → TakesCall before line) :
    let s := Instrumented.ofSource source var
    parseProgram s.text s.origins.toArray
      = .ok (Stmt.loggedBlock (writesLine (Text.lines source) var) var P) := by
  intro s
  obtain ⟨ts, htokens, hparse⟩ := tokenize_of_parseProgram hread
  rw [tokenize, Text.toList_lines] at htokens
  cases hrun : (start (Text.joined (Text.lines source))).run #[] with
  | error e =>
    rw [hrun] at htokens
    cases htokens
  | ok e =>
    rw [hrun] at htokens
    have all : Text.lines source = [] ++ ([] ++ Text.lines source) ++ [] :=
      (List.append_nil _).symm
    have read : ∃ k last, ReadTo (Text.lines source) var (Text.lines source) k last e :=
      Reached.all hvar hk (fun _ => Text.lines_onLine) hrun htakes (reached_start _ var) all
        (List.forall_mem_nil _) (Text.lines_ne_nil source)
    obtain ⟨k, last, read⟩ := read
    obtain ⟨t', hrun', woven, follows⟩ := read.finish
    obtain rfl : e.finish #[] = ts := Except.ok.inj htokens
    have tokens : tokenize s.text s.origins.toArray
        = .ok (weave (writesLine (Text.lines source) var) var (e.finish #[])) := by
      rw [Instrumented.tokenize_ofSource, ← woven]
      exact congrArg (Except.map _) hrun'
    rw [parseProgram_of_tokenize tokens]
    exact parseTokens_weave follows hparse

/-- A line of a loop with two statements has the call after the second one. -/
theorem parseProgram_ofSource_loop :
    let source := "for i in x:\n\tarr[0] = i; y\nz"
    let loop (calls : List Stmt) : List Stmt := [
      .forLoop 1 (.name "i") (.name "x")
        (.assign 2 [.index (.name "arr") (.literal (.int 0))] (.name "i") :: .expr 2 (.name "y")
          :: calls) [],
      .expr 3 (.name "z")]
    let s := Instrumented.ofSource source "arr"
    parseProgram source #[] = .ok (loop []) ∧
      parseProgram s.text s.origins.toArray = .ok (loop [.logCall 2 "arr"]) := by
  intro source loop s
  have tokens : tokenize source #[] = .ok [⟨.mark Keyword.forKw, 1⟩, ⟨.name "i", 1⟩,
      ⟨.mark Keyword.inKw, 1⟩, ⟨.name "x", 1⟩, ⟨.mark Punct.colon, 1⟩, ⟨.mark Layout.newline, 1⟩,
      ⟨.mark Layout.indent, 2⟩, ⟨.name "arr", 2⟩, ⟨.mark Punct.lbracket, 2⟩, ⟨.int 0, 2⟩,
      ⟨.mark Punct.rbracket, 2⟩, ⟨.mark Punct.assign, 2⟩, ⟨.name "i", 2⟩,
      ⟨.mark Punct.semicolon, 2⟩, ⟨.name "y", 2⟩, ⟨.mark Layout.newline, 2⟩,
      ⟨.mark Layout.dedent, 3⟩, ⟨.name "z", 3⟩, ⟨.mark Layout.newline, 3⟩,
      ⟨.mark Layout.finish, 3⟩] := by decide +kernel
  have reads : parseProgram source #[] = .ok (loop []) :=
    (parseProgram_of_tokenize tokens).trans rfl
  have lines : Text.lines source = ["for i in x:", "\tarr[0] = i; y", "z"] := by decide
  have takes : TakesCall ["for i in x:"] "\tarr[0] = i; y" := by decide +kernel
  have calls := @parseProgram_ofSource source "arr" _ (by decide) (by decide) reads (by
    intro before line after hls hm
    rw [lines] at hls
    obtain _ | ⟨_, _ | ⟨_, _ | ⟨_, _ | before⟩⟩⟩ := before <;> cases hls
    · exact absurd hm (by decide)
    · exact takes
    · exact absurd hm (by decide))
  rw [lines] at calls
  exact ⟨reads, calls⟩

end SortTrace.Script
