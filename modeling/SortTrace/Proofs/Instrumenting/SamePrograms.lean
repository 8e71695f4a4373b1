import SortTrace.Proofs.Instrumenting.Alongside
import SortTrace.Proofs.Instrumenting.BothPrograms
import SortTrace.Proofs.Instrumenting.Source

/-!
# Sources that are programs with their calls

A call after a line stands between two logical lines if the line ends outside brackets and outside a
string, and does not go on with a backslash. When this holds of every line that gets a call, and the
source and the text with the calls are both programs, these are the same but for statements that
only log: `parseProgram_sameBlock`. Nothing is asked of where the calls are: if they tear a block
apart, the text with them is no program.
-/

namespace SortTrace.Text

variable {before after : List String} {line : String}

/-- The lines with a newline before each. -/
def following (ls : List String) : List Char :=
  ls.flatMap fun line => '\n' :: line.toList

theorem following_endsLine (ls : List String) : Script.Scan.EndsLine (following ls) := by
  cases ls with
  | nil => exact .nil
  | cons line ls => exact .newline _

theorem following_append : following (before ++ after) = following before ++ following after :=
  List.flatMap_append

theorem following_cons : following (line :: after) = '\n' :: joined (line :: after) := by
  induction after generalizing line with
  | nil => exact List.append_nil _
  | cons next after ih =>
    rw [joined_cons (List.cons_ne_nil _ _), ← ih]
    rfl

theorem joined_following (h : before ≠ []) :
    joined (before ++ after) = joined before ++ following after := by
  obtain ⟨line, before, rfl⟩ := List.exists_cons_of_ne_nil h
  have whole : following (line :: before ++ after)
      = following (line :: before) ++ following after := following_append
  rw [List.cons_append, following_cons, following_cons] at whole
  exact (List.cons.inj whole).2

end SortTrace.Text

namespace SortTrace.Script.Scan

open Source Source.Interleaving

variable {ls done quiet rest : List String} {line var : String} {k : Nat} {b b' e t t' : Scan}

/-- The scans of a source and of its text with calls are behind the ends of the lines `done`, at the
beginning of the lines `rest`, and the second one comes to its end in `e`. -/
structure Behind (ls : List String) (var : String) (e : Scan) (done rest : List String) (k : Nat)
    (b b' : Scan) : Prop where
  lines : ls = done ++ rest
  line : b.line = done.length + 1
  calls : (ofLinesFrom var 1 done).length = done.length + k
  run : ∀ cs, (start (Text.ended done ++ cs)).run #[] = ({ b with rest := cs } : Scan).run #[]
  along : ∀ cs tail, Alongside (wordLexeme var) k tail { b with rest := cs }
    { b' with rest := cs ++ tail }
  made : ({ b' with
    rest := Text.joined (ofLinesFrom var (done.length + 1) rest).lines } : Scan).run
      (ofLinesFrom var 1 ls).origins.toArray = .ok e

/-- The text with calls from some lines on, of which only the last one may write. -/
theorem lines_chunk {n : Nat} (hquiet : ∀ l ∈ quiet, isMutation l var = false) :
    (ofLinesFrom var n (quiet ++ line :: rest)).lines = (quiet ++ [line]) ++
      ((if isMutation line var then [logCall line var] else []) ++
        (ofLinesFrom var (n + quiet.length + 1) rest).lines) := by
  rw [ofLinesFrom_append, lines_append, lines_quiet hquiet, ofLinesFrom_cons, List.append_assoc]
  split <;> rfl

/-- The lines of the source are reported as themselves up to the first that writes. -/
theorem Behind.reported (h : Behind ls var e done (quiet ++ line :: rest) k b b')
    (hquiet : ∀ l ∈ quiet, isMutation l var = false) (m : Nat) (hm : b.line ≤ m)
    (hm' : m ≤ b.line + quiet.length) :
    reportedLine (ofLinesFrom var 1 ls).origins.toArray (m + k) = m := by
  have hline := h.line
  have whole : ls = done ++ ((quiet ++ [line]) ++ rest) := by
    rw [h.lines, List.append_assoc]
    rfl
  have above : done.length < m := by omega
  have below : m ≤ done.length + (quiet ++ [line]).length := by
    rw [List.length_append, List.length_singleton]
    omega
  obtain ⟨front, l, back, hchunk, hls, rfl⟩ := line_among whole above below
  have hfront : ∀ l ∈ front, isMutation l var = false := by
    rcases List.append_eq_append_iff.mp hchunk with ⟨more, rfl, hmore⟩ | ⟨more, rfl, -⟩
    · have short := congrArg List.length hmore
      simp only [List.length_append, List.length_cons, List.length_nil] at short
      obtain rfl : more = [] := List.length_eq_zero_iff.mp (by omega)
      rwa [List.append_nil]
    · exact fun l hl => hquiet l (List.mem_append_left _ hl)
  have calls : (done ++ front).length + 1 + k = (ofLinesFrom var 1 (done ++ front)).length + 1 := by
    rw [ofLinesFrom_append, List.length_append, List.length_append, length_quiet hfront, h.calls]
    omega
  rw [calls, hls, reportedLine_kept]

/-- Lines are read in both texts up to the first that writes. -/
theorem Behind.read (h : Behind ls var e done (quiet ++ line :: rest) k b b')
    (honLine : ∀ l ∈ ls, '\n' ∉ l.toList) (hquiet : ∀ l ∈ quiet, isMutation l var = false)
    (hrun : (start (Text.joined (done ++ (quiet ++ [line])))).run #[] = .ok t) :
    t.line = (done ++ (quiet ++ [line])).length ∧ ∃ t',
      Paired (wordLexeme var) #[] (ofLinesFrom var 1 ls).origins.toArray k t t' ∧
      t'.rest = Text.following ((if isMutation line var then [logCall line var] else []) ++
        (ofLinesFrom var ((done ++ (quiet ++ [line])).length + 1) rest).lines) ∧
      t'.run (ofLinesFrom var 1 ls).origins.toArray = .ok e := by
  have hne : quiet ++ [line] ≠ [] := List.append_ne_nil_of_right_ne_nil _ (List.cons_ne_nil _ _)
  have onLine : ∀ l ∈ quiet ++ [line], '\n' ∉ l.toList := by
    intro l hl
    refine honLine l ?_
    rw [h.lines]
    rcases List.mem_append.mp hl with hl | hl
    · simp [hl]
    · simp [List.mem_singleton.mp hl]
  have count := Text.count_joined hne onLine
  have size : (done ++ (quiet ++ [line])).length + 1 = done.length + 1 + quiet.length + 1 := by
    simp only [List.length_append, List.length_singleton]
    omega
  rw [List.length_append, List.length_singleton] at count
  have hline := h.line
  have reported := h.reported hquiet
  rw [Text.joined_append hne, h.run] at hrun
  have made := h.made
  rw [lines_chunk hquiet, Text.joined_following hne] at made
  obtain ⟨hrest, ended, t', along, hrun'⟩ := (h.along _ _).run (Text.following_endsLine _)
    (fun m hm hm' => by
      dsimp only at hm hm'
      rw [reported m hm (by omega), reportedLine_empty]) hrun made
  have line : t.line = (done ++ (quiet ++ [line])).length := by
    dsimp only at ended
    omega
  obtain ⟨_, _, -, -, mirrors⟩ := along.mirrors
  have rest' : t'.rest = t.rest ++ _ := mirrors.rest
  have line' : t'.line = t.line + k := mirrors.line
  refine ⟨line, t', along.paired ?_, ?_, hrun'⟩
  · rw [line', reportedLine_empty]
    exact reported _ (by omega) (by omega)
  · rw [rest', hrest, size]
    rfl

/-- Behind the end of a line both texts go on with the next one. -/
theorem Behind.next {n : Nat} (hls : ls = done ++ rest) (hne : done ≠ []) (hrest : rest ≠ [])
    (scanned : (start (Text.joined done)).run #[] = .ok t) (hdepth : t.depth = 0)
    (line : t.line = done.length) (calls : (ofLinesFrom var 1 done).length = done.length + n)
    (paired : Paired (wordLexeme var) #[] (ofLinesFrom var 1 ls).origins.toArray n t t')
    (hrest' : t'.rest = Text.following (ofLinesFrom var (done.length + 1) rest).lines)
    (hrun : t'.run (ofLinesFrom var 1 ls).origins.toArray = .ok e) :
    Behind ls var e done rest n (t.nextLine #[])
      (t'.nextLine (ofLinesFrom var 1 ls).origins.toArray) where
  lines := hls
  line := congrArg (· + 1) line
  calls := calls
  run cs := by
    have passed := run_append (s := start (Text.joined done)) rfl (.newline cs) scanned
    rw [← Text.joined_newline cs hne]
    refine passed.trans ?_
    refine (run_newline (s := { t with rest := '\n' :: cs }) hdepth paired.fresh rfl).trans ?_
    rw [nextLine_rest]
  along := paired.next
  made := by
    have depth' : t'.depth = 0 := paired.depth.trans hdepth
    obtain ⟨line, rest, rfl⟩ := List.exists_cons_of_ne_nil hrest
    obtain ⟨more, lines⟩ : ∃ more,
        (ofLinesFrom var (done.length + 1) (line :: rest)).lines = line :: more :=
      ⟨_, congrArg Interleaving.lines ofLinesFrom_cons⟩
    rw [lines, Text.following_cons] at hrest'
    rw [run_newline depth' paired.fresh' hrest'] at hrun
    rw [lines]
    exact hrun

/-- The tokens of both texts go on beside each other. The lines of `quiet` are known not to write,
and wait to be read. -/
theorem Behind.beside (h : Behind ls var e done (quiet ++ rest) k b b')
    (hvar : isIdentifier var = true) (honLine : ∀ l ∈ ls, '\n' ∉ l.toList)
    (hclosed : ∀ before line after, ls = before ++ line :: after → isMutation line var = true →
      (closed? (before ++ [line])).isSome = true)
    (hquiet : ∀ l ∈ quiet, isMutation l var = false) (hne : quiet ++ rest ≠ [])
    (hrun : (start (Text.joined ls)).run #[] = .ok t) :
    Beside (wordLexeme var) (t.finish #[]) (e.finish (ofLinesFrom var 1 ls).origins.toArray) := by
  induction rest generalizing done quiet k b b' with
  | nil =>
    rw [List.append_nil] at hne
    obtain ⟨front, line, rfl⟩ := (List.eq_nil_or_concat quiet).resolve_left hne
    rw [List.concat_eq_append, List.append_assoc] at h
    rw [List.concat_eq_append] at hquiet
    have silent : isMutation line var = false := hquiet line (by simp)
    rw [h.lines] at hrun
    obtain ⟨-, t', paired, hrest, hrun'⟩ :=
      h.read honLine (fun l hl => hquiet l (List.mem_append_left _ hl)) hrun
    rw [silent] at hrest
    rw [run_of_rest hrest] at hrun'
    obtain rfl := Except.ok.inj hrun'
    exact paired.beside
  | cons line rest ih =>
    cases hm : isMutation line var with
    | false =>
      have known : quiet ++ line :: rest = (quiet ++ [line]) ++ rest := by
        rw [List.append_assoc]
        rfl
      rw [known] at h hne
      refine ih h ?_ hne
      intro l hl
      rcases List.mem_append.mp hl with hl | hl
      · exact hquiet l hl
      · rw [List.mem_singleton.mp hl]
        exact hm
    | true =>
      have whole : ls = (done ++ quiet) ++ line :: rest := by rw [h.lines, List.append_assoc]
      obtain ⟨s, hs⟩ := Option.isSome_iff_exists.mp (hclosed _ _ _ whole hm)
      obtain ⟨scanned, hdepth⟩ := closed?_eq_some.mp hs
      rw [List.append_assoc] at scanned
      obtain ⟨hline, s', paired, hrest, hrun'⟩ := h.read honLine hquiet scanned
      rw [hm] at hrest
      obtain ⟨s'', paired, hrest, hrun'⟩ := paired.call hvar hdepth hrest hrun'
      by_cases hend : rest = []
      · subst hend
        rw [h.lines, scanned] at hrun
        obtain rfl := Except.ok.inj hrun
        rw [run_of_rest hrest] at hrun'
        obtain rfl := Except.ok.inj hrun'
        exact paired.beside
      · have whole' : ls = (done ++ (quiet ++ [line])) ++ rest := by
          rw [whole]
          simp
        have calls : (ofLinesFrom var 1 (done ++ (quiet ++ [line]))).length
            = (done ++ (quiet ++ [line])).length + (k + 1) := by
          rw [← List.append_assoc, ofLinesFrom_append, ofLinesFrom_append, ofLinesFrom_cons,
            if_pos hm]
          simp only [List.length_append, List.length_cons, List.length_nil, h.calls,
            length_quiet hquiet, ofLinesFrom]
          omega
        have behind : Behind ls var e (done ++ (quiet ++ [line])) ([] ++ rest) (k + 1) _ _ :=
          .next whole' (by simp) hend scanned hdepth hline calls paired hrest hrun'
        exact ih behind (List.forall_mem_nil _) hend

end SortTrace.Script.Scan

namespace SortTrace.Script

open Source Scan

theorem isWord_wordLexeme (word : String) : (wordLexeme word).isWord = true := by
  unfold wordLexeme
  split <;> rfl

/-- Where no call comes in the middle of a logical line, a source and its text with calls are the
same program but for statements that only log, if they are programs at all. -/
theorem parseProgram_sameBlock {source var : String} {P P' : List Stmt}
    (hvar : isIdentifier var = true)
    (hclosed : ∀ before line after, Text.lines source = before ++ line :: after →
      isMutation line var = true → (closed? (before ++ [line])).isSome = true)
    (h : parseProgram source #[] = .ok P)
    (h' : parseProgram (Instrumented.ofSource source var).text
      (Instrumented.ofSource source var).origins.toArray = .ok P') : Stmt.SameBlock P P' := by
  rw [Instrumented.ofSource_eq] at h'
  obtain ⟨ts, htokens, hparse⟩ := tokenize_of_parseProgram h
  obtain ⟨ts', htokens', hparse'⟩ := tokenize_of_parseProgram h'
  obtain ⟨t, hrun, rfl⟩ := run_of_tokenize htokens
  obtain ⟨e, hrun', rfl⟩ := run_of_tokenize htokens'
  rw [Text.toList_lines] at hrun
  rw [Instrumented.text, Text.toList_unlines] at hrun'
  have start : Behind (Text.lines source) var e [] ([] ++ Text.lines source) 0 (start []) (start [])
    := ⟨rfl, rfl, rfl, fun _ => rfl, alongside_start _, hrun'⟩
  have beside := start.beside hvar (fun _ => Text.lines_onLine) hclosed (List.forall_mem_nil _)
    (Text.lines_ne_nil source) hrun
  exact parseTokens_beside (isWord_wordLexeme var) beside hparse hparse'

end SortTrace.Script
