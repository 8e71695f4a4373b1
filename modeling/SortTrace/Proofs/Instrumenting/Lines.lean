import SortTrace.Proofs.Instrumenting.LogLine
import SortTrace.Proofs.Instrumenting.Mirror
import SortTrace.Proofs.Instrumenting.Trace

/-!
# Lines with logging calls after them

The scans of a source and of the text with the calls are compared line by line: at the beginning of
a logical line they agree up to the tokens of the calls (`Boundary`), and so they do at the end of a
piece of text on lines that do not write (`Boundary.quiet`) and of a line that writes, with the call
after it (`Boundary.written`).
-/

namespace SortTrace.Script.Scan

open Source

variable {writes : Nat → Bool} {var : String} {map : Array Nat} {k last : Nat}
  {b b' s t t' : Scan} {cs tail : List Char}

/-! ## The next line -/

/-- The scanner behind the end of the physical line, which ends the logical line. -/
def nextLine (map : Array Nat) (s : Scan) : Scan :=
  { s.endLine map with rest := [], line := s.line + 1, fresh := true }

theorem nextLine_rest (cs : List Char) :
    ({ s with rest := cs } : Scan).nextLine map = s.nextLine map := by
  have same : ({ s with rest := cs } : Scan).atLayout = s.atLayout := rfl
  rw [nextLine, nextLine, endLine, endLine, same]
  split <;> rfl

theorem atLayout_endLine : AtLayout (s.endLine map).tokens := by
  rw [endLine]
  split
  · next h => exact h
  · rfl

theorem run_newline (hdepth : s.depth = 0) (hfresh : s.fresh = true → s.atLayout = true)
    (hrest : s.rest = '\n' :: cs) :
    s.run map = ({ s.nextLine map with rest := cs } : Scan).run map := by
  refine run_of_step (by rw [hrest]; exact List.cons_ne_nil _ _) ?_
  by_cases hf : s.fresh = true
  · have blank : s.step map = .ok { s with rest := cs, line := s.line + 1 } := by
      rw [step, if_pos hf, hrest]
      rfl
    rw [blank, nextLine, endLine, if_pos (hfresh hf), ← hf]
  · rw [step_inside (Bool.not_eq_true _ ▸ hf) hrest, readToken, if_pos rfl, hdepth]
    simp only [if_true, line_endLine]
    rfl

/-- The scans of both texts are at the beginning of a line, with `k` calls before it. The last line
that writes is `last`. -/
structure Boundary (writes : Nat → Bool) (var : String) (k last : Nat) (b b' : Scan) : Prop where
  line : b'.line = b.line + k
  widths : b'.widths = b.widths
  depth : b.depth = 0
  depth' : b'.depth = 0
  fresh : b.fresh = true
  fresh' : b'.fresh = true
  tokens : b'.tokens.reverse = weave writes var b.tokens.reverse
  reaches : Reaches writes b.tokens (.between last)
  atLayout : AtLayout b.tokens
  atLayout' : AtLayout b'.tokens
  later : last < b.line
  earlier : ∀ x ∈ b.tokens, x.line < b.line

/-- The scans of both texts are at the end of a line, or at the end of the call after it. -/
structure Ended (writes : Nat → Bool) (var : String) (map : Array Nat) (k last : Nat)
    (t t' : Scan) : Prop where
  line : t'.line = t.line + k
  widths : t'.widths = t.widths
  depth : t'.depth = t.depth
  fresh : t.fresh = true → t.atLayout = true
  fresh' : t'.fresh = true → t'.atLayout = true
  tokens : (t'.endLine map).tokens.reverse = weave writes var (t.endLine #[]).tokens.reverse
  reaches : Reaches writes (t.endLine #[]).tokens (.between last)
  reported : reportedLine map t'.line = t.line
  later : last ≤ t.line
  earlier : ∀ x ∈ (t.endLine #[]).tokens, x.line ≤ t.line

@[simp] theorem widths_endLine : (s.endLine map).widths = s.widths := by
  rw [endLine]
  split <;> rfl

@[simp] theorem depth_endLine : (s.endLine map).depth = s.depth := by
  rw [endLine]
  split <;> rfl

theorem Ended.next (h : Ended writes var map k last t t') (hdepth : t.depth = 0) :
    Boundary writes var k last (t.nextLine #[]) (t'.nextLine map) where
  line := by
    have hline := h.line
    dsimp only [nextLine]
    omega
  widths := by simp [nextLine, h.widths]
  depth := by simp [nextLine, hdepth]
  depth' := by simp [nextLine, h.depth, hdepth]
  fresh := rfl
  fresh' := rfl
  tokens := h.tokens
  reaches := h.reaches
  atLayout := atLayout_endLine
  atLayout' := atLayout_endLine
  later := Nat.lt_succ_of_le h.later
  earlier := fun x hx => Nat.lt_succ_of_le (h.earlier x hx)

/-! ## The end of the text -/

theorem foldl_dedents (n : Nat) (ws : List Nat) (hs : reportedLine map s.line = n) :
    (ws.foldl (fun s _ => s.push map (.mark Layout.dedent)) s).tokens
        = List.replicate ws.length ⟨.mark Layout.dedent, n⟩ ++ s.tokens ∧
      (ws.foldl (fun s _ => s.push map (.mark Layout.dedent)) s).line = s.line := by
  induction ws generalizing s with
  | nil => exact ⟨rfl, rfl⟩
  | cons w ws ih =>
    obtain ⟨htokens, hline⟩ := ih (s := s.push map (.mark Layout.dedent)) hs
    refine ⟨?_, hline⟩
    rw [List.foldl_cons, htokens, List.length_cons, List.replicate_succ', List.append_assoc, push,
      hs]
    rfl

/-- The tokens behind those of the last line. -/
def lastTokens (blocks n : Nat) : List Token :=
  List.replicate blocks ⟨.mark Layout.dedent, n⟩ ++ [⟨.mark Layout.finish, n⟩]

theorem finish_eq (map : Array Nat) (s : Scan) : s.finish map = (s.endLine map).tokens.reverse
    ++ lastTokens s.widths.length (reportedLine map s.line) := by
  have hline : reportedLine map (s.endLine map).line = reportedLine map s.line := by
    rw [line_endLine]
  obtain ⟨htokens, hlast⟩ := foldl_dedents (reportedLine map s.line) (s.endLine map).widths hline
  rw [finish]
  generalize List.foldl _ (s.endLine map) _ = u at htokens hlast ⊢
  rw [push, htokens, hlast, hline, widths_endLine, List.reverse_cons, List.reverse_append,
    List.reverse_replicate, List.append_assoc]
  rfl

theorem lastTokens_layout (blocks n : Nat) :
    ∀ x ∈ lastTokens blocks n, ∃ l : Layout, x.lexeme = .mark l ∧ l ≠ .newline := by
  intro x hx
  rcases List.mem_append.mp hx with hx | hx
  · rw [List.eq_of_mem_replicate hx]
    exact ⟨.dedent, rfl, nofun⟩
  · rw [List.mem_singleton.mp hx]
    exact ⟨.finish, rfl, nofun⟩

theorem follows_layout {ts : List Token}
    (h : ∀ x ∈ ts, ∃ l : Layout, x.lexeme = .mark l ∧ l ≠ .newline) :
    Follows writes (.between last) ts := by
  induction ts with
  | nil => exact .nil
  | cons x ts ih =>
    obtain ⟨l, hl, hne⟩ := h x (List.mem_cons_self ..)
    exact .cons (.layout hl hne) (ih fun x hx => h x (List.mem_cons_of_mem _ hx))

/-- The tokens of both texts, when the scans are at their ends. -/
theorem Ended.finish (h : Ended writes var map k last t t') :
    t'.finish map = weave writes var (t.finish #[])
      ∧ Follows writes (.between 0) (t.finish #[]) := by
  have layout := lastTokens_layout t.widths.length t.line
  refine ⟨?_, ?_⟩
  · have quiet : weave writes var (lastTokens t.widths.length t.line)
        = lastTokens t.widths.length t.line := by
      refine weave_quiet fun x hx => ?_
      obtain ⟨l, hl, hne⟩ := layout x hx
      rw [endsWritten, hl]
      simp [hne]
    rw [finish_eq, finish_eq, h.tokens, h.widths, h.reported, reportedLine_empty, weave_append,
      quiet]
  · rw [finish_eq]
    exact h.reaches.follows (follows_layout layout)

/-! ## Pieces of the texts -/

/-- The scans at a boundary mirror each other. -/
theorem Boundary.mirrors (h : Boundary writes var k last b b') (cs tail : List Char) :
    Mirrors k tail b.tokens b'.tokens { b with rest := cs } { b' with rest := cs ++ tail } :=
  ⟨rfl, h.line, h.widths, h.depth'.trans h.depth.symm, h.fresh'.trans h.fresh.symm, [], rfl, rfl⟩

/-- New tokens that end no line that writes, after those before the boundary. -/
theorem Boundary.weave_tokens {new : List Token} (h : Boundary writes var k last b b')
    (hnew : ∀ x ∈ new, endsWritten writes x = false) :
    (new ++ b'.tokens).reverse = weave writes var (new ++ b.tokens).reverse := by
  have quiet : weave writes var new.reverse = new.reverse :=
    weave_quiet fun x hx => hnew x (List.mem_reverse.mp hx)
  rw [List.reverse_append, List.reverse_append, weave_append, h.tokens, quiet]

/-- A piece of text on lines that do not write is the same in both texts. -/
theorem Boundary.quiet (h : Boundary writes var k last b b')
    (hmap : ∀ m, b.line ≤ m → m ≤ b.line + cs.count '\n' → reportedLine map (m + k) = m)
    (hw : ∀ m, b.line ≤ m → m ≤ b.line + cs.count '\n' → writes m = false) (ht : EndsLine tail)
    (hrun : ({ b with rest := cs } : Scan).run #[] = .ok t) :
    t.line = b.line + cs.count '\n' ∧
      ∃ t', ({ b' with rest := cs ++ tail } : Scan).run map = t'.run map ∧ t'.rest = tail ∧
        Ended writes var map k last t t' := by
  have start : Quiet writes last b.tokens { b with rest := cs } := by
    refine ⟨⟨[], rfl, nofun⟩, ?_, fun _ => h.atLayout⟩
    have between : ({ b with rest := cs } : Scan).phase last = .between last :=
      if_pos h.atLayout
    rw [between]
    exact h.reaches
  obtain ⟨quiet, lines⟩ := run_quiet start hrun hw
  have hline : t.line = b.line + cs.count '\n' := lines
  obtain ⟨hrest, t', mirrored, hrun'⟩ := run_mirrors (h.mirrors cs tail) h.atLayout h.atLayout' ht
    (by simpa using hmap) hrun
  refine ⟨hline, t', hrun', by rw [mirrored.rest, hrest]; rfl, ?_⟩
  have later := h.later
  have reported : reportedLine map t'.line = t.line := by
    rw [mirrored.line, hline]
    exact hmap _ (Nat.le_add_right ..) (Nat.le_refl _)
  have still : writes t.line = false := by
    rw [hline]
    exact hw _ (Nat.le_add_right ..) (Nat.le_refl _)
  obtain ⟨ended, layout⟩ := quiet.endLine still
  have same : reportedLine map t'.line = reportedLine #[] t.line := reported
  have mirroredEnd := mirrored.endLine h.atLayout h.atLayout' same
  obtain ⟨new, htokens, hnew⟩ := ended.tokens
  obtain ⟨new', htokens', htokens''⟩ := mirroredEnd.tokens
  obtain rfl : new = new' := List.append_cancel_right (htokens.symm.trans htokens')
  refine ⟨mirrored.line, mirrored.widths, mirrored.depth, quiet.fresh, ?_, ?_, ?_, reported, ?_, ?_⟩
  · intro hfresh
    rw [mirrored.atLayout h.atLayout h.atLayout']
    exact quiet.fresh (mirrored.fresh.symm.trans hfresh)
  · rw [htokens, htokens'']
    exact h.weave_tokens fun x hx => by rw [endsWritten, (hnew x hx).1, Bool.and_false]
  · have reaches := ended.reaches
    rw [phase, if_pos layout] at reaches
    exact reaches
  · omega
  · intro x hx
    rw [htokens] at hx
    rcases List.mem_append.mp hx with hx | hx
    · have := (hnew x hx).2
      rwa [line_endLine] at this
    · have := h.earlier x hx
      omega

/-- The first word of a line, told from the tokens of the text up to its end. -/
theorem first_word {n : Nat} {first : Token} (words shifts : List Token) {before : List Token}
    (hbefore : ∀ x ∈ before, x.line < n) (hshifts : ∀ x ∈ shifts, IsShift n x)
    (hwords : ∀ x ∈ words, x.lexeme.isLayout = false ∧ x.line = n)
    (h : (words ++ (shifts ++ before)).reverse.find?
      (fun x => x.line == n && !x.lexeme.isLayout) = some first) :
    ∃ more, words = more ++ [first] := by
  have old : before.reverse.find? (fun x => x.line == n && !x.lexeme.isLayout) = none := by
    rw [List.find?_eq_none]
    intro x hx
    have earlier := hbefore x (List.mem_reverse.mp hx)
    simp [Nat.ne_of_lt earlier]
  have layout : shifts.reverse.find? (fun x => x.line == n && !x.lexeme.isLayout) = none := by
    rw [List.find?_eq_none]
    intro x hx
    rcases hshifts x (List.mem_reverse.mp hx) with rfl | rfl <;> simp [Lexeme.isLayout]
  rw [List.reverse_append, List.reverse_append, List.find?_append, List.find?_append, old, layout]
    at h
  rcases List.eq_nil_or_concat words with rfl | ⟨more, x, rfl⟩
  · cases h
  · obtain ⟨hword, hline⟩ := hwords x (by simp)
    have found : some x = some first := by simpa [hword, hline] using h
    obtain rfl := Option.some.inj found
    exact ⟨more, List.concat_eq_append ..⟩

/-- The scanner has read the words of a line that starts at `b`, from `first` on. -/
structure WordsRead (b : Scan) (width : Nat) (first : Token) (t : Scan) : Prop where
  line : t.line = b.line
  fresh : t.fresh = false
  width : t.widths.headD 0 = width
  rest : t.rest = []
  tokens : ∃ more shifts, t.tokens = more ++ (first :: (shifts ++ b.tokens)) ∧
    (∀ x ∈ more ++ [first], x.lexeme.isLayout = false ∧ x.line = b.line) ∧
    ∀ x ∈ shifts, IsShift b.line x

theorem wordsRead_of_run {line : List Char} {first : Token} (hfresh : b.fresh = true)
    (hb : ∀ x ∈ b.tokens, x.line < b.line) (hline : '\n' ∉ line)
    (hrun : ({ b with rest := line } : Scan).run #[] = .ok t)
    (hfirst : t.tokens.reverse.find? (fun x => x.line == b.line && !x.lexeme.isLayout)
      = some first) : WordsRead b (margin 0 line).1 first t := by
  have alone : line.count '\n' = 0 := List.count_eq_zero.mpr hline
  have start : ({ b with rest := line } : Scan).fresh = true := hfresh
  obtain ⟨onLine, here⟩ := run_line start alone hrun
  cases onLine with
  | blank _ htokens _ =>
    have old : t.tokens = b.tokens := htokens
    rw [old] at hfirst
    have nothing : ∃ more, [] = more ++ [first] :=
      first_word [] [] hb nofun nofun hfirst
    obtain ⟨more, hmore⟩ := nothing
    exact absurd hmore.symm (by simp)
  | words words shifts hinside hwidth htokens hwords hshifts =>
    have tokens : t.tokens = words ++ (shifts ++ b.tokens) := htokens
    rw [tokens] at hfirst
    obtain ⟨more, rfl⟩ := first_word words shifts hb hshifts hwords hfirst
    refine ⟨here, hinside, hwidth, rest_of_run hrun, more, shifts, ?_, hwords, hshifts⟩
    rw [tokens, List.append_assoc]
    rfl

namespace WordsRead

variable {width : Nat} {first : Token}

theorem atLayout (h : WordsRead b width first t) : t.atLayout = false := by
  obtain ⟨more, shifts, htokens, hwords, -⟩ := h.tokens
  cases more with
  | nil => exact atLayout_word htokens (hwords first (List.mem_cons_self ..)).1
  | cons x more => exact atLayout_word htokens (hwords x (List.mem_cons_self ..)).1

theorem endLine (h : WordsRead b width first t) :
    (t.endLine #[]).tokens = ⟨.mark Layout.newline, b.line⟩ :: t.tokens := by
  rw [Scan.endLine, h.atLayout, ← h.line]
  rfl

theorem reaches (h : WordsRead b width first t) (hb : Reaches writes b.tokens (.between last))
    (hw : writes b.line = true) (hlast : last < b.line)
    (hc : ∀ w ∈ compoundWords, first.lexeme ≠ .mark w) :
    Reaches writes (t.endLine #[]).tokens (.between b.line) := by
  obtain ⟨more, shifts, htokens, hwords, hshifts⟩ := h.tokens
  have words := (hb.shifts hshifts).words hw hlast hc hwords
  rw [h.endLine, htokens]
  exact .cons words (.endsWritten (t := ⟨.mark Layout.newline, b.line⟩) rfl)

/-- The tokens of the line, the first newest first: none is the end of a line. -/
theorem new (writes : Nat → Bool) (h : WordsRead b width first t) :
    ∃ new, t.tokens = new ++ b.tokens ∧
      ∀ x ∈ new, endsWritten writes x = false ∧ x.line = b.line := by
  obtain ⟨more, shifts, htokens, hwords, hshifts⟩ := h.tokens
  refine ⟨more ++ [first] ++ shifts, by simp [htokens], fun x hx => ?_⟩
  rcases List.mem_append.mp hx with hx | hx
  · obtain ⟨hword, hline⟩ := hwords x hx
    exact ⟨endsWritten_of_word hword, hline⟩
  · rcases hshifts x hx with rfl | rfl
    · exact ⟨rfl, rfl⟩
    · exact ⟨rfl, rfl⟩

end WordsRead

/-- The scanner ends the logical line and reads the call after it. -/
theorem run_call {line : String} {v : Scan} (hvar : isIdentifier var = true)
    (hk : Keyword.ofText? var = none) (hfeed : '\x0c' ∉ line.toList.takeWhile isMargin)
    (hdepth : s.depth = 0) (hfresh : s.fresh = false)
    (hindent : ({ s.nextLine map with rest := (logCall line var).toList ++ tail } : Scan).indent map
      (callWidth line) = .ok v)
    (hrest : s.rest = '\n' :: ((logCall line var).toList ++ tail)) :
    s.run map = ({ v with
      rest := tail
      fresh := false
      tokens := logWords (reportedLine map (s.line + 1)) (.name var) ++ v.tokens } :
        Scan).run map := by
  have notFresh : s.fresh = true → s.atLayout = true := by
    rw [hfresh]
    exact Bool.noConfusion
  have depth : (s.nextLine map).depth = 0 := depth_endLine.trans hdepth
  rw [run_newline hdepth notFresh hrest]
  exact run_logCall hvar hk hfeed rfl depth hindent rfl

/-- The tokens of a call whose line ends. -/
theorem endLine_logWords {n : Nat} {tokens : List Token}
    (hs : s.tokens = logWords n (.name var) ++ tokens) (hn : reportedLine map s.line = n) :
    (s.endLine map).tokens.reverse = tokens.reverse ++ (Stmt.logCall n var).tokens := by
  have word : s.atLayout = false := by
    rw [atLayout, hs]
    rfl
  have ended : (s.endLine map).tokens
      = ⟨.mark Layout.newline, n⟩ :: (logWords n (.name var) ++ tokens) := by
    rw [endLine, word, ← hs, ← hn]
    rfl
  rw [ended, List.reverse_cons, List.reverse_append, List.append_assoc]
  rfl

/-- The words of a line are the same in both texts, up to its end. -/
structure ReadInBoth (map : Array Nat) (b b' t u : Scan) (cs : List Char) : Prop where
  rest : u.rest = cs
  line : u.line = b'.line
  fresh : u.fresh = false
  depth : u.depth = t.depth
  widths : u.widths = t.widths
  tokens : ∃ new, t.tokens = new ++ b.tokens ∧ u.tokens = new ++ b'.tokens
  ended : (u.endLine map).tokens = ⟨.mark Layout.newline, b.line⟩ :: u.tokens

theorem Boundary.line_read {line : List Char} {first : Token} (h : Boundary writes var k last b b')
    (hcs : EndsLine cs) (hline : '\n' ∉ line) (hmap : reportedLine map (b.line + k) = b.line)
    (hrun : ({ b with rest := line } : Scan).run #[] = .ok t)
    (words : WordsRead b (margin 0 line).1 first t) :
    ∃ u, ({ b' with rest := line ++ cs } : Scan).run map = u.run map ∧
      ReadInBoth map b b' t u cs := by
  have alone : line.count '\n' = 0 := List.count_eq_zero.mpr hline
  have same : ∀ m, b.line ≤ m → m ≤ b.line + line.count '\n' →
      reportedLine map (m + k) = reportedLine #[] m := by
    intro m hm hm'
    obtain rfl : m = b.line := by omega
    exact hmap
  obtain ⟨hrest, u, mirrored, hrun'⟩ :=
    run_mirrors (h.mirrors line cs) h.atLayout h.atLayout' hcs same hrun
  have line' : u.line = b.line + k := by rw [mirrored.line, words.line]
  have layout' : u.atLayout = false :=
    (mirrored.atLayout h.atLayout h.atLayout').trans words.atLayout
  refine ⟨u, hrun', ?_, line'.trans h.line.symm, mirrored.fresh.trans words.fresh, mirrored.depth,
    mirrored.widths, mirrored.tokens, ?_⟩
  · rw [mirrored.rest, hrest]
    rfl
  · rw [endLine, layout', ← hmap, ← line']
    rfl

/-- After a line that writes both texts end the line, and the call follows in one of them. -/
theorem Boundary.written {line : String} {first : Token} (h : Boundary writes var k last b b')
    (tail : List Char) (hvar : isIdentifier var = true) (hk : Keyword.ofText? var = none)
    (hopens : opensBlock line = false) (hfeed : '\x0c' ∉ line.toList.takeWhile isMargin)
    (hline : '\n' ∉ line.toList) (hw : writes b.line = true)
    (hmap : reportedLine map (b.line + k) = b.line)
    (hmap' : reportedLine map (b.line + k + 1) = b.line)
    (hrun : ({ b with rest := line.toList } : Scan).run #[] = .ok t) (hdepth : t.depth = 0)
    (words : WordsRead b (margin 0 line.toList).1 first t)
    (hc : ∀ w ∈ compoundWords, first.lexeme ≠ .mark w) :
    t.line = b.line ∧
      ∃ t', ({ b' with rest := line.toList ++ '\n' :: ((logCall line var).toList ++ tail) } :
          Scan).run map = t'.run map ∧ t'.rest = tail ∧
        Ended writes var map (k + 1) b.line t t' := by
  obtain ⟨u, hrun', read⟩ := h.line_read (.newline ((logCall line var).toList ++ tail)) hline hmap
    hrun words
  have line' : u.line = b.line + k := read.line.trans h.line
  have width' : u.widths.headD 0 = (margin 0 line.toList).1 := by
    rw [read.widths, words.width]
  have still : (u.nextLine map).widths.headD 0 = callWidth line := by
    rw [callWidth, hopens, ← width', nextLine, widths_endLine]
    rfl
  have same : ({ u.nextLine map with rest := (logCall line var).toList ++ tail } : Scan).indent map
      (callWidth line) = .ok { u.nextLine map with rest := (logCall line var).toList ++ tail } :=
    indent_same still
  have called := run_call hvar hk hfeed (read.depth.trans hdepth) read.fresh same read.rest
  have origin : reportedLine map (u.line + 1) = b.line := by rw [line', hmap']
  dsimp only [nextLine] at called
  rw [origin, read.ended] at called
  refine ⟨words.line, _, hrun'.trans called, rfl, ?_⟩
  obtain ⟨new, htokens, htokens'⟩ := read.tokens
  obtain ⟨new', hnew, quiet⟩ := words.new writes
  obtain rfl : new = new' := List.append_cancel_right (htokens.symm.trans hnew)
  have reported : reportedLine map (u.line + 1) = t.line := origin.trans words.line.symm
  have depth_t : (u.endLine map).depth = t.depth := depth_endLine.trans read.depth
  have widths_t : (u.endLine map).widths = t.widths := widths_endLine.trans read.widths
  refine ⟨?_, widths_t, depth_t, ?_, Bool.noConfusion, ?_, words.reaches h.reaches hw h.later hc,
    reported, Nat.le_of_eq words.line.symm, ?_⟩
  · have placed := words.line
    dsimp only [nextLine]
    omega
  · rw [words.fresh]
    exact Bool.noConfusion
  · have woven := h.weave_tokens fun x hx => (quiet x hx).1
    have ends : endsWritten writes ⟨.mark Layout.newline, b.line⟩ = true := hw
    have call : weave writes var [⟨.mark Layout.newline, b.line⟩]
        = ⟨.mark Layout.newline, b.line⟩ :: (Stmt.logCall b.line var).tokens := by
      rw [weave, if_pos ends]
      rfl
    rw [words.endLine, htokens, List.reverse_cons, weave_append, ← woven, call,
      endLine_logWords rfl origin, htokens', List.reverse_cons,
      List.append_assoc]
    rfl
  · intro x hx
    rw [words.endLine, htokens] at hx
    rcases List.mem_cons.mp hx with rfl | hx
    · exact Nat.le_of_eq words.line.symm
    · rcases List.mem_append.mp hx with hx | hx
      · exact Nat.le_of_eq ((quiet x hx).2.trans words.line.symm)
      · have earlier := h.earlier x hx
        rw [words.line]
        exact Nat.le_of_lt earlier

end SortTrace.Script.Scan
