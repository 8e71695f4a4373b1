import SortTrace.Proofs.Accounting.Relined
import SortTrace.Proofs.Instrumenting.Lines

/-!
# Where tokens stand

A text is its tokens one behind the other, with blanks, comments and passed line ends between them
(`Lexed`, `tokenize_lexed`). Every token stands on a stretch of the text of its own, which spells
it, and has the line that the last character of the stretch is on. A line end is passed inside
brackets and where nothing stands on the line before it, and is a token elsewhere. Changes of
indentation stand before the first character of a line that holds more than a comment, and the
tokens at the end of the input behind its last character.
-/

namespace SortTrace.Script

open Scan

/-- A stretch of a text: the place of its first character and the one behind its last. -/
structure Stretch where
  first : Nat
  past : Nat

namespace Stretch

/-- The characters of a stretch. -/
def chars (text : List Char) (e : Stretch) : List Char :=
  (text.take e.past).drop e.first

/-- The place of the last character of a stretch, or where it stands if it has none. -/
def place (e : Stretch) : Nat :=
  if e.first < e.past then e.past - 1 else e.first

theorem place_empty (n : Nat) : place ⟨n, n⟩ = n :=
  if_neg (Nat.lt_irrefl n)

end Stretch

/-- The line that a place of a text is on: one and the newlines before it. -/
def lineAt (text : List Char) (place : Nat) : Nat :=
  1 + (text.take place).count '\n'

/-- A line of the text starts at the place. -/
def StartsLine (text : List Char) (place : Nat) : Prop :=
  place = 0 ∨ text[place - 1]? = some '\n'

/-- The line at the start of the text holds something besides its margin and a comment. -/
def Filled (text : List Char) : Prop :=
  ∃ c cs, (margin 0 text).2 = c :: cs ∧ c ≠ '\n' ∧ c ≠ '#' ∧
    (c = '\r' → cs ≠ [] ∧ cs.head? ≠ some '\n')

theorem filled_of_blankLine? {s : Scan} {text : List Char}
    (h : s.blankLine? (margin 0 text).2 = none) : Filled text := by
  unfold Filled
  generalize (margin 0 text).2 = inner at h ⊢
  unfold blankLine? at h
  split at h
  · cases h
  · cases h
  · next cs =>
    split at h
    · cases h
    · next more =>
      refine ⟨'\r', cs, rfl, by decide, by decide, fun _ => ⟨?_, ?_⟩⟩
      · rintro rfl
        exact more rfl
      · intro ends
        exact more (by simp [ends])
  · cases h
  · next nonempty newline feed comment =>
    obtain ⟨c, cs, rfl⟩ := List.exists_cons_of_ne_nil nonempty
    refine ⟨c, cs, rfl, ?_, ?_, ?_⟩
    · rintro rfl
      exact newline cs rfl
    · rintro rfl
      exact comment cs rfl
    · rintro rfl
      exact absurd rfl (feed cs)

/-- The number of brackets that are open behind the tokens, which are given newest first. -/
def openBrackets : List Token → Nat
  | [] => 0
  | t :: tokens => depthAfter t.lexeme (openBrackets tokens)

/-- Line ends behind the tokens, which are given newest first, are passed: a bracket is open or
nothing stands on the line. -/
def PassesLines (tokens : List Token) : Prop :=
  0 < openBrackets tokens ∨ AtLayout tokens

/-- The lexeme is read from the stretch, where so many brackets are open. -/
inductive ReadFrom (text : List Char) (depth : Nat) : Lexeme → Stretch → Prop
  | word {l : Lexeme} {e : Stretch} (hp : e.past ≤ text.length) (h : Spells (e.chars text) l) :
    ReadFrom text depth l e
  | newline {place : Nat} (hd : depth = 0) (h : text[place]? = some '\n') :
    ReadFrom text depth (.mark Layout.newline) ⟨place, place + 1⟩
  | shift {l : Layout} {place : Nat} (hl : l = .indent ∨ l = .dedent) (h : StartsLine text place)
    (hf : Filled (text.drop place)) : ReadFrom text depth (.mark l) ⟨place, place⟩
  | last {l : Layout} (hl : l ≠ .indent) : ReadFrom text depth (.mark l) ⟨text.length, text.length⟩

/-- The text up to the end of the newest token is the tokens, which are given newest first, and
what is skipped between them. -/
inductive Lexed (text : List Char) (map : Array Nat) : List Token → Nat → Prop
  | start : Lexed text map [] 0
  | token {tokens : List Token} {past : Nat} {t : Token} {e : Stretch}
    (h : Lexed text map tokens past)
    (between : Skips (PassesLines tokens) (text.drop past) (text.drop e.first))
    (read : ReadFrom text (openBrackets tokens) t.lexeme e)
    (line : t.line = reportedLine map (lineAt text e.place)) :
    Lexed text map (t :: tokens) e.past

theorem openBrackets_relined (map : Array Nat) (tokens : List Token) :
    openBrackets (tokens.map (Token.relined map)) = openBrackets tokens := by
  induction tokens with
  | nil => rfl
  | cons t tokens ih => exact congrArg (depthAfter t.lexeme) ih

theorem passesLines_relined (map : Array Nat) (tokens : List Token) :
    PassesLines (tokens.map (Token.relined map)) ↔ PassesLines tokens := by
  rw [PassesLines, PassesLines, openBrackets_relined]
  cases tokens <;> rfl

/-- Tokens stand where they stand, however their lines are reported. -/
theorem Lexed.relined {text : List Char} {tokens : List Token} {past : Nat}
    (h : Lexed text #[] tokens past) (map : Array Nat) :
    Lexed text map (tokens.map (Token.relined map)) past := by
  induction h with
  | start => exact .start
  | @token tokens past t e _ between read line ih =>
    rw [← openBrackets_relined map] at read
    exact .token ih (between.mono (passesLines_relined map tokens).mpr) read
      (congrArg (reportedLine map) line)

/-- The end of the input stands behind the last character. -/
theorem Lexed.finish_past {text : List Char} {map : Array Nat} {tokens : List Token} {past n : Nat}
    (h : Lexed text map (⟨.mark Layout.finish, n⟩ :: tokens) past) : past = text.length := by
  cases h with
  | token _ _ read _ =>
    cases read with
    | word _ spelled => cases spelled.isLayout
    | shift hl => rcases hl with hl | hl <;> cases hl
    | last _ => rfl

/-! ## Scans -/

/-- The text is read up to `rest`, which starts on the line. -/
structure Accounted (text passed rest : List Char) (line : Nat) (tokens : List Token) : Prop where
  pieces : text = passed ++ rest
  line : line = 1 + passed.count '\n'
  lexed : ∃ past, Lexed text #[] tokens past ∧ Skips (PassesLines tokens) (text.drop past) rest

namespace Accounted

variable {text passed cs rest piece : List Char} {s t : Scan} {line n : Nat} {tokens : List Token}

theorem here (h : Accounted text passed rest line tokens) :
    text.drop passed.length = rest ∧ lineAt text passed.length = line := by
  rw [h.pieces, List.drop_left, lineAt, List.take_left, h.line]
  exact ⟨rfl, rfl⟩

theorem skip (h : Accounted text passed (piece ++ rest) line tokens)
    (hs : Skips (PassesLines tokens) (piece ++ rest) rest) (hn : piece.count '\n' = n) :
    Accounted text (passed ++ piece) rest (line + n) tokens where
  pieces := by rw [h.pieces, List.append_assoc]
  line := by rw [h.line, List.count_append, hn, Nat.add_assoc]
  lexed :=
    have ⟨past, lexed, skips⟩ := h.lexed
    ⟨past, lexed, skips.trans hs⟩

/-- A token that has no characters. -/
theorem mark (h : Accounted text passed rest line tokens) {l : Layout}
    (read : ReadFrom text (openBrackets tokens) (.mark l) ⟨passed.length, passed.length⟩) :
    Accounted text passed rest line (⟨.mark l, line⟩ :: tokens) where
  pieces := h.pieces
  line := h.line
  lexed := by
    obtain ⟨past, lexed, skips⟩ := h.lexed
    obtain ⟨behind, here⟩ := h.here
    let e : Stretch := ⟨passed.length, passed.length⟩
    have place : lineAt text e.place = line := by rw [Stretch.place_empty, here]
    exact ⟨e.past, .token lexed (behind.symm ▸ skips) read place.symm, behind ▸ .refl _⟩

/-- A word is read, and stands on the characters that spell it. -/
theorem word {l : Lexeme} {word : List Char}
    (h : Accounted text passed (word ++ rest) line tokens) (spelled : Spells word l)
    (hn : word.count '\n' = n) :
    Accounted text (passed ++ word) rest (line + n) (⟨l, line + n⟩ :: tokens) where
  pieces := by rw [h.pieces, List.append_assoc]
  line := by rw [h.line, List.count_append, hn, Nat.add_assoc]
  lexed := by
    obtain ⟨past, lexed, skips⟩ := h.lexed
    obtain ⟨behind, -⟩ := h.here
    obtain ⟨last, hlast, plain⟩ := spelled.ends
    obtain ⟨front, rfl⟩ := List.getLast?_eq_some_iff.mp hlast
    let e : Stretch := ⟨passed.length, passed.length + (front ++ [last]).length⟩
    have pieces : text = passed ++ (front ++ [last]) ++ rest := by
      rw [h.pieces, List.append_assoc passed]
    have size : e.past = (passed ++ (front ++ [last])).length := (List.length_append ..).symm
    have chars : e.chars text = front ++ [last] := by
      rw [Stretch.chars, pieces, size, List.take_left, List.drop_left]
    have line : lineAt text e.place = line + n := by
      have place : e.place = (passed ++ front).length := by
        rw [Stretch.place, if_pos (by simp [e])]
        simp [e]
      have whole : text = passed ++ front ++ last :: rest := by simp [pieces]
      have count : (front ++ [last]).count '\n' = front.count '\n' := by
        rw [List.count_append, List.count_singleton, beq_eq_false_iff_ne.mpr plain]
        rfl
      rw [lineAt, place, whole, List.take_left, List.count_append, h.line, ← hn, count,
        Nat.add_assoc]
    refine ⟨e.past, .token lexed (behind.symm ▸ skips) (.word ?_ (chars ▸ spelled)) line.symm, ?_⟩
    · rw [size, pieces]
      simp
    · rw [size, pieces, List.drop_left]
      exact .refl rest

/-- The newline that ends a logical line. -/
theorem newline (h : Accounted text passed ('\n' :: rest) line tokens)
    (hd : openBrackets tokens = 0) :
    Accounted text (passed ++ ['\n']) rest (line + 1) (⟨.mark Layout.newline, line⟩ :: tokens) where
  pieces := by rw [h.pieces, List.append_assoc]; rfl
  line := by rw [h.line, List.count_append, Nat.add_assoc]; rfl
  lexed := by
    obtain ⟨past, lexed, skips⟩ := h.lexed
    obtain ⟨behind, here⟩ := h.here
    let e : Stretch := ⟨passed.length, passed.length + 1⟩
    have read : ReadFrom text (openBrackets tokens) (.mark Layout.newline) e :=
      .newline hd (by simp [h.pieces])
    have place : lineAt text e.place = line := by
      rw [Stretch.place, if_pos (Nat.lt_succ_self _)]
      exact here
    refine ⟨e.past, .token lexed (behind.symm ▸ skips) read place.symm, ?_⟩
    have after : text.drop (passed.length + 1) = rest := by
      rw [← List.drop_drop, behind]
      rfl
    exact after ▸ .refl _

end Accounted

/-- What holds of the scanner between its steps. -/
structure Between (text passed : List Char) (s : Scan) : Prop where
  accounted : Accounted text passed s.rest s.line s.tokens
  depth : s.depth = openBrackets s.tokens
  fresh : s.fresh = true → s.atLayout = true
  starts : s.fresh = true → s.rest ≠ [] → StartsLine text passed.length

namespace Between

variable {text passed cs rest : List Char} {s t : Scan}

theorem passLine (h : Accounted text passed ('\n' :: rest) s.line s.tokens)
    (hd : s.depth = openBrackets s.tokens) :
    Accounted text (passed ++ ['\n']) rest (s.line + 1) (s.passLine #[]).tokens := by
  have passed (passes : PassesLines s.tokens) :
      Accounted text (passed ++ ['\n']) rest (s.line + 1) s.tokens :=
    have skips : Skips (PassesLines s.tokens) (['\n'] ++ rest) rest := .newline passes (.refl rest)
    h.skip skips rfl
  rw [Scan.passLine]
  split
  · next depth =>
    rw [Scan.endLine]
    split
    · next layout => exact passed (.inr layout)
    · exact h.newline (hd ▸ depth)
  · exact passed (.inl (by omega))

theorem depth_passLine (hd : s.depth = openBrackets s.tokens) :
    (s.passLine #[]).depth = openBrackets (s.passLine #[]).tokens := by
  rw [Scan.passLine, Scan.endLine]
  split
  · split
    · exact hd
    · exact hd
  · exact hd

theorem reading (h : Accounted text passed cs s.line s.tokens)
    (hd : s.depth = openBrackets s.tokens) (hfresh : s.fresh = false)
    (hread : Reading #[] s cs t) : ∃ passed', Between text passed' t := by
  have inside {p : Prop} (fresh : s.fresh = true) : p := by
    rw [hfresh] at fresh
    cases fresh
  cases hread with
  | newline rest hcs =>
    subst hcs
    have layout : ({ s.passLine #[] with rest, line := s.line + 1 } : Scan).fresh = true →
        ({ s.passLine #[] with rest, line := s.line + 1 } : Scan).atLayout = true := by
      rw [Scan.passLine]
      split
      · exact fun _ => atLayout_endLine
      · exact inside
    refine ⟨passed ++ ['\n'], passLine h hd, depth_passLine hd, layout, fun _ _ => .inr ?_⟩
    simp [h.pieces]
  | skip n rest hcs hskips =>
    obtain ⟨piece, rfl, hn⟩ := hcs
    exact ⟨passed ++ piece, h.skip (hskips.mono False.elim) hn, hd, inside, inside⟩
  | token n rest l depth hcs hl hdepth =>
    obtain ⟨word, rfl, spelled⟩ := hl
    have hn : word.count '\n' = n := by
      have count := hcs.count
      rw [List.count_append] at count
      omega
    have nested : depth = depthAfter l (openBrackets s.tokens) := hd ▸ hdepth
    exact ⟨passed ++ word, h.word spelled hn, nested, inside, inside⟩

/-- Changes of indentation stand before the first character of their line. -/
theorem shifts (h : Between text passed s) (hfresh : s.fresh = true) (hs : s.rest ≠ [])
    (hfilled : Filled s.rest) {shifts : List Token} (hshifts : ∀ x ∈ shifts, IsShift s.line x) :
    Accounted text passed s.rest s.line (shifts ++ s.tokens) ∧
      s.depth = openBrackets (shifts ++ s.tokens) := by
  have filled : Filled (text.drop passed.length) := h.accounted.here.1 ▸ hfilled
  have starts := h.starts hfresh hs
  induction shifts with
  | nil => exact ⟨h.accounted, h.depth⟩
  | cons x shifts ih =>
    obtain ⟨hx, hmore⟩ := List.forall_mem_cons.mp hshifts
    obtain ⟨accounted, depth⟩ := ih hmore
    rcases hx with rfl | rfl
    · exact ⟨accounted.mark (.shift (.inl rfl) starts filled), depth⟩
    · exact ⟨accounted.mark (.shift (.inr rfl) starts filled), depth⟩

/-- What a step reads is accounted for. -/
theorem step (h : Between text passed s) (hs : s.rest ≠ []) (hstep : s.step #[] = .ok t) :
    ∃ passed', Between text passed' t := by
  cases step_stepping hstep hs with
  | inside hfresh hread => exact reading h.accounted h.depth hfresh hread
  | blank n rest hfresh hcuts hend hskips =>
    obtain ⟨piece, hpiece, hn⟩ := hcuts
    have accounted := h.accounted
    have passes : PassesLines s.tokens := .inr (h.fresh hfresh)
    rw [hpiece] at accounted hskips
    refine ⟨passed ++ piece, accounted.skip (hskips.mono fun _ => passes) hn, h.depth, h.fresh,
      fun _ more => .inr ?_⟩
    obtain ⟨front, hfront⟩ := hend.resolve_left more
    have last : piece = front ++ ['\n'] := by
      refine List.append_left_inj rest |>.mp ?_
      rw [← hpiece, hfront, List.append_assoc]
      rfl
    rw [accounted.pieces, last]
    simp
  | starts shifts widths hfresh hfilled _ hshifts hread =>
    obtain ⟨piece, hpiece, hn⟩ := margin_splits 0 s.rest
    obtain ⟨shifted, depth⟩ := h.shifts hfresh hs (filled_of_blankLine? hfilled) hshifts
    have skips : Skips (PassesLines (shifts ++ s.tokens)) s.rest (margin 0 s.rest).2 :=
      .margin 0 s.rest
    generalize (margin 0 s.rest).2 = cs at hpiece hread skips
    rw [hpiece] at shifted skips
    exact reading (s := { s with widths, tokens := shifts ++ s.tokens, fresh := false })
      (shifted.skip skips hn) depth rfl hread

/-- At the end of the text the last tokens stand behind it. -/
theorem finish (h : Between text passed s) (hs : s.rest = []) :
    Lexed text #[] (s.finish #[]).reverse text.length := by
  have accounted := h.accounted
  rw [hs] at accounted
  obtain rfl : text = passed := accounted.pieces.trans (List.append_nil passed)
  have ended : Accounted text text [] s.line (s.endLine #[]).tokens := by
    rw [Scan.endLine]
    split
    · exact accounted
    · exact accounted.mark (.last (by decide))
  have dedents (n : Nat) : Accounted text text [] s.line
      (List.replicate n ⟨.mark Layout.dedent, s.line⟩ ++ (s.endLine #[]).tokens) := by
    induction n with
    | zero => exact ended
    | succ n ih => exact ih.mark (.last (by decide))
  have whole : Accounted text text [] s.line (⟨.mark Layout.finish, s.line⟩ ::
      (List.replicate s.widths.length ⟨.mark Layout.dedent, s.line⟩ ++ (s.endLine #[]).tokens)) :=
    (dedents s.widths.length).mark (.last (by decide))
  obtain ⟨past, lexed, -⟩ := whole.lexed
  rw [finish_eq, lastTokens, List.reverse_append, List.reverse_reverse, List.reverse_append,
    List.reverse_replicate]
  exact lexed.finish_past ▸ lexed

end Between

/-- A text is its tokens with what is skipped between them. -/
theorem tokenize_lexed {text : String} {ts : List Token} (h : tokenize text #[] = .ok ts) :
    Lexed text.toList #[] ts.reverse text.toList.length := by
  obtain ⟨t, hrun, rfl⟩ := run_of_tokenize h
  have first : Between text.toList [] (start text.toList) :=
    ⟨⟨rfl, rfl, 0, .start, .refl _⟩, rfl, fun _ => rfl, fun _ _ => .inl rfl⟩
  obtain ⟨⟨passed, between⟩, ended⟩ := run_induction
    (P := fun s => ∃ passed, Between text.toList passed s)
    (fun s t hs hstep h => h.elim fun _ between => between.step hs hstep) hrun ⟨[], first⟩
  exact between.finish ended

end SortTrace.Script
