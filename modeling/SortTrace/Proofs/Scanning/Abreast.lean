import Mathlib.Logic.Relation
import Mathlib.Order.Monotone.Basic
import SortTrace.Proofs.Accounting.Relined
import SortTrace.Proofs.Instrumenting.Lines
import SortTrace.Proofs.Scanning.Pieces

/-!
# Two texts scanned side by side

Of two texts that start with the same piece wherever the scanner stops, the second may stand some
lines further down, and the widths of its lines may be others as long as they compare in the same
way. `Tracks` relates the two scans apart from what they have still to read, `Abreast` relates that
too. A step keeps the scans abreast where both lines start alike (`step_fresh_abreast`) or go on
alike (`step_within_abreast`), scans that are matched step by step end alike (`run_matched`), and
texts whose scans end alike have the same tokens, or the same error (`tokenize_of_tracks`).
-/

namespace SortTrace

/-- The fault, `k` lines further down. -/
def Fault.down (k : Nat) : Fault → Fault
  | syntaxError message line => syntaxError message (line + k)
  | e => e

@[simp] theorem Fault.down_zero (e : Fault) : e.down 0 = e := by
  cases e <;> rfl

namespace Script

open Text

/-- The token, `k` lines further down. -/
def Token.down (k : Nat) (t : Token) : Token :=
  { t with line := t.line + k }

@[simp] theorem Token.down_zero (t : Token) : t.down 0 = t := rfl

@[simp] theorem Token.map_down_zero (ts : List Token) : ts.map (Token.down 0) = ts :=
  List.map_id _

/-- Both give a result, and the results are related, or both fail in the same way, the second one
`k` lines further down. -/
inductive Answers {α β : Type} (k : Nat) (P : α → β → Prop) :
    Except Fault α → Except Fault β → Prop
  | ok {a : α} {b : β} (h : P a b) : Answers k P (.ok a) (.ok b)
  | error (e : Fault) : Answers k P (.error e) (.error (e.down k))

namespace Answers

variable {α α' β β' : Type} {k : Nat} {P : α → β → Prop} {Q : α' → β' → Prop}
  {r : Except Fault α} {r' : Except Fault β}

theorem both (h : Answers k P r r') : (∃ a b, r = .ok a ∧ r' = .ok b ∧ P a b) ∨
    ∃ e, r = .error e ∧ r' = .error (e.down k) := by
  cases h with
  | ok h => exact .inl ⟨_, _, rfl, rfl, h⟩
  | error e => exact .inr ⟨e, rfl, rfl⟩

theorem bind {g : α → Except Fault α'} {g' : β → Except Fault β'} (h : Answers k P r r')
    (hg : ∀ a b, P a b → Answers k Q (g a) (g' b)) : Answers k Q (r.bind g) (r'.bind g') := by
  cases h with
  | ok h => exact hg _ _ h
  | error e => exact .error e

theorem map {g : α → α'} {g' : β → β'} (h : Answers k P r r') (hg : ∀ a b, P a b → Q (g a) (g' b)) :
    Answers k Q (r.map g) (r'.map g') := by
  cases h with
  | ok h => exact .ok (hg _ _ h)
  | error e => exact .error e

/-- What holds of the first result besides is kept. -/
theorem besides {A : α → Prop} (h : Answers k P r r') (hr : ∀ a, r = .ok a → A a) :
    Answers k (fun a b => P a b ∧ A a) r r' := by
  cases h with
  | ok h => exact .ok ⟨h, hr _ rfl⟩
  | error e => exact .error e

end Answers

namespace Scan

variable {k : Nat} {f : Nat → Nat} {base : List Token}
  {starts within : List Char → List Char → Prop} {c : Char} {cs cs' : List Char} {l : Lexeme}
  {s s' : Scan}

/-! ## What has been read -/

/-- The second scan has read the same as the first, `k` lines further down and with `f w` for each
width `w`, since both had the tokens `base`. -/
structure Tracks (k : Nat) (f : Nat → Nat) (base : List Token) (s s' : Scan) : Prop where
  line : s'.line = s.line + k
  widths : s'.widths = s.widths.map f
  depth : s'.depth = s.depth
  fresh : s'.fresh = s.fresh
  tokens : ∃ new, s.tokens = new ++ base ∧ s'.tokens = new.map (Token.down k) ++ base

namespace Tracks

theorem start (f : Nat → Nat) (cs cs' : List Char) :
    Tracks 0 f [] (start cs) (start cs') :=
  ⟨rfl, rfl, rfl, rfl, [], rfl, rfl⟩

theorem atLayout (h : Tracks k f base s s') : s'.atLayout = s.atLayout := by
  obtain ⟨new, htokens, htokens'⟩ := h.tokens
  rw [Scan.atLayout, Scan.atLayout, htokens, htokens']
  cases new <;> rfl

theorem push (h : Tracks k f base s s') (l : Lexeme) :
    Tracks k f base (s.push #[] l) (s'.push #[] l) := by
  obtain ⟨new, htokens, htokens'⟩ := h.tokens
  refine ⟨h.line, h.widths, h.depth, h.fresh, ⟨l, s.line⟩ :: new, ?_, ?_⟩
  · rw [Scan.push, htokens]
    rfl
  · rw [Scan.push, htokens', h.line]
    rfl

theorem endLine (h : Tracks k f base s s') : Tracks k f base (s.endLine #[]) (s'.endLine #[]) := by
  rw [Scan.endLine, Scan.endLine, h.atLayout]
  split
  · exact h
  · exact h.push _

/-- Both scans go on behind what they have read, over the same number of lines. -/
theorem skip (h : Tracks k f base s s') (n : Nat) (rest rest' : List Char) :
    Tracks k f base { s with rest, line := s.line + n }
      { s' with rest := rest', line := s'.line + n } := by
  refine ⟨?_, h.widths, h.depth, h.fresh, h.tokens⟩
  have line := h.line
  dsimp only
  omega

theorem withDepth (h : Tracks k f base s s') (depth : Nat) :
    Tracks k f base { s with depth } { s' with depth } :=
  ⟨h.line, h.widths, rfl, h.fresh, h.tokens⟩

theorem withFresh (h : Tracks k f base s s') (fresh : Bool) :
    Tracks k f base { s with fresh } { s' with fresh } :=
  ⟨h.line, h.widths, h.depth, rfl, h.tokens⟩

theorem withWidths (h : Tracks k f base s s') (widths : List Nat) :
    Tracks k f base { s with widths } { s' with widths := widths.map f } :=
  ⟨h.line, rfl, h.depth, h.fresh, h.tokens⟩

theorem passLine (h : Tracks k f base s s') :
    Tracks k f base (s.passLine #[]) (s'.passLine #[]) := by
  rw [Scan.passLine, Scan.passLine, h.depth]
  split
  · exact h.endLine.withFresh true
  · exact h

theorem fail {α : Type} {P : α → α → Prop} (h : Tracks k f base s s') (message : String) :
    Answers k P (Scan.fail #[] message s.line) (Scan.fail #[] message s'.line) := by
  rw [h.line]
  exact .error (.syntaxError message s.line)

theorem nest (h : Tracks k f base s s') (l : Lexeme) :
    Answers k Eq (s.nest #[] c l) (s'.nest #[] c l) := by
  unfold Scan.nest
  rw [h.depth]
  split
  case h_7 => exact .ok rfl
  all_goals
    split
    · exact h.fail _
    · exact .ok rfl

/-! ## Indentation -/

theorem close (hf : StrictMono f) (width : Nat) (ws : List Nat) (h : Tracks k f base s s') :
    Tracks k f base (s.close #[] width ws) (s'.close #[] (f width) (ws.map f)) := by
  induction ws generalizing s s' with
  | nil => exact h.withWidths []
  | cons w ws ih =>
    rw [List.map_cons, Scan.close, Scan.close]
    by_cases deeper : width < w
    · rw [if_pos deeper, if_pos (hf deeper)]
      exact ih (h.push _)
    · rw [if_neg deeper, if_neg (mt hf.lt_iff_lt.mp deeper)]
      exact h.withWidths (w :: ws)

theorem headD_widths (hf0 : f 0 = 0) (h : Tracks k f base s s') :
    s'.widths.headD 0 = f (s.widths.headD 0) := by
  rw [h.widths]
  cases s.widths with
  | nil => exact hf0.symm
  | cons w ws => rfl

/-- Widths that compare in the same way open and close the same blocks. -/
theorem indent (hf : StrictMono f) (hf0 : f 0 = 0) (h : Tracks k f base s s') (width : Nat) :
    Answers k (Tracks k f base) (s.indent #[] width) (s'.indent #[] (f width)) := by
  unfold Scan.indent
  dsimp only
  rw [h.headD_widths hf0]
  by_cases deeper : s.widths.headD 0 < width
  · rw [if_pos deeper, if_pos (hf deeper)]
    have levels : s'.widths.length = s.widths.length := by
      rw [h.widths, List.length_map]
    rw [levels]
    split
    · exact h.fail _
    · refine .ok (Tracks.push ?_ _)
      rw [h.widths]
      exact h.withWidths (width :: s.widths)
  · rw [if_neg deeper, if_neg (mt hf.lt_iff_lt.mp deeper)]
    have closed := h.close hf width s.widths
    rw [← h.widths] at closed
    have met : (s'.close #[] (f width) s'.widths).widths.headD 0 = f width ↔
        (s.close #[] width s.widths).widths.headD 0 = width := by
      rw [closed.headD_widths hf0]
      exact hf.injective.eq_iff
    simp only [met]
    split
    · exact .ok closed
    · exact h.fail _

/-! ## The end of the text -/

/-- At the end of both texts the tokens since `base` are the same. -/
theorem finish (h : Tracks k f base s s') : ∃ more, s.finish #[] = base.reverse ++ more ∧
    s'.finish #[] = base.reverse ++ more.map (Token.down k) := by
  obtain ⟨new, htokens, htokens'⟩ := h.endLine.tokens
  refine ⟨new.reverse ++ lastTokens s.widths.length s.line, ?_, ?_⟩
  · rw [finish_eq, htokens, List.reverse_append, List.append_assoc]
    rfl
  · have last : lastTokens s'.widths.length s'.line
        = (lastTokens s.widths.length s.line).map (Token.down k) := by
      rw [h.line, h.widths, List.length_map, lastTokens, lastTokens, List.map_append,
        List.map_replicate]
      rfl
    rw [finish_eq, htokens', List.reverse_append, List.append_assoc, reportedLine_empty, last,
      List.map_append, List.map_reverse]

end Tracks

/-! ## What is still to be read -/

/-- Both scans have read the same, and what is still to be read is related by `starts` where a line
starts and by `within` inside a line. -/
structure Abreast (starts within : List Char → List Char → Prop) (k : Nat) (f : Nat → Nat)
    (base : List Token) (s s' : Scan) : Prop extends Tracks k f base s s' where
  starts : s.fresh = true → starts s.rest s'.rest
  within : s.fresh = false → within s.rest s'.rest

/-- The texts start with the same piece, and behind it they are related again. -/
inductive Piece.Alike (starts within : List Char → List Char → Prop) : Piece → Piece → Prop
  | lineEnd {rest rest' : List Char} (h : starts rest rest') :
    Alike starts within (.lineEnd rest) (.lineEnd rest')
  | gap (n : Nat) {rest rest' : List Char} (h : within rest rest') :
    Alike starts within (.gap n rest) (.gap n rest')
  | word (l : Lexeme) (n : Nat) {rest rest' : List Char} (h : within rest rest') :
    Alike starts within (.word l n rest) (.word l n rest')
  | malformed (message : String) : Alike starts within (.malformed message) (.malformed message)
  | oversize : Alike starts within .oversize .oversize

/-- The lines start alike behind their margins: both are passed, or they go on with the same piece,
which matters only if it is read. -/
inductive LineAlike (reads : Prop) (starts within : List Char → List Char → Prop) :
    List Char → List Char → Prop
  | blank {cs cs' : List Char} {n : Nat} {rest rest' : List Char}
    (h : blankEnd? cs = some (n, rest)) (h' : blankEnd? cs' = some (n, rest'))
    (hrest : starts rest rest') : LineAlike reads starts within cs cs'
  | filled {c : Char} {cs cs' : List Char} (h : blankEnd? (c :: cs) = none)
    (h' : blankEnd? (c :: cs') = none)
    (hpiece : reads → Piece.Alike starts within (piece c cs) (piece c cs')) :
    LineAlike reads starts within (c :: cs) (c :: cs')

/-- Scans that go behind the same piece stay abreast. -/
theorem Piece.Alike.add {p p' : Piece} (hp : Piece.Alike starts within p p')
    (hstarts : ∀ cs cs', starts cs cs' → within cs cs') (h : Tracks k f base s s')
    (hfresh : s.fresh = false) :
    Answers k (Abreast starts within k f base) (p.add #[] c s) (p'.add #[] c s') := by
  have inside {q : Prop} (starting : s.fresh = true) : q :=
    Bool.noConfusion (hfresh.symm.trans starting)
  cases hp with
  | @lineEnd rest rest' hrest =>
    have passed := h.passLine.skip 1 rest rest'
    rw [line_passLine, line_passLine] at passed
    exact .ok ⟨passed, fun _ => hrest, fun _ => hstarts _ _ hrest⟩
  | @gap n rest rest' hrest =>
    exact .ok ⟨h.skip n rest rest', inside, fun _ => hrest⟩
  | @word l n rest rest' hrest =>
    refine (h.nest l).map fun depth depth' same => ?_
    subst same
    exact ⟨((h.skip n rest rest').withDepth depth).push l, inside, fun _ => hrest⟩
  | malformed message => exact h.fail message
  | oversize => exact .error .overflow

/-- Lines that start alike keep the scans abreast. They are not read where they fit no block. -/
theorem step_fresh_abreast (hf : StrictMono f) (hf0 : f 0 = 0)
    (hstarts : ∀ cs cs', starts cs cs' → within cs cs') (h : Tracks k f base s s')
    (hfresh : s.fresh = true) (hwidth : (margin 0 s'.rest).1 = f (margin 0 s.rest).1)
    (hline : LineAlike (∃ u, s.indent #[] (margin 0 s.rest).1 = .ok u) starts within
      (margin 0 s.rest).2 (margin 0 s'.rest).2) :
    Answers k (Abreast starts within k f base) (s.step #[]) (s'.step #[]) := by
  rw [step_fresh hfresh, step_fresh (h.fresh.trans hfresh), hwidth]
  generalize (margin 0 s.rest).2 = cs at hline
  generalize (margin 0 s'.rest).2 = cs' at hline
  cases hline with
  | @blank _ _ n rest rest' hblank hblank' hrest =>
    rw [hblank, hblank']
    exact .ok ⟨h.skip n rest rest', fun _ => hrest, fun _ => hstarts _ _ hrest⟩
  | @filled c cs cs' hfilled hfilled' hpiece =>
    rw [hfilled, hfilled']
    refine ((h.indent hf hf0 _).besides fun _ hu => hu).bind fun u u' hu => ?_
    rw [readNext, readNext, readToken_eq, readToken_eq]
    exact (hpiece ⟨u, hu.2⟩).add hstarts (hu.1.withFresh false) rfl

/-- The same piece inside a line keeps the scans abreast. -/
theorem step_within_abreast (hstarts : ∀ cs cs', starts cs cs' → within cs cs')
    (h : Tracks k f base s s') (hfresh : s.fresh = false) (hrest : s.rest = c :: cs)
    (hrest' : s'.rest = c :: cs') (hpiece : Piece.Alike starts within (piece c cs) (piece c cs')) :
    Answers k (Abreast starts within k f base) (s.step #[]) (s'.step #[]) := by
  rw [step_inside hfresh hrest, step_inside (h.fresh.trans hfresh) hrest', readToken_eq,
    readToken_eq]
  exact hpiece.add hstarts h hfresh

/-! ## Runs -/

/-- One step leads from the first place to the second. -/
def Goes (s t : Scan) : Prop :=
  s.rest ≠ [] ∧ s.step #[] = .ok t

/-- The second place is reached from the first step by step. -/
abbrev ComesTo : Scan → Scan → Prop :=
  Relation.ReflTransGen Goes

/-- Inside a line the scanner passes a blank. -/
theorem goes_gap (hfresh : s.fresh = false) (hc : isMargin c = true ∨ c = '\r')
    (hrest : s.rest = c :: cs) : Goes s { s with rest := cs } := by
  have kinds : (c = ' ' ∨ c = '\t' ∨ c = '\x0c') ∨ c = '\r' := hc.imp_left of_decide_eq_true
  refine ⟨hrest ▸ List.cons_ne_nil c cs, ?_⟩
  rw [step_inside hfresh hrest, readToken_eq]
  rcases kinds with (rfl | rfl | rfl) | rfl <;> rfl

theorem run_of_comesTo {t : Scan} (h : ComesTo s t) : s.run #[] = t.run #[] := by
  induction h with
  | refl => rfl
  | tail _ h ih => exact ih.trans (run_of_step h.1 h.2)

theorem length_of_comesTo {t : Scan} (h : ComesTo s t) : t.rest.length ≤ s.rest.length := by
  induction h with
  | refl => exact Nat.le_refl _
  | tail _ h ih => exact Nat.le_of_lt (Nat.lt_of_lt_of_le (step_shorter h.2 h.1) ih)

/-- The scans reach the ends of their texts and are related there, or places from which a step leads
to related scans again. -/
inductive Matched (k : Nat) (related ended : Scan → Scan → Prop) (s s' : Scan) : Prop
  | ended {t t' : Scan} (ht : ComesTo s t) (ht' : ComesTo s' t') (hrest : t.rest = [])
    (hrest' : t'.rest = []) (h : ended t t') : Matched k related ended s s'
  | step {t t' : Scan} (ht : ComesTo s t) (ht' : ComesTo s' t') (hrest : t.rest ≠ [])
    (hrest' : t'.rest ≠ []) (h : Answers k related (t.step #[]) (t'.step #[])) :
    Matched k related ended s s'

/-- Scans that are matched place by place end alike. One of them may pass what the other text has
not, so that the induction is on the text that is still to be read. -/
theorem run_matched {related ended : Scan → Scan → Prop}
    (hmatched : ∀ s s', related s s' → Matched k related ended s s') (h : related s s') :
    Answers k ended (s.run #[]) (s'.run #[]) := by
  induction hn : s.rest.length using Nat.strong_induction_on generalizing s s' with
  | h n ih =>
    subst hn
    cases hmatched s s' h with
    | ended ht ht' hrest hrest' h =>
      rw [run_of_comesTo ht, run_of_comesTo ht', run_of_rest hrest, run_of_rest hrest']
      exact .ok h
    | step ht ht' hrest hrest' h =>
      rw [run_of_comesTo ht, run_of_comesTo ht']
      rcases h.both with ⟨u, u', hu, hu', h⟩ | ⟨e, he, he'⟩
      · rw [run_of_step hrest hu, run_of_step hrest' hu']
        exact ih _ (Nat.lt_of_lt_of_le (step_shorter hu hrest) (length_of_comesTo ht)) h rfl
      · rw [run_of_error hrest he, run_of_error hrest' he']
        exact .error e

end Scan

open Scan

/-- Texts that are scanned alike over the same lines have the same tokens, or the same error. -/
theorem tokenize_of_tracks {f : Nat → Nat} {text text' : String}
    (h : Answers 0 (Tracks 0 f []) ((start text.toList).run #[]) ((start text'.toList).run #[]))
    (map : Array Nat) : tokenize text' map = tokenize text map := by
  have plain : tokenize text' #[] = tokenize text #[] := by
    rw [tokenize, tokenize]
    rcases h.both with ⟨s, s', hs, hs', tracks⟩ | ⟨e, he, he'⟩
    · obtain ⟨more, hfinish, hfinish'⟩ := tracks.finish
      rw [Token.map_down_zero] at hfinish'
      rw [hs, hs', Except.map, Except.map, hfinish, hfinish']
    · rw [he, he', Fault.down_zero]
  rw [tokenize_relined, plain, ← tokenize_relined]

end Script

end SortTrace
