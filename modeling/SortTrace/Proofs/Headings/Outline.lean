import SortTrace.Proofs.Grammar.Statements
import SortTrace.Proofs.Instrumenting.BothPrograms
import SortTrace.Proofs.Scanning.Arranged

/-!
# The functions in the tokens of a program

The word before a function stands nowhere but where a statement begins, with the name and an opening
bracket behind it: where it is read is where the program has a function of that name on that line.
Parsers are followed over the tokens that they take; those of expressions and of small statements
take none that begins a function, and those of blocks begin and end where a line begins.

A logical line begins on a later line of the text than everything before it: a line that is passed
inside a logical line ends only with a newline, so no two logical lines begin on one line
(`finish_apart`). A program therefore has at most one function on each line (`Outline.unique`).
-/

namespace SortTrace.Script

open Parse

/-- The line and the name of the function that the statement defines. -/
def Stmt.heading? : Stmt → Option (Nat × String)
  | .define n name _ _ => some (n, name)
  | _ => none

/-- The lines and names of the functions among the statements. -/
def Stmt.headingsOf (ss : List Stmt) : List (Nat × String) :=
  ss.filterMap Stmt.heading?

/-- The lines and names of the functions of a block, at any depth. -/
def Stmt.headings (block : List Stmt) : List (Nat × String) :=
  Stmt.headingsOf (Stmt.inBlock block)

section Headings

variable {n : Nat} {name : String} {cases : List (Expr × List Stmt)} {body last ss rest : List Stmt}

theorem headingsOf_append :
    Stmt.headingsOf (ss ++ rest) = Stmt.headingsOf ss ++ Stmt.headingsOf rest :=
  List.filterMap_append

theorem headings_append : Stmt.headings (ss ++ rest) = Stmt.headings ss ++ Stmt.headings rest := by
  rw [Stmt.headings, inBlock_append, headingsOf_append]
  rfl

theorem headings_singleton (s : Stmt) :
    Stmt.headings [s] = s.heading?.toList ++ Stmt.headingsOf s.inner := by
  have single : Stmt.inBlock [s] = [s] ++ s.inner := by
    rw [Stmt.inBlock, Stmt.inBlock, List.append_nil]
    rfl
  rw [Stmt.headings, single, headingsOf_append, Stmt.headingsOf, List.filterMap_cons,
    List.filterMap_nil]
  cases s.heading? <;> rfl

theorem inCases_append (cs ds : List (Expr × List Stmt)) :
    Stmt.inCases (cs ++ ds) = Stmt.inCases cs ++ Stmt.inCases ds := by
  induction cs with
  | nil => rfl
  | cons c cs ih => rw [List.cons_append, Stmt.inCases, ih, Stmt.inCases, List.append_assoc]

theorem headings_case {condition : Expr} :
    Stmt.headingsOf (Stmt.inCases [(condition, body)]) = Stmt.headings body := by
  rw [Stmt.inCases, Stmt.inCases, List.append_nil]
  rfl

theorem headings_branch : Stmt.headings [.branch n cases last]
    = Stmt.headingsOf (Stmt.inCases cases) ++ Stmt.headings last := by
  rw [headings_singleton]
  exact headingsOf_append

theorem headings_define {params : List Param} :
    Stmt.headings [.define n name params body] = (n, name) :: Stmt.headings body :=
  headings_singleton _

/-- Statements that hold no block define no function. -/
theorem headings_simple (h : ∀ s ∈ ss, s.isSimple = true) : Stmt.headings ss = [] := by
  induction ss with
  | nil => rfl
  | cons s ss ih =>
    obtain ⟨hs, hss⟩ := List.forall_mem_cons.mp h
    rw [← List.singleton_append, headings_append, headings_singleton, ih hss]
    cases s with
    | branch | whileLoop | forLoop | define => cases hs
    | _ => rfl

end Headings

/-! ## Tokens with headings -/

/-- The tokens, newest first, hold these headings, and no other place begins a function. A heading
stands at the beginning of a line. -/
inductive Outline : List Token → List (Nat × String) → Prop
  | nil : Outline [] []
  | other {tokens : List Token} {heads : List (Nat × String)} {t : Token} (h : Outline tokens heads)
    (ht : t.lexeme ≠ .mark Keyword.defKw) : Outline (t :: tokens) heads
  | heading {tokens : List Token} {heads : List (Nat × String)} {n k k' : Nat} {name : String}
    (h : Outline tokens heads) (layout : Scan.AtLayout tokens) :
    Outline (⟨.mark Punct.lparen, k'⟩ :: ⟨.name name, k⟩ :: ⟨.mark Keyword.defKw, n⟩ :: tokens)
      (heads ++ [(n, name)])

namespace Outline

variable {tokens : List Token} {heads : List (Nat × String)} {n : Nat} {name : String}

/-- A function has a heading in the tokens. -/
theorem of_mem (h : Outline tokens heads) (hmem : (n, name) ∈ heads) : ∃ k k' newer older,
    tokens = newer ++ ⟨.mark Punct.lparen, k'⟩ :: ⟨.name name, k⟩ :: ⟨.mark Keyword.defKw, n⟩
      :: older ∧ Scan.AtLayout older := by
  induction h with
  | nil => cases hmem
  | @other _ _ t _ _ ih =>
    obtain ⟨k, k', newer, older, rfl, layout⟩ := ih hmem
    exact ⟨k, k', t :: newer, older, rfl, layout⟩
  | @heading _ _ m k k' name' _ layout ih =>
    rcases List.mem_append.mp hmem with hmem | hmem
    · obtain ⟨l, l', newer, older, rfl, before⟩ := ih hmem
      exact ⟨l, l', _ :: _ :: _ :: newer, older, rfl, before⟩
    · cases List.mem_singleton.mp hmem
      exact ⟨k, k', [], _, rfl, layout⟩

/-- Where a function begins in the tokens is a heading, with its name as the next token. -/
theorem mem (h : Outline tokens heads) {newer older : List Token}
    (heq : tokens = newer ++ ⟨.mark Keyword.defKw, n⟩ :: older) :
    ∃ name k, newer.getLast? = some ⟨.name name, k⟩ ∧ (n, name) ∈ heads := by
  induction h generalizing newer with
  | nil => simp at heq
  | other _ ht ih =>
    cases newer with
    | nil =>
      obtain ⟨rfl, -⟩ := List.cons.inj heq
      exact absurd rfl ht
    | cons x newer =>
      obtain ⟨name, k, last, hmem⟩ := ih (List.cons.inj heq).2
      exact ⟨name, k, by rw [List.getLast?_cons, last]; rfl, hmem⟩
  | @heading _ _ m k k' name _ _ ih =>
    match newer, heq with
    | [_, _], heq =>
      cases heq
      exact ⟨name, k, rfl, List.mem_append_right _ (List.mem_singleton.mpr rfl)⟩
    | x :: y :: z :: newer, heq =>
      obtain ⟨-, heq⟩ := List.cons.inj heq
      obtain ⟨-, heq⟩ := List.cons.inj heq
      obtain ⟨name, k, last, hmem⟩ := ih (List.cons.inj heq).2
      refine ⟨name, k, ?_, List.mem_append_left _ hmem⟩
      rw [List.getLast?_cons, List.getLast?_cons, List.getLast?_cons, last]
      rfl

end Outline

/-! ## Parsers over such tokens -/

/-- Of tokens that are as `pre` says, the parser makes something and leaves tokens that are together
as `post` says. -/
def Parse.Leaves {α : Type} (pre : List Token → Prop) (r : Parse α)
    (post : α → List Token → Prop) : Prop :=
  ∀ ts a rest, pre ts → r ts = .ok (a, rest) → post a rest

/-- The tokens are those behind some that hold these headings. -/
def Outlined (whole : List Token) (heads : List (Nat × String)) (ts : List Token) : Prop :=
  ∃ front, whole = front.reverse ++ ts ∧ Outline front heads

/-- The tokens are those behind some that hold these headings, and a line begins, unless the text
has ended. -/
def AtStart (whole : List Token) (heads : List (Nat × String)) (ts : List Token) : Prop :=
  ∃ front, whole = front.reverse ++ ts ∧ Outline front heads ∧
    (Scan.AtLayout front ∨ lexemeOf ts = .mark Layout.finish)

section Parsers

variable {α β : Type} {whole ts : List Token} {heads : List (Nat × String)}
  {pre : List Token → Prop} {post : β → List Token → Prop} {r : Parse α} {q : α → Parse β}
  {mid : α → List Token → Prop} {m : Mark}

namespace Parse.Leaves

theorem pure {b : β} (h : ∀ ts, pre ts → post b ts) : Leaves pre (Pure.pure b) post := by
  intro ts a rest hts hread
  cases hread
  exact h ts hts

theorem fail (message : String) : Leaves pre (Parse.fail message) post :=
  fun _ _ _ _ h => nomatch h

theorem bind (hr : Leaves pre r mid) (hq : ∀ a, Leaves (mid a) (q a) post) :
    Leaves pre (r >>= q) post := by
  intro ts b rest hts hread
  obtain ⟨a, between, hfirst, hsecond⟩ := ok_of_bind hread
  exact hq a between b rest (hr ts a between hts hfirst) hsecond

theorem map {f : α → β} (hr : Leaves pre r mid) (h : ∀ a ts, mid a ts → post (f a) ts) :
    Leaves pre (f <$> r) post := by
  rw [map_eq_pure_bind]
  exact hr.bind fun a => .pure (h a)

/-- After something that takes no token that matters. -/
theorem after [hr : Keeps pre r] (hq : ∀ a, Leaves pre (q a) post) : Leaves pre (r >>= q) post :=
  bind (fun ts a rest hts hread => (hr.makes ts a rest hts hread).2) hq

theorem ite {c : Prop} [Decidable c] {r r' : Parse β} (h : c → Leaves pre r post)
    (h' : ¬c → Leaves pre r' post) : Leaves pre (if c then r else r') post := by
  split
  · exact h ‹_›
  · exact h' ‹_›

theorem weaken {pre' : List Token → Prop} {r : Parse β} (h : Leaves pre r post)
    (hpre : ∀ ts, pre' ts → pre ts) : Leaves pre' r post :=
  fun ts b rest hts hread => h ts b rest (hpre ts hts) hread

/-- The next token is taken if it is the mark. -/
theorem acceptIte {hit miss : Parse β} {taken : List Token → Prop}
    (htaken : ∀ ts, Next pre (.mark m) ts → taken ts.tail) (hhit : Leaves taken hit post)
    (hmiss : Leaves pre miss post) :
    Leaves pre (accept m >>= fun b => if b = true then hit else miss) post := by
  intro ts b rest hts hread
  obtain ⟨took, between, haccept, hread⟩ := ok_of_bind hread
  rw [accept] at haccept
  split at haccept
  · next hm =>
    cases haccept
    exact hhit ts.tail b rest (htaken ts ⟨hts, beq_iff_eq.mp hm⟩) hread
  · cases haccept
    exact hmiss ts b rest hts hread

end Parse.Leaves

theorem AtStart.outlined (h : AtStart whole heads ts) : Outlined whole heads ts := by
  obtain ⟨front, hwhole, outline, -⟩ := h
  exact ⟨front, hwhole, outline⟩

/-- A token that begins no function is taken. -/
theorem Outlined.take {l : Lexeme} (h : Parse.Next (Outlined whole heads) l ts)
    (hl : l ≠ .mark Keyword.defKw) : Outlined whole heads ts.tail := by
  obtain ⟨⟨front, hwhole, outline⟩, rfl⟩ := h
  cases ts with
  | nil => exact ⟨front, hwhole, outline⟩
  | cons t ts =>
    refine ⟨t :: front, ?_, outline.other hl⟩
    rw [hwhole, List.reverse_cons, List.append_assoc]
    rfl

/-- A token of the layout is taken, and a line begins behind it. -/
theorem Outlined.takeLayout {l : Layout} (h : Parse.Next (Outlined whole heads) (.mark l) ts)
    (hl : l ≠ .finish) : AtStart whole heads ts.tail := by
  obtain ⟨⟨front, hwhole, outline⟩, hts⟩ := h
  cases ts with
  | nil =>
    cases hts
    exact absurd rfl hl
  | cons t ts =>
    rw [lexemeOf_cons] at hts
    refine ⟨t :: front, ?_, outline.other (by rw [hts]; nofun), .inl ?_⟩
    · rw [hwhole, List.reverse_cons, List.append_assoc]
      rfl
    · rw [Scan.AtLayout, Scan.atLayout]
      dsimp only
      rw [hts]
      cases l with
      | finish => exact absurd rfl hl
      | newline | indent | dedent => rfl

instance : Inward (Outlined whole heads) :=
  ⟨fun {t ts} h ht => by
    have taken : Parse.Next (Outlined whole heads) t.lexeme (t :: ts) := ⟨h, rfl⟩
    refine Outlined.take taken fun hl => ?_
    rw [hl] at ht
    cases ht⟩

end Parsers

/-! ## Logical lines on lines of their own -/

/-- The words among the tokens are on lines before line `n`. -/
def WordsBefore (n : Nat) (tokens : List Token) : Prop :=
  ∀ x ∈ tokens, x.lexeme.isLayout = false → x.line < n

/-- A word that begins a logical line is on a later line than the words before it. The tokens are
given newest first. -/
def LinesApart : List Token → Prop
  | [] => True
  | x :: older => LinesApart older ∧
    (x.lexeme.isLayout = false → Scan.AtLayout older → WordsBefore x.line older)

section Tokens

variable {n m : Nat} {x y : Token} {tokens newer older newer' older' : List Token}

theorem WordsBefore.mono (h : WordsBefore n tokens) (hle : n ≤ m) : WordsBefore m tokens :=
  fun x hx hword => Nat.lt_of_lt_of_le (h x hx hword) hle

theorem WordsBefore.layout (h : WordsBefore n tokens)
    (hnewer : ∀ x ∈ newer, x.lexeme.isLayout = true) : WordsBefore n (newer ++ tokens) := by
  intro x hx hword
  rcases List.mem_append.mp hx with hx | hx
  · cases (hnewer x hx).symm.trans hword
  · exact h x hx hword

theorem LinesApart.layout (h : LinesApart tokens)
    (hnewer : ∀ x ∈ newer, x.lexeme.isLayout = true) : LinesApart (newer ++ tokens) := by
  induction newer with
  | nil => exact h
  | cons x newer ih =>
    obtain ⟨hx, hnewer⟩ := List.forall_mem_cons.mp hnewer
    exact ⟨ih hnewer, fun hword => nomatch hx.symm.trans hword⟩

theorem LinesApart.of_append (h : LinesApart (newer ++ tokens)) : LinesApart tokens := by
  induction newer with
  | nil => exact h
  | cons x newer ih => exact ih h.1

/-- The first word of a logical line is known by its line. -/
theorem LinesApart.unique (h : LinesApart (newer ++ x :: older))
    (heq : newer ++ x :: older = newer' ++ y :: older') (hx : x.lexeme.isLayout = false)
    (hy : y.lexeme.isLayout = false) (layout : Scan.AtLayout older)
    (layout' : Scan.AtLayout older') (hline : x.line = y.line) : newer = newer' := by
  have later {a b : Token} {newer older : List Token} (ha : a.lexeme.isLayout = false)
      (hb : b.lexeme.isLayout = false) (layout : Scan.AtLayout older)
      (hmem : b ∈ older) (h : LinesApart (newer ++ a :: older)) : a.line ≠ b.line :=
    (Nat.ne_of_lt (h.of_append.2 ha layout b hmem hb)).symm
  rcases List.append_eq_append_iff.mp heq with ⟨front, hfront, hback⟩ | ⟨front, hfront, hback⟩
  · cases front with
    | nil => rw [hfront, List.append_nil]
    | cons a front =>
      obtain ⟨rfl, rfl⟩ := List.cons.inj hback
      exact absurd hline (later hx hy layout (by simp) h)
  · cases front with
    | nil => rw [hfront, List.append_nil]
    | cons a front =>
      obtain ⟨rfl, rfl⟩ := List.cons.inj hback
      exact absurd hline.symm (later hy hx layout' (by simp) (heq ▸ h))

end Tokens

namespace Scan

variable {cs : List Char} {s t u : Scan}

/-- The words so far are on the lines up to that of the scanner, and on lines before it where a
logical line begins. -/
structure Spaced (s : Scan) : Prop where
  apart : LinesApart s.tokens
  fresh : s.fresh = true → s.atLayout = true
  here : WordsBefore (s.line + 1) s.tokens
  begun : s.atLayout = true → WordsBefore s.line s.tokens

namespace Spaced

theorem advance (h : s.Spaced) (n : Nat) (rest : List Char) :
    ({ s with rest, line := s.line + n } : Scan).Spaced where
  apart := h.apart
  fresh := h.fresh
  here := h.here.mono (by dsimp only; omega)
  begun layout := (h.begun layout).mono (Nat.le_add_right ..)

theorem endLine (h : s.Spaced) : LinesApart (s.endLine #[]).tokens ∧
    WordsBefore (s.line + 1) (s.endLine #[]).tokens := by
  rw [Scan.endLine]
  split
  · exact ⟨h.apart, h.here⟩
  · have layout : ∀ x ∈ [(⟨.mark Layout.newline, s.line⟩ : Token)], x.lexeme.isLayout = true :=
      List.forall_mem_singleton.mpr rfl
    exact ⟨h.apart.layout layout, h.here.layout layout⟩

theorem reading (h : s.Spaced) (hfresh : s.fresh = false) (hread : Reading #[] s cs t) :
    t.Spaced := by
  cases hread with
  | newline rest =>
    rw [passLine]
    split
    · obtain ⟨apart, here⟩ := h.endLine
      exact ⟨apart, fun _ => atLayout_endLine, here.mono (Nat.le_succ _), fun _ => here⟩
    · exact ⟨h.apart, h.fresh, h.here.mono (Nat.le_succ _), fun _ => h.here⟩
  | skip n rest => exact h.advance n rest
  | token n rest l depth _ hl =>
    obtain ⟨word, -, spelled⟩ := hl
    have moved := h.advance n rest
    refine ⟨⟨moved.apart, fun _ layout => moved.begun layout⟩, ?_, ?_, fun layout => ?_⟩
    · intro fresh
      cases hfresh.symm.trans fresh
    · exact List.forall_mem_cons.mpr ⟨fun _ => Nat.lt_succ_self _, moved.here⟩
    · rw [atLayout_word rfl spelled.isLayout] at layout
      cases layout

theorem shifts {shifts : List Token} (h : s.Spaced) (hfresh : s.fresh = true)
    (hshifts : ∀ x ∈ shifts, IsShift s.line x) (widths : List Nat) :
    ({ s with widths, tokens := shifts ++ s.tokens, fresh := false } : Scan).Spaced := by
  have layout : ∀ x ∈ shifts, x.lexeme.isLayout = true := fun x hx => by
    rcases hshifts x hx with rfl | rfl <;> rfl
  have begun := (h.begun (h.fresh hfresh)).layout layout
  exact ⟨h.apart.layout layout, nofun, begun.mono (Nat.le_succ _), fun _ => begun⟩

theorem step (h : s.Spaced) (hs : s.rest ≠ []) (hstep : s.step #[] = .ok t) : t.Spaced := by
  cases step_stepping hstep hs with
  | inside hfresh hread => exact h.reading hfresh hread
  | blank n rest => exact h.advance n rest
  | starts shifts widths hfresh _ _ hshifts hread =>
    exact (h.shifts hfresh hshifts widths).reading rfl hread

end Spaced

/-- No two logical lines of a text begin on one line. -/
theorem finish_apart {text : List Char} (h : (start text).run #[] = .ok u) :
    LinesApart (u.finish #[]).reverse := by
  have first : (start text).Spaced := ⟨trivial, fun _ => rfl, nofun, fun _ => nofun⟩
  obtain ⟨spaced, -⟩ := run_induction (P := Spaced) (fun _ _ hs hstep h => h.step hs hstep) h first
  rw [finish_eq, List.reverse_append, List.reverse_reverse]
  refine spaced.endLine.1.layout fun x hx => ?_
  obtain ⟨l, hl, -⟩ := lastTokens_layout _ _ x (List.mem_reverse.mp hx)
  rw [hl]
  rfl

end Scan

/-- A program has at most one function on each line. -/
theorem Outline.unique {tokens : List Token} {heads : List (Nat × String)} {n : Nat}
    {name other : String} (h : Outline tokens heads) (apart : LinesApart tokens)
    (hname : (n, name) ∈ heads) (hother : (n, other) ∈ heads) : name = other := by
  obtain ⟨k, k', newer, older, heq, layout⟩ := h.of_mem hname
  obtain ⟨m, m', newer', older', heq', layout'⟩ := h.of_mem hother
  have first (newer older : List Token) (k k' : Nat) (name : String) :
      newer ++ ⟨.mark Punct.lparen, k'⟩ :: ⟨.name name, k⟩ :: ⟨.mark Keyword.defKw, n⟩ :: older
        = (newer ++ [⟨.mark Punct.lparen, k'⟩, ⟨.name name, k⟩])
          ++ ⟨.mark Keyword.defKw, n⟩ :: older := by
    simp
  rw [first] at heq heq'
  rw [heq] at apart
  have same := apart.unique (heq.symm.trans heq') rfl rfl layout layout' rfl
  have last : name = other ∧ k = m := by simpa using congrArg List.getLast? same
  exact last.1

end SortTrace.Script
