import SortTrace.Proofs.Instrumenting.Beside

/-!
# The layout of a text with calls

A text is a sequence of logical lines, each with the width of its indentation. Which tokens stand
for the opening and closing of blocks between them follows from the widths (`LaidOut`). A call put
between two lines, at whatever width, may close blocks that the next line is still in, or open one
that the next line does not continue: then the text with the calls cannot be a program. So the
tokens of both texts go on beside each other: `LaidOut.beside`.
-/

namespace SortTrace.Script

open Parse

variable {x : Lexeme} {n w : Nat} {t : Token} {ts ts' rest rest' P Q : List Token}
  {ws ws' : List Nat}

/-! ## Logical lines -/

/-- A logical line: the width of its indentation, and its tokens up to its end. -/
structure LogicalLine where
  width : Nat
  tokens : List Token

/-- Words with the end of their line. A line of nothing but backslashes has no tokens at all. -/
def WholeLine (ts : List Token) : Prop :=
  ts = [] ∨ ∃ used t, ts = used ++ [t] ∧ used ≠ [] ∧
    (∀ y ∈ used, y.lexeme.isLayout = false) ∧ t.lexeme = .mark Layout.newline

/-- The second lines are the first ones with calls between them. -/
inductive WithCalls (x : Lexeme) : List LogicalLine → List LogicalLine → Prop
  | nil : WithCalls x [] []
  | line {l : LogicalLine} {ls ls' : List LogicalLine} (hl : WholeLine l.tokens)
    (h : WithCalls x ls ls') : WithCalls x (l :: ls) (l :: ls')
  | call {ls ls' : List LogicalLine} (width n : Nat) (h : WithCalls x ls ls') :
    WithCalls x ls (⟨width, callTokens n x⟩ :: ls')

variable {l : LogicalLine} {ls ls' : List LogicalLine}

theorem WithCalls.append {more more' : List LogicalLine} (h : WithCalls x ls ls')
    (hmore : WithCalls x more more') : WithCalls x (ls ++ more) (ls' ++ more') := by
  induction h with
  | nil => exact hmore
  | line hl _ ih => exact .line hl ih
  | call width n _ ih => exact .call width n ih

/-- Where blocks of the given widths are open, innermost first, the lines up to the end of the text
have the given tokens. -/
inductive LaidOut : List Nat → List LogicalLine → List Token → Prop
  | finish {t : Token} (ht : t.lexeme = .mark Layout.finish) : LaidOut [] [] [t]
  | close {t : Token} {w : Nat} {ws : List Nat} {ts : List Token}
    (ht : t.lexeme = .mark Layout.dedent) (h : LaidOut ws [] ts) : LaidOut (w :: ws) [] (t :: ts)
  | indent {t : Token} {ws : List Nat} {l : LogicalLine} {ls : List LogicalLine} {ts : List Token}
    (ht : t.lexeme = .mark Layout.indent) (hw : ws.headD 0 < l.width)
    (h : LaidOut (l.width :: ws) (l :: ls) ts) : LaidOut ws (l :: ls) (t :: ts)
  | dedent {t : Token} {w : Nat} {ws : List Nat} {l : LogicalLine} {ls : List LogicalLine}
    {ts : List Token} (ht : t.lexeme = .mark Layout.dedent) (hw : l.width < w)
    (h : LaidOut ws (l :: ls) ts) : LaidOut (w :: ws) (l :: ls) (t :: ts)
  | line {ws : List Nat} {l : LogicalLine} {ls : List LogicalLine} {ts : List Token}
    (hw : ws.headD 0 = l.width) (h : LaidOut ws ls ts) : LaidOut ws (l :: ls) (l.tokens ++ ts)

/-! ## The widths of open blocks -/

/-- The widths of open blocks, innermost first: each block is deeper than the one around it. -/
def Nested : List Nat → Prop
  | [] => True
  | w :: ws => ws.headD 0 < w ∧ Nested ws

theorem Nested.suffix (h : Nested ws) (hs : ws' <:+ ws) : Nested ws' := by
  induction ws with
  | nil =>
    rw [List.suffix_nil.mp hs]
    exact h
  | cons w ws ih =>
    rcases List.suffix_cons_iff.mp hs with rfl | hs
    · exact h
    · exact ih h.2 hs

theorem Nested.headD_lt (h : Nested ws) (hs : ws' <:+ ws) (hne : ws' ≠ ws) :
    ws'.headD 0 < ws.headD 0 := by
  induction ws with
  | nil => exact absurd (List.suffix_nil.mp hs) hne
  | cons w ws ih =>
    have inner : ws' <:+ ws := (List.suffix_cons_iff.mp hs).resolve_left hne
    have outer : ws.headD 0 < w := h.1
    by_cases heq : ws' = ws
    · rw [heq]
      exact outer
    · exact Nat.lt_trans (ih h.2 inner heq) outer

theorem Nested.headD_le (h : Nested ws) (hs : ws' <:+ ws) : ws'.headD 0 ≤ ws.headD 0 := by
  by_cases heq : ws' = ws
  · rw [heq]
  · exact Nat.le_of_lt (h.headD_lt hs heq)

/-- At the end of the text the open blocks are closed. -/
theorem LaidOut.closes (h : LaidOut ws [] ts) : ∃ ds last, ts = ds ++ [last] ∧
    ds.length = ws.length ∧ (∀ y ∈ ds, y.lexeme = .mark Layout.dedent) ∧
    last.lexeme = .mark Layout.finish := by
  induction ws generalizing ts with
  | nil =>
    cases h with
    | finish ht => exact ⟨[], _, rfl, rfl, by simp, ht⟩
  | cons w ws ih =>
    cases h with
    | close ht h =>
      obtain ⟨ds, last, rfl, hlength, hds, hlast⟩ := ih h
      exact ⟨_ :: ds, last, rfl, by simp [hlength], List.forall_mem_cons.mpr ⟨ht, hds⟩, hlast⟩

/-- A block is opened for a line that is deeper than the blocks that are open. -/
theorem LaidOut.opens (h : LaidOut ws (l :: ls) ts) (hw : ws.headD 0 < l.width)
    (hl : lexemeOf ts = .mark Layout.indent) :
    ∃ t rest, ts = t :: rest ∧ LaidOut (l.width :: ws) (l :: ls) rest := by
  cases h with
  | indent _ _ h => exact ⟨_, _, rfl, h⟩
  | dedent ht =>
    rw [lexemeOf_cons, ht] at hl
    cases hl
  | line hw' => omega

/-- Before a line of the width of an open block the blocks inside that one are closed. -/
theorem LaidOut.returns (h : LaidOut ws (l :: ls) ts) (hn : Nested ws) (hs : ws' <:+ ws)
    (hw : ws'.headD 0 = l.width) : ∃ ds rest, ts = ds ++ (l.tokens ++ rest) ∧
      ds.length + ws'.length = ws.length ∧ (∀ y ∈ ds, y.lexeme = .mark Layout.dedent) ∧
      LaidOut ws' ls rest := by
  have highest := hn.headD_le hs
  induction ws generalizing ts with
  | nil =>
    obtain rfl := List.suffix_nil.mp hs
    cases h with
    | indent _ hw' => omega
    | line _ h => exact ⟨[], _, rfl, rfl, by simp, h⟩
  | cons w ws ih =>
    cases h with
    | indent _ hw' => omega
    | dedent ht hw' h =>
      have other : ws' ≠ w :: ws := by
        rintro rfl
        rw [List.headD_cons] at hw
        omega
      have inner : ws' <:+ ws := (List.suffix_cons_iff.mp hs).resolve_left other
      obtain ⟨ds, rest, rfl, hlength, hds, hrest⟩ := ih h hn.2 inner (hn.2.headD_le inner)
      exact ⟨_ :: ds, rest, rfl, by simp only [List.length_cons]; omega,
        List.forall_mem_cons.mpr ⟨ht, hds⟩, hrest⟩
    | line hw' h =>
      have same : ws' = w :: ws := by
        by_contra other
        have lower := hn.headD_lt hs other
        omega
      subst same
      exact ⟨[], _, rfl, Nat.zero_add _, by simp, h⟩

/-! ## Calls that go down -/

/-- Closings of `n` blocks, with calls between them. -/
inductive Descent (x : Lexeme) : Nat → List Token → Prop
  | nil : Descent x 0 []
  | dedent {n : Nat} {t : Token} {ts : List Token} (ht : t.lexeme = .mark Layout.dedent)
    (h : Descent x n ts) : Descent x (n + 1) (t :: ts)
  | call {n : Nat} {ts : List Token} (k : Nat) (h : Descent x n ts) :
    Descent x n (callTokens k x ++ ts)

namespace Descent

theorem snocDedent (h : Descent x n P) (ht : t.lexeme = .mark Layout.dedent) :
    Descent x (n + 1) (P ++ [t]) := by
  induction h with
  | nil => exact .dedent ht .nil
  | dedent ht' _ ih => exact .dedent ht' ih
  | call k _ ih =>
    rw [List.append_assoc]
    exact .call k ih

theorem snocCall (h : Descent x n P) (k : Nat) : Descent x n (P ++ callTokens k x) := by
  induction h with
  | nil => exact .call k .nil
  | dedent ht _ ih => exact .dedent ht ih
  | call k' _ ih =>
    rw [List.append_assoc]
    exact .call k' ih

theorem stuck (h : Descent x n P) (hs : Stuck x ts) : Stuck x (P ++ ts) := by
  induction h with
  | nil => exact hs
  | dedent ht _ ih => exact .dedent ht ih
  | call k _ ih =>
    rw [List.append_assoc]
    exact .call k ih

/-- A further part of a statement cannot come after a call. -/
theorem orphan (h : Descent x 0 Q) (hne : Q ≠ []) (ht : (lexemeOf ts).goesOn = true) :
    Stuck x (Q ++ ts) := by
  generalize hn : 0 = n at h
  induction h with
  | nil => exact absurd rfl hne
  | dedent => cases hn
  | @call n Q k h ih =>
    by_cases hQ : Q = []
    · subst hQ
      cases ts with
      | nil => cases ht
      | cons t ts => exact .orphan k ht
    · rw [List.append_assoc]
      exact .call k (ih hQ hn)

/-- The next block is opened behind closings or calls in one text. -/
theorem beside_indent (h : Descent x n P) (hne : P ≠ []) (ht : t.lexeme = .mark Layout.indent) :
    Beside x ts (P ++ t :: ts') := by
  by_cases hl : lexemeOf ts = .mark Layout.indent
  · refine .before hl ?_
    cases h with
    | nil => exact absurd rfl hne
    | dedent ht' => exact .inl ht'
    | call => exact .inr rfl
  · exact .stuck hl (h.stuck (.indent ht))

/-- The same blocks are closed in both texts. -/
theorem beside {ds : List Token} (h : Descent x n P) (hn : ds.length = n)
    (hds : ∀ y ∈ ds, y.lexeme = .mark Layout.dedent)
    (hrest : ∀ Q, Descent x 0 Q → Beside x rest (Q ++ rest')) :
    Beside x (ds ++ rest) (P ++ rest') := by
  induction h generalizing ds with
  | nil =>
    obtain rfl := List.length_eq_zero_iff.mp hn
    exact hrest [] .nil
  | dedent ht' _ ih =>
    obtain ⟨d, ds, rfl⟩ := List.exists_cons_of_length_eq_add_one hn
    obtain ⟨hd, hds⟩ := List.forall_mem_cons.mp hds
    exact .dedent hd ht' (ih (Nat.succ.inj hn) hds)
  | @call n P k h ih =>
    cases ds with
    | nil =>
      obtain rfl : 0 = n := hn
      exact hrest _ (.call k h)
    | cons d ds =>
      have first : (lexemeOf (d :: ds ++ rest)).goesOn = false := by
        rw [List.cons_append, lexemeOf_cons, hds d (List.mem_cons_self ..)]
        rfl
      rw [List.append_assoc]
      exact .call k first (ih hn hds)

/-- Calls come before what is no further part of a statement. -/
theorem beside_calls (h : Descent x 0 Q) (hts : (lexemeOf ts).goesOn = false)
    (hb : Beside x ts ts') : Beside x ts (Q ++ ts') := by
  generalize hn : 0 = n at h
  induction h with
  | nil => exact hb
  | dedent => cases hn
  | call k _ ih =>
    rw [List.append_assoc]
    exact .call k hts (ih hn)

/-- A line behind calls. -/
theorem beside_line (h : Descent x 0 Q) (hl : WholeLine l.tokens)
    (hrest : ∀ Q, Descent x 0 Q → Beside x rest (Q ++ rest')) :
    Beside x (l.tokens ++ rest) (Q ++ (l.tokens ++ rest')) := by
  rcases hl with hnil | ⟨used, t, htokens, hne, hu, ht⟩
  · rw [hnil]
    exact hrest Q h
  · obtain ⟨y, used, rfl⟩ := List.exists_cons_of_ne_nil hne
    have line : Beside x (l.tokens ++ rest) (l.tokens ++ rest') := by
      rw [htokens, List.append_assoc, List.append_assoc]
      exact .line hne hu ht (hrest [] .nil)
    have first (more : List Token) : lexemeOf (l.tokens ++ more) = y.lexeme := by
      rw [htokens]
      rfl
    by_cases hy : y.lexeme.goesOn = true
    · by_cases hQ : Q = []
      · rw [hQ]
        exact line
      · refine .stuck ?_ (h.orphan hQ (by rw [first, hy]))
        rw [first]
        intro heq
        rw [heq] at hy
        cases hy
    · exact h.beside_calls (by rw [first]; exact Bool.not_eq_true _ ▸ hy) line

end Descent

/-! ## Both texts -/

theorem LaidOut.lexemeOf_nil (h : LaidOut ws [] ts) : lexemeOf ts ≠ .mark Layout.indent := by
  intro hl
  cases h with
  | finish ht | close ht =>
    rw [lexemeOf_cons, ht] at hl
    cases hl

/-- Where calls have closed blocks that the next line is in, no program goes on. -/
theorem LaidOut.stuck (h' : LaidOut ws' ls' ts') (hcalls : WithCalls x ls ls') (hn : Nested ws)
    (hs : ws' <:+ ws) (h : LaidOut ws ls ts) (hl : lexemeOf ts = .mark Layout.indent) :
    Stuck x ts' := by
  induction h' generalizing ws ls ts with
  | finish | close =>
    cases hcalls
    exact absurd hl h.lexemeOf_nil
  | indent ht => exact .indent ht
  | dedent ht _ _ ih => exact .dedent ht (ih hcalls hn ((List.suffix_cons ..).trans hs) h hl)
  | line hw' _ ih =>
    cases hcalls with
    | call width n hcalls => exact .call n (ih hcalls hn hs h hl)
    | line hwhole hcalls =>
      obtain ⟨ds, rest, rfl, -, hds, hrest⟩ := h.returns hn hs hw'
      cases ds with
      | cons d ds =>
        rw [List.cons_append, lexemeOf_cons, hds d (List.mem_cons_self ..)] at hl
        cases hl
      | nil =>
        rcases hwhole with hnil | ⟨used, t, htokens, hne, hu, -⟩
        · rw [hnil] at hl ⊢
          exact ih hcalls (hn.suffix hs) List.suffix_rfl hrest hl
        · obtain ⟨y, used, rfl⟩ := List.exists_cons_of_ne_nil hne
          rw [htokens] at hl
          have first : y.lexeme = .mark Layout.indent := hl
          have word := hu y (List.mem_cons_self ..)
          rw [first] at word
          cases word

section

variable (x) (ws' : List Nat) (ls' : List LogicalLine) (ts' : List Token)

/-- From here on the text with calls goes on beside the text, where calls may have closed blocks
that are still open in the text. -/
def GoesDown : Prop :=
  ∀ ⦃ws ls ts n P⦄, WithCalls x ls ls' → Nested ws → ws' <:+ ws → Descent x n P →
    n + ws'.length = ws.length → LaidOut ws ls ts → Beside x ts (P ++ ts')

/-- From here on the text with calls goes on beside the text, where the innermost block was opened
by a call. -/
def GoesUp : Prop :=
  ∀ ⦃d ws ls ts Q t⦄, WithCalls x ls ls' → ws' = d :: ws → Nested ws' → Descent x 0 Q →
    t.lexeme = .mark Layout.indent → LaidOut ws ls ts → Beside x ts (t :: (Q ++ ts'))

end

theorem GoesDown.dedent (h : GoesDown x ws' ls' ts') (ht : t.lexeme = .mark Layout.dedent) :
    GoesDown x (w :: ws') ls' (t :: ts') := by
  intro ws ls ts n P hcalls hn hs hP hlength hlaid
  have beside := h hcalls hn ((List.suffix_cons ..).trans hs) (hP.snocDedent ht)
    (by rw [List.length_cons] at hlength; omega) hlaid
  rwa [List.append_assoc] at beside

theorem GoesDown.finish (ht : t.lexeme = .mark Layout.finish) : GoesDown x [] [] [t] := by
  intro ws ls ts n P hcalls _ _ hP hlength h
  cases hcalls
  obtain ⟨ds, last, rfl, hds, hdedent, hlast⟩ := h.closes
  refine hP.beside (hds.trans hlength.symm) hdedent fun Q hQ => ?_
  exact hQ.beside_calls (by rw [lexemeOf_cons, hlast]; rfl) (.finish hlast ht)

theorem GoesDown.line (h : GoesDown x ws' ls' ts') (hw : ws'.headD 0 = l.width) :
    GoesDown x ws' (l :: ls') (l.tokens ++ ts') := by
  intro ws ls ts n P hcalls hn hs hP hlength hlaid
  cases hcalls with
  | call width k hcalls =>
    have beside := h hcalls hn hs (hP.snocCall k) hlength hlaid
    rwa [List.append_assoc] at beside
  | line hl hcalls =>
    obtain ⟨ds, rest, rfl, hclosed, hds, hrest⟩ := hlaid.returns hn hs hw
    refine hP.beside (by omega) hds fun Q hQ => hQ.beside_line hl fun Q hQ => ?_
    exact h hcalls (hn.suffix hs) List.suffix_rfl hQ (Nat.zero_add _) hrest

theorem GoesDown.indent (h : GoesUp x (l.width :: ws') (l :: ls') ts')
    (ht : t.lexeme = .mark Layout.indent) (hw : ws'.headD 0 < l.width) :
    GoesDown x ws' (l :: ls') (t :: ts') := by
  intro ws ls ts n P hcalls hn hs hP hlength hlaid
  by_cases hne : P = []
  · subst hne
    cases hP
    obtain rfl := hs.eq_of_length (by omega)
    exact h hcalls rfl ⟨hw, hn⟩ .nil ht hlaid
  · exact hP.beside_indent hne ht

/-- Only where the text opens a block the next token matters. -/
theorem GoesUp.of_indent
    (h : ∀ ⦃d ws ls ts Q t t₀⦄, WithCalls x ls ls' → ws' = d :: ws → Nested ws' → Descent x 0 Q →
      t.lexeme = .mark Layout.indent → t₀.lexeme = .mark Layout.indent → LaidOut ws ls (t₀ :: ts) →
      Beside x (t₀ :: ts) (t :: (Q ++ ts'))) : GoesUp x ws' ls' ts' := by
  intro d ws ls ts Q t hcalls hws hn hQ ht hlaid
  by_cases hl : lexemeOf ts = .mark Layout.indent
  · cases ts with
    | nil => cases hl
    | cons t₀ ts => exact h hcalls hws hn hQ ht hl hlaid
  · exact .stuck hl (.indent ht)

theorem GoesUp.nil : GoesUp x ws' [] ts' := by
  refine .of_indent fun d ws ls ts Q t t₀ hcalls _ _ _ _ hl hlaid => ?_
  cases hcalls
  exact absurd hl hlaid.lexemeOf_nil

theorem GoesUp.dedent (h' : LaidOut ws' ls' ts') (ht' : t.lexeme = .mark Layout.dedent) :
    GoesUp x (w :: ws') ls' (t :: ts') := by
  refine .of_indent fun d ws ls ts Q t t₀ hcalls hws hn hQ ht hl hlaid => ?_
  obtain ⟨-, rfl⟩ := List.cons.inj hws
  exact .opened hl ht (hQ.stuck (.dedent ht' (h'.stuck hcalls hn.2 List.suffix_rfl hlaid hl)))

theorem GoesUp.indent (ht' : t.lexeme = .mark Layout.indent) : GoesUp x ws' ls' (t :: ts') :=
  .of_indent fun _ _ _ _ _ _ _ _ _ _ hQ ht hl _ => .opened hl ht (hQ.stuck (.indent ht'))

theorem GoesUp.line (h : GoesUp x ws' ls' ts') (hdown : GoesDown x ws' ls' ts')
    (hw : ws'.headD 0 = l.width) : GoesUp x ws' (l :: ls') (l.tokens ++ ts') := by
  refine .of_indent fun d ws ls ts Q t t₀ hcalls hws hn hQ ht hl hlaid => ?_
  cases hcalls with
  | call width k hcalls =>
    have beside := h hcalls hws hn (hQ.snocCall k) ht hlaid
    rwa [List.append_assoc] at beside
  | line hwhole hcalls =>
    subst hws
    obtain rfl : d = l.width := hw
    -- The text opens the same block for the line.
    obtain ⟨t₁, ts₁, heq, hlaid⟩ := hlaid.opens hn.1 hl
    obtain ⟨rfl, rfl⟩ := List.cons.inj heq
    obtain ⟨ds, rest, rfl, hlength, -, hrest⟩ := hlaid.returns hn List.suffix_rfl rfl
    obtain rfl : ds = [] := List.length_eq_zero_iff.mp (by omega)
    refine .indent hl ht (hQ.beside_line hwhole fun Q hQ => ?_)
    exact hdown hcalls hn List.suffix_rfl hQ (Nat.zero_add _) hrest

/-- The tokens of a text and of the text with calls go on beside each other. -/
theorem LaidOut.beside (h : LaidOut [] ls ts) (h' : LaidOut [] ls' ts')
    (hcalls : WithCalls x ls ls') : Beside x ts ts' := by
  have both {ws' ls' ts'} (h' : LaidOut ws' ls' ts') :
      GoesDown x ws' ls' ts' ∧ GoesUp x ws' ls' ts' := by
    induction h' with
    | finish ht => exact ⟨.finish ht, .nil⟩
    | close ht _ ih => exact ⟨ih.1.dedent ht, .nil⟩
    | indent ht hw _ ih => exact ⟨.indent ih.2 ht hw, .indent ht⟩
    | dedent ht _ h' ih => exact ⟨ih.1.dedent ht, .dedent h' ht⟩
    | line hw _ ih => exact ⟨ih.1.line hw, ih.2.line ih.1 hw⟩
  have nested : Nested [] := trivial
  exact (both h').1 hcalls nested List.suffix_rfl .nil rfl h

end SortTrace.Script
