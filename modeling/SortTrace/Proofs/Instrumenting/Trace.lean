import SortTrace.Proofs.Instrumenting.Steps

/-!
# The tokens of a piece of text

The tokens that the scanner makes follow the layout of the text. A piece of text on lines that do
not write stays between its logical lines or inside one of them (`run_quiet`). On a line that is
read alone the scanner first changes the indentation and then reads words (`run_line`).
-/

namespace SortTrace.Script.Scan

variable {writes : Nat → Bool} {last n : Nat} {base tokens rest : List Token}
  {s t : Scan} {cs : List Char}

/-! ## The way to a phase -/

/-- The tokens, newest first, lead from the beginning of a text to the given phase. -/
inductive Reaches (writes : Nat → Bool) : List Token → Phase → Prop
  | nil : Reaches writes [] (.between 0)
  | cons {t : Token} {tokens : List Token} {phase phase' : Phase} (h : Reaches writes tokens phase)
    (hn : Next writes phase t phase') : Reaches writes (t :: tokens) phase'

theorem Reaches.follows {phase : Phase} (h : Reaches writes tokens phase)
    (hrest : Follows writes phase rest) :
    Follows writes (.between 0) (tokens.reverse ++ rest) := by
  induction h generalizing rest with
  | nil => exact hrest
  | cons _ hn ih =>
    rw [List.reverse_cons, List.append_assoc]
    exact ih (.cons hn hrest)

theorem Reaches.shifts {shifts : List Token} (h : Reaches writes tokens (.between last))
    (hs : ∀ x ∈ shifts, IsShift n x) : Reaches writes (shifts ++ tokens) (.between last) := by
  induction shifts with
  | nil => exact h
  | cons x shifts ih =>
    refine .cons (ih fun x hx => hs x (List.mem_cons_of_mem _ hx)) ?_
    rcases hs x (List.mem_cons_self ..) with rfl | rfl
    · exact .layout rfl nofun
    · exact .layout rfl nofun

/-- The words of a line that writes, after its indentation. -/
theorem Reaches.words {first : Token} {words : List Token}
    (h : Reaches writes tokens (.between last))
    (hn : writes n = true) (hlast : last < n) (hc : ∀ w ∈ compoundWords, first.lexeme ≠ .mark w)
    (hw : ∀ x ∈ words ++ [first], x.lexeme.isLayout = false ∧ x.line = n) :
    Reaches writes (words ++ (first :: tokens)) (.written n) := by
  induction words with
  | nil =>
    obtain ⟨hword, rfl⟩ := hw first (List.mem_cons_self ..)
    exact .cons h (.opensWritten hword hn hlast hc)
  | cons x words ih =>
    have others := ih fun x hx => hw x (List.mem_cons_of_mem _ hx)
    obtain ⟨hword, rfl⟩ := hw x (List.mem_cons_self ..)
    exact .cons others (.goesOnWritten hword)

/-! ## Lines that do not write -/

theorem atLayout_word {x : Token} (hs : s.tokens = x :: tokens) (hx : x.lexeme.isLayout = false) :
    s.atLayout = false := by
  rw [atLayout, hs]
  dsimp only
  split
  · rfl
  · next hl =>
    rw [hl] at hx
    cases hx
  · rfl

/-- Between two logical lines, or inside one that is on no line that writes. -/
def phase (last : Nat) (s : Scan) : Phase :=
  if s.atLayout then .between last else .inside last

/-- The scanner has read a piece of text on lines that do not write, after the tokens `base`. -/
structure Quiet (writes : Nat → Bool) (last : Nat) (base : List Token) (s : Scan) : Prop where
  tokens : ∃ new, s.tokens = new ++ base ∧ ∀ x ∈ new, writes x.line = false ∧ x.line ≤ s.line
  reaches : Reaches writes s.tokens (s.phase last)
  fresh : s.fresh = true → s.atLayout = true

namespace Quiet

theorem skip (h : Quiet writes last base s) (n : Nat) (rest : List Char) :
    Quiet writes last base { s with rest, line := s.line + n } := by
  obtain ⟨new, htokens, hnew⟩ := h.tokens
  refine ⟨⟨new, htokens, fun x hx => ?_⟩, h.reaches, h.fresh⟩
  exact ⟨(hnew x hx).1, Nat.le_trans (hnew x hx).2 (Nat.le_add_right ..)⟩

/-- A token is added that leads from the phase of the scan to that after it. -/
theorem push {l : Lexeme} (h : Quiet writes last base s) (hw : writes s.line = false)
    (hn : Next writes (s.phase last) ⟨l, s.line⟩ ((s.push #[] l).phase last))
    (hfresh : s.fresh = true → (s.push #[] l).atLayout = true) :
    Quiet writes last base (s.push #[] l) := by
  obtain ⟨new, htokens, hnew⟩ := h.tokens
  refine ⟨⟨⟨l, s.line⟩ :: new, ?_, ?_⟩, .cons h.reaches hn, hfresh⟩
  · rw [Scan.push, htokens]
    rfl
  · exact List.forall_mem_cons.mpr ⟨⟨hw, Nat.le_refl _⟩, hnew⟩

theorem word {l : Lexeme} (h : Quiet writes last base s) (hw : writes s.line = false)
    (hfresh : s.fresh = false) (hl : l.isLayout = false) :
    Quiet writes last base (s.push #[] l) := by
  have inside : (s.push #[] l).atLayout = false := atLayout_word rfl hl
  refine h.push hw ?_ (by rw [hfresh]; nofun)
  rw [phase, phase, inside]
  split
  · exact .opens hl hw
  · exact .goesOn hl hw

theorem endLine (h : Quiet writes last base s) (hw : writes s.line = false) :
    Quiet writes last base (s.endLine #[]) ∧ (s.endLine #[]).atLayout = true := by
  rw [Scan.endLine]
  split
  · next hlayout => exact ⟨h, hlayout⟩
  · next hlayout =>
    refine ⟨h.push hw ?_ fun _ => rfl, rfl⟩
    rw [phase, if_neg hlayout]
    exact .ends rfl hw

theorem shifts {shifts : List Token} (h : Quiet writes last base s) (hw : writes s.line = false)
    (hfresh : s.fresh = true) (hs : ∀ x ∈ shifts, IsShift s.line x) (widths : List Nat) :
    Quiet writes last base { s with widths, tokens := shifts ++ s.tokens, fresh := false } := by
  obtain ⟨new, htokens, hnew⟩ := h.tokens
  have layout := h.fresh hfresh
  have reaches := h.reaches
  rw [phase, if_pos layout] at reaches
  refine ⟨⟨shifts ++ new, ?_, ?_⟩, ?_, nofun⟩
  · rw [List.append_assoc, ← htokens]
  · intro x hx
    rcases List.mem_append.mp hx with hx | hx
    · rcases hs x hx with rfl | rfl
      · exact ⟨hw, Nat.le_refl _⟩
      · exact ⟨hw, Nat.le_refl _⟩
    · exact hnew x hx
  · have still : ({ s with widths, tokens := shifts ++ s.tokens, fresh := false } : Scan).atLayout
        = true := by
      cases shifts with
      | nil => exact layout
      | cons x shifts => rcases hs x (List.mem_cons_self ..) with rfl | rfl <;> rfl
    rw [phase, if_pos still]
    exact reaches.shifts hs

theorem reading (h : Quiet writes last base s) (hfresh : s.fresh = false)
    (hread : Reading #[] s cs t) (hw : ∀ m, s.line ≤ m → m ≤ t.line → writes m = false) :
    Quiet writes last base t := by
  cases hread with
  | newline rest hcs =>
    have passed : Quiet writes last base (s.passLine #[]) := by
      rw [passLine]
      split
      · obtain ⟨ended, layout⟩ := h.endLine (hw s.line (Nat.le_refl _) (Nat.le_succ _))
        exact ⟨ended.tokens, ended.reaches, fun _ => layout⟩
      · exact h
    have moved := passed.skip 1 rest
    rw [line_passLine] at moved
    exact moved
  | skip n rest hcs => exact h.skip n rest
  | token n rest l depth hcs hl =>
    obtain ⟨word, -, spelled⟩ := hl
    have moved := h.skip n rest
    have here : Quiet writes last base { s with rest, line := s.line + n, depth } :=
      ⟨moved.tokens, moved.reaches, moved.fresh⟩
    exact here.word (hw (s.line + n) (Nat.le_add_right ..) (Nat.le_refl _)) hfresh spelled.isLayout

theorem step (h : Quiet writes last base s) (hs : s.rest ≠ []) (hstep : s.step #[] = .ok t)
    (hw : ∀ m, s.line ≤ m → m ≤ t.line → writes m = false) : Quiet writes last base t := by
  cases step_stepping hstep hs with
  | inside hfresh hread => exact h.reading hfresh hread hw
  | blank n rest => exact h.skip n rest
  | starts shifts widths hfresh _ _ hshifts hread =>
    have first := h.shifts (hw s.line (Nat.le_refl _) (step_count hstep hs).2) hfresh hshifts widths
    exact first.reading rfl hread hw

end Quiet

/-- A piece of text on lines that do not write. -/
theorem run_quiet (h : Quiet writes last base s) (hrun : s.run #[] = .ok t)
    (hw : ∀ m, s.line ≤ m → m ≤ s.line + s.rest.count '\n' → writes m = false) :
    Quiet writes last base t ∧ t.line = s.line + s.rest.count '\n' := by
  let kept (u : Scan) : Prop := Quiet writes last base u ∧
    u.line + u.rest.count '\n' = s.line + s.rest.count '\n' ∧ s.line ≤ u.line
  have hkept : kept t ∧ t.rest = [] := by
    refine run_induction (P := kept) ?_ hrun ⟨h, rfl, Nat.le_refl _⟩
    rintro u v hne hstep ⟨hu, hcount, hle⟩
    obtain ⟨hcount', hle'⟩ := step_count hstep hne
    have quiet := hu.step hne hstep fun m hm hm' => hw m (by omega) (by omega)
    exact ⟨quiet, by omega, by omega⟩
  obtain ⟨⟨quiet, hcount, -⟩, hrest⟩ := hkept
  rw [hrest, List.count_nil, Nat.add_zero] at hcount
  exact ⟨quiet, hcount⟩

/-! ## A line that is read alone -/

/-- The scanner is on the line on which `s` starts. -/
inductive OnLine (s : Scan) : Scan → Prop
  | blank {u : Scan} (hfresh : u.fresh = true) (htokens : u.tokens = s.tokens)
    (hrest : u = s ∨ u.rest = []) : OnLine s u
  | words {u : Scan} (words shifts : List Token) (hfresh : u.fresh = false)
    (hwidth : u.widths.headD 0 = (margin 0 s.rest).1)
    (htokens : u.tokens = words ++ (shifts ++ s.tokens))
    (hwords : ∀ x ∈ words, x.lexeme.isLayout = false ∧ x.line = s.line)
    (hshifts : ∀ x ∈ shifts, IsShift s.line x) : OnLine s u

theorem OnLine.reading {u : Scan} {words shifts : List Token} (hread : Reading #[] u cs t)
    (hcs : cs.count '\n' = 0) (hline : u.line = s.line) (hfresh : u.fresh = false)
    (hwidth : u.widths.headD 0 = (margin 0 s.rest).1)
    (htokens : u.tokens = words ++ (shifts ++ s.tokens))
    (hwords : ∀ x ∈ words, x.lexeme.isLayout = false ∧ x.line = s.line)
    (hshifts : ∀ x ∈ shifts, IsShift s.line x) : OnLine s t := by
  cases hread with
  | newline rest h =>
    rw [h, List.count_cons_self] at hcs
    cases hcs
  | skip n rest h => exact .words words shifts hfresh hwidth htokens hwords hshifts
  | token n rest l depth h hl =>
    obtain ⟨word, -, spelled⟩ := hl
    have hcount := h.count
    refine .words (⟨l, u.line + n⟩ :: words) shifts hfresh hwidth ?_ ?_ hshifts
    · rw [push, htokens]
      rfl
    · refine List.forall_mem_cons.mpr ⟨⟨spelled.isLayout, ?_⟩, hwords⟩
      dsimp only
      omega

/-- A line without its end: nothing is read of a blank line, and of another one words after the
tokens for its indentation. -/
theorem run_line (hfresh : s.fresh = true) (hs : s.rest.count '\n' = 0)
    (hrun : s.run #[] = .ok t) : OnLine s t ∧ t.line = s.line := by
  let kept (u : Scan) : Prop := OnLine s u ∧
    u.line + u.rest.count '\n' = s.line + s.rest.count '\n' ∧ s.line ≤ u.line
  have hkept : kept t ∧ t.rest = [] := by
    refine run_induction (P := kept) ?_ hrun ⟨.blank hfresh rfl (.inl rfl), rfl, Nat.le_refl _⟩
    rintro u v hne hstep ⟨hu, hcount, hle⟩
    obtain ⟨hcount', hle'⟩ := step_count hstep hne
    have hline : u.line = s.line := by omega
    have hrest : u.rest.count '\n' = 0 := by omega
    refine ⟨?_, by omega, by omega⟩
    cases hu with
    | blank hfresh htokens hu =>
      obtain rfl := hu.resolve_right hne
      cases step_stepping hstep hne with
      | inside hinside =>
        rw [hfresh] at hinside
        cases hinside
      | blank n rest _ hcuts hend =>
        obtain rfl : n = 0 := by
          have hn := hcuts.count
          omega
        exact .blank hfresh rfl (.inr (hend.eq_nil hcuts))
      | starts shifts widths _ _ hwidth hshifts hread =>
        have hmargin := (margin_splits 0 u.rest).count
        have nothing : shifts ++ u.tokens = [] ++ (shifts ++ u.tokens) := rfl
        exact .reading hread (by omega) rfl rfl hwidth nothing nofun hshifts
    | words words shifts hinside hwidth htokens hwords hshifts =>
      cases step_stepping hstep hne with
      | inside _ hread => exact .reading hread hrest hline hinside hwidth htokens hwords hshifts
      | blank _ _ hfresh | starts _ _ hfresh =>
        rw [hinside] at hfresh
        cases hfresh
  obtain ⟨⟨honLine, hcount, hle⟩, -⟩ := hkept
  exact ⟨honLine, by omega⟩

end SortTrace.Script.Scan
