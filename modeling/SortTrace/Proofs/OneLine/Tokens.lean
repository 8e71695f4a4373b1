import SortTrace.Proofs.Instrumenting.Steps
import SortTrace.Proofs.OneLine.Statements
import Mathlib.Data.List.TakeWhile

/-!
# Names on one line in a text

A name of the text is on one line, since neither a letter nor a numeral is a newline, and the
scanner fails on one line, for the only characters that its messages name are not newlines either
(`tokenize_neatly`). So a program that is read from a text has its names on one line
(`names_of_parseProgram`), and a text that is no program is told so on one line
(`parseProgram_inLine`).
-/

namespace SortTrace.Script

namespace Scan

/-- All tokens that are read are neat. -/
def Neat (s : Scan) : Prop :=
  ∀ t ∈ s.tokens, t.Neat

/-- The scan goes on with neat tokens, or fails on one line. -/
inductive GoesNeatly : Except Fault Scan → Prop
  | ok {s : Scan} (h : s.Neat) : GoesNeatly (.ok s)
  | error {e : Fault} (h : e.OneLine) : GoesNeatly (.error e)

variable {map : Array Nat} {s : Scan} {c : Char} {cs : List Char}

namespace GoesNeatly

theorem fail {message : String} (h : Text.OneLine message) (line : Nat) :
    GoesNeatly (Scan.fail map message line) :=
  .error (Fault.oneLine_syntaxError h _)

theorem bind {x : Except Fault Scan} {t : Scan → Except Fault Scan} (hx : GoesNeatly x)
    (ht : ∀ s, s.Neat → GoesNeatly (t s)) : GoesNeatly (x.bind t) := by
  cases hx with
  | ok h => exact ht _ h
  | error h => exact .error h

/-- Something read of the text that fails on one line, and then a token of it. -/
theorem reads {α : Type} {x : Except Fault α} {t : α → Scan} (hx : ToldInLine x)
    (ht : ∀ a, x = .ok a → (t a).Neat) : GoesNeatly (x.map t) := by
  cases x with
  | ok a => exact .ok (ht a rfl)
  | error e => exact .error (hx e rfl)

end GoesNeatly

namespace Neat

theorem start (text : List Char) : (Scan.start text).Neat := nofun

theorem push {l : Lexeme} (h : s.Neat) (hl : ∀ name, l = .name name → Text.OneLine name) :
    (s.push map l).Neat :=
  List.forall_mem_cons.mpr ⟨hl, h⟩

theorem push_mark (h : s.Neat) (m : Mark) : (s.push map (.mark m)).Neat :=
  h.push fun _ hl => by cases hl

theorem endLine (h : s.Neat) : (s.endLine map).Neat := by
  rw [Scan.endLine]
  split
  · exact h
  · exact h.push_mark _

/-! ## Indentation -/

theorem passNewline (h : s.Neat) : (s.passNewline cs).Neat := by
  rw [Scan.passNewline.eq_def]
  split
  · exact h
  · exact h

theorem blankLine? {s' : Scan} (h : s.Neat) (hs' : s.blankLine? cs = some s') : s'.Neat := by
  unfold Scan.blankLine? at hs'
  split at hs'
  · exact Option.some.inj hs' ▸ h
  · exact Option.some.inj hs' ▸ h.passNewline
  · split at hs'
    · exact Option.some.inj hs' ▸ h.passNewline
    · cases hs'
  · exact Option.some.inj hs' ▸ h.passNewline
  · cases hs'

theorem close (width : Nat) : ∀ (ws : List Nat) (s : Scan), s.Neat →
    (s.close map width ws).Neat
  | [], _, h => h
  | w :: ws, s, h => by
    rw [Scan.close]
    split
    · exact close width ws _ (h.push_mark _)
    · exact h

theorem indent (h : s.Neat) (width : Nat) : GoesNeatly (s.indent map width) := by
  simp only [Scan.indent]
  split
  · split
    · exact .fail (.literal rfl) _
    · exact .ok (push_mark (s := { s with widths := width :: s.widths }) h _)
  · split
    · exact .ok (close width s.widths s h)
    · exact .fail (.literal rfl) _

/-! ## Tokens on a line -/

theorem readString (h : s.Neat) (quote : Char) : GoesNeatly (s.readString map quote cs) := by
  rw [Scan.readString]
  split
  · exact .ok (push (s := { s with rest := _, line := _ }) h nofun)
  · exact .fail (.literal rfl) _

theorem numberLexeme_inLine (line : Nat) (digits : List Char) (real : Bool) :
    ToldInLine (numberLexeme map line digits real) := by
  simp only [numberLexeme]
  split
  · split
    · exact .ok _
    · exact .error (Fault.oneLine_syntaxError (.literal rfl) _)
  · split
    · exact .ok _
    · exact .error Fault.oneLine_overflow

theorem readNumber (h : s.Neat) : GoesNeatly (s.readNumber map c cs) := by
  simp only [Scan.readNumber]
  split
  · exact .fail (.literal rfl) _
  · refine .reads (numberLexeme_inLine _ _ _) fun l hl => push (s := { s with rest := _ }) h ?_
    rintro name rfl
    simp only [numberLexeme] at hl
    split at hl <;> split at hl <;> cases hl

/-- A name of the text is on one line. -/
theorem readWord (h : s.Neat) (hc : Text.startsWord c = true) : (s.readWord map c cs).Neat := by
  refine push (s := { s with rest := _ }) h fun name hname => ?_
  split at hname
  · cases hname
  · cases hname
    rw [Text.oneLine_ofList]
    intro found
    rcases List.mem_cons.mp found with rfl | found
    · exact absurd hc (by decide)
    · exact absurd (List.mem_takeWhile_imp found) (by decide)

theorem oneLine_char (hc : c ≠ '\n') : Text.OneLine (toString c) := by
  change '\n' ∉ (String.singleton c).toList
  rw [String.toList_singleton, List.mem_singleton]
  exact hc.symm

theorem nest_inLine (hc : c ≠ '\n') (l : Lexeme) : ToldInLine (s.nest map c l) := by
  have unmatched : ToldInLine (Scan.fail (α := Nat) map s!"unmatched '{c}'" s.line) :=
    .error (Fault.oneLine_syntaxError (.framed (oneLine_char hc) rfl rfl) _)
  have deep : ToldInLine (Scan.fail (α := Nat) map "too many nested parentheses" s.line) :=
    .error (Fault.oneLine_syntaxError (.literal rfl) _)
  rw [nest.eq_def]
  split
  · exact .ite (fun _ => deep) fun _ => .ok _
  · exact .ite (fun _ => deep) fun _ => .ok _
  · exact .ite (fun _ => deep) fun _ => .ok _
  · exact .ite (fun _ => unmatched) fun _ => .ok _
  · exact .ite (fun _ => unmatched) fun _ => .ok _
  · exact .ite (fun _ => unmatched) fun _ => .ok _
  · exact .ok _

/-- No operator is a name. -/
theorem operator?_ne_name {rest : List Char} {name : String}
    (h : operator? c cs = some (.name name, rest)) : False := by
  obtain ⟨p, hp, heq⟩ := Option.map_eq_some_iff.mp h
  have unnamed := spellings_name? p (List.mem_of_find?_eq_some hp)
  rw [show p.2 = .name name from congrArg Prod.fst heq] at unnamed
  cases unnamed

theorem readOperator (h : s.Neat) (hc : c ≠ '\n') : GoesNeatly (s.readOperator map c cs) := by
  rw [Scan.readOperator]
  split
  · next l rest hop =>
    refine .reads (nest_inLine hc l) fun depth _ => push (s := { s with rest, depth }) h ?_
    rintro name rfl
    exact (operator?_ne_name hop).elim
  · exact .fail (.framed (oneLine_char hc) rfl rfl) _

theorem readToken (h : s.Neat) : GoesNeatly (s.readToken map c cs) := by
  rw [Scan.readToken]
  split
  · refine .ok ?_
    show Neat _
    split
    · exact h.endLine
    · exact h
  next hc =>
  split
  · exact .ok h
  split
  · exact .ok h
  split
  · exact .ok h
  split
  · exact h.readString c
  split
  · exact h.readNumber
  split
  · next hword => exact .ok (h.readWord hword)
  · exact h.readOperator hc

/-! ## The whole text -/

theorem readNext (h : s.Neat) : GoesNeatly (s.readNext map cs) := by
  rw [Scan.readNext.eq_def]
  split
  · exact .ok h
  · exact readToken (s := { s with fresh := false }) h

theorem step (h : s.Neat) : GoesNeatly (s.step map) := by
  simp only [Scan.step]
  split
  · split
    · next hblank => exact .ok (h.blankLine? hblank)
    · exact (h.indent _).bind fun t ht => ht.readNext
  · exact h.readNext

theorem run (h : s.Neat) : GoesNeatly (s.run map) := by
  induction s using Scan.run.induct map with
  | case1 s hrest =>
    rw [run_of_rest hrest]
    exact .ok h
  | case2 s hrest t hstep ih =>
    rw [run_of_step hrest hstep]
    have next : GoesNeatly (s.step map) := h.step
    rw [hstep] at next
    cases next with
    | ok ht => exact ih ht
  | case3 s hrest e hstep =>
    rw [run_of_error hrest hstep]
    have next : GoesNeatly (s.step map) := h.step
    rw [hstep] at next
    cases next with
    | error he => exact .error he

theorem finish (h : s.Neat) : ∀ t ∈ s.finish map, t.Neat := by
  have dedents (ws : List Nat) : ∀ s : Scan, s.Neat →
      (ws.foldl (fun s _ => s.push map (.mark Layout.dedent)) s).Neat := by
    induction ws with
    | nil => exact fun s hs => hs
    | cons w ws ih => exact fun s hs => ih _ (hs.push_mark _)
  have closed := dedents (s.endLine map).widths (s.endLine map) h.endLine
  intro t ht
  rcases List.mem_cons.mp (List.mem_reverse.mp ht) with rfl | ht
  · exact nofun
  · exact closed t ht

end Neat

end Scan

variable {text : String} {map : Array Nat}

/-- The tokens of a text are neat, and a text without tokens is told on one line. -/
theorem tokenize_neatly (text : String) (map : Array Nat) :
    ToldInLine (tokenize text map) ∧ ∀ ts, tokenize text map = .ok ts → ∀ t ∈ ts, t.Neat := by
  have run : Scan.GoesNeatly ((Scan.start text.toList).run map) := (Scan.Neat.start _).run
  rw [tokenize]
  generalize (Scan.start text.toList).run map = x at run ⊢
  cases run with
  | ok h =>
    refine ⟨.ok _, fun ts hts => ?_⟩
    cases hts
    exact h.finish
  | error he => exact ⟨.error he, fun ts hts => by cases hts⟩

/-- A text that is no program is told so on one line. -/
theorem parseProgram_inLine (text : String) (map : Array Nat) :
    ToldInLine (parseProgram text map) := by
  obtain ⟨told, neat⟩ := tokenize_neatly text map
  cases htokens : tokenize text map with
  | ok ts =>
    rw [parseProgram_of_tokenize htokens]
    exact (parseTokens_neatly (neat ts htokens)).1
  | error e =>
    rw [parseProgram, htokens]
    exact .error (told e htokens)

/-- The names in a program are on one line. -/
theorem names_of_parseProgram {program : List Stmt} (h : parseProgram text map = .ok program) :
    Stmt.BlockNames Text.OneLine program := by
  obtain ⟨ts, htokens, hprogram⟩ := tokenize_of_parseProgram h
  exact (parseTokens_neatly ((tokenize_neatly text map).2 ts htokens)).2 program hprogram

end SortTrace.Script
