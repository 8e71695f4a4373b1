import SortTrace.Proofs.Instrumenting.Steps

/-!
# Reported lines

Scanning with a map of lines gives the tokens that scanning without one gives, with their lines
replaced by the entries of the map, and fails where that fails, with the line of its error replaced
(`tokenize_relined`). The map is looked up only where a token is added or an error is made.
-/

namespace SortTrace

open Script

/-- The fault with the line that is reported for its line. -/
def Fault.relined (map : Array Nat) : Fault → Fault
  | syntaxError message line => syntaxError message (reportedLine map line)
  | e => e

@[simp] theorem Fault.kind_relined (map : Array Nat) (e : Fault) :
    (e.relined map).kind = e.kind := by
  cases e <;> rfl

/-- An outcome with reported lines, where `f` replaces those of a result. -/
def relinedBy {α : Type} (map : Array Nat) (f : α → α) : Except Fault α → Except Fault α
  | .ok a => .ok (f a)
  | .error e => .error (e.relined map)

section

variable {α β : Type} {map : Array Nat} {f : α → α} {g : β → β}

@[simp] theorem relinedBy_ok (a : α) : relinedBy map f (.ok a) = .ok (f a) := rfl

@[simp] theorem relinedBy_ite {c : Prop} [Decidable c] (r r' : Except Fault α) :
    relinedBy map f (if c then r else r') = if c then relinedBy map f r else relinedBy map f r' :=
  apply_ite ..

@[simp] theorem relinedBy_bind {r : Except Fault α} {t t' : α → Except Fault β}
    (h : ∀ a, t' (f a) = relinedBy map g (t a)) :
    (relinedBy map f r).bind t' = relinedBy map g (r.bind t) := by
  cases r with
  | ok a => exact h a
  | error e => rfl

@[simp] theorem relinedBy_map {r : Except Fault α} {t t' : α → β} (h : ∀ a, t' (f a) = g (t a)) :
    (relinedBy map f r).map t' = relinedBy map g (r.map t) := by
  cases r with
  | ok a => exact congrArg Except.ok (h a)
  | error e => rfl

end

namespace Script

/-- The token with the line that is reported for its line. -/
def Token.relined (map : Array Nat) (t : Token) : Token :=
  { t with line := reportedLine map t.line }

namespace Scan

/-- The scan with reported lines. -/
def relined (map : Array Nat) (s : Scan) : Scan :=
  { s with tokens := s.tokens.map (Token.relined map) }

variable {map : Array Nat} {c : Char} {cs : List Char} {l : Lexeme} {s t : Scan}

@[simp] theorem relined_rest (s : Scan) : (s.relined map).rest = s.rest := rfl

@[simp] theorem relined_line (s : Scan) : (s.relined map).line = s.line := rfl

@[simp] theorem relined_widths (s : Scan) : (s.relined map).widths = s.widths := rfl

@[simp] theorem relined_depth (s : Scan) : (s.relined map).depth = s.depth := rfl

@[simp] theorem relined_fresh (s : Scan) : (s.relined map).fresh = s.fresh := rfl

@[simp] theorem relinedBy_fail {α : Type} (f : α → α) (message : String) (line : Nat) :
    relinedBy map f (fail #[] message line) = fail map message line := rfl

theorem push_relined (l : Lexeme) (s : Scan) :
    (s.relined map).push map l = (s.push #[] l).relined map := rfl

theorem atLayout_relined (s : Scan) : (s.relined map).atLayout = s.atLayout := by
  rw [atLayout, atLayout, relined]
  cases s.tokens <;> rfl

theorem endLine_relined (s : Scan) : (s.relined map).endLine map = (s.endLine #[]).relined map := by
  rw [endLine, endLine, atLayout_relined]
  split <;> rfl

theorem passNewline_relined (cs : List Char) (s : Scan) :
    (s.relined map).passNewline cs = (s.passNewline cs).relined map := by
  unfold passNewline
  split <;> rfl

theorem blankLine?_relined (cs : List Char) (s : Scan) :
    (s.relined map).blankLine? cs = (s.blankLine? cs).map (relined map) := by
  unfold blankLine?
  split
  · rfl
  · exact congrArg some (passNewline_relined _ s)
  · split
    · exact congrArg some (passNewline_relined _ s)
    · rfl
  · exact congrArg some (passNewline_relined _ s)
  · rfl

theorem close_relined (width : Nat) (ws : List Nat) (s : Scan) :
    (s.relined map).close map width ws = (s.close #[] width ws).relined map := by
  induction ws generalizing s with
  | nil => rfl
  | cons w ws ih =>
    rw [close, close]
    split
    · exact ih (s.push #[] (.mark Layout.dedent))
    · rfl

theorem indent_relined (width : Nat) (s : Scan) :
    (s.relined map).indent map width = relinedBy map (relined map) (s.indent #[] width) := by
  have closed :
      (s.relined map).close map width s.widths = (s.close #[] width s.widths).relined map :=
    close_relined width s.widths s
  unfold indent
  simp only [relined_widths, relined_line, closed, relinedBy_ite, relinedBy_ok, relinedBy_fail]
  rfl

/-! ## Tokens -/

theorem readString_relined :
    (s.relined map).readString map c cs = relinedBy map (relined map) (s.readString #[] c cs) := by
  unfold readString
  split <;> rfl

theorem numberLexeme_relined (n : Nat) (digits : List Char) (real : Bool) :
    numberLexeme map n digits real = relinedBy map id (numberLexeme #[] n digits real) := by
  unfold numberLexeme
  dsimp only
  split
  · split <;> rfl
  · split <;> rfl

theorem readNumber_relined :
    (s.relined map).readNumber map c cs = relinedBy map (relined map) (s.readNumber #[] c cs) := by
  unfold readNumber
  split
  next digits real rest _ =>
  simp only [relined_line, relinedBy_ite, relinedBy_fail]
  split
  · rfl
  · rw [numberLexeme_relined]
    exact relinedBy_map fun _ => rfl

theorem nest_relined (l : Lexeme) :
    (s.relined map).nest map c l = relinedBy map id (s.nest #[] c l) := by
  unfold nest
  rw [relined_depth, relined_line]
  split <;> simp only [relinedBy_ite, relinedBy_ok, relinedBy_fail, id_eq]

theorem readOperator_relined : (s.relined map).readOperator map c cs
    = relinedBy map (relined map) (s.readOperator #[] c cs) := by
  unfold readOperator
  split
  · rw [nest_relined]
    exact relinedBy_map fun _ => rfl
  · rfl

theorem readToken_relined : (s.relined map).readToken map c cs
    = relinedBy map (relined map) (s.readToken #[] c cs) := by
  unfold readToken
  simp only [relinedBy_ite, relined_depth, readString_relined, readNumber_relined,
    readOperator_relined, endLine_relined]
  congr 1
  split <;> rfl

theorem step_relined (s : Scan) :
    (s.relined map).step map = relinedBy map (relined map) (s.step #[]) := by
  have next (cs : List Char) (s : Scan) :
      (s.relined map).readNext map cs = relinedBy map (relined map) (s.readNext #[] cs) := by
    cases cs with
    | nil => rfl
    | cons c cs => exact readToken_relined (s := { s with fresh := false })
  unfold step
  simp only [relinedBy_ite, relined_fresh, relined_rest, next, blankLine?_relined]
  congr 1
  generalize margin 0 s.rest = start
  obtain ⟨width, cs⟩ := start
  dsimp only
  cases s.blankLine? cs with
  | some t => rfl
  | none =>
    rw [Option.map_none, indent_relined]
    exact relinedBy_bind fun u => next cs u

/-! ## Texts -/

theorem run_relined (s : Scan) :
    (s.relined map).run map = relinedBy map (relined map) (s.run #[]) := by
  induction s using run.induct #[] with
  | case1 s hrest =>
    rw [run_of_rest hrest, run_of_rest (s := s.relined map) hrest]
    rfl
  | case2 s hrest t hstep ih =>
    rw [run_of_step hrest hstep, ← ih]
    refine run_of_step (s := s.relined map) hrest ?_
    rw [step_relined, hstep]
    rfl
  | case3 s hrest e hstep =>
    rw [run_of_error hrest hstep]
    refine run_of_error (s := s.relined map) hrest ?_
    rw [step_relined, hstep]
    rfl

theorem finish_relined (s : Scan) :
    (s.relined map).finish map = (s.finish #[]).map (Token.relined map) := by
  have dedents (ws : List Nat) (s : Scan) :
      ws.foldl (fun s _ => s.push map (.mark Layout.dedent)) (s.relined map)
        = (ws.foldl (fun s _ => s.push #[] (.mark Layout.dedent)) s).relined map := by
    induction ws generalizing s with
    | nil => rfl
    | cons w ws ih => exact ih (s.push #[] (.mark Layout.dedent))
  rw [finish, finish, endLine_relined, relined_widths, dedents, push_relined, List.map_reverse]
  rfl

end Scan

/-- Scanning with a map of lines is scanning without one and looking up the lines. -/
theorem tokenize_relined (text : String) (map : Array Nat) :
    tokenize text map = relinedBy map (List.map (Token.relined map)) (tokenize text #[]) := by
  have run : (Scan.start text.toList).run map
      = relinedBy map (Scan.relined map) ((Scan.start text.toList).run #[]) :=
    Scan.run_relined (Scan.start text.toList)
  rw [tokenize, tokenize, run]
  exact relinedBy_map Scan.finish_relined

end Script

end SortTrace
