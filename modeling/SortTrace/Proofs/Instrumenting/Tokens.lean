import SortTrace.Proofs.Instrumenting.Tree
import SortTrace.Proofs.Printing.Line

/-!
# Tokens with logging calls after lines

`weave` puts the tokens of a logging call after the end of every line that writes. This is right
where such a line is a logical line of its own and begins no compound statement, which `Follows`
says of the tokens: it follows them from the beginning of one logical line to that of the next.
-/

namespace SortTrace.Script

open Parse

/-- Does the lexeme belong to the layout of a text? -/
def Lexeme.isLayout : Lexeme → Bool
  | .mark (.layout _) => true
  | _ => false

theorem Lexeme.eq_of_isLayout {l : Lexeme} (h : l.isLayout = true) : ∃ k : Layout, l = .mark k := by
  unfold Lexeme.isLayout at h
  split at h
  · exact ⟨_, rfl⟩
  · cases h

theorem accept_cons {t : Token} {ts : List Token} {m : Mark} (h : t.lexeme = .mark m) :
    accept m (t :: ts) = .ok (true, ts) := by
  obtain ⟨l, n⟩ := t
  obtain rfl : l = .mark m := h
  exact accept_hit n

/-- The words that begin compound statements and their further parts. -/
def compoundWords : List Keyword :=
  [.ifKw, .elifKw, .elseKw, .whileKw, .forKw, .defKw]

/-! ## Putting calls in -/

section Weave

variable (writes : Nat → Bool) (var : String)

/-- Does a token end a line that writes? -/
def endsWritten (t : Token) : Bool :=
  t.lexeme == .mark Layout.newline && writes t.line

/-- The tokens with those of logging calls after the ends of lines that write. -/
def weave : List Token → List Token
  | [] => []
  | t :: ts => t :: if endsWritten writes t then (Stmt.logCall t.line var).tokens ++ weave ts
    else weave ts

variable {writes var} {t : Token} {ts used rest : List Token}

theorem weave_cons (h : endsWritten writes t = false) :
    weave writes var (t :: ts) = t :: weave writes var ts := by
  rw [weave, h]
  rfl

theorem endsWritten_of_word (h : t.lexeme.isLayout = false) : endsWritten writes t = false := by
  rw [endsWritten, Bool.and_eq_false_iff]
  left
  rw [beq_eq_false_iff_ne]
  intro heq
  rw [heq] at h
  cases h

theorem weave_append : weave writes var (used ++ rest)
    = weave writes var used ++ weave writes var rest := by
  induction used with
  | nil => rfl
  | cons t used ih =>
    rw [List.cons_append, weave, weave, ih]
    split
    · rw [List.cons_append, List.append_assoc]
    · rfl

/-- Tokens that end no line that writes. -/
theorem weave_quiet (h : ∀ t ∈ ts, endsWritten writes t = false) : weave writes var ts = ts := by
  induction ts with
  | nil => rfl
  | cons t ts ih =>
    rw [weave_cons (h t (List.mem_cons_self ..)), ih fun t ht => h t (List.mem_cons_of_mem _ ht)]

@[simp] theorem lexemeOf_weave : lexemeOf (weave writes var ts) = lexemeOf ts := by
  cases ts <;> rfl

@[simp] theorem lineOf_weave : lineOf (weave writes var ts) = lineOf ts := by
  cases ts <;> rfl

theorem length_le_weave : ts.length ≤ (weave writes var ts).length := by
  induction ts with
  | nil => exact Nat.le_refl 0
  | cons t ts ih =>
    rw [weave, List.length_cons, List.length_cons]
    split
    · rw [List.length_append]
      omega
    · omega

theorem weave_length_cons_lt :
    (weave writes var ts).length < (weave writes var (t :: ts)).length := by
  rw [weave, List.length_cons]
  split
  · rw [List.length_append]
    omega
  · omega

theorem weave_length_append_le :
    (weave writes var rest).length ≤ (weave writes var (used ++ rest)).length := by
  induction used with
  | nil => exact Nat.le_refl _
  | cons t used ih => exact Nat.le_of_lt (Nat.lt_of_le_of_lt ih weave_length_cons_lt)

end Weave

/-! ## Other tokens behind a line -/

/-- Something that is done to the tokens behind a logical line leaves the line as it is. -/
class Weaving (w : List Token → List Token) : Prop where
  lexemeOf_eq (ts : List Token) : lexemeOf (w ts) = lexemeOf ts
  lineOf_eq (ts : List Token) : lineOf (w ts) = lineOf ts
  cons_word {t : Token} (ts : List Token) (h : t.lexeme.isLayout = false) : w (t :: ts) = t :: w ts

instance : Weaving id :=
  ⟨fun _ => rfl, fun _ => rfl, fun _ _ => rfl⟩

instance (writes : Nat → Bool) (var : String) : Weaving (weave writes var) where
  lexemeOf_eq _ := lexemeOf_weave
  lineOf_eq _ := lineOf_weave
  cons_word _ h := weave_cons (endsWritten_of_word h)

/-! ## The tokens left on a line -/

/-- How many tokens are left on the logical line. -/
def leftOnLine : List Token → Nat
  | [] => 0
  | t :: ts => if t.lexeme.isLayout then 0 else leftOnLine ts + 1

section LeftOnLine

variable {writes : Nat → Bool} {var : String} {t : Token} {ts used rest : List Token}

theorem leftOnLine_word (h : t.lexeme.isLayout = false) :
    leftOnLine (t :: ts) = leftOnLine ts + 1 := by
  rw [leftOnLine, h]
  rfl

theorem leftOnLine_append (h : ∀ t ∈ used, t.lexeme.isLayout = false) :
    leftOnLine (used ++ rest) = used.length + leftOnLine rest := by
  induction used with
  | nil => exact (Nat.zero_add _).symm
  | cons t used ih =>
    have more := ih fun t ht => h t (List.mem_cons_of_mem _ ht)
    rw [List.cons_append, leftOnLine_word (h t (List.mem_cons_self ..)), List.length_cons]
    omega

theorem isLayout_of_leftOnLine (h : leftOnLine ts = 0) : (lexemeOf ts).isLayout = true := by
  cases ts with
  | nil => rfl
  | cons t ts =>
    rw [leftOnLine] at h
    split at h
    · assumption
    · cases h

theorem leftOnLine_le : leftOnLine ts ≤ ts.length := by
  induction ts with
  | nil => exact Nat.le_refl 0
  | cons t ts ih =>
    rw [leftOnLine, List.length_cons]
    split <;> omega

theorem leftOnLine_weave : leftOnLine (weave writes var ts) = leftOnLine ts := by
  induction ts with
  | nil => rfl
  | cons t ts ih =>
    by_cases h : t.lexeme.isLayout = true
    · rw [weave, leftOnLine, leftOnLine, if_pos h, if_pos h]
    · have word := Bool.not_eq_true _ ▸ h
      rw [weave_cons (endsWritten_of_word word), leftOnLine_word word, leftOnLine_word word, ih]

end LeftOnLine

/-! ## Following the layout -/

/-- Where in the layout of a text some tokens are. -/
inductive Phase where
  /-- Between two logical lines. All lines that write are at most `last` before and past it after
  it. -/
  | between (last : Nat)
  /-- In a logical line that is on no line that writes. -/
  | inside (last : Nat)
  /-- In the logical line that is the line `n`, which writes. -/
  | written (n : Nat)

/-- What a token may be, and where the tokens after it are. -/
inductive Next (writes : Nat → Bool) : Phase → Token → Phase → Prop
  | layout {last : Nat} {t : Token} {l : Layout} (hl : t.lexeme = .mark l) (hn : l ≠ .newline) :
    Next writes (.between last) t (.between last)
  | opens {last : Nat} {t : Token} (hl : t.lexeme.isLayout = false) (hw : writes t.line = false) :
    Next writes (.between last) t (.inside last)
  | opensWritten {last : Nat} {t : Token} (hl : t.lexeme.isLayout = false)
    (hw : writes t.line = true) (hlast : last < t.line)
    (hc : ∀ w ∈ compoundWords, t.lexeme ≠ .mark w) :
    Next writes (.between last) t (.written t.line)
  | goesOn {last : Nat} {t : Token} (hl : t.lexeme.isLayout = false)
    (hw : writes t.line = false) : Next writes (.inside last) t (.inside last)
  | goesOnWritten {t : Token} (hl : t.lexeme.isLayout = false) :
    Next writes (.written t.line) t (.written t.line)
  | ends {last : Nat} {t : Token} (hl : t.lexeme = .mark Layout.newline)
    (hw : writes t.line = false) : Next writes (.inside last) t (.between last)
  | endsWritten {t : Token} (hl : t.lexeme = .mark Layout.newline) :
    Next writes (.written t.line) t (.between t.line)

/-- The tokens are laid out in logical lines, from the given phase on up to the end of one. -/
inductive Follows (writes : Nat → Bool) : Phase → List Token → Prop
  | nil {last : Nat} : Follows writes (.between last) []
  | cons {phase phase' : Phase} {t : Token} {ts : List Token} (hn : Next writes phase t phase')
    (h : Follows writes phase' ts) : Follows writes phase (t :: ts)

namespace Follows

variable {writes : Nat → Bool} {last n : Nat} {t : Token} {used rest : List Token}

theorem inside_append (h : Follows writes (.inside last) (used ++ rest))
    (hu : ∀ t ∈ used, t.lexeme.isLayout = false) :
    Follows writes (.inside last) rest ∧ ∀ t ∈ used, writes t.line = false := by
  induction used with
  | nil => exact ⟨h, nofun⟩
  | cons t used ih =>
    have word : t.lexeme.isLayout = false := hu t (List.mem_cons_self ..)
    cases h with
    | cons hn h =>
      cases hn with
      | goesOn _ hw =>
        obtain ⟨hrest, hlines⟩ := ih h fun t ht => hu t (List.mem_cons_of_mem _ ht)
        exact ⟨hrest, List.forall_mem_cons.mpr ⟨hw, hlines⟩⟩
      | ends hl =>
        rw [hl] at word
        cases word

theorem written_append (h : Follows writes (.written n) (used ++ rest))
    (hu : ∀ t ∈ used, t.lexeme.isLayout = false) :
    Follows writes (.written n) rest ∧ ∀ t ∈ used, t.line = n := by
  induction used with
  | nil => exact ⟨h, nofun⟩
  | cons t used ih =>
    have word : t.lexeme.isLayout = false := hu t (List.mem_cons_self ..)
    cases h with
    | cons hn h =>
      cases hn with
      | goesOnWritten =>
        obtain ⟨hrest, hlines⟩ := ih h fun t ht => hu t (List.mem_cons_of_mem _ ht)
        exact ⟨hrest, List.forall_mem_cons.mpr ⟨rfl, hlines⟩⟩
      | endsWritten hl =>
        rw [hl] at word
        cases word

/-- A logical line goes on or ends; its text does not end before it. -/
theorem inside_next (h : Follows writes (.inside last) rest)
    (hl : (lexemeOf rest).isLayout = true) :
    ∃ t ts, rest = t :: ts ∧ t.lexeme = .mark Layout.newline ∧ writes t.line = false ∧
      Follows writes (.between last) ts := by
  cases h with
  | cons hn h =>
    cases hn with
    | goesOn hword =>
      rw [lexemeOf_cons, hword] at hl
      cases hl
    | ends hnew hw => exact ⟨_, _, rfl, hnew, hw, h⟩

theorem written_next (h : Follows writes (.written n) rest) (hl : (lexemeOf rest).isLayout = true) :
    ∃ t ts, rest = t :: ts ∧ t.lexeme = .mark Layout.newline ∧ t.line = n ∧
      Follows writes (.between n) ts := by
  cases h with
  | cons hn h =>
    cases hn with
    | goesOnWritten hword =>
      rw [lexemeOf_cons, hword] at hl
      cases hl
    | endsWritten hnew => exact ⟨_, _, rfl, hnew, rfl, h⟩

/-- A change of indentation and the end of the text stand between logical lines. -/
theorem between_layout {l : Layout} (h : Follows writes (.between last) (t :: rest))
    (hl : t.lexeme = .mark l) : l ≠ .newline ∧ Follows writes (.between last) rest := by
  cases h with
  | cons hn h =>
    cases hn with
    | layout hl' hne =>
      rw [hl] at hl'
      cases hl'
      exact ⟨hne, h⟩
    | opens hword | opensWritten hword =>
      rw [hl] at hword
      cases hword

/-- A logical line is on no line that writes, or it is one. -/
theorem between_word (h : Follows writes (.between last) (t :: rest))
    (ht : t.lexeme.isLayout = false) :
    (writes t.line = false ∧ Follows writes (.inside last) rest) ∨
      (writes t.line = true ∧ last < t.line ∧ (∀ w ∈ compoundWords, t.lexeme ≠ .mark w) ∧
        Follows writes (.written t.line) rest) := by
  cases h with
  | cons hn h =>
    cases hn with
    | layout hl =>
      rw [hl] at ht
      cases ht
    | opens _ hw => exact .inl ⟨hw, h⟩
    | opensWritten _ hw hlast hc => exact .inr ⟨hw, hlast, hc, h⟩

end Follows

end SortTrace.Script
