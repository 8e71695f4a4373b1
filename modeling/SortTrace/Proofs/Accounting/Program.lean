import SortTrace.Proofs.Accounting.Expr
import SortTrace.Proofs.Accounting.Places
import SortTrace.Script.Parsing.Program

/-!
# Lines of statements

The lines that tokens are reported on reach the tree as the lines of its statements, and nothing
else of it: reading relined tokens makes the program with its lines relined, and fails where reading
the tokens themselves does. With what is known of tokens, the lines of a program are those of the
text looked up in the map (`parseProgram_accounted`).
-/

namespace SortTrace.Script

open Parse

/-! ## Trees on other lines -/

mutual

/-- The statement with the lines that are reported for its lines. -/
def Stmt.relined (map : Array Nat) : Stmt → Stmt
  | .expr n e => .expr (reportedLine map n) e
  | .assign n targets value => .assign (reportedLine map n) targets value
  | .augment n target op value => .augment (reportedLine map n) target op value
  | .branch n cases last =>
    .branch (reportedLine map n) (Stmt.relinedCases map cases) (Stmt.relinedBlock map last)
  | .whileLoop n condition body last =>
    .whileLoop (reportedLine map n) condition (Stmt.relinedBlock map body)
      (Stmt.relinedBlock map last)
  | .forLoop n target items body last =>
    .forLoop (reportedLine map n) target items (Stmt.relinedBlock map body)
      (Stmt.relinedBlock map last)
  | .define n name params body =>
    .define (reportedLine map n) name params (Stmt.relinedBlock map body)
  | .giveBack n value => .giveBack (reportedLine map n) value
  | .declareGlobal n names => .declareGlobal (reportedLine map n) names
  | .leaveLoop n => .leaveLoop (reportedLine map n)
  | .nextRound n => .nextRound (reportedLine map n)
  | .pass n => .pass (reportedLine map n)

/-- The block with the lines that are reported for its lines. -/
def Stmt.relinedBlock (map : Array Nat) : List Stmt → List Stmt
  | [] => []
  | s :: block => s.relined map :: Stmt.relinedBlock map block

/-- The cases with the lines that are reported for their lines. -/
def Stmt.relinedCases (map : Array Nat) : List (Expr × List Stmt) → List (Expr × List Stmt)
  | [] => []
  | (condition, block) :: cases =>
    (condition, Stmt.relinedBlock map block) :: Stmt.relinedCases map cases

end

section Trees

variable (map : Array Nat)

theorem Stmt.relinedBlock_eq (block : List Stmt) :
    Stmt.relinedBlock map block = block.map (Stmt.relined map) := by
  induction block with
  | nil => rfl
  | cons s block ih => exact congrArg (s.relined map :: ·) ih

theorem Stmt.relinedCases_eq (cases : List (Expr × List Stmt)) :
    Stmt.relinedCases map cases = cases.map (Prod.map id (Stmt.relinedBlock map)) := by
  induction cases with
  | nil => rfl
  | cons c cases ih => exact congrArg ((c.1, Stmt.relinedBlock map c.2) :: ·) ih

theorem Stmt.relinedBlock_append (block rest : List Stmt) : Stmt.relinedBlock map (block ++ rest)
    = Stmt.relinedBlock map block ++ Stmt.relinedBlock map rest := by
  simp only [Stmt.relinedBlock_eq, List.map_append]

theorem Stmt.relinedBlock_reverse (block : List Stmt) :
    Stmt.relinedBlock map block.reverse = (Stmt.relinedBlock map block).reverse := by
  simp only [Stmt.relinedBlock_eq, List.map_reverse]

theorem Stmt.relinedCases_reverse (cases : List (Expr × List Stmt)) :
    Stmt.relinedCases map cases.reverse = (Stmt.relinedCases map cases).reverse := by
  simp only [Stmt.relinedCases_eq, List.map_reverse]

end Trees

/-! ## Where no token is left -/

namespace Parse

/-- The parser needs a token. -/
class Needy {α : Type} (p : Parse α) : Prop where
  fails : (p []).toOption = none

variable {α β : Type} {p : Parse α} {q : α → Parse β}

instance (q : α → Parse β) [h : Needy p] : Needy (p >>= q) := by
  refine ⟨?_⟩
  change (p [] >>= fun r => q r.1 r.2).toOption = none
  cases hp : p [] with
  | error e => rfl
  | ok r =>
    have fails := h.fails
    rw [hp] at fails
    cases fails

instance (f : α → β) [Needy p] : Needy (f <$> p) := by
  rw [map_eq_pure_bind]
  infer_instance

instance (message : String) : Needy (fail message : Parse α) := ⟨rfl⟩

instance : Needy (unexpected : Parse α) := ⟨rfl⟩

/-- Without a token, both parsers fail. -/
theorem Needy.relines {map : Array Nat} {f : α → β} {p' : Parse β} (h : Needy p) (h' : Needy p') :
    (p' []).toOption = (p []).toOption.map (Prod.map f (relinedTokens map)) :=
  h'.fails.trans (congrArg (Option.map _) h.fails).symm

/-- The end of the text is seen where no token is left. -/
theorem Needy.peek {q : Lexeme → Parse β} (h : Needy (q (.mark Layout.finish))) :
    Needy (peek >>= q) := ⟨h.fails⟩

/-- No other token is seen there. -/
theorem Needy.accept {m : Mark} {q : Bool → Parse β} (hm : Lexeme.mark Layout.finish ≠ .mark m)
    (h : Needy (q false)) : Needy (Parse.accept m >>= q) := by
  refine ⟨?_⟩
  have miss : Parse.accept m [] = .ok (false, []) := accept_miss hm
  rw [bind_ok miss]
  exact h.fails

end Parse

section Needy

variable {parts : Parts} {fuel nesting : Nat}

instance : Needy (atom parts fuel nesting) :=
  .peek (inferInstanceAs (Needy unexpected))

instance : Needy (power parts fuel nesting) :=
  have : Needy (primary parts fuel nesting) := inferInstanceAs (Needy (_ >>= _))
  inferInstanceAs (Needy (_ >>= _))

instance : Needy (factor parts fuel nesting) :=
  .peek (inferInstanceAs (Needy (power parts fuel nesting)))

instance binary_needy : ∀ levels : List (List BinOp), Needy (binary parts fuel nesting levels)
  | [] => inferInstanceAs (Needy (factor parts fuel nesting))
  | ops :: tighter => by
    have := binary_needy tighter
    unfold binary
    infer_instance

instance : Needy (comparison parts fuel nesting) :=
  inferInstanceAs (Needy (_ >>= _))

instance : Needy (inversion parts fuel nesting) :=
  .accept nofun (inferInstanceAs (Needy (comparison parts fuel nesting)))

instance : Needy (conditional parts fuel nesting) :=
  have : Needy (conjunction parts fuel nesting) := inferInstanceAs (Needy (_ >>= _))
  have : Needy (disjunction parts fuel nesting) := inferInstanceAs (Needy (_ >>= _))
  inferInstanceAs (Needy (_ >>= _))

/-- No statement is made of no tokens. -/
instance (n : Nat) : Needy (exprStatement fuel n) := by
  have : Needy (parseTest fuel) := by
    cases fuel with
    | zero => exact inferInstanceAs (Needy (fail _))
    | succ fuel => exact inferInstanceAs (Needy (conditional _ _ _))
  have : Needy (parseTestList fuel) := inferInstanceAs (Needy (_ >>= _))
  exact inferInstanceAs (Needy (_ >>= _))

end Needy

/-! ## Lines read -/

namespace Parse.Relines

variable {α β γ δ : Type} {map : Array Nat} {f : α → β} {g : γ → δ} {p : Parse α} {p' : Parse β}

theorem mapped {u : α → γ} {u' : β → δ} (h : Relines map f p p') (hu : ∀ a, u' (f a) = g (u a)) :
    Relines map g (u <$> p) (u' <$> p') := by
  rw [map_eq_pure_bind, map_eq_pure_bind]
  exact h.bind fun a => hu a ▸ .pure (u a)

theorem mappedAny {u : α → γ} {u' : α → δ} [h : Blind p] (hu : ∀ a, u' a = g (u a)) :
    Relines map g (u <$> p) (u' <$> p) :=
  (h.relines map).mapped hu

theorem unexpected : Relines map f Parse.unexpected Parse.unexpected := by
  refine .after fun l => ?_
  split <;> exact .fail _ _

/-- The line that something is read on is a reported line, unless no token is left. -/
theorem line {q : Nat → Parse α} {q' : Nat → Parse β}
    (hq : ∀ n, Relines map f (q n) (q' (reportedLine map n)))
    (h : (q' 1 []).toOption = (q 1 []).toOption.map (Prod.map f (relinedTokens map))) :
    Relines map f (line >>= q) (line >>= q') := by
  intro ts
  cases ts with
  | nil => exact h
  | cons t ts => exact hq t.line (t :: ts)

/-- The line that something is read on does not matter. -/
theorem anyLine {q : Nat → Parse α} {q' : Nat → Parse β}
    (hq : ∀ n n', Relines map f (q n) (q' n')) :
    Relines map f (Parse.line >>= q) (Parse.line >>= q') :=
  fun ts => hq (lineOf ts) (lineOf (relinedTokens map ts)) ts

end Parse.Relines

/-! ## Statements -/

section Statements

variable {map : Array Nat} {fuel : Nat} {around : Surrounding}

instance moreNames_blind : ∀ (fuel : Nat) (names : List String), Blind (moreNames fuel names)
  | 0, names => inferInstanceAs (Blind (pure names.reverse))
  | fuel + 1, names => by
    have := moreNames_blind fuel
    unfold moreNames
    infer_instance

instance moreAssigned_blind {testlist : Parse Expr} [Blind testlist] :
    ∀ (fuel : Nat) (sides : List Expr), Blind (moreAssigned testlist fuel sides)
  | 0, sides => inferInstanceAs (Blind (pure sides))
  | fuel + 1, sides => by
    have (sides : List Expr) : Blind (moreAssigned testlist fuel sides) :=
      moreAssigned_blind fuel sides
    unfold moreAssigned
    infer_instance

theorem exprStatement_relines (n : Nat) :
    Relines map (Stmt.relined map) (exprStatement fuel n) (exprStatement fuel (reportedLine map n))
    := by
  unfold exprStatement
  refine .after fun first => .after fun l => ?_
  split
  · split
    · exact .after fun _ => .mappedAny fun _ => rfl
    · exact .fail _ _
  · refine .after fun sides => ?_
    split
    · split
      · exact .pure _
      · exact .fail _ _
    · exact .unexpected
  · exact .pure _

theorem smallStatement_relines :
    Relines map (Stmt.relined map) (smallStatement fuel around) (smallStatement fuel around) := by
  unfold smallStatement
  have needy (n : Nat) : Needy (exprStatement fuel n) := inferInstance
  refine .line (fun n => .after fun l => ?_) ?_
  · split
    · exact .after fun _ => .pure _
    · exact .ite (.after fun _ => .pure _) (.fail _ _)
    · exact .ite (.after fun _ => .pure _) (.fail _ _)
    · refine .ite (.after fun _ => .after fun l => ?_) (.fail _ _)
      split
      · exact .pure _
      · exact .pure _
      · exact .pure _
      · exact .mappedAny fun _ => rfl
    · exact .after fun _ => .after fun _ => .mappedAny fun _ => rfl
    · exact exprStatement_relines n
  · exact Needy.relines (.peek (needy 1)) (.peek (needy 1))

instance : Blind atLineEnd := by
  unfold atLineEnd
  infer_instance

theorem moreStatements_relines (full : Nat) : ∀ (fuel : Nat) (done : List Stmt),
    Relines map (Stmt.relinedBlock map) (moreStatements full around fuel done)
      (moreStatements full around fuel (Stmt.relinedBlock map done))
  | 0, done => by
    unfold moreStatements
    exact Stmt.relinedBlock_reverse map done ▸ .pure done.reverse
  | fuel + 1, done => by
    unfold moreStatements
    refine smallStatement_relines.bind fun next => ?_
    have made : Relines map (Stmt.relinedBlock map) (pure (next :: done).reverse)
        (pure (next.relined map :: Stmt.relinedBlock map done).reverse) :=
      Stmt.relinedBlock_reverse map (next :: done) ▸ .pure _
    refine .after fun _ => .ite (.after fun _ => .ite made ?_) made
    exact moreStatements_relines full fuel (next :: done)

theorem simpleLine_relines :
    Relines map (Stmt.relinedBlock map) (simpleLine fuel around) (simpleLine fuel around) := by
  refine (moreStatements_relines fuel fuel []).bind fun stmts => .after fun l => ?_
  split
  · exact .after fun _ => .pure _
  · exact .pure _
  · exact .unexpected

/-! ## Blocks -/

theorem blockLines_relines {statements : Parse (List Stmt)}
    (h : Relines map (Stmt.relinedBlock map) statements statements) :
    ∀ (fuel : Nat) (done : List Stmt), Relines map (Stmt.relinedBlock map)
      (blockLines statements fuel done) (blockLines statements fuel (Stmt.relinedBlock map done))
  | 0, done => by
    unfold blockLines
    exact Stmt.relinedBlock_reverse map done ▸ .pure done.reverse
  | fuel + 1, done => by
    unfold blockLines
    have made : Relines map (Stmt.relinedBlock map) (pure done.reverse)
        (pure (Stmt.relinedBlock map done).reverse) :=
      Stmt.relinedBlock_reverse map done ▸ .pure _
    refine .after fun _ => .ite made (.after fun _ => .ite made (.after fun _ => .ite ?_ ?_))
    · exact blockLines_relines h fuel done
    · refine h.bind fun next => ?_
      have more := blockLines_relines h fuel (next.reverse ++ done)
      rwa [Stmt.relinedBlock_append, Stmt.relinedBlock_reverse] at more

instance moreTargets_blind (full : Nat) :
    ∀ (fuel : Nat) (targets : List Expr), Blind (moreTargets full fuel targets)
  | 0, targets => inferInstanceAs (Blind (pure targets.reverse))
  | fuel + 1, targets => by
    have := moreTargets_blind full fuel
    unfold moreTargets
    infer_instance

instance parameters_blind (full : Nat) :
    ∀ (fuel : Nat) (params : List Param), Blind (parameters full fuel params)
  | 0, params => inferInstanceAs (Blind (pure params.reverse))
  | fuel + 1, params => by
    have (params : List Param) : Blind (parameters full fuel params) :=
      parameters_blind full fuel params
    have more (name : String) (default : Option Expr) : Blind (do
        if ← accept Punct.comma then parameters full fuel (⟨name, default⟩ :: params)
        else pure (Param.mk name default :: params).reverse) := inferInstance
    unfold parameters
    refine ⟨fun map => .after fun _ => .ite (.pure _) (.after fun name => .ite (.fail _ _) ?_)⟩
    refine .after fun _ => ?_
    split
    · exact .after fun default => (more name default).relines map
    · split
      · exact .after fun default => (more name default).relines map
      · exact .after fun default => (more name default).relines map

section Blocks

variable {lines : Lines}
  (h : ∀ around, Relines map (Stmt.relinedBlock map) (lines around) (lines around))

include h

theorem block_relines (owner : String) (n n' : Nat) : Relines map (Stmt.relinedBlock map)
    (block lines fuel around owner n) (block lines fuel around owner n') := by
  refine .after fun _ => .after fun _ => .ite (.after fun _ => .ite ?_ (.fail _ _)) ?_
  · exact blockLines_relines (h around) fuel []
  · exact simpleLine_relines

theorem otherwise_relines : Relines map (Stmt.relinedBlock map) (otherwise lines fuel around)
    (otherwise lines fuel around) :=
  .anyLine fun n n' => .after fun _ => .ite (block_relines h _ n n') (.pure [])

theorem moreCases_relines (full : Nat) : ∀ (fuel : Nat) (cases : List (Expr × List Stmt)),
    Relines map (Prod.map (Stmt.relinedCases map) (Stmt.relinedBlock map))
      (moreCases lines full around fuel cases)
      (moreCases lines full around fuel (Stmt.relinedCases map cases))
  | 0, cases => by
    unfold moreCases
    exact Stmt.relinedCases_reverse map cases ▸ .pure (cases.reverse, [])
  | fuel + 1, cases => by
    unfold moreCases
    refine .anyLine fun n n' => .after fun _ => .ite (.after fun condition => ?_) ?_
    · refine (block_relines h _ n n').bind fun body => ?_
      exact moreCases_relines full fuel ((condition, body) :: cases)
    · refine (otherwise_relines h).bind fun last => ?_
      exact Stmt.relinedCases_reverse map cases ▸ .pure (cases.reverse, last)

theorem branch_relines (n : Nat) : Relines map (Stmt.relined map) (branch lines fuel around n)
    (branch lines fuel around (reportedLine map n)) := by
  refine .after fun condition => (block_relines h _ _ _).bind fun body => ?_
  refine (moreCases_relines h fuel fuel [(condition, body)]).bind fun made => ?_
  obtain ⟨cases, last⟩ := made
  exact .pure (Stmt.branch n cases last)

theorem whileLoop_relines (n : Nat) : Relines map (Stmt.relined map)
    (whileLoop lines fuel around n) (whileLoop lines fuel around (reportedLine map n)) := by
  refine .after fun condition => (block_relines h _ _ _).bind fun body => ?_
  exact (otherwise_relines h).mapped fun _ => rfl

theorem forLoop_relines (n : Nat) : Relines map (Stmt.relined map) (forLoop lines fuel around n)
    (forLoop lines fuel around (reportedLine map n)) := by
  have looped (target : Expr) : Relines map (Stmt.relined map)
      (if target.isTarget then do
        expect Keyword.inKw
        let items ← parseTestList fuel
        let body ← block lines fuel { around with inLoop := true } "'for' statement" n
        .forLoop n target items body <$> otherwise lines fuel around
      else fail "cannot assign to expression")
      (if target.isTarget then do
        expect Keyword.inKw
        let items ← parseTestList fuel
        let body ← block lines fuel { around with inLoop := true } "'for' statement"
          (reportedLine map n)
        .forLoop (reportedLine map n) target items body <$> otherwise lines fuel around
      else fail "cannot assign to expression") := by
    refine .ite (.after fun _ => .after fun items => ?_) (.fail _ _)
    refine (block_relines h _ _ _).bind fun body => ?_
    exact (otherwise_relines h).mapped fun _ => rfl
  unfold forLoop
  refine .after fun first => .after fun several => ?_
  split
  · exact .after looped
  · exact .after looped

theorem define_relines (n : Nat) : Relines map (Stmt.relined map) (define lines fuel n)
    (define lines fuel (reportedLine map n)) := by
  refine .after fun name => .after fun _ => .after fun params => .after fun _ => ?_
  exact (block_relines h _ _ _).mapped fun _ => rfl

theorem statements_relines : Relines map (Stmt.relinedBlock map) (statements lines fuel around)
    (statements lines fuel around) := by
  have one {stmt stmt' : Parse Stmt} (hstmt : Relines map (Stmt.relined map) stmt stmt') :
      Relines map (Stmt.relinedBlock map) (do advance; pure [← stmt])
        (do advance; pure [← stmt']) :=
    .after fun _ => hstmt.bind fun s => .pure [s]
  refine .line (fun n => .after fun l => ?_) (simpleLine_relines [])
  · split
    · exact one (branch_relines h n)
    · exact one (whileLoop_relines h n)
    · exact one (forLoop_relines h n)
    · exact one (define_relines h n)
    · exact .unexpected
    · exact .unexpected
    · exact simpleLine_relines

end Blocks

/-! ## Programs -/

theorem parseStatement_relines : ∀ (fuel : Nat) (around : Surrounding),
    Relines map (Stmt.relinedBlock map) (parseStatement fuel around) (parseStatement fuel around)
  | 0, _ => .fail _ _
  | fuel + 1, _ => statements_relines (parseStatement_relines fuel)

theorem programLines_relines (full : Nat) : ∀ (fuel : Nat) (done : List Stmt),
    Relines map (Stmt.relinedBlock map) (programLines full fuel done)
      (programLines full fuel (Stmt.relinedBlock map done))
  | 0, done => by
    unfold programLines
    exact Stmt.relinedBlock_reverse map done ▸ .pure done.reverse
  | fuel + 1, done => by
    unfold programLines
    have made : Relines map (Stmt.relinedBlock map) (pure done.reverse)
        (pure (Stmt.relinedBlock map done).reverse) :=
      Stmt.relinedBlock_reverse map done ▸ .pure _
    refine .after fun _ => .ite made (.after fun _ => .ite ?_ ?_)
    · exact programLines_relines full fuel done
    · refine (parseStatement_relines full _).bind fun next => ?_
      have more := programLines_relines full fuel (next.reverse ++ done)
      rwa [Stmt.relinedBlock_append, Stmt.relinedBlock_reverse] at more

end Statements

/-- A program is read off relined tokens just if it is read off the tokens, with its lines relined.
-/
theorem parseTokens_relined (map : Array Nat) (ts : List Token) :
    (parseTokens (relinedTokens map ts)).toOption
      = (parseTokens ts).toOption.map (Stmt.relinedBlock map) := by
  have read : Relines map (Stmt.relinedBlock map) (programLines _ _ []) (programLines _ _ []) :=
    programLines_relines (ts.length + 1) (ts.length + 1) []
  rw [parseTokens_eq, parseTokens_eq, List.length_map]
  have first {α β : Type} (r : Except Fault (α × β)) :
      (r.map Prod.fst).toOption = r.toOption.map Prod.fst := by cases r <;> rfl
  rw [first, first, read]
  cases (programLines (ts.length + 1) (ts.length + 1) [] ts).toOption <;> rfl

/-- Tokens and statements stand on the lines of the text, looked up in the map: with a map there are
the tokens and the program that there are without one, or neither, and a token has the entry of the
line that its last character is on. -/
theorem parseProgram_accounted (text : String) (map : Array Nat) :
    (match tokenize text #[] with
      | .ok ts => tokenize text map = .ok (relinedTokens map ts) ∧
        Lexed text.toList map (relinedTokens map ts).reverse text.toList.length
      | .error e => ∃ e', tokenize text map = .error e' ∧ e'.kind = e.kind) ∧
    (parseProgram text map).toOption
      = (parseProgram text #[]).toOption.map (Stmt.relinedBlock map) := by
  rw [parseProgram, parseProgram, tokenize_relined text map]
  cases htokens : tokenize text #[] with
  | error e => exact ⟨⟨e.relined map, rfl, e.kind_relined map⟩, rfl⟩
  | ok ts =>
    have lexed := (tokenize_lexed htokens).relined map
    rw [List.map_reverse] at lexed
    exact ⟨⟨rfl, lexed⟩, parseTokens_relined map ts⟩

end SortTrace.Script
