import SortTrace.Proofs.Coupling.Marking

/-!
# Programs with logging calls after lines

`Stmt.loggedBlock` puts a logging call after the last statement of every line of a kind, into the
block of that statement. The lines are told by a predicate, `writes`; the statements on them hold no
blocks of their own.
-/

namespace SortTrace.Script

mutual

/-- The statement with logging calls in its blocks. -/
def Stmt.logged (writes : Nat → Bool) (var : String) : Stmt → Stmt
  | .branch n cases otherwise =>
    .branch n (Stmt.loggedCases writes var cases) (Stmt.loggedBlock writes var otherwise)
  | .whileLoop n condition body otherwise =>
    .whileLoop n condition (Stmt.loggedBlock writes var body)
      (Stmt.loggedBlock writes var otherwise)
  | .forLoop n target items body otherwise =>
    .forLoop n target items (Stmt.loggedBlock writes var body)
      (Stmt.loggedBlock writes var otherwise)
  | .define n name params body => .define n name params (Stmt.loggedBlock writes var body)
  | s => s

/-- The block with a logging call after the last statement of every line that writes. -/
def Stmt.loggedBlock (writes : Nat → Bool) (var : String) : List Stmt → List Stmt
  | [] => []
  | s :: rest =>
    if writes s.line && rest.head?.all fun next => next.line != s.line then
      s.logged writes var :: .logCall s.line var :: Stmt.loggedBlock writes var rest
    else s.logged writes var :: Stmt.loggedBlock writes var rest

/-- The cases with logging calls in their blocks. -/
def Stmt.loggedCases (writes : Nat → Bool) (var : String) :
    List (Expr × List Stmt) → List (Expr × List Stmt)
  | [] => []
  | (condition, body) :: rest =>
    (condition, Stmt.loggedBlock writes var body) :: Stmt.loggedCases writes var rest

end

variable {writes : Nat → Bool} {var : String}

theorem Stmt.logged_simple {s : Stmt} (h : s.isSimple = true) : s.logged writes var = s := by
  cases s with
  | branch | whileLoop | forLoop | define => cases h
  | _ => rfl

theorem map_logged_simple {ss : List Stmt} (h : ∀ s ∈ ss, s.isSimple = true) :
    ss.map (Stmt.logged writes var) = ss := by
  have each : ss.map (Stmt.logged writes var) = ss.map id :=
    List.map_congr_left fun s hs => Stmt.logged_simple (h s hs)
  rwa [List.map_id] at each

theorem loggedCases_eq_map (cases : List (Expr × List Stmt)) :
    Stmt.loggedCases writes var cases
      = cases.map fun c => (c.1, Stmt.loggedBlock writes var c.2) := by
  induction cases with
  | nil => rfl
  | cons c cases ih =>
    obtain ⟨condition, body⟩ := c
    rw [Stmt.loggedCases, ih]
    rfl

theorem loggedCases_reverse (cases : List (Expr × List Stmt)) :
    Stmt.loggedCases writes var cases.reverse = (Stmt.loggedCases writes var cases).reverse := by
  rw [loggedCases_eq_map, loggedCases_eq_map, List.map_reverse]

/-! ## Lines of a block -/

/-- Statements of lines that do not write. -/
theorem loggedBlock_plain {ss rest : List Stmt} (h : ∀ s ∈ ss, writes s.line = false) :
    Stmt.loggedBlock writes var (ss ++ rest)
      = ss.map (Stmt.logged writes var) ++ Stmt.loggedBlock writes var rest := by
  induction ss with
  | nil => rfl
  | cons s ss ih =>
    have quiet : writes s.line = false := h s (List.mem_cons_self ..)
    have others := ih fun s hs => h s (List.mem_cons_of_mem _ hs)
    rw [List.cons_append, Stmt.loggedBlock, quiet, Bool.false_and, others]
    rfl

/-- A block of simple statements on lines that do not write. -/
theorem loggedBlock_simple {ss : List Stmt}
    (h : ∀ s ∈ ss, s.isSimple = true ∧ writes s.line = false) :
    Stmt.loggedBlock writes var ss = ss := by
  have plain : Stmt.loggedBlock writes var (ss ++ [])
      = ss.map (Stmt.logged writes var) ++ Stmt.loggedBlock writes var [] :=
    loggedBlock_plain fun s hs => (h s hs).2
  rwa [Stmt.loggedBlock, List.append_nil, List.append_nil,
    map_logged_simple fun s hs => (h s hs).1] at plain

/-- The statements of a line that writes, with the call after them. -/
theorem loggedBlock_written {n : Nat} {ss rest : List Stmt} (hn : writes n = true) (hne : ss ≠ [])
    (hs : ∀ s ∈ ss, s.line = n ∧ s.isSimple = true) (hr : ∀ s ∈ rest.head?, s.line ≠ n) :
    Stmt.loggedBlock writes var (ss ++ rest)
      = ss ++ .logCall n var :: Stmt.loggedBlock writes var rest := by
  induction ss with
  | nil => exact absurd rfl hne
  | cons s ss ih =>
    obtain ⟨hline, hsimple⟩ := hs s (List.mem_cons_self ..)
    rw [List.cons_append, Stmt.loggedBlock, Stmt.logged_simple hsimple, hline, hn, Bool.true_and]
    cases ss with
    | nil =>
      have last : rest.head?.all (fun next => next.line != n) = true := by
        rw [Option.all_eq_true]
        intro next hnext
        exact bne_iff_ne.mpr (hr next hnext)
      rw [List.nil_append, if_pos last]
      rfl
    | cons next ss =>
      have more : ((next :: ss) ++ rest).head?.all (fun next => next.line != n) = false := by
        simp [(hs next (by simp)).1]
      rw [more]
      exact congrArg (s :: ·) (ih (by simp) fun s hs' => hs s (List.mem_cons_of_mem _ hs'))

end SortTrace.Script
