import SortTrace.Proofs.Grammar

/-!
# Where loops and functions are left

In a program that the parser makes, `break` and `continue` stand in bodies of loops only, and
`return` in bodies of functions only (`Stmt.confinedBlock`, by `parseProgram_confined`). The part
after `else` is no body of its loop, and what is in the body of a function is not in the loop that
the function is defined in.
-/

namespace SortTrace.Script

/-! ## Confined programs -/

mutual

/-- Does the statement leave only loops and functions that it is in the body of? -/
def Stmt.confined (around : Surrounding) : Stmt → Bool
  | .branch _ cases otherwise =>
    Stmt.confinedCases around cases && Stmt.confinedBlock around otherwise
  | .whileLoop _ _ body otherwise | .forLoop _ _ _ body otherwise =>
    Stmt.confinedBlock { around with inLoop := true } body && Stmt.confinedBlock around otherwise
  | .define _ _ _ body => Stmt.confinedBlock ⟨true, false⟩ body
  | .giveBack .. => around.inFunction
  | .leaveLoop _ | .nextRound _ => around.inLoop
  | _ => true

/-- Do the statements leave only loops and functions that they are in the body of? -/
def Stmt.confinedBlock (around : Surrounding) : List Stmt → Bool
  | [] => true
  | s :: rest => s.confined around && Stmt.confinedBlock around rest

/-- Do the blocks of the cases leave only loops and functions that they are in the body of? -/
def Stmt.confinedCases (around : Surrounding) : List (Expr × List Stmt) → Bool
  | [] => true
  | (_, body) :: rest => Stmt.confinedBlock around body && Stmt.confinedCases around rest

end

theorem confinedBlock_append {around : Surrounding} {ss rest : List Stmt} :
    Stmt.confinedBlock around (ss ++ rest)
      = (Stmt.confinedBlock around ss && Stmt.confinedBlock around rest) := by
  induction ss with
  | nil => rfl
  | cons s ss ih =>
    rw [List.cons_append, Stmt.confinedBlock, Stmt.confinedBlock, ih, Bool.and_assoc]

theorem confinedBlock_singleton {around : Surrounding} {s : Stmt} :
    Stmt.confinedBlock around [s] = s.confined around := by
  rw [Stmt.confinedBlock, Stmt.confinedBlock, Bool.and_true]

theorem confinedCases_of_forall {around : Surrounding} {cases : List (Expr × List Stmt)}
    (h : ∀ c ∈ cases, Stmt.confinedBlock around c.2 = true) :
    Stmt.confinedCases around cases = true := by
  induction cases with
  | nil => rfl
  | cons c cases ih =>
    obtain ⟨hbody, hrest⟩ := List.forall_mem_cons.mp h
    obtain ⟨condition, body⟩ := c
    exact Bool.and_eq_true_iff.mpr ⟨hbody, ih hrest⟩

/-! ## Small statements -/

variable {ok : List Token → Prop} [Parse.Lasting ok] {around : Surrounding} {fuel : Nat}

theorem exprStatement_confined (line : Nat) :
    Parse.Makes ok (fun s => s.confined around = true) (exprStatement fuel line) := by
  refine .after fun first => .after fun l => ?_
  split
  · refine .ite (fun _ => .after fun _ => .mapAny fun _ => rfl) fun _ => .fail _
  · refine .after fun sides => ?_
    split
    · exact .ite (fun _ => .pure rfl) fun _ => .fail _
    · exact .unexpected
  · exact .pure rfl

theorem smallStatement_confined :
    Parse.Makes ok (fun s => s.confined around = true) (smallStatement fuel around) := by
  refine .after fun line => .after fun l => ?_
  split
  · exact .after fun _ => .pure rfl
  · exact .ite (fun h => .after fun _ => .pure h) fun _ => .fail _
  · exact .ite (fun h => .after fun _ => .pure h) fun _ => .fail _
  · refine .ite (fun h => .after fun _ => .after fun l => ?_) fun _ => .fail _
    split
    · exact .pure h
    · exact .pure h
    · exact .pure h
    · exact .mapAny fun _ => h
  · exact .after fun _ => .after fun _ => .mapAny fun _ => rfl
  · exact exprStatement_confined line

/-! ## Programs -/

/-- Each compound statement leaves only loops and functions around it if its blocks do. -/
theorem confined_grammar :
    Grammar ok (fun _ => True) fun around ss => Stmt.confinedBlock around ss = true where
  exprs := ⟨_, ExprGrammar.any.exprParts⟩
  nil _ := rfl
  append := by
    intro around ss rest
    rw [confinedBlock_append, Bool.and_eq_true_iff]
  small fuel around := by
    simp only [confinedBlock_singleton]
    exact smallStatement_confined
  branch _ _ hcases hlast :=
    confinedBlock_singleton.trans
      (Bool.and_eq_true_iff.mpr ⟨confinedCases_of_forall hcases, hlast⟩)
  whileLoop _ _ hbody hlast :=
    confinedBlock_singleton.trans (Bool.and_eq_true_iff.mpr ⟨hbody, hlast⟩)
  forLoop _ _ _ _ hbody hlast :=
    confinedBlock_singleton.trans (Bool.and_eq_true_iff.mpr ⟨hbody, hlast⟩)
  define _ _ _ hbody := confinedBlock_singleton.trans hbody

/-- A program that is accepted leaves only loops and functions from inside of their bodies. -/
theorem parseProgram_confined {text : String} {map : Array Nat} {program : List Stmt}
    (h : parseProgram text map = .ok program) :
    Stmt.confinedBlock ⟨false, false⟩ program = true :=
  confined_grammar.parseProgram h

end SortTrace.Script
