import SortTrace.Proofs.BoundNames

/-!
# The statements of a program

Statements stand in statements: in the blocks of branches and loops, and in the bodies of functions.
What every statement of a program has to be is said of the list of all of them. Statements of some
kind can be left out of a program, at any depth (`Stmt.pruneBlock`).
-/

namespace SortTrace.Script

mutual

/-- The statements inside of a statement, at any depth; those of function bodies are among them. -/
def Stmt.inner : Stmt → List Stmt
  | .branch _ cases otherwise => Stmt.inCases cases ++ Stmt.inBlock otherwise
  | .whileLoop _ _ body otherwise | .forLoop _ _ _ body otherwise =>
    Stmt.inBlock body ++ Stmt.inBlock otherwise
  | .define _ _ _ body => Stmt.inBlock body
  | _ => []

/-- The statements of a block and those inside of them. -/
def Stmt.inBlock : List Stmt → List Stmt
  | [] => []
  | s :: rest => s :: (s.inner ++ Stmt.inBlock rest)

/-- The statements of the blocks of cases and those inside of them. -/
def Stmt.inCases : List (Expr × List Stmt) → List Stmt
  | [] => []
  | (_, body) :: rest => Stmt.inBlock body ++ Stmt.inCases rest

end

theorem inBlock_append (block rest : List Stmt) :
    Stmt.inBlock (block ++ rest) = Stmt.inBlock block ++ Stmt.inBlock rest := by
  induction block with
  | nil => rfl
  | cons s block ih =>
    rw [List.cons_append, Stmt.inBlock, ih, Stmt.inBlock, List.cons_append, List.append_assoc]

mutual

theorem inner_trans {p q : Stmt} (hq : q ∈ p.inner) : ∀ s : Stmt, p ∈ s.inner → q ∈ s.inner
  | .branch _ cases otherwise, hp => by
    rcases List.mem_append.mp hp with hp | hp
    · exact List.mem_append_left _ (inCases_trans hq cases hp)
    · exact List.mem_append_right _ (inBlock_trans hq otherwise hp)
  | .whileLoop _ _ body otherwise, hp | .forLoop _ _ _ body otherwise, hp => by
    rcases List.mem_append.mp hp with hp | hp
    · exact List.mem_append_left _ (inBlock_trans hq body hp)
    · exact List.mem_append_right _ (inBlock_trans hq otherwise hp)
  | .define _ _ _ body, hp => inBlock_trans hq body hp
  | .expr .., hp | .assign .., hp | .augment .., hp | .giveBack .., hp | .declareGlobal .., hp
  | .leaveLoop .., hp | .nextRound .., hp | .pass .., hp => nomatch hp

/-- What is inside of a statement of a block is in the block. -/
theorem inBlock_trans {p q : Stmt} (hq : q ∈ p.inner) : ∀ block : List Stmt,
    p ∈ Stmt.inBlock block → q ∈ Stmt.inBlock block
  | s :: rest, hp => by
    rcases List.mem_cons.mp hp with rfl | hp
    · exact .tail _ (List.mem_append_left _ hq)
    rcases List.mem_append.mp hp with hp | hp
    · exact .tail _ (List.mem_append_left _ (inner_trans hq s hp))
    · exact .tail _ (List.mem_append_right _ (inBlock_trans hq rest hp))

theorem inCases_trans {p q : Stmt} (hq : q ∈ p.inner) : ∀ cases : List (Expr × List Stmt),
    p ∈ Stmt.inCases cases → q ∈ Stmt.inCases cases
  | (_, body) :: rest, hp => by
    rcases List.mem_append.mp hp with hp | hp
    · exact List.mem_append_left _ (inBlock_trans hq body hp)
    · exact List.mem_append_right _ (inCases_trans hq rest hp)

end

/-- The function that the statement defines. -/
def Stmt.function? : Stmt → Option FunctionDef
  | .define _ name params body => some ⟨name, params, body⟩
  | _ => none

/-- The body of a function is inside of the statement that defines it. -/
theorem inner_of_function? {s : Stmt} {d : FunctionDef} (hd : s.function? = some d) :
    s.inner = Stmt.inBlock d.body := by
  cases s with
  | define n name params body =>
    obtain rfl := Option.some.inj hd
    rfl
  | _ => cases hd

/-- The functions that are defined in a block. -/
def Stmt.blockFunctions (block : List Stmt) : List FunctionDef :=
  (Stmt.inBlock block).filterMap Stmt.function?

/-- Can what the statement assigns to be assigned to, and what it updates be updated? -/
def Stmt.assignable : Stmt → Bool
  | .assign _ targets _ => Expr.areTargets targets
  | .augment _ target _ _ => target.isPlace
  | .forLoop _ target _ _ _ => target.isTarget
  | _ => true

/-- The names that the statement declares global. -/
def Stmt.declared : Stmt → List String
  | .declareGlobal _ names => names
  | _ => []

mutual

theorem binds_of_inner {name : String} {p : Stmt} : ∀ s : Stmt, p ∈ s.inner →
    s.binds name = false → p.binds name = false
  | .branch _ cases otherwise, hp, h => by
    obtain ⟨hcases, hotherwise⟩ := Bool.or_eq_false_iff.mp h
    rcases List.mem_append.mp hp with hp | hp
    · exact binds_of_inCases cases hp hcases
    · exact binds_of_inBlock otherwise hp hotherwise
  | .whileLoop _ _ body otherwise, hp, h => by
    obtain ⟨hbody, hotherwise⟩ := Bool.or_eq_false_iff.mp h
    rcases List.mem_append.mp hp with hp | hp
    · exact binds_of_inBlock body hp hbody
    · exact binds_of_inBlock otherwise hp hotherwise
  | .forLoop _ _ _ body otherwise, hp, h => by
    obtain ⟨hfront, hotherwise⟩ := Bool.or_eq_false_iff.mp h
    rcases List.mem_append.mp hp with hp | hp
    · exact binds_of_inBlock body hp (Bool.or_eq_false_iff.mp hfront).2
    · exact binds_of_inBlock otherwise hp hotherwise
  | .define _ _ _ body, hp, h => binds_of_inBlock body hp (Bool.or_eq_false_iff.mp h).2
  | .expr .., hp, _ | .assign .., hp, _ | .augment .., hp, _ | .giveBack .., hp, _
  | .declareGlobal .., hp, _ | .leaveLoop .., hp, _ | .nextRound .., hp, _ | .pass .., hp, _ =>
    nomatch hp

/-- A name that a block does not bind, no statement in it binds. -/
theorem binds_of_inBlock {name : String} {p : Stmt} : ∀ block : List Stmt,
    p ∈ Stmt.inBlock block → Stmt.anyBinds name block = false → p.binds name = false
  | s :: rest, hp, h => by
    obtain ⟨hs, hrest⟩ := Bool.or_eq_false_iff.mp h
    rcases List.mem_cons.mp hp with rfl | hp
    · exact hs
    rcases List.mem_append.mp hp with hp | hp
    · exact binds_of_inner s hp hs
    · exact binds_of_inBlock rest hp hrest

theorem binds_of_inCases {name : String} {p : Stmt} : ∀ cases : List (Expr × List Stmt),
    p ∈ Stmt.inCases cases → Stmt.caseBinds name cases = false → p.binds name = false
  | (_, body) :: rest, hp, h => by
    obtain ⟨hbody, hrest⟩ := Bool.or_eq_false_iff.mp h
    rcases List.mem_append.mp hp with hp | hp
    · exact binds_of_inBlock body hp hbody
    · exact binds_of_inCases rest hp hrest

end

/-! ## Programs without some statements -/

mutual

/-- The statement without those inside of it that are to be left out. -/
def Stmt.prune (out : Stmt → Bool) : Stmt → Stmt
  | .branch n cases otherwise =>
    .branch n (Stmt.pruneCases out cases) (Stmt.pruneBlock out otherwise)
  | .whileLoop n condition body otherwise =>
    .whileLoop n condition (Stmt.pruneBlock out body) (Stmt.pruneBlock out otherwise)
  | .forLoop n target items body otherwise =>
    .forLoop n target items (Stmt.pruneBlock out body) (Stmt.pruneBlock out otherwise)
  | .define n name params body => .define n name params (Stmt.pruneBlock out body)
  | s => s

/-- The block without the statements that are to be left out, at any depth. -/
def Stmt.pruneBlock (out : Stmt → Bool) : List Stmt → List Stmt
  | [] => []
  | s :: rest => if out s then Stmt.pruneBlock out rest else s.prune out :: Stmt.pruneBlock out rest

/-- The cases without the statements that are to be left out, at any depth. -/
def Stmt.pruneCases (out : Stmt → Bool) : List (Expr × List Stmt) → List (Expr × List Stmt)
  | [] => []
  | (condition, body) :: rest => (condition, Stmt.pruneBlock out body) :: Stmt.pruneCases out rest

end

/-- The function without the statements that are to be left out. -/
def FunctionDef.prune (out : Stmt → Bool) (d : FunctionDef) : FunctionDef :=
  ⟨d.name, d.params, Stmt.pruneBlock out d.body⟩

section Prune

variable {out : Stmt → Bool} {name : String}

mutual

theorem prune_eq_self : ∀ s : Stmt, (∀ p ∈ s.inner, out p = false) → s.prune out = s
  | .branch n cases otherwise, h => by
    rw [Stmt.prune, pruneCases_eq_self cases fun p hp => h p (List.mem_append_left _ hp),
      pruneBlock_eq_self otherwise fun p hp => h p (List.mem_append_right _ hp)]
  | .whileLoop n condition body otherwise, h => by
    rw [Stmt.prune, pruneBlock_eq_self body fun p hp => h p (List.mem_append_left _ hp),
      pruneBlock_eq_self otherwise fun p hp => h p (List.mem_append_right _ hp)]
  | .forLoop n target items body otherwise, h => by
    rw [Stmt.prune, pruneBlock_eq_self body fun p hp => h p (List.mem_append_left _ hp),
      pruneBlock_eq_self otherwise fun p hp => h p (List.mem_append_right _ hp)]
  | .define n name params body, h => by
    rw [Stmt.prune, pruneBlock_eq_self body h]
  | .expr .., _ | .assign .., _ | .augment .., _ | .giveBack .., _ | .declareGlobal .., _
  | .leaveLoop .., _ | .nextRound .., _ | .pass .., _ => rfl

/-- Nothing is left out of a block in which nothing is to be. -/
theorem pruneBlock_eq_self : ∀ block : List Stmt, (∀ p ∈ Stmt.inBlock block, out p = false) →
    Stmt.pruneBlock out block = block
  | [], _ => rfl
  | s :: rest, h => by
    obtain ⟨hs, h⟩ := List.forall_mem_cons.mp h
    rw [Stmt.pruneBlock, hs, prune_eq_self s fun p hp => h p (List.mem_append_left _ hp),
      pruneBlock_eq_self rest fun p hp => h p (List.mem_append_right _ hp)]
    rfl

theorem pruneCases_eq_self : ∀ cases : List (Expr × List Stmt),
    (∀ p ∈ Stmt.inCases cases, out p = false) → Stmt.pruneCases out cases = cases
  | [], _ => rfl
  | (condition, body) :: rest, h => by
    rw [Stmt.pruneCases, pruneBlock_eq_self body fun p hp => h p (List.mem_append_left _ hp),
      pruneCases_eq_self rest fun p hp => h p (List.mem_append_right _ hp)]

end

theorem code_prune_eq_self (d : FunctionDef) (h : ∀ s, out s = false) : d.prune out = d := by
  rw [FunctionDef.prune, pruneBlock_eq_self d.body fun p _ => h p]

theorem pruneBlock_append (block rest : List Stmt) :
    Stmt.pruneBlock out (block ++ rest)
      = Stmt.pruneBlock out block ++ Stmt.pruneBlock out rest := by
  induction block with
  | nil => rfl
  | cons s block ih =>
    rw [List.cons_append, Stmt.pruneBlock, ih, Stmt.pruneBlock]
    split <;> rfl

mutual

theorem binds_prune (h : ∀ s, out s = true → s.binds name = false) : ∀ s : Stmt,
    (s.prune out).binds name = s.binds name
  | .branch n cases otherwise => by
    rw [Stmt.prune, Stmt.binds, caseBinds_prune h cases, anyBinds_prune h otherwise, Stmt.binds]
  | .whileLoop n condition body otherwise => by
    rw [Stmt.prune, Stmt.binds, anyBinds_prune h body, anyBinds_prune h otherwise, Stmt.binds]
  | .forLoop n target items body otherwise => by
    rw [Stmt.prune, Stmt.binds, anyBinds_prune h body, anyBinds_prune h otherwise, Stmt.binds]
  | .define n f params body => by
    rw [Stmt.prune, Stmt.binds, anyBinds_prune h body, Stmt.binds]
  | .expr .. | .assign .. | .augment .. | .giveBack .. | .declareGlobal .. | .leaveLoop ..
  | .nextRound .. | .pass .. => rfl

/-- A block binds the same names if what is left out binds none. -/
theorem anyBinds_prune (h : ∀ s, out s = true → s.binds name = false) : ∀ block : List Stmt,
    Stmt.anyBinds name (Stmt.pruneBlock out block) = Stmt.anyBinds name block
  | [] => rfl
  | s :: rest => by
    rw [Stmt.pruneBlock, Stmt.anyBinds, ← anyBinds_prune h rest]
    split
    · next hs => rw [h s hs, Bool.false_or]
    · rw [Stmt.anyBinds, binds_prune h s]

theorem caseBinds_prune (h : ∀ s, out s = true → s.binds name = false) :
    ∀ cases : List (Expr × List Stmt),
      Stmt.caseBinds name (Stmt.pruneCases out cases) = Stmt.caseBinds name cases
  | [] => rfl
  | (condition, body) :: rest => by
    rw [Stmt.pruneCases, Stmt.caseBinds, Stmt.caseBinds, anyBinds_prune h body,
      caseBinds_prune h rest]

end

end Prune

end SortTrace.Script
