import SortTrace.Script.Tree

/-!
# Names that a program binds

A name is bound as a target, as a function or as a parameter. A declaration as global binds nothing
by itself.
-/

namespace SortTrace.Script

mutual

/-- Does an assignment to the target bind the name? -/
def Expr.binds (name : String) : Expr → Bool
  | .name s => s == name
  | .tuple items | .list items => Expr.anyBinds name items
  | _ => false

/-- Does an assignment to one of the targets bind the name? -/
def Expr.anyBinds (name : String) : List Expr → Bool
  | [] => false
  | e :: es => e.binds name || Expr.anyBinds name es

end

mutual

/-- Does the statement bind the name, as a target, as a function or as a parameter? -/
def Stmt.binds (name : String) : Stmt → Bool
  | .assign _ targets _ => Expr.anyBinds name targets
  | .augment _ target _ _ => target.binds name
  | .branch _ cases otherwise => Stmt.caseBinds name cases || Stmt.anyBinds name otherwise
  | .whileLoop _ _ body otherwise => Stmt.anyBinds name body || Stmt.anyBinds name otherwise
  | .forLoop _ target _ body otherwise =>
    target.binds name || Stmt.anyBinds name body || Stmt.anyBinds name otherwise
  | .define _ f params body =>
    f == name || params.any (fun p => p.name == name) || Stmt.anyBinds name body
  | _ => false

/-- Does a statement of the block bind the name? -/
def Stmt.anyBinds (name : String) : List Stmt → Bool
  | [] => false
  | s :: rest => s.binds name || Stmt.anyBinds name rest

/-- Does a statement of one of the blocks bind the name? -/
def Stmt.caseBinds (name : String) : List (Expr × List Stmt) → Bool
  | [] => false
  | (_, body) :: rest => Stmt.anyBinds name body || Stmt.caseBinds name rest

end

end SortTrace.Script
