import SortTrace.Proofs.Grammar
import SortTrace.Proofs.Judgement.Held

/-!
# No syntax errors while a script runs

Assigning to something else than a target, or updating something else than a place, is a syntax
error that the machine finds while it runs. The parser lets no such statement through
(`parseProgram_assignable`), and the functions that a machine holds have been let through by it. So
whatever programs run one after the other, none of them ends with a syntax error
(`no_syntax_error_while_running`).
-/

namespace SortTrace

namespace Script

/-! ## What the parser lets through -/

theorem areTargets_eq_all (es : List Expr) : Expr.areTargets es = es.all Expr.isTarget := by
  induction es with
  | nil => rfl
  | cons e es ih => rw [Expr.areTargets, ih, List.all_cons]

variable {ok : List Token → Prop} [Parse.Lasting ok] {fuel : Nat}

theorem exprStatement_assignable (line : Nat) :
    Parse.Makes ok (fun s => s.assignable = true ∧ s.inner = []) (exprStatement fuel line) := by
  refine .after fun first => .after fun l => ?_
  split
  · exact .ite (fun place => .after fun _ => .mapAny fun _ => ⟨place, rfl⟩) fun _ => .fail _
  · refine .after fun sides => ?_
    split
    · refine .ite (fun targets => .pure ⟨?_, rfl⟩) fun _ => .fail _
      rw [Stmt.assignable, areTargets_eq_all, List.all_reverse]
      exact targets
    · exact .unexpected
  · exact .pure ⟨rfl, rfl⟩

theorem smallStatement_assignable (around : Surrounding) :
    Parse.Makes ok (fun s => s.assignable = true ∧ s.inner = []) (smallStatement fuel around) := by
  refine .after fun line => .after fun l => ?_
  split
  · exact .after fun _ => .pure ⟨rfl, rfl⟩
  · exact .ite (fun _ => .after fun _ => .pure ⟨rfl, rfl⟩) fun _ => .fail _
  · exact .ite (fun _ => .after fun _ => .pure ⟨rfl, rfl⟩) fun _ => .fail _
  · refine .ite (fun _ => .after fun _ => .after fun l => ?_) fun _ => .fail _
    split
    · exact .pure ⟨rfl, rfl⟩
    · exact .pure ⟨rfl, rfl⟩
    · exact .pure ⟨rfl, rfl⟩
    · exact .mapAny fun _ => ⟨rfl, rfl⟩
  · exact .after fun _ => .after fun _ => .mapAny fun _ => ⟨rfl, rfl⟩
  · exact exprStatement_assignable line

/-- Whether all statements in the block assign only to targets and update only places. -/
def Stmt.assignableBlock (block : List Stmt) : Bool :=
  (Stmt.inBlock block).all Stmt.assignable

theorem assignableBlock_append {ss rest : List Stmt} :
    Stmt.assignableBlock (ss ++ rest) = (Stmt.assignableBlock ss && Stmt.assignableBlock rest) := by
  rw [Stmt.assignableBlock, inBlock_append, List.all_append]
  rfl

theorem assignableBlock_singleton {s : Stmt} :
    Stmt.assignableBlock [s] = (s.assignable && s.inner.all Stmt.assignable) := by
  simp [Stmt.assignableBlock, Stmt.inBlock]

theorem inCases_assignable {cases : List (Expr × List Stmt)}
    (h : ∀ c ∈ cases, Stmt.assignableBlock c.2 = true) :
    (Stmt.inCases cases).all Stmt.assignable = true := by
  induction cases with
  | nil => rfl
  | cons c cases ih =>
    obtain ⟨hbody, hrest⟩ := List.forall_mem_cons.mp h
    obtain ⟨condition, body⟩ := c
    rw [Stmt.inCases, List.all_append, ih hrest, Bool.and_true]
    exact hbody

/-- The loops that the parser makes assign only to targets. -/
theorem assignable_grammar :
    Grammar ok (fun _ => True) fun _ ss => Stmt.assignableBlock ss = true where
  exprs := ⟨_, ExprGrammar.any.exprParts⟩
  nil _ := rfl
  append := by
    intro _ ss rest
    rw [assignableBlock_append, Bool.and_eq_true_iff]
  small fuel around := by
    refine (smallStatement_assignable around).weaken fun s hs => ?_
    rw [assignableBlock_singleton, hs.1, hs.2]
    rfl
  branch _ _ hcases hlast := by
    rw [assignableBlock_singleton, Stmt.inner, List.all_append, inCases_assignable hcases]
    exact hlast
  whileLoop _ _ hbody hlast := by
    rw [assignableBlock_singleton, Stmt.inner, List.all_append]
    exact Bool.and_eq_true_iff.mpr ⟨rfl, Bool.and_eq_true_iff.mpr ⟨hbody, hlast⟩⟩
  forLoop _ htarget _ _ hbody hlast := by
    rw [assignableBlock_singleton, Stmt.inner, List.all_append]
    exact Bool.and_eq_true_iff.mpr ⟨htarget, Bool.and_eq_true_iff.mpr ⟨hbody, hlast⟩⟩
  define _ _ _ hbody := by
    rw [assignableBlock_singleton]
    exact hbody

/-- A program that is accepted assigns only to targets and updates only places. -/
theorem parseProgram_assignable {text : String} {map : Array Nat} {program : List Stmt}
    (h : parseProgram text map = .ok program) : Stmt.assignableBlock program = true :=
  assignable_grammar.parseProgram h

end Script

open Script (FunctionDef Stmt)

/-! ## Runs -/

/-- Functions that assign to something else than targets stand for empty ones, and another fault
stands for a syntax error. -/
abbrev Recoding.assigning : Recoding :=
  .only (fun d => Stmt.assignableBlock d.body) fun _ _ => .recursion

theorem Recoding.assignable_code (d : FunctionDef) :
    Stmt.assignableBlock (assigning.code d).body = true :=
  only_code (p := fun d => Stmt.assignableBlock d.body) (fun _ => rfl) d

theorem Recoding.stop_assigning (e : Stop) (message : String) (line : Nat) :
    assigning.stop e ≠ .fault (.syntaxError message line) := by
  cases e with
  | outOfRounds => nofun
  | fault f => cases f <;> nofun

/-- Machines that hold only functions which assign to targets. -/
abbrev assigningCode : Course .assigning :=
  .recoded Recoding.line_only

theorem assigningCode_admits {block : List Stmt} (hblock : Stmt.assignableBlock block = true)
    (timeout : Option Nat) :
    ∀ p ∈ Stmt.inBlock block, (assigningCode.conduct timeout).Admits p := by
  intro p hp
  have assignable := List.all_eq_true.mp hblock
  refine .whole (fun d hd => ?_) (.inr (assignable p hp)) fun _ _ => trivial
  have body : Stmt.assignableBlock d.body = true := by
    refine List.all_eq_true.mpr fun q hq => assignable q ?_
    rw [← Script.inner_of_function? hd] at hq
    exact Script.inBlock_trans hq block hp
  have fixed : Recoding.assigning.code d = d := Recoding.code_of_only body
  exact ⟨fixed, fixed⟩

theorem assigningCode_code (timeout : Option Nat) (d : FunctionDef) :
    ∀ p ∈ Stmt.inBlock (Recoding.assigning.code d).body, (assigningCode.conduct timeout).Admits p :=
  assigningCode_admits (Recoding.assignable_code d) timeout

theorem Reached.assigning {m : Machine} (hm : Reached m) : m.Recoded .assigning :=
  hm.recoded assigningCode_code
    fun timeout _ _ _ read => assigningCode_admits (Script.parseProgram_assignable read) timeout

/-- **No program that is accepted ends with a syntax error.** All that it assigns to are targets and
all that it updates are places, in the bodies of its functions too. -/
theorem no_syntax_error_while_running {text : String} {map : Array Nat} {program : List Stmt}
    (read : Script.parseProgram text map = .ok program) :
    (∀ s ∈ Stmt.inBlock program, s.assignable = true) ∧
    ∀ (m : Machine) (limits : Limits) (rounds : Nat), Reached m →
      ∀ (message : String) (line : Nat) (m₁ : Machine),
        runProgram limits rounds program m ≠ .error (.fault (.syntaxError message line)) m₁ := by
  have assignable := Script.parseProgram_assignable read
  refine ⟨List.all_eq_true.mp assignable, fun m limits rounds hm message line m₁ h => ?_⟩
  have ends := Course.recoded_runBlock (assigningCode_code limits.timeout)
    (assigningCode_admits assignable limits.timeout) hm.assigning rounds
    (limits.recursion - m.scopes.depth)
  obtain ⟨e, he⟩ := ends.stop (runBlock_of_runProgram_error h)
  exact Recoding.stop_assigning e message line he.symm

/-- A loop that unpacks into targets inside of targets. -/
theorem no_syntax_error_while_running_unpack :
    let text := "for a, [b] in x:\n a += b"
    let program : List Stmt := [
      .forLoop 1 (.tuple [.name "a", .list [.name "b"]]) (.name "x")
        [.augment 2 (.name "a") .add (.name "b")] []]
    let m := Machine.start (Session.start .report [] none)
    Script.parseProgram text #[] = .ok program ∧ Reached m ∧
      (∀ s ∈ Stmt.inBlock program, s.assignable = true) ∧
      ∀ message line m₁,
        runProgram ⟨1, none⟩ 1 program m ≠ .error (.fault (.syntaxError message line)) m₁ := by
  intro text program m
  have tokens : Script.tokenize text #[] = .ok [⟨.mark Script.Keyword.forKw, 1⟩, ⟨.name "a", 1⟩,
      ⟨.mark Script.Punct.comma, 1⟩, ⟨.mark Script.Punct.lbracket, 1⟩, ⟨.name "b", 1⟩,
      ⟨.mark Script.Punct.rbracket, 1⟩, ⟨.mark Script.Keyword.inKw, 1⟩, ⟨.name "x", 1⟩,
      ⟨.mark Script.Punct.colon, 1⟩, ⟨.mark Script.Layout.newline, 1⟩,
      ⟨.mark Script.Layout.indent, 2⟩, ⟨.name "a", 2⟩, ⟨.augment .add, 2⟩, ⟨.name "b", 2⟩,
      ⟨.mark Script.Layout.newline, 2⟩, ⟨.mark Script.Layout.dedent, 2⟩,
      ⟨.mark Script.Layout.finish, 2⟩] := by decide +kernel
  have read : Script.parseProgram text #[] = .ok program :=
    (Script.parseProgram_of_tokenize tokens).trans rfl
  obtain ⟨assignable, never⟩ := no_syntax_error_while_running read
  have reached : Reached m := .start _
  exact ⟨read, reached, assignable, never m ⟨1, none⟩ 1 reached⟩

end SortTrace
