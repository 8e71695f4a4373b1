import SortTrace.Proofs.Grammar
import SortTrace.Proofs.Statements

/-!
# What the statements of a program are made of

A property of the expressions that the parser makes holds of those that stand in the statements of a
program, at any depth, and the parameters of every function in it are as they are read
(`Stmt.Read`, `ExprParts.parseTokens`).
-/

namespace SortTrace.Script

open Parse

/-- The expressions that stand in the statement itself, not in its blocks. -/
def Stmt.exprs : Stmt → List Expr
  | .expr _ e => [e]
  | .assign _ targets value => value :: targets
  | .augment _ target _ operand => [target, operand]
  | .branch _ cases _ => cases.map Prod.fst
  | .whileLoop _ condition _ _ => [condition]
  | .forLoop _ target items _ _ => [target, items]
  | .define _ _ params _ => params.filterMap Param.default
  | .giveBack _ value => value.toList
  | .declareGlobal .. | .leaveLoop .. | .nextRound .. | .pass .. => []

/-- The expressions of the statement have the property, and its parameters are as they are read. -/
structure Stmt.Read (ok : List Token → Prop) (fine : Expr → Prop) (s : Stmt) : Prop where
  exprs : ∀ e ∈ s.exprs, fine e
  params : ∀ d, s.function? = some d → ParamsRead ok fine d.params

/-- All statements of the block, at any depth, are as they are read. -/
def Stmt.ReadBlock (ok : List Token → Prop) (fine : Expr → Prop) (block : List Stmt) : Prop :=
  ∀ s ∈ Stmt.inBlock block, s.Read ok fine

section

variable {ok : List Token → Prop} {part fine : Expr → Prop} {fuel : Nat}

theorem Stmt.readBlock_append {block rest : List Stmt} : Stmt.ReadBlock ok fine (block ++ rest)
    ↔ Stmt.ReadBlock ok fine block ∧ Stmt.ReadBlock ok fine rest := by
  rw [Stmt.ReadBlock, inBlock_append, List.forall_mem_append]
  rfl

theorem Stmt.readBlock_singleton {s : Stmt} (h : s.Read ok fine)
    (hinner : ∀ p ∈ s.inner, p.Read ok fine) : Stmt.ReadBlock ok fine [s] := by
  rw [Stmt.ReadBlock, Stmt.inBlock, Stmt.inBlock, List.append_nil]
  exact List.forall_mem_cons.mpr ⟨h, hinner⟩

theorem Stmt.read_inCases {cases : List (Expr × List Stmt)}
    (h : ∀ c ∈ cases, Stmt.ReadBlock ok fine c.2) :
    ∀ p ∈ Stmt.inCases cases, p.Read ok fine := by
  induction cases with
  | nil => exact nofun
  | cons c cases ih =>
    obtain ⟨hbody, hrest⟩ := List.forall_mem_cons.mp h
    exact List.forall_mem_append.mpr ⟨hbody, ih hrest⟩

/-- A statement that is no function. -/
theorem Stmt.Read.plain {s : Stmt} (h : ∀ e ∈ s.exprs, fine e) (hs : s.function? = none) :
    s.Read ok fine :=
  ⟨h, fun d hd => by rw [hs] at hd; cases hd⟩

variable (E : ExprParts ok part fine)

section

variable [Inward ok]

include E

theorem exprStatement_read (line : Nat) :
    Parse.Makes ok (fun s => s.Read ok fine ∧ s.inner = []) (exprStatement fuel line) := by
  refine .bind E.testList fun first hfirst => .peekNext fun l => ?_
  split
  · refine .ite (fun _ => .inner rfl (E.testList.map fun operand hoperand => ?_)) fun _ => .fail _
    exact ⟨.plain (by simp [Stmt.exprs, hfirst, hoperand]) rfl, rfl⟩
  · have single : ∀ e ∈ [first], fine e := List.forall_mem_singleton.mpr hfirst
    refine .ofNext ((moreAssigned_makes E.testList fuel [first] single).bind fun sides hsides => ?_)
    split
    · refine .ite (fun _ => .pure ⟨.plain (fun e he => hsides e ?_) rfl, rfl⟩) fun _ => .fail _
      simpa [Stmt.exprs] using he
    · exact .unexpected
  · exact .ofNext (.pure ⟨.plain (List.forall_mem_singleton.mpr hfirst) rfl, rfl⟩)

theorem smallStatement_read (around : Surrounding) :
    Parse.Makes ok (fun s => s.Read ok fine ∧ s.inner = []) (smallStatement fuel around) := by
  have bare {s : Stmt} (hs : s.exprs = []) (hf : s.function? = none) (hi : s.inner = []) :
      s.Read ok fine ∧ s.inner = [] := ⟨.plain (by rw [hs]; exact nofun) hf, hi⟩
  refine .after fun line => .peekNext fun l => ?_
  split
  · exact .inner rfl (.pure (bare rfl rfl rfl))
  · exact .ite (fun _ => .inner rfl (.pure (bare rfl rfl rfl))) fun _ => .fail _
  · exact .ite (fun _ => .inner rfl (.pure (bare rfl rfl rfl))) fun _ => .fail _
  · refine .ite (fun _ => .inner rfl (.after fun l => ?_)) fun _ => .fail _
    have valued : Parse.Makes ok (fun s : Stmt => s.Read ok fine ∧ s.inner = [])
        ((.giveBack line ∘ some) <$> parseTestList fuel) :=
      E.testList.map fun e he => ⟨.plain (List.forall_mem_singleton.mpr he) rfl, rfl⟩
    split
    · exact .pure (bare rfl rfl rfl)
    · exact .pure (bare rfl rfl rfl)
    · exact .pure (bare rfl rfl rfl)
    · exact valued
  · exact .inner rfl (.after fun _ => .mapAny fun _ => bare rfl rfl rfl)
  · exact .ofNext (exprStatement_read E line)

end

variable [Lasting ok]

include E

theorem read_grammar : Grammar ok fine fun _ ss => Stmt.ReadBlock ok fine ss where
  exprs := ⟨part, E⟩
  nil _ := nofun
  append := Stmt.readBlock_append
  small fuel around := (smallStatement_read E around).weaken fun s hs =>
    Stmt.readBlock_singleton hs.1 (by rw [hs.2]; exact nofun)
  branch _ hfine hcases hlast := by
    refine Stmt.readBlock_singleton (.plain (fun e he => ?_) rfl)
      (List.forall_mem_append.mpr ⟨Stmt.read_inCases hcases, hlast⟩)
    obtain ⟨c, hc, rfl⟩ := List.mem_map.mp he
    exact hfine c hc
  whileLoop _ hfine hbody hlast :=
    Stmt.readBlock_singleton (.plain (List.forall_mem_singleton.mpr hfine) rfl)
      (List.forall_mem_append.mpr ⟨hbody, hlast⟩)
  forLoop _ _ hfine hitems hbody hlast :=
    Stmt.readBlock_singleton (.plain (by simp [Stmt.exprs, hfine, hitems]) rfl)
      (List.forall_mem_append.mpr ⟨hbody, hlast⟩)
  define _ _ hparams hbody := by
    refine Stmt.readBlock_singleton ⟨fun e he => ?_, fun d hd => ?_⟩ hbody
    · obtain ⟨p, hp, hdefault⟩ := List.mem_filterMap.mp he
      exact hparams.defaults p hp e hdefault
    · obtain rfl := Option.some.inj hd
      exact hparams

/-- The statements of a program that is made of admitted tokens are as they are read. -/
theorem ExprParts.parseTokens {ts : List Token} {program : List Stmt} (hts : ok ts)
    (h : parseTokens ts = .ok program) : Stmt.ReadBlock ok fine program :=
  (read_grammar E).parseTokens hts h

end

/-- The functions of a program that is accepted have parameters as they are read. -/
theorem params_of_parseProgram {text : String} {map : Array Nat} {program : List Stmt}
    (h : parseProgram text map = .ok program) {d : FunctionDef}
    (hd : d ∈ Stmt.blockFunctions program) :
    (d.params.map Param.name).Nodup ∧
      d.params.Pairwise fun p q => p.default.isSome = true → q.default.isSome = true := by
  obtain ⟨s, hs, hfunction⟩ := List.mem_filterMap.mp hd
  have parts : ExprParts (fun _ => True) (fun _ => True) fun _ => True := ExprGrammar.any.exprParts
  have read := ((read_grammar parts).parseProgram h s hs).params d hfunction
  exact ⟨read.distinct, read.trailing⟩

end SortTrace.Script
