import SortTrace.Proofs.Grammar.Expr
import SortTrace.Script.Parsing.Program

/-!
# What the parser makes

A property of statements in their surroundings holds of every program that the parser makes of some
tokens if it holds of the small statements that it makes of them and each compound statement hands
it on from its blocks (`Grammar`, `Grammar.parseTokens`). The part after `else` is surrounded as its
loop is, and what is in the body of a function is not in the loop that the function is defined in.
The parameters of a function have names of their own, and those with a default come last
(`ParamsRead`).
-/

namespace SortTrace.Script

open Parse

/-! ## Parts of lines -/

section Parts

variable {ok : List Token → Prop} [Inward ok] {part fine : Expr → Prop} {fuel : Nat}

instance moreNames_keeps : ∀ (fuel : Nat) (names : List String), Keeps ok (moreNames fuel names)
  | 0, _ => (Parse.Leads.pure trivial : Parse.Makes ok (fun _ => True) _).keeps
  | fuel + 1, names => by
    refine (Parse.Leads.after fun _ =>
      .ite (fun _ => .after fun name => ?_) fun _ => .pure trivial :
      Parse.Makes ok (fun _ => True) _).keeps
    exact (moreNames_keeps fuel (name :: names)).makes

instance : Keeps ok atLineEnd :=
  (Parse.Leads.after fun _ => .after fun _ => .pure trivial :
    Parse.Makes ok (fun _ => True) _).keeps

/-- The parser makes expressions with a property, of parts that have one as well. -/
structure ExprParts (ok : List Token → Prop) (part fine : Expr → Prop) : Prop where
  test (fuel : Nat) : Parse.Makes ok part (parseTest fuel)
  operand (fuel : Nat) : Parse.Makes ok part (parseOperand fuel)
  whole (e : Expr) (h : part e) : fine e
  tuple (items : List Expr) (h : ∀ e ∈ items, part e) : fine (.tuple items)

theorem ExprGrammar.exprParts (G : ExprGrammar ok fine) : ExprParts ok fine fine where
  test _ := G.parseTest
  operand _ := G.parseOperand
  whole _ he := he
  tuple _ hes := G.tuple hes

theorem moreAssigned_makes {testlist : Parse Expr} (h : Parse.Makes ok fine testlist) :
    ∀ (fuel : Nat) (sides : List Expr), (∀ e ∈ sides, fine e) →
      Parse.Makes ok (fun es => ∀ e ∈ es, fine e) (moreAssigned testlist fuel sides)
  | 0, _, hsides => .pure hsides
  | fuel + 1, sides, hsides =>
    .after fun _ => .ite (fun _ => h.bind fun e he =>
      moreAssigned_makes h fuel (e :: sides) (List.forall_mem_cons.mpr ⟨he, hsides⟩)) fun _ =>
        .pure hsides

instance moreAssigned_keeps {testlist : Parse Expr} [h : Keeps ok testlist] (sides : List Expr) :
    Keeps ok (moreAssigned testlist fuel sides) :=
  (moreAssigned_makes h.makes fuel sides fun _ _ => trivial).keeps

namespace ExprParts

variable (E : ExprParts ok part fine)

include E

theorem testList : Parse.Makes ok fine (parseTestList fuel) :=
  (E.test fuel).testList E.whole E.tuple

theorem moreTargets (full : Nat) :
    ∀ (fuel : Nat) (targets : List Expr), (∀ e ∈ targets, part e) →
      Parse.Makes ok (fun es => ∀ e ∈ es, part e) (moreTargets full fuel targets)
  | 0, _, htargets => .pure (all_reverse htargets)
  | fuel + 1, targets, htargets => by
    have made : Parse.Makes ok (fun es => ∀ e ∈ es, part e) (pure targets.reverse) :=
      .pure (all_reverse htargets)
    refine .after fun _ => .ite (fun _ => .after fun _ => .ite (fun _ => made) fun _ => ?_) fun _ =>
      made
    exact (E.operand full).bind fun e he =>
      moreTargets full fuel (e :: targets) (List.forall_mem_cons.mpr ⟨he, htargets⟩)

end ExprParts

instance moreTargets_keeps (full : Nat) (targets : List Expr) :
    Keeps ok (moreTargets full fuel targets) :=
  (ExprGrammar.any.exprParts.moreTargets full fuel targets fun _ _ => trivial).keeps

/-- Parameters as they are read: names of the text that differ from each other, the ones with a
default last. -/
structure ParamsRead (ok : List Token → Prop) (fine : Expr → Prop) (params : List Param) :
    Prop where
  names : ∀ p ∈ params, IsName ok p.name
  defaults : ∀ p ∈ params, ∀ e ∈ p.default, fine e
  distinct : (params.map Param.name).Nodup
  trailing : params.Pairwise fun p q => p.default.isSome = true → q.default.isSome = true

namespace ParamsRead

omit [Inward ok]

theorem nil : ParamsRead ok fine [] :=
  ⟨nofun, nofun, .nil, .nil⟩

/-- One more parameter, of another name and with a default if one before it has one. -/
theorem snoc {params : List Param} {name : String} {default : Option Expr}
    (h : ParamsRead ok fine params) (hname : IsName ok name) (hfine : ∀ e ∈ default, fine e)
    (hnew : ∀ p ∈ params, p.name ≠ name)
    (hlast : ∀ p ∈ params, p.default.isSome = true → default.isSome = true) :
    ParamsRead ok fine (params ++ [⟨name, default⟩]) where
  names := List.forall_mem_append.mpr ⟨h.names, List.forall_mem_singleton.mpr hname⟩
  defaults := List.forall_mem_append.mpr ⟨h.defaults, List.forall_mem_singleton.mpr hfine⟩
  distinct := by
    rw [List.map_append, List.nodup_append]
    refine ⟨h.distinct, List.pairwise_singleton _ _, fun a ha b hb => ?_⟩
    obtain ⟨p, hp, rfl⟩ := List.mem_map.mp ha
    obtain rfl := List.mem_singleton.mp hb
    exact hnew p hp
  trailing := by
    refine List.pairwise_append.mpr ⟨h.trailing, List.pairwise_singleton _ _, fun p hp q hq => ?_⟩
    obtain rfl := List.mem_singleton.mp hq
    exact hlast p hp

end ParamsRead

/-- The parameters of a function are read from the left; they are kept newest first. -/
theorem parameters_makes (test : ∀ fuel, Parse.Makes ok fine (parseTest fuel)) (full : Nat) :
    ∀ (fuel : Nat) (params : List Param), ParamsRead ok fine params.reverse →
      Parse.Makes ok (ParamsRead ok fine) (parameters full fuel params)
  | 0, _, hparams => .pure hparams
  | fuel + 1, params, hparams => by
    refine .after fun _ => .ite (fun _ => .pure hparams) fun _ => ?_
    refine .bind .expectName fun name hname => ?_
    refine .ite (fun _ => .fail _) fun hnew => .after fun valued => ?_
    have differs : ∀ p ∈ params.reverse, p.name ≠ name := fun p hp heq =>
      hnew (List.any_eq_true.mpr ⟨p, List.mem_reverse.mp hp, beq_iff_eq.mpr heq⟩)
    have more (default : Option Expr) (hfine : ∀ e ∈ default, fine e)
        (hlast : ∀ p ∈ params.reverse, p.default.isSome = true → default.isSome = true) :
        Parse.Makes ok (ParamsRead ok fine) (do
          if ← accept Punct.comma then parameters full fuel (⟨name, default⟩ :: params)
          else pure (Param.mk name default :: params).reverse) := by
      have both : ParamsRead ok fine (Param.mk name default :: params).reverse := by
        rw [List.reverse_cons]
        exact hparams.snoc hname hfine differs hlast
      exact .after fun _ =>
        .ite (fun _ => parameters_makes test full fuel _ both) fun _ => .pure both
    split
    · refine ((test full).map fun e he => ?_ : Parse.Makes ok
        (fun default : Option Expr => default.isSome = true ∧ ∀ e ∈ default, fine e) _).bind
          fun default hd => more default hd.2 fun _ _ _ => hd.1
      exact ⟨rfl, fun e' he' => Option.mem_some.mp he' ▸ he⟩
    · split
      · exact .failed _
      · next none =>
        refine .bind (.pure rfl) fun default (hd : Option.none = default) => ?_
        subst hd
        refine more _ nofun fun p hp hsome => ?_
        exact absurd (List.any_eq_true.mpr ⟨p, List.mem_reverse.mp hp, hsome⟩) none

instance parameters_keeps (full : Nat) : Keeps ok (parameters full fuel []) :=
  (parameters_makes (fun _ => ExprGrammar.any.parseTest) full fuel [] .nil).keeps

end Parts

/-! ## Properties that the grammar hands on -/

/-- A property of statements that are surrounded like this holds of what the parser makes of
admitted tokens. -/
structure Grammar (ok : List Token → Prop) (fine : Expr → Prop)
    (good : Surrounding → List Stmt → Prop) : Prop where
  exprs : ∃ part, ExprParts ok part fine
  nil (around : Surrounding) : good around []
  append {around : Surrounding} {ss rest : List Stmt} :
    good around (ss ++ rest) ↔ good around ss ∧ good around rest
  small (fuel : Nat) (around : Surrounding) :
    Parse.Makes ok (fun s => good around [s]) (smallStatement fuel around)
  branch {around : Surrounding} {cases : List (Expr × List Stmt)} {last : List Stmt} (line : Nat)
    (hfine : ∀ c ∈ cases, fine c.1) (hcases : ∀ c ∈ cases, good around c.2)
    (hlast : good around last) : good around [.branch line cases last]
  whileLoop {around : Surrounding} {condition : Expr} {body last : List Stmt} (line : Nat)
    (hfine : fine condition) (hbody : good { around with inLoop := true } body)
    (hlast : good around last) : good around [.whileLoop line condition body last]
  forLoop {around : Surrounding} {target items : Expr} {body last : List Stmt} (line : Nat)
    (htarget : target.isTarget = true) (hfine : fine target) (hitems : fine items)
    (hbody : good { around with inLoop := true } body) (hlast : good around last) :
    good around [.forLoop line target items body last]
  define {around : Surrounding} {name : String} {params : List Param} {body : List Stmt}
    (line : Nat) (hname : IsName ok name) (hparams : ParamsRead ok fine params)
    (hbody : good ⟨true, false⟩ body) : good around [.define line name params body]

namespace Grammar

variable {ok : List Token → Prop} [Lasting ok] {fine : Expr → Prop}
  {good : Surrounding → List Stmt → Prop} (G : Grammar ok fine good) {around : Surrounding}
  {fuel : Nat}

include G

omit [Lasting ok] in
theorem cons {s : Stmt} {rest : List Stmt} :
    good around (s :: rest) ↔ good around [s] ∧ good around rest := by
  rw [← List.singleton_append, G.append]

omit [Lasting ok] in
theorem reverse {ss : List Stmt} : good around ss.reverse ↔ good around ss := by
  induction ss with
  | nil => rfl
  | cons s ss ih =>
    rw [List.reverse_cons, G.append, ih, and_comm]
    exact G.cons.symm
omit [Lasting ok] in
theorem test : Parse.Makes ok fine (parseTest fuel) := by
  obtain ⟨part, E⟩ := G.exprs
  exact (E.test fuel).weaken E.whole

theorem testList : Parse.Makes ok fine (parseTestList fuel) := by
  obtain ⟨part, E⟩ := G.exprs
  exact E.testList

/-! ### Lines -/

theorem moreStatements (full : Nat) : ∀ (fuel : Nat) (done : List Stmt), good around done →
    Parse.Makes ok (good around) (moreStatements full around fuel done)
  | 0, _, hdone => .pure (G.reverse.mpr hdone)
  | fuel + 1, done, hdone => by
    refine .bind (G.small full around) fun next hnext => .after fun more => ?_
    have both : good around (next :: done) := G.cons.mpr ⟨hnext, hdone⟩
    have made : Parse.Makes ok (good around) (pure (next :: done).reverse) :=
      .pure (G.reverse.mpr both)
    refine .ite (fun _ => .after fun ends => ?_) fun _ => made
    exact .ite (fun _ => made) fun _ => moreStatements full fuel (next :: done) both

theorem simpleLine : Parse.Makes ok (good around) (simpleLine fuel around) := by
  refine .bind (G.moreStatements fuel fuel [] (G.nil around)) fun ss hss => .after fun l => ?_
  split
  · exact .after fun _ => .pure hss
  · exact .pure hss
  · exact .unexpected

/-! ### Blocks -/

section Blocks

variable {lines : Lines} (hlines : ∀ around, Parse.Makes ok (good around) (lines around))

include hlines

theorem blockLines : ∀ (fuel : Nat) (done : List Stmt), good around done →
    Parse.Makes ok (good around) (blockLines (lines around) fuel done)
  | 0, _, hdone => .pure (G.reverse.mpr hdone)
  | fuel + 1, done, hdone => by
    have made : Parse.Makes ok (good around) (pure done.reverse) := .pure (G.reverse.mpr hdone)
    refine .after fun _ => .ite (fun _ => made) fun _ => ?_
    refine .after fun _ => .ite (fun _ => made) fun _ => ?_
    refine .after fun _ => .ite (fun _ => blockLines fuel done hdone) fun _ => ?_
    exact .bind (hlines around) fun next hnext =>
      blockLines fuel (next.reverse ++ done) (G.append.mpr ⟨G.reverse.mpr hnext, hdone⟩)

theorem block (owner : String) (ownerLine : Nat) :
    Parse.Makes ok (good around) (block lines fuel around owner ownerLine) := by
  refine .after fun _ => .after fun _ => .ite (fun _ => ?_) fun _ => G.simpleLine
  exact .after fun _ =>
    .ite (fun _ => G.blockLines hlines fuel [] (G.nil around)) fun _ => .fail _

theorem otherwise : Parse.Makes ok (good around) (otherwise lines fuel around) :=
  .after fun line => .after fun _ =>
    .ite (fun _ => G.block hlines "'else' statement" line) fun _ => .pure (G.nil around)

theorem moreCases (full : Nat) : ∀ (fuel : Nat) (cases : List (Expr × List Stmt)),
    (∀ c ∈ cases, fine c.1 ∧ good around c.2) →
    Parse.Makes ok (fun made : List (Expr × List Stmt) × List Stmt =>
        (∀ c ∈ made.1, fine c.1 ∧ good around c.2) ∧ good around made.2)
      (moreCases lines full around fuel cases)
  | 0, _, hcases => .pure ⟨fun c hc => hcases c (List.mem_reverse.mp hc), G.nil around⟩
  | fuel + 1, cases, hcases => by
    refine .after fun line => .after fun _ => .ite (fun _ => ?_) fun _ => ?_
    · refine .bind G.test fun condition hcondition => ?_
      refine .bind (G.block hlines "'elif' statement" line) fun body hbody => ?_
      exact moreCases full fuel ((condition, body) :: cases)
        (List.forall_mem_cons.mpr ⟨⟨hcondition, hbody⟩, hcases⟩)
    · exact .bind (G.otherwise hlines) fun last hlast =>
        .pure ⟨fun c hc => hcases c (List.mem_reverse.mp hc), hlast⟩

theorem branchStatement (line : Nat) :
    Parse.Makes ok (fun s => good around [s]) (SortTrace.Script.branch lines fuel around line) := by
  refine .bind G.test fun condition hcondition => ?_
  refine .bind (G.block hlines "'if' statement" line) fun body hbody => ?_
  have first : ∀ c ∈ [(condition, body)], fine c.1 ∧ good around c.2 :=
    List.forall_mem_singleton.mpr ⟨hcondition, hbody⟩
  exact .bind (G.moreCases hlines fuel fuel _ first) fun c hc =>
    .pure (G.branch line (fun a ha => (hc.1 a ha).1) (fun a ha => (hc.1 a ha).2) hc.2)

theorem whileStatement (line : Nat) :
    Parse.Makes ok (fun s => good around [s])
      (SortTrace.Script.whileLoop lines fuel around line) := by
  refine .bind G.test fun condition hcondition => ?_
  refine .bind (G.block hlines "'while' statement" line) fun body hbody => ?_
  exact (G.otherwise hlines).map fun last hlast => G.whileLoop line hcondition hbody hlast

theorem forStatement (line : Nat) :
    Parse.Makes ok (fun s => good around [s])
      (SortTrace.Script.forLoop lines fuel around line) := by
  obtain ⟨part, E⟩ := G.exprs
  refine (E.operand fuel).bind fun first hfirst => .after fun comma => ?_
  have looped (target : Expr) (hfine : fine target) :
      Parse.Makes ok (fun s : Stmt => good around [s]) (if target.isTarget then do
        expect Keyword.inKw
        let items ← parseTestList fuel
        let body ← SortTrace.Script.block lines fuel { around with inLoop := true }
          "'for' statement" line
        .forLoop line target items body <$> SortTrace.Script.otherwise lines fuel around
      else Parse.fail "cannot assign to expression") := by
    refine .ite (fun htarget => .after fun _ => .bind G.testList fun items hitems => ?_)
      fun _ => .fail _
    refine .bind (G.block hlines "'for' statement" line) fun body hbody => ?_
    exact (G.otherwise hlines).map fun last hlast =>
      G.forLoop line htarget hfine hitems hbody hlast
  split
  · have targets := E.moreTargets fuel fuel [first] (List.forall_mem_singleton.mpr hfirst)
    exact (targets.map E.tuple).bind looped
  · exact (Parse.Leads.pure (E.whole first hfirst)).bind looped

theorem defineStatement (line : Nat) :
    Parse.Makes ok (fun s => good around [s]) (SortTrace.Script.define lines fuel line) := by
  refine .bind .expectName fun name hname => .after fun _ => ?_
  have params := parameters_makes (fun _ => G.test) fuel fuel [] .nil
  refine params.bind fun params hparams => .after fun _ => ?_
  exact (G.block hlines "function definition" line).map fun body hbody =>
    G.define line hname hparams hbody

theorem statements : Parse.Makes ok (good around) (statements lines fuel around) := by
  refine .after fun line => .after fun l => ?_
  have one {stmt : Parse Stmt} (h : Parse.Makes ok (fun s => good around [s]) stmt) :
      Parse.Makes ok (good around) (do advance; pure [← stmt]) :=
    .after fun _ => .bind h fun s hs => .pure hs
  split
  · exact one (G.branchStatement hlines line)
  · exact one (G.whileStatement hlines line)
  · exact one (G.forStatement hlines line)
  · exact one (G.defineStatement hlines line)
  · exact .unexpected
  · exact .unexpected
  · exact G.simpleLine

end Blocks

/-! ### Programs -/

theorem parseStatement : ∀ (fuel : Nat) (around : Surrounding),
    Parse.Makes ok (good around) (parseStatement fuel around)
  | 0, _ => .fail _
  | fuel + 1, _ => G.statements (parseStatement fuel)

theorem programLines (full : Nat) : ∀ (fuel : Nat) (done : List Stmt),
    good ⟨false, false⟩ done → Parse.Makes ok (good ⟨false, false⟩) (programLines full fuel done)
  | 0, _, hdone => .pure (G.reverse.mpr hdone)
  | fuel + 1, done, hdone => by
    refine .after fun _ => .ite (fun _ => .pure (G.reverse.mpr hdone)) fun _ => ?_
    refine .after fun _ => .ite (fun _ => programLines full fuel done hdone) fun _ => ?_
    exact .bind (G.parseStatement full _) fun next hnext =>
      programLines full fuel (next.reverse ++ done)
        (G.append.mpr ⟨G.reverse.mpr hnext, hdone⟩)

/-- A program that is made of admitted tokens has the property. -/
theorem parseTokens {ts : List Token} {program : List Stmt} (hts : ok ts)
    (h : parseTokens ts = .ok program) : good ⟨false, false⟩ program := by
  rw [parseTokens_eq] at h
  cases hlines : SortTrace.Script.programLines (ts.length + 1) (ts.length + 1) [] ts with
  | error e =>
    rw [hlines] at h
    cases h
  | ok made =>
    rw [hlines] at h
    obtain rfl : made.1 = program := Except.ok.inj h
    exact (G.programLines _ _ [] (G.nil _) ts made.1 made.2 hts hlines).1

end Grammar

/-- A program that is accepted has the property, where all tokens are admitted. -/
theorem Grammar.parseProgram {fine : Expr → Prop} {good : Surrounding → List Stmt → Prop}
    (G : Grammar (fun _ => True) fine good) {text : String} {map : Array Nat} {program : List Stmt}
    (h : parseProgram text map = .ok program) : good ⟨false, false⟩ program := by
  obtain ⟨ts, -, hread⟩ := tokenize_of_parseProgram h
  exact G.parseTokens trivial hread

end SortTrace.Script
