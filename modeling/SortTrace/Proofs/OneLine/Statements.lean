import SortTrace.Proofs.OneLine.Expr
import SortTrace.Script.Parsing.Program

/-!
# Programs with names on one line

All parsers of statements are neat, as those of expressions are: the names in the program that is
made of neat tokens are on one line, and so is the fault if there is none (`parseTokens_neatly`).
-/

namespace SortTrace.Script

open Parse

namespace Parse.Neatly

/-- The parser makes a statement whose names are on one line. -/
abbrev One (r : Parse Stmt) : Prop :=
  Neatly (fun s => s.Names Text.OneLine) r

/-- The parser makes statements whose names are on one line. -/
abbrev Block (r : Parse (List Stmt)) : Prop :=
  Neatly (fun ss => ∀ s ∈ ss, s.Names Text.OneLine) r

/-- Cases whose names are on one line. -/
abbrev CasesNeat (cases : List (Script.Expr × List Stmt)) : Prop :=
  ∀ c ∈ cases, c.1.Names Text.OneLine ∧ Stmt.BlockNames Text.OneLine c.2

variable {fuel : Nat} {around : Surrounding}

/-! ## Simple statements -/

theorem moreNames : ∀ (fuel : Nat) (names : List String), (∀ name ∈ names, Text.OneLine name) →
    Neatly (fun names => ∀ name ∈ names, Text.OneLine name) (Script.moreNames fuel names)
  | 0, _, hnames => pure (reverse hnames)
  | fuel + 1, names, hnames =>
    after fun _ => ite (fun _ => expectName.bind fun name hname =>
      moreNames fuel (name :: names) (List.forall_mem_cons.mpr ⟨hname, hnames⟩)) fun _ =>
        pure (reverse hnames)

theorem moreAssigned {testlist : Parse Script.Expr} (h : Expr testlist) :
    ∀ (fuel : Nat) (sides : List Script.Expr), (∀ e ∈ sides, e.Names Text.OneLine) →
      Exprs (Script.moreAssigned testlist fuel sides)
  | 0, _, hsides => pure hsides
  | fuel + 1, sides, hsides =>
    after fun _ => ite (fun _ => h.bind fun e he =>
      moreAssigned h fuel (e :: sides) (List.forall_mem_cons.mpr ⟨he, hsides⟩)) fun _ =>
        pure hsides

theorem exprStatement (line : Nat) : One (Script.exprStatement fuel line) := by
  refine parseTestList.bind fun first hfirst => after fun l => ?_
  split
  · refine ite (fun _ => after fun _ => ?_) fun _ => fail (.literal rfl)
    exact parseTestList.map fun value hvalue => ⟨hfirst, hvalue⟩
  · refine (moreAssigned parseTestList fuel [first]
      (List.forall_mem_singleton.mpr hfirst)).bind fun sides hsides => ?_
    split
    · obtain ⟨hvalue, htargets⟩ := List.forall_mem_cons.mp hsides
      exact ite (fun _ => pure ⟨allNames_iff.mpr (reverse htargets), hvalue⟩) fun _ =>
        fail (.literal rfl)
    · exact unexpected
  · exact pure hfirst

theorem smallStatement : One (Script.smallStatement fuel around) := by
  refine after fun line => after fun l => ?_
  split
  · exact after fun _ => pure trivial
  · exact ite (fun _ => after fun _ => pure trivial) fun _ => fail (.literal rfl)
  · exact ite (fun _ => after fun _ => pure trivial) fun _ => fail (.literal rfl)
  · refine ite (fun _ => after fun _ => after fun l => ?_) fun _ => fail (.literal rfl)
    split
    · exact pure trivial
    · exact pure trivial
    · exact pure trivial
    · exact parseTestList.map fun value hvalue => hvalue
  · refine after fun _ => expectName.bind fun first hfirst => ?_
    exact (moreNames fuel [first] (List.forall_mem_singleton.mpr hfirst)).map
      fun names hnames => hnames
  · exact exprStatement line

/-! ## Lines -/

instance : IsNeat atLineEnd :=
  (after fun _ => after fun _ => pure trivial : Neatly (fun _ => True) _).isNeat

theorem moreStatements (full : Nat) : ∀ (fuel : Nat) (done : List Stmt),
    (∀ s ∈ done, s.Names Text.OneLine) → Block (Script.moreStatements full around fuel done)
  | 0, _, hdone => pure (reverse hdone)
  | fuel + 1, done, hdone => by
    refine smallStatement.bind fun next hnext => after fun more => ?_
    have both : ∀ s ∈ next :: done, s.Names Text.OneLine :=
      List.forall_mem_cons.mpr ⟨hnext, hdone⟩
    refine ite (fun _ => after fun ends => ?_) fun _ => pure (reverse both)
    exact ite (fun _ => pure (reverse both)) fun _ => moreStatements full fuel _ both

theorem simpleLine : Block (Script.simpleLine fuel around) := by
  refine (moreStatements fuel fuel [] nofun).bind fun ss hss => after fun l => ?_
  split
  · exact after fun _ => pure hss
  · exact pure hss
  · exact unexpected

/-! ## Blocks -/

theorem joined {ss done : List Stmt} (hss : ∀ s ∈ ss, s.Names Text.OneLine)
    (hdone : ∀ s ∈ done, s.Names Text.OneLine) :
    ∀ s ∈ ss.reverse ++ done, s.Names Text.OneLine :=
  List.forall_mem_append.mpr ⟨reverse hss, hdone⟩

section Blocks

variable {lines : Lines} (hlines : ∀ around, Block (lines around))

include hlines

theorem blockLines : ∀ (fuel : Nat) (done : List Stmt), (∀ s ∈ done, s.Names Text.OneLine) →
    Block (Script.blockLines (lines around) fuel done)
  | 0, _, hdone => pure (reverse hdone)
  | fuel + 1, done, hdone => by
    refine after fun _ => ite (fun _ => pure (reverse hdone)) fun _ => ?_
    refine after fun _ => ite (fun _ => pure (reverse hdone)) fun _ => ?_
    refine after fun _ => ite (fun _ => blockLines fuel done hdone) fun _ => ?_
    exact (hlines around).bind fun next hnext =>
      blockLines fuel (next.reverse ++ done) (joined hnext hdone)

theorem block {owner : String} (howner : Text.OneLine owner) (ownerLine : Nat) :
    Block (Script.block lines fuel around owner ownerLine) := by
  refine after fun _ => after fun _ => ite (fun _ => ?_) fun _ => simpleLine
  refine after fun _ => ite (fun _ => blockLines hlines fuel [] nofun) fun _ => fail ?_
  exact .append (.append (.append (.literal rfl) howner) (.literal rfl))
    (Text.oneLine_nat ownerLine)

theorem otherwise : Block (Script.otherwise lines fuel around) :=
  after fun line => after fun _ =>
    ite (fun _ => block hlines (.literal rfl) line) fun _ => pure nofun

theorem moreCases (full : Nat) : ∀ (fuel : Nat) (cases : List (Script.Expr × List Stmt)),
    CasesNeat cases → Neatly (fun made => CasesNeat made.1 ∧ ∀ s ∈ made.2, s.Names Text.OneLine)
      (Script.moreCases lines full around fuel cases)
  | 0, _, hcases => pure ⟨reverse hcases, nofun⟩
  | fuel + 1, cases, hcases => by
    refine after fun line => after fun _ => ite (fun _ => ?_) fun _ => ?_
    · refine parseTest.bind fun condition hcondition => ?_
      refine (block hlines (.literal rfl) line).bind fun body hbody => ?_
      exact moreCases full fuel ((condition, body) :: cases)
        (List.forall_mem_cons.mpr ⟨⟨hcondition, blockNames_iff.mpr hbody⟩, hcases⟩)
    · exact (otherwise hlines).bind fun last hlast => pure ⟨reverse hcases, hlast⟩

theorem branch (line : Nat) : One (Script.branch lines fuel around line) := by
  refine parseTest.bind fun condition hcondition => ?_
  refine (block hlines (.literal rfl) line).bind fun body hbody => ?_
  have first : CasesNeat [(condition, body)] :=
    List.forall_mem_singleton.mpr ⟨hcondition, blockNames_iff.mpr hbody⟩
  exact (moreCases hlines fuel fuel _ first).bind fun made hmade =>
    pure ⟨caseNames_iff.mpr hmade.1, blockNames_iff.mpr hmade.2⟩

theorem whileLoop (line : Nat) : One (Script.whileLoop lines fuel around line) := by
  refine parseTest.bind fun condition hcondition => ?_
  refine (block hlines (.literal rfl) line).bind fun body hbody => ?_
  exact (otherwise hlines).map fun last hlast =>
    ⟨hcondition, blockNames_iff.mpr hbody, blockNames_iff.mpr hlast⟩

omit hlines in
theorem moreTargets (full : Nat) : ∀ (fuel : Nat) (targets : List Script.Expr),
    (∀ e ∈ targets, e.Names Text.OneLine) → Exprs (Script.moreTargets full fuel targets)
  | 0, _, htargets => pure (reverse htargets)
  | fuel + 1, targets, htargets => by
    refine after fun _ => ite (fun _ => after fun _ => ?_) fun _ => pure (reverse htargets)
    refine ite (fun _ => pure (reverse htargets)) fun _ => parseOperand.bind fun e he => ?_
    exact moreTargets full fuel (e :: targets) (List.forall_mem_cons.mpr ⟨he, htargets⟩)

theorem forLoop (line : Nat) : One (Script.forLoop lines fuel around line) := by
  refine parseOperand.bind fun first hfirst => after fun comma => ?_
  have looped (target : Script.Expr) (htarget : target.Names Text.OneLine) :
      One (if target.isTarget then do
        expect Keyword.inKw
        let items ← Script.parseTestList fuel
        let body ← Script.block lines fuel { around with inLoop := true } "'for' statement" line
        .forLoop line target items body <$> Script.otherwise lines fuel around
      else Parse.fail "cannot assign to expression") := by
    refine ite (fun _ => after fun _ => ?_) fun _ => fail (.literal rfl)
    refine parseTestList.bind fun items hitems => ?_
    refine (block hlines (.literal rfl) line).bind fun body hbody => ?_
    exact (otherwise hlines).map fun last hlast =>
      ⟨htarget, hitems, blockNames_iff.mpr hbody, blockNames_iff.mpr hlast⟩
  split
  · have targets := moreTargets fuel fuel [first] (List.forall_mem_singleton.mpr hfirst)
    have tuple : Expr (.tuple <$> Script.moreTargets fuel fuel [first]) :=
      targets.map fun es hes => allNames_iff.mpr hes
    exact tuple.bind looped
  · exact (pure hfirst).bind looped

omit hlines in
theorem parameters (full : Nat) : ∀ (fuel : Nat) (params : List Param),
    (∀ p ∈ params, p.Names Text.OneLine) →
      Neatly (fun ps : List Param => ∀ p ∈ ps, p.Names Text.OneLine)
        (Script.parameters full fuel params)
  | 0, _, hparams => pure (reverse hparams)
  | fuel + 1, params, hparams => by
    refine after fun _ => ite (fun _ => pure (reverse hparams)) fun _ => ?_
    refine expectName.bind fun name hname => ?_
    have taken : Text.OneLine s!"duplicate argument '{name}' in function definition" :=
      .framed hname rfl rfl
    refine ite (fun _ => fail taken) fun _ => after fun valued => ?_
    have more (default : Option Script.Expr) (hdefault : Expr.BoundNames Text.OneLine default) :
        Neatly (fun ps : List Param => ∀ p ∈ ps, p.Names Text.OneLine) (do
          if ← accept Punct.comma then Script.parameters full fuel (⟨name, default⟩ :: params)
          else Pure.pure (Param.mk name default :: params).reverse) := by
      have both : ∀ p ∈ Param.mk name default :: params, p.Names Text.OneLine :=
        List.forall_mem_cons.mpr ⟨⟨hname, hdefault⟩, hparams⟩
      exact after fun _ => ite (fun _ => parameters full fuel _ both) fun _ => pure (reverse both)
    split
    · have given : Neatly (Expr.BoundNames Text.OneLine) (some <$> Script.parseTest full) :=
        parseTest.map fun _ he => he
      exact given.bind more
    · split
      · exact (fail (.literal rfl)).bind more
      · have hnone : Expr.BoundNames Text.OneLine none := trivial
        exact (pure hnone).bind more

theorem define (line : Nat) : One (Script.define lines fuel line) := by
  refine expectName.bind fun name hname => after fun _ => ?_
  refine (parameters fuel fuel [] nofun).bind fun params hparams => after fun _ => ?_
  exact (block hlines (.literal rfl) line).map fun body hbody =>
    ⟨hname, hparams, blockNames_iff.mpr hbody⟩

theorem statements : Block (Script.statements lines fuel around) := by
  refine after fun line => after fun l => ?_
  have one {stmt : Parse Stmt} (h : One stmt) : Block (do advance; Pure.pure [← stmt]) :=
    after fun _ => h.bind fun s hs => pure (List.forall_mem_singleton.mpr hs)
  split
  · exact one (branch hlines line)
  · exact one (whileLoop hlines line)
  · exact one (forLoop hlines line)
  · exact one (define hlines line)
  · exact unexpected
  · exact unexpected
  · exact simpleLine

end Blocks

/-! ## Programs -/

theorem parseStatement : ∀ (fuel : Nat) (around : Surrounding),
    Block (Script.parseStatement fuel around)
  | 0, _ => fail (.literal rfl)
  | fuel + 1, _ => statements (parseStatement fuel)

theorem programLines (full : Nat) : ∀ (fuel : Nat) (done : List Stmt),
    (∀ s ∈ done, s.Names Text.OneLine) → Block (Script.programLines full fuel done)
  | 0, _, hdone => pure (reverse hdone)
  | fuel + 1, done, hdone => by
    refine after fun _ => ite (fun _ => pure (reverse hdone)) fun _ => ?_
    refine after fun _ => ite (fun _ => programLines full fuel done hdone) fun _ => ?_
    exact (parseStatement full _).bind fun next hnext =>
      programLines full fuel (next.reverse ++ done) (joined hnext hdone)

end Parse.Neatly

/-- The names in the program that is made of neat tokens are on one line, and so is the fault if
there is none. -/
theorem parseTokens_neatly {ts : List Token} (hts : ∀ t ∈ ts, t.Neat) :
    ToldInLine (parseTokens ts) ∧
      ∀ program, parseTokens ts = .ok program → Stmt.BlockNames Text.OneLine program := by
  have read := Parse.Neatly.programLines (ts.length + 1) (ts.length + 1) [] nofun ts hts
  rw [parseTokens_eq]
  generalize programLines (ts.length + 1) (ts.length + 1) [] ts = x at read ⊢
  cases read with
  | ok h _ => exact ⟨.ok _, fun program hprogram => Except.ok.inj hprogram ▸ blockNames_iff.mpr h⟩
  | error he => exact ⟨.error he, nofun⟩

end SortTrace.Script
