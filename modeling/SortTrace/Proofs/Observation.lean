import SortTrace.Proofs.Coupling.Block
import SortTrace.Proofs.Sessions

/-!
# Logging calls only observe

`log_calls_only_observe`: logging calls put into a program, at any places and at any depth, change
neither what the program prints nor its variables, and where the program stops at a fault it stops
at the same one. Only a call that was put in can itself be where the run stops.

`Logged P P'` says that `P'` is `P` with logging calls put in. To tell these calls from the other
statements of a run, the program is marked (`Marking`): numbers take the places of lines, and the
number at which a run of the marked program stops tells whether it stopped at a call that was put
in. Every such `P'` has a marked program (`exists_marking`), in which the numbers of the calls that
were put in are those of no other statement.
-/

namespace SortTrace

open Script (Expr Stmt)

/-! ## Programs with logging calls put in -/

mutual

/-- The second block is the first one with logging calls put in, at any depth. -/
inductive Logged : List Stmt → List Stmt → Prop
  | nil : Logged [] []
  | keep {s s' : Stmt} {rest rest' : List Stmt} (hs : LoggedStmt s s') (h : Logged rest rest') :
    Logged (s :: rest) (s' :: rest')
  | call {rest rest' : List Stmt} (line : Nat) (var : String) (h : Logged rest rest') :
    Logged rest (.logCall line var :: rest')

/-- The second statement is the first one with logging calls put into its blocks. -/
inductive LoggedStmt : Stmt → Stmt → Prop
  | simple {s : Stmt} (h : s.isSimple = true) : LoggedStmt s s
  | branch {cases cases' : List (Expr × List Stmt)} {otherwise otherwise' : List Stmt} (line : Nat)
    (hc : LoggedCases cases cases') (ho : Logged otherwise otherwise') :
    LoggedStmt (.branch line cases otherwise) (.branch line cases' otherwise')
  | whileLoop {body body' otherwise otherwise' : List Stmt} (line : Nat) (condition : Expr)
    (hb : Logged body body') (ho : Logged otherwise otherwise') :
    LoggedStmt (.whileLoop line condition body otherwise)
      (.whileLoop line condition body' otherwise')
  | forLoop {body body' otherwise otherwise' : List Stmt} (line : Nat) (target items : Expr)
    (hb : Logged body body') (ho : Logged otherwise otherwise') :
    LoggedStmt (.forLoop line target items body otherwise)
      (.forLoop line target items body' otherwise')
  | define {body body' : List Stmt} (line : Nat) (name : String) (params : List Script.Param)
    (hb : Logged body body') :
    LoggedStmt (.define line name params body) (.define line name params body')

/-- The second cases are the first ones with logging calls put into their blocks. -/
inductive LoggedCases : List (Expr × List Stmt) → List (Expr × List Stmt) → Prop
  | nil : LoggedCases [] []
  | cons {body body' : List Stmt} {rest rest' : List (Expr × List Stmt)} (condition : Expr)
    (hb : Logged body body') (h : LoggedCases rest rest') :
    LoggedCases ((condition, body) :: rest) ((condition, body') :: rest')

end

namespace Marking

variable (k : Marking)

mutual

/-- Do only logging calls bear the numbers of those that were put in? -/
def exact : Stmt → Bool
  | .branch n cases otherwise => !k.inserted n && exactCases cases && exactBlock otherwise
  | .whileLoop n _ body otherwise | .forLoop n _ _ body otherwise =>
    !k.inserted n && exactBlock body && exactBlock otherwise
  | .define n _ _ body => !k.inserted n && exactBlock body
  | s => !k.inserted s.line || s.isLogCall

/-- Do only logging calls of the block bear the numbers of those that were put in? -/
def exactBlock : List Stmt → Bool
  | [] => true
  | s :: rest => exact s && exactBlock rest

/-- Do only logging calls of the blocks bear the numbers of those that were put in? -/
def exactCases : List (Expr × List Stmt) → Bool
  | [] => true
  | (_, body) :: rest => exactBlock body && exactCases rest

end

/-- The marked program `Q` is that of `P'`, which is `P` with logging calls put in. -/
structure Marks (Q P P' : List Stmt) : Prop where
  logged : k.keepAll.stripBlock Q = P'
  stripped : k.stripBlock Q = P

/-- The numbers are twice the lines, and odd for the logging calls that were put in. -/
def parity : Marking :=
  ⟨fun n => n % 2 == 1, fun n => n / 2⟩

@[simp] theorem line_parity (n : Nat) : parity.line (2 * n) = n := by
  simp [parity]

@[simp] theorem inserted_parity (n : Nat) : parity.inserted (2 * n) = false := by
  simp [parity]

@[simp] theorem keepAll_line : k.keepAll.line = k.line := rfl

@[simp] theorem drops_keepAll (s : Stmt) : k.keepAll.drops s = false := rfl

theorem drops_of_not_inserted {s : Stmt} (h : k.inserted s.line = false) : k.drops s = false := by
  rw [drops, h, Bool.false_and]

/-! ## Every program with logging calls put in has a marked program -/

/-- A marked statement that is not itself put in. -/
structure MarksStmt (q s s' : Stmt) : Prop where
  kept : k.inserted q.line = false
  exact : k.exact q = true
  logged : k.keepAll.strip q = s'
  stripped : k.strip q = s

theorem exists_simple {s : Stmt} (h : s.isSimple = true) : ∃ q, parity.MarksStmt q s s := by
  cases s with
  | expr n e => exact ⟨.expr (2 * n) e, by constructor <;> simp [Stmt.line, exact, strip]⟩
  | assign n targets value =>
    exact ⟨.assign (2 * n) targets value, by constructor <;> simp [Stmt.line, exact, strip]⟩
  | augment n target op value =>
    exact ⟨.augment (2 * n) target op value, by constructor <;> simp [Stmt.line, exact, strip]⟩
  | giveBack n value =>
    exact ⟨.giveBack (2 * n) value, by constructor <;> simp [Stmt.line, exact, strip]⟩
  | declareGlobal n names =>
    exact ⟨.declareGlobal (2 * n) names, by constructor <;> simp [Stmt.line, exact, strip]⟩
  | leaveLoop n => exact ⟨.leaveLoop (2 * n), by constructor <;> simp [Stmt.line, exact, strip]⟩
  | nextRound n => exact ⟨.nextRound (2 * n), by constructor <;> simp [Stmt.line, exact, strip]⟩
  | pass n => exact ⟨.pass (2 * n), by constructor <;> simp [Stmt.line, exact, strip]⟩
  | _ => cases h

mutual

theorem exists_marking : ∀ {P P' : List Stmt}, Logged P P' →
    ∃ Q, parity.exactBlock Q = true ∧ parity.Marks Q P P'
  | _, _, .nil => ⟨[], rfl, rfl, rfl⟩
  | _, _, .keep hs h => by
    obtain ⟨q, kept, exact_q, logged_q, stripped_q⟩ := exists_stmt hs
    obtain ⟨Q, exact_Q, logged_Q, stripped_Q⟩ := exists_marking h
    refine ⟨q :: Q, by rw [exactBlock, exact_q, exact_Q, Bool.and_self], ?_, ?_⟩
    · rw [stripBlock, drops_keepAll, logged_q, logged_Q]
      rfl
    · rw [stripBlock, drops_of_not_inserted parity kept, stripped_q, stripped_Q]
      rfl
  | _, _, .call n var h => by
    obtain ⟨Q, exact_Q, logged_Q, stripped_Q⟩ := exists_marking h
    have line : parity.line (2 * n + 1) = n := by
      simp only [parity]
      omega
    refine ⟨.logCall (2 * n + 1) var :: Q, ?_, ?_, ?_⟩
    · simp [exactBlock, Stmt.logCall, exact, Stmt.isLogCall, exact_Q]
    · rw [stripBlock, drops_keepAll, Stmt.logCall, strip, keepAll_line, line, logged_Q]
      rfl
    · rw [stripBlock, if_pos, stripped_Q]
      simp [drops, Stmt.logCall, Stmt.line, Stmt.isLogCall, parity]

theorem exists_stmt : ∀ {s s' : Stmt}, LoggedStmt s s' → ∃ q, parity.MarksStmt q s s'
  | _, _, .simple h => exists_simple h
  | _, _, .branch n hc ho => by
    obtain ⟨cases, exact_c, logged_c, stripped_c⟩ := exists_cases hc
    obtain ⟨otherwise, exact_o, logged_o, stripped_o⟩ := exists_marking ho
    refine ⟨.branch (2 * n) cases otherwise, by simp [Stmt.line], ?_, ?_, ?_⟩
    · simp [exact, exact_c, exact_o]
    · simp [strip, logged_c, logged_o]
    · simp [strip, stripped_c, stripped_o]
  | _, _, .whileLoop n condition hb ho => by
    obtain ⟨body, exact_b, logged_b, stripped_b⟩ := exists_marking hb
    obtain ⟨otherwise, exact_o, logged_o, stripped_o⟩ := exists_marking ho
    refine ⟨.whileLoop (2 * n) condition body otherwise, by simp [Stmt.line], ?_, ?_, ?_⟩
    · simp [exact, exact_b, exact_o]
    · simp [strip, logged_b, logged_o]
    · simp [strip, stripped_b, stripped_o]
  | _, _, .forLoop n target items hb ho => by
    obtain ⟨body, exact_b, logged_b, stripped_b⟩ := exists_marking hb
    obtain ⟨otherwise, exact_o, logged_o, stripped_o⟩ := exists_marking ho
    refine ⟨.forLoop (2 * n) target items body otherwise, by simp [Stmt.line], ?_, ?_, ?_⟩
    · simp [exact, exact_b, exact_o]
    · simp [strip, logged_b, logged_o]
    · simp [strip, stripped_b, stripped_o]
  | _, _, .define n name params hb => by
    obtain ⟨body, exact_b, logged_b, stripped_b⟩ := exists_marking hb
    refine ⟨.define (2 * n) name params body, by simp [Stmt.line], ?_, ?_, ?_⟩
    · simp [exact, exact_b]
    · simp [strip, logged_b]
    · simp [strip, stripped_b]

theorem exists_cases : ∀ {cases cases' : List (Expr × List Stmt)}, LoggedCases cases cases' →
    ∃ Q, parity.exactCases Q = true ∧ parity.keepAll.stripCases Q = cases'
      ∧ parity.stripCases Q = cases
  | _, _, .nil => ⟨[], rfl, rfl, rfl⟩
  | _, _, .cons condition hb h => by
    obtain ⟨body, exact_b, logged_b, stripped_b⟩ := exists_marking hb
    obtain ⟨Q, exact_Q, logged_Q, stripped_Q⟩ := exists_cases h
    refine ⟨(condition, body) :: Q, ?_, ?_, ?_⟩
    · rw [exactCases, exact_b, exact_Q, Bool.and_self]
    · rw [stripCases, logged_b, logged_Q]
    · rw [stripCases, stripped_b, stripped_Q]

end

/-! ## The names that a stripped program binds -/

mutual

theorem binds_strip (name : String) : ∀ s : Stmt, (k.strip s).binds name = s.binds name
  | .branch n cases otherwise => by
    simp only [strip, Stmt.binds, binds_stripCases name cases, binds_stripBlock name otherwise]
  | .whileLoop n condition body otherwise => by
    simp only [strip, Stmt.binds, binds_stripBlock name body, binds_stripBlock name otherwise]
  | .forLoop n target items body otherwise => by
    simp only [strip, Stmt.binds, binds_stripBlock name body, binds_stripBlock name otherwise]
  | .define n f params body => by
    simp only [strip, Stmt.binds, binds_stripBlock name body]
  | .expr .. | .assign .. | .augment .. | .giveBack .. | .declareGlobal .. | .leaveLoop _
  | .nextRound _ | .pass _ => rfl

theorem binds_stripBlock (name : String) : ∀ block : List Stmt,
    Stmt.anyBinds name (k.stripBlock block) = Stmt.anyBinds name block
  | [] => rfl
  | s :: rest => by
    rw [stripBlock, Stmt.anyBinds, ← binds_stripBlock name rest]
    split
    · next hs =>
      obtain ⟨var, hvar⟩ := Stmt.eq_logCall (Bool.and_eq_true_iff.mp hs).2
      rw [hvar]
      rfl
    · rw [Stmt.anyBinds, binds_strip name s]

theorem binds_stripCases (name : String) : ∀ cases : List (Expr × List Stmt),
    Stmt.caseBinds name (k.stripCases cases) = Stmt.caseBinds name cases
  | [] => rfl
  | (condition, body) :: rest => by
    rw [stripCases, Stmt.caseBinds, Stmt.caseBinds, binds_stripBlock name body,
      binds_stripCases name rest]

end

end Marking

/-! ## Runs in report mode -/

/-- The texts of the global variables. -/
def Machine.globalTexts (m : Machine) : List (String × String) :=
  m.scopes.globals.map fun p => (p.1, p.2.written m.heap)

/-- A program run from the start in report mode, with no limit of time. -/
def runReported (recursion rounds : Nat) (breakpoints : List Nat) (program : List Stmt) :
    EStateM.Result Stop Machine Unit :=
  runProgram ⟨recursion, none⟩ rounds program
    (Machine.start (Session.start .report breakpoints none))

namespace Coupling

/-- Both sessions capture the same text. -/
def captures (k : Marking) : Coupling k where
  near s _ s' _ := s.mode = .report ∧ s'.mode = .report ∧ s.captured = s'.captured
  timeout := none
  tick h := h
  sameTicks h := nomatch h
  print text h := by
    obtain ⟨hs, hs', hcaptured⟩ := h
    refine ⟨_, _, Session.print_report text hs, Session.print_report text hs', hs, hs', ?_⟩
    simp only [hcaptured]
  log state n h := by
    obtain ⟨hs, hs', hcaptured⟩ := h
    exact ⟨_, _, Session.log_report state n hs, Session.log_report state _ hs', hs, hs', hcaptured⟩
  skip state n _ h := by
    obtain ⟨hs, hs', hcaptured⟩ := h
    exact ⟨_, Session.log_report state n hs, hs, hs', hcaptured⟩
  patient _ := nofun

variable {k : Marking}

theorem Twin.start (breakpoints : List Nat) :
    (captures k).Twin false (Machine.start (Session.start .report breakpoints none))
      (Machine.start (Session.start .report breakpoints none)) where
  heap := ⟨.empty, (k.marked.heap_empty).symm, (k.stripped.heap_empty).symm⟩
  scopes := ⟨.empty, rfl, rfl⟩
  near := ⟨rfl, rfl, rfl⟩
  line := nofun
  free _ := Scopes.Free.empty

/-- Global variables of twins have the same texts. -/
theorem Twin.globalTexts {W : Coupling k} {p : Bool} {m m' : Machine} (h : W.Twin p m m') :
    m'.globalTexts = m.globalTexts := by
  obtain ⟨i, hi, hi'⟩ := h.heap
  obtain ⟨s, hs, hs'⟩ := h.scopes
  simp [Machine.globalTexts, hi, hi', hs, hs', Recoding.scopes, Recoding.bindings]

/-- The runs of a marked program and of the stripped one. -/
theorem ends_reported (recursion rounds : Nat) (breakpoints : List Nat) (Q : List Stmt)
    (hfree : k.Inserts → Stmt.anyBinds Builtin.logState.name Q = false) :
    (captures k).Ends false id id (runReported recursion rounds breakpoints Q)
      (runReported recursion rounds breakpoints (k.stripBlock Q)) :=
  Sim.runProgram (W := captures k) recursion rounds Q hfree _ _ (Twin.start breakpoints)

end Coupling

/-- Only the lines of a marking matter for the stops of runs. -/
theorem Marking.stop_keepAll (k : Marking) (e : Stop) :
    k.keepAll.stripped.stop e = k.stripped.stop e := by
  cases e with
  | fault f => cases f <;> rfl
  | outOfRounds => rfl

/-- Did the run of a marked program stop at a logging call that was put in? -/
def Marking.StopsAtInserted (k : Marking) (r : EStateM.Result Stop Machine Unit) : Prop :=
  ∃ e m, r = .error e m ∧ k.inserted m.line = true

/-- **Logging calls only observe.** When a program that nowhere binds the name `log_state` has
logging calls put in and runs to its end, so does the program itself, with the same printed text and
the same global variables. When it stops at a fault outside the calls that were put in, the program
itself stops at the same fault, with the same printed text. -/
theorem log_calls_only_observe {P P' : List Stmt} (hlogged : Logged P P')
    (hfree : Stmt.anyBinds Builtin.logState.name P = false) (recursion rounds : Nat)
    (breakpoints : List Nat) :
    (∀ m', runReported recursion rounds breakpoints P' = .ok () m' →
      ∃ m, runReported recursion rounds breakpoints P = .ok () m ∧
        m.session.captured = m'.session.captured ∧ m.globalTexts = m'.globalTexts) ∧
    (∃ (k : Marking) (Q : List Stmt), k.exactBlock Q = true ∧ k.Marks Q P P') ∧
    ∀ (k : Marking) (Q : List Stmt), k.Marks Q P P' →
      ∀ f m', runReported recursion rounds breakpoints P' = .error (.fault f) m' →
        ¬ k.StopsAtInserted (runReported recursion rounds breakpoints Q) →
        ∃ m, runReported recursion rounds breakpoints P = .error (.fault f) m ∧
          m.session.captured = m'.session.captured := by
  have marked : ∃ (k : Marking) (Q : List Stmt), k.exactBlock Q = true ∧ k.Marks Q P P' :=
    ⟨.parity, Marking.exists_marking hlogged⟩
  have runs (k : Marking) (Q : List Stmt) (h : k.Marks Q P P') :
      (Coupling.captures k.keepAll).Ends false id id
          (runReported recursion rounds breakpoints Q)
          (runReported recursion rounds breakpoints P') ∧
        (Coupling.captures k).Ends false id id (runReported recursion rounds breakpoints Q)
          (runReported recursion rounds breakpoints P) := by
    obtain ⟨rfl, rfl⟩ := h
    rw [Marking.binds_stripBlock] at hfree
    exact ⟨Coupling.ends_reported recursion rounds breakpoints Q fun _ => hfree,
      Coupling.ends_reported recursion rounds breakpoints Q fun _ => hfree⟩
  refine ⟨fun m' hm' => ?_, marked, fun k Q h f m' hm' hstop => ?_⟩
  · obtain ⟨k, Q, -, h⟩ := marked
    obtain ⟨logged, stripped⟩ := runs k Q h
    rw [hm'] at logged
    generalize runReported recursion rounds breakpoints Q = x at logged stripped
    generalize runReported recursion rounds breakpoints P = y at stripped
    cases logged with
    | ok c logged =>
      cases stripped with
      | ok c stripped =>
        refine ⟨_, rfl, ?_, ?_⟩
        · rw [← stripped.near.2.2, logged.near.2.2]
        · rw [stripped.globalTexts, logged.globalTexts]
    | lost no => cases no
  · obtain ⟨logged, stripped⟩ := runs k Q h
    generalize runReported recursion rounds breakpoints Q = x at logged stripped hstop
    generalize runReported recursion rounds breakpoints P = y at stripped
    generalize runReported recursion rounds breakpoints P' = z at logged hm'
    cases logged with
    | ok c logged => cases hm'
    | lost no => cases no
    | error e logged =>
      injection hm' with he hm'
      subst hm'
      cases stripped with
      | lost yes => exact absurd ⟨e, _, rfl, yes⟩ hstop
      | error e stripped =>
        refine ⟨_, congrArg₂ _ ?_ rfl, ?_⟩
        · rw [← he, k.stop_keepAll e]
        · rw [← stripped.near.2.2, logged.near.2.2]

theorem log_calls_only_observe_three :
    let P : List Stmt := [.assign 1 [.name "a"] (.literal (.int 3)), .expr 2 (.name "b")]
    let P' : List Stmt := [.assign 1 [.name "a"] (.literal (.int 3)), .logCall 1 "a",
      .expr 2 (.name "b")]
    Stmt.anyBinds Builtin.logState.name P = false ∧ Logged P P' ∧
      ∃ m, runReported 5 5 [] P = .error (.fault (.unboundName "b")) m := by
  intro P P'
  have logged : Logged P P' := .keep (.simple rfl) (.call 1 "a" (.keep (.simple rfl) .nil))
  have free : Stmt.anyBinds Builtin.logState.name P = false := by decide
  obtain ⟨-, -, faults⟩ := log_calls_only_observe logged free 5 5 []
  let Q : List Stmt := [.assign 2 [.name "a"] (.literal (.int 3)), .logCall 3 "a",
    .expr 4 (.name "b")]
  have marks : Marking.parity.Marks Q P P' := ⟨rfl, rfl⟩
  obtain ⟨m, hm, -⟩ := faults .parity Q marks (.unboundName "b") _ rfl (by
    rintro ⟨e, m, h, hm⟩
    cases h
    cases hm)
  exact ⟨free, logged, m, hm⟩

end SortTrace
