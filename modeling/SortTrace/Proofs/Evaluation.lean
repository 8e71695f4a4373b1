import Mathlib.Data.List.Forall2
import SortTrace.Execution
import SortTrace.Proofs.Integers
import SortTrace.Proofs.Runs
import SortTrace.Proofs.Sessions

/-!
# Runs of given statements

What the machine is after given expressions and statements. An expression that makes and changes
nothing has a value on a machine (`Yields`), which stays as it was. A statement first goes to its
line and counts a tick (`Machine.entered`); a loop over a range keeps what each of its rounds keeps
(`forRounds_range`).
-/

namespace SortTrace

open Script (Expr Stmt BinOp CompareOp)

variable {user : UserCall} {m m₁ m₂ : Machine} {e l r : Expr} {es : List Expr} {v w u : Value}
  {vs : List Value}

/-! ## Expressions -/

/-- The expression has the value on the machine, which stays as it was. -/
def Yields (user : UserCall) (m : Machine) (e : Expr) (v : Value) : Prop :=
  eval user e m = .ok v m

theorem Run.read_ok {α : Type} {f : Heap → Except Fault α} {a : α} (h : f m.heap = .ok a) :
    Run.read f m = .ok a m := by
  change Run.of (f m.heap) m = _
  rw [h]
  rfl

theorem Run.read_error {α : Type} {f : Heap → Except Fault α} {e : Fault}
    (h : f m.heap = .error e) : Run.read f m = .error (.fault e) m := by
  change Run.of (f m.heap) m = _
  rw [h]
  rfl

theorem Run.compute_ok {α : Type} {c : Compute α} {a : α} {heap : Heap}
    (h : c m.heap = .ok a heap) : Run.compute c m = .ok a { m with heap } := by
  unfold Run.compute
  dsimp only
  rw [h]

namespace Yields

theorem bound {name : String} (h : m.scopes.lookup name = some v) :
    Yields user m (.name name) v :=
  Run.lookup_bound h

theorem builtin {b : Builtin} {name : String} (h : m.scopes.lookup name = none)
    (hb : Builtin.ofName? name = some b) : Yields user m (.name name) (.builtin b) :=
  Run.lookup_builtin h hb

theorem literal (v : Script.Literal) : Yields user m (.literal v) (.ofLiteral v) :=
  rfl

theorem index (hl : Yields user m l v) (hr : Yields user m r w)
    (h : v.item m.heap w = .ok u) : Yields user m (.index l r) u := by
  rw [Yields, eval, Run.bind_ok hl, Run.bind_ok hr]
  exact Run.read_ok h

theorem index_error {f : Fault} (hl : Yields user m l v) (hr : Yields user m r w)
    (h : v.item m.heap w = .error f) : eval user (.index l r) m = .error (.fault f) m := by
  rw [eval, Run.bind_ok hl, Run.bind_ok hr]
  exact Run.read_error h

theorem binary {op : BinOp} (hl : Yields user m l v) (hr : Yields user m r w)
    (h : v.binary op w m.heap = .ok u m.heap) : Yields user m (.binary op l r) u := by
  rw [Yields, eval, Run.bind_ok hl, Run.bind_ok hr]
  exact Run.compute_ok h

/-- A comparison of two operands. -/
theorem compare {op : CompareOp} {holds : Bool} (hl : Yields user m l v) (hr : Yields user m r w)
    (h : v.compare m.heap op w = .ok holds) :
    Yields user m (.compare l [(op, r)]) (.bool holds) := by
  rw [Yields, eval, Run.bind_ok hl, evalLinks, Run.bind_ok hr, Run.bind_ok (Run.read_ok h)]
  cases holds <;> rfl

theorem evalAll (h : List.Forall₂ (Yields user m) es vs) :
    SortTrace.evalAll user es m = .ok vs m := by
  induction h with
  | nil => rfl
  | cons hv _ ih =>
    rw [SortTrace.evalAll, Run.bind_ok hv, Run.bind_ok ih]
    rfl

/-- A call of a builtin, whatever it does. -/
theorem run_call {b : Builtin} {f : Expr} (hf : Yields user m f (.builtin b))
    (hargs : List.Forall₂ (Yields user m) es vs) :
    eval user (.call f es []) m = b.run (applyTo user) vs [] m := by
  rw [eval, Run.bind_ok hf, Run.bind_ok (evalAll hargs)]
  rfl

theorem call {b : Builtin} {f : Expr} (hf : Yields user m f (.builtin b))
    (hargs : List.Forall₂ (Yields user m) es vs)
    (h : b.run (applyTo user) vs [] m = .ok v m) : Yields user m (.call f es []) v :=
  (run_call hf hargs).trans h

theorem holds (h : Yields user m e v) : SortTrace.holds user e m = .ok (v.isTrue m.heap) m := by
  rw [SortTrace.holds, Run.bind_ok h]
  rfl

end Yields

/-- A list of integers is made. -/
theorem eval_ofInts (xs : List Int) : eval user (.ofInts xs) m
    = .ok (.list m.heap.size) { m with heap := (m.heap.insert (Value.ofInts xs)).2 } := by
  have items : List.Forall₂ (Yields user m) (xs.map Expr.ofInt) (xs.map Value.ofInt) := by
    rw [List.forall₂_map_left_iff, List.forall₂_map_right_iff, List.forall₂_same]
    exact fun _ _ => rfl
  rw [Expr.ofInts, eval, Run.bind_ok (Yields.evalAll items)]
  rfl

/-! ## Statements -/

/-- The machine when a statement at a line begins. -/
def Machine.entered (m : Machine) (line : Nat) : Machine :=
  { m with line, ticks := m.ticks + 1 }

variable {line : Nat}

theorem Run.setLine_apply : Run.setLine line m = .ok () { m with line } := rfl

theorem Run.tick_untimed : Run.tick none m = .ok () { m with ticks := m.ticks + 1 } := by
  rw [Run.tick_apply]
  simp

/-- How every statement begins. -/
theorem Run.enter {α : Type} {t : Run α} :
    (Run.setLine line >>= fun _ => Run.tick none >>= fun _ => t) m = t (m.entered line) :=
  (Run.bind_ok Run.setLine_apply).trans (Run.bind_ok Run.tick_untimed)

theorem assignAll_name (name : String) : assignAll user v [.name name] m
    = .ok () { m with scopes := m.scopes.assign name v } := rfl

variable {c : Control} {body block : List Stmt} {s : Stmt}

theorem runBlock_cons (h : runStmt c s m = .ok .normal m₁) :
    runBlock c (s :: block) m = runBlock c block m₁ := by
  rw [runBlock, Run.bind_ok h]

theorem runBlock_cons_error {e : Stop} (h : runStmt c s m = .error e m₁) :
    runBlock c (s :: block) m = .error e m₁ := by
  rw [runBlock, Run.bind_error h]

section Untimed

variable (hc : c.timeout = none)

include hc

theorem runStmt_expr (h : eval c.user e (m.entered line) = .ok v m₁) :
    runStmt c (.expr line e) m = .ok .normal m₁ := by
  rw [runStmt, hc]
  exact Run.enter.trans (Run.bind_ok h)

theorem runStmt_assign {targets : List Expr} (he : eval c.user e (m.entered line) = .ok v m₁)
    (ht : assignAll c.user v targets m₁ = .ok () m₂) :
    runStmt c (.assign line targets e) m = .ok .normal m₂ := by
  rw [runStmt, hc]
  exact Run.enter.trans ((Run.bind_ok he).trans (Run.bind_ok ht))

/-- An assignment whose value is none. -/
theorem runStmt_assign_error {targets : List Expr} {f : Stop}
    (he : eval c.user e (m.entered line) = .error f m₁) :
    runStmt c (.assign line targets e) m = .error f m₁ := by
  rw [runStmt, hc]
  exact Run.enter.trans (Run.bind_error he)

/-- A branch with a single case. -/
theorem runStmt_branch {b : Bool} {m₁ : Machine}
    (hcond : SortTrace.holds c.user e (m.entered line) = .ok b m₁) :
    runStmt c (.branch line [(e, body)] []) m
      = if b then runBlock c body m₁ else .ok .normal m₁ := by
  rw [runStmt, hc]
  refine Run.enter.trans ?_
  rw [runCases]
  refine (Run.bind_ok hcond).trans ?_
  cases b <;> rfl

/-- A loop over the items of a range. -/
theorem runStmt_range {target : Expr} {s : Span}
    (he : Yields c.user (m.entered line) e (.range s)) :
    runStmt c (.forLoop line target e body []) m
      = forRounds none line (assign c.user target) (runBlock c body) (runBlock c []) c.rounds
          (.range s 0) (m.entered line) := by
  rw [runStmt, hc]
  exact Run.enter.trans (Run.bind_ok he)

end Untimed

/-- What each round of a loop over a range keeps is kept by the loop, if it may take enough
rounds. -/
theorem forRounds_range {take : Value → Run Unit} {inside otherwise : Run Flow} {s : Span}
    {Keeps : Nat → Machine → Prop}
    (hround : ∀ k < s.length, ∀ m, Keeps k m → ∃ m₁ m₂,
      take (.int (s.item k)) { m with line } = .ok () m₁ ∧ inside m₁ = .ok .normal m₂ ∧
        Keeps (k + 1) { m₂ with ticks := m₂.ticks + 1 })
    (hdone : ∀ m, otherwise m = .ok .normal m) :
    ∀ (rounds k : Nat) (m : Machine), s.length - k < rounds → k ≤ s.length → Keeps k m →
      ∃ m', forRounds none line take inside otherwise rounds (.range s k) m = .ok .normal m' ∧
        Keeps s.length m'
  | 0, _, _, hr, _, _ => absurd hr (Nat.not_lt_zero _)
  | rounds + 1, k, m, hr, hk, hm => by
    rcases Nat.eq_or_lt_of_le hk with rfl | hlt
    · have ended : Cursor.next? m.heap (.range s s.length) = none := if_neg (Nat.lt_irrefl _)
      refine ⟨m, ?_, hm⟩
      rw [forRounds, Run.bind_ok Run.get_apply, ended]
      exact hdone m
    · obtain ⟨m₁, m₂, htake, hinside, hkeeps⟩ := hround k hlt m hm
      obtain ⟨m', hrun, hkeeps'⟩ := forRounds_range hround hdone rounds (k + 1) _ (by omega) hlt
        hkeeps
      have item : Cursor.next? m.heap (.range s k) = some (.int (s.item k), .range s (k + 1)) :=
        if_pos hlt
      refine ⟨m', ?_, hkeeps'⟩
      rw [forRounds, Run.bind_ok Run.get_apply, item]
      refine (Run.bind_ok Run.setLine_apply).trans ((Run.bind_ok htake).trans ?_)
      exact (Run.bind_ok hinside).trans ((Run.bind_ok Run.tick_untimed).trans hrun)

/-! ## Scripts about one list -/

/-- The machine behind the statement that binds a list of integers. -/
def listBound (L : List Int) : Machine :=
  { scopes := ⟨[("arr", .list 0)], []⟩
    heap := ⟨#[Value.ofInts L], 0⟩
    session := .start .stream [] none
    line := 1
    ticks := 1 }

theorem runStmt_bindList {L : List Int} (hc : c.timeout = none) :
    runStmt c (.assign 1 [.name "arr"] (.ofInts L)) (Machine.start (.start .stream [] none))
      = .ok .normal (listBound L) :=
  runStmt_assign hc (eval_ofInts L) (assignAll_name "arr")

/-- A call that logs a value. -/
theorem eval_logState {s : Session} {d : Report.Json}
    (hname : Yields user m (.name "log_state") (.builtin .logState)) (he : Yields user m e v)
    (hd : v.toJson m.heap = .ok d) (hs : Session.log d m.line m.session = .ok () s) :
    eval user (.call (.name "log_state") [e] []) m = .ok .none { m with session := s } := by
  have plain : Run.of (Keywords.none Builtin.logState.name []) m = .ok () m := rfl
  have document : Run.read (fun h => v.toJson h) m = .ok d m := Run.read_ok hd
  have line : Run.line m = .ok m.line m := rfl
  have told : Run.trace (Session.log d m.line) m = .ok () { m with session := s } := by
    rw [Run.trace, hs]
  rw [Yields.run_call hname (.cons he .nil)]
  exact (Run.bind_ok plain).trans ((Run.bind_ok document).trans ((Run.bind_ok line).trans
    (Run.bind_ok told)))

/-! ## Sources -/

section Sources

variable {source : String} {program : List Stmt} {rounds : Nat}

theorem runSource_standard_eq : runSource source .standard none rounds
    = Outcome.ofEnd (runText Settings.standard.limits rounds source "arr"
        (Machine.start (.start .stream [] none))) :=
  @runSource_eq source .standard none rounds (by decide)

/-- A program that runs to its end. -/
theorem runSource_standard (hprogram : programOf source "arr" = .ok program)
    (hrun : runBlock ⟨userCall none rounds 1000, none, rounds⟩ program
      (Machine.start (.start .stream [] none)) = .ok .normal m) :
    runSource source .standard none rounds = .ok ⟨none, m.session⟩ := by
  have text : runText Settings.standard.limits rounds source "arr"
      (Machine.start (.start .stream [] none)) = .ok () m := by
    rw [runText, hprogram]
    exact Run.bind_ok hrun
  rw [runSource_standard_eq, text]
  rfl

/-- A run that stops at a fault before anything is put out. -/
theorem runSource_standard_stopped {f : Fault}
    (hrun : runText Settings.standard.limits rounds source "arr"
      (Machine.start (.start .stream [] none)) = .error (.fault f) m)
    (hm : m.session = .start .stream [] none) :
    runSource source .standard none rounds = .ok ⟨some f,
      { Session.start .stream [] none with
        sink := ⟨(Session.errorMarker ++ f.message ++ "\n").toUTF8, none⟩ }⟩ := by
  rw [runSource_standard_eq, hrun, Outcome.ofEnd_fault (by rw [hm]; rfl) (by rw [hm]; rfl), hm]
  have nothing : (Session.start .stream [] none).sink.bytes ++ (errorText (some f)).toUTF8
      = (errorText (some f)).toUTF8 := ByteArray.empty_append
  rw [nothing]
  rfl

/-- A program that stops at a fault before anything is put out. -/
theorem runText_stopped {f : Fault} (hprogram : programOf source "arr" = .ok program)
    (hrun : runBlock ⟨userCall none rounds 1000, none, rounds⟩ program
      (Machine.start (.start .stream [] none)) = .error (.fault f) m) :
    runText Settings.standard.limits rounds source "arr"
      (Machine.start (.start .stream [] none)) = .error (.fault f) m := by
  have read : Run.of (programOf source "arr") (Machine.start (.start .stream [] none))
      = .ok program (Machine.start (.start .stream [] none)) := by
    rw [hprogram]
    rfl
  exact (Run.bind_ok read).trans ((Run.bind_ok Run.get_apply).trans (Run.bind_error hrun))

end Sources

end SortTrace
