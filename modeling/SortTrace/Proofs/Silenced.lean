import Mathlib.Data.Nat.Pairing
import SortTrace.Machine.Program
import SortTrace.Proofs.Coupling.Block
import SortTrace.Proofs.Judgement.Block
import SortTrace.Proofs.Runs
import SortTrace.Proofs.Sessions

/-!
# Programs without the statements that only log

A statement that only logs a variable or a literal changes nothing but the steps of a report. So
when a program and the same program without such statements both run to their end, both have
captured the same text (`captured_prune`). Nothing is said of runs that stop: what is logged may not
be bound, or be something that cannot be logged.

The runs are at different lines behind a statement that was left out, so that no line of one is that
of the other. The recodings `logging` and `silenced` are chosen so that any two lines are recodings
of the same number.
-/

namespace SortTrace

open Script (Expr Stmt FunctionDef)

/-! ## Statements that only log -/

/-- Does the statement only log the value of a name or a literal? -/
def Script.Stmt.onlyLogs : Stmt → Bool
  | .expr _ (.call (.name f) [.name _] []) | .expr _ (.call (.name f) [.literal _] []) =>
    f == Builtin.logState.name
  | _ => false

namespace Script

/-- A statement that logs an argument. -/
def Stmt.logs (line : Nat) (arg : Expr) : Stmt :=
  .expr line (.call (.name Builtin.logState.name) [arg] [])

theorem Stmt.eq_logs {s : Stmt} (h : s.onlyLogs = true) :
    ∃ n arg, s = .logs n arg ∧ ((∃ name, arg = .name name) ∨ ∃ v, arg = .literal v) := by
  unfold Stmt.onlyLogs at h
  split at h
  · obtain rfl := eq_of_beq h
    exact ⟨_, _, rfl, .inl ⟨_, rfl⟩⟩
  · obtain rfl := eq_of_beq h
    exact ⟨_, _, rfl, .inr ⟨_, rfl⟩⟩
  · cases h

theorem Stmt.binds_of_onlyLogs {s : Stmt} (name : String) (h : s.onlyLogs = true) :
    s.binds name = false := by
  obtain ⟨n, arg, rfl, -⟩ := Stmt.eq_logs h
  rfl

end Script

/-! ## Machines that are alike -/

/-- Does a call of the function leave the name of the logging builtin alone? -/
def Script.FunctionDef.leavesLog (d : FunctionDef) : Bool :=
  !(d.params.any fun p => p.name == Builtin.logState.name)
    && !Stmt.anyBinds Builtin.logState.name d.body

namespace Recoding

/-- Functions that bind the name of the logging builtin stand for empty ones. -/
def logging : Recoding where
  code d := if d.leavesLog then d else ⟨d.name, [], []⟩
  name_code d := by split <;> rfl
  line n := n.unpair.1

/-- The same functions without the statements that only log. -/
def silenced : Recoding where
  code d := (logging.code d).prune Stmt.onlyLogs
  name_code d := logging.name_code d
  line n := n.unpair.2

instance : logging.KeepsErrors := ⟨fun _ _ => rfl⟩

instance : silenced.KeepsErrors := ⟨fun _ _ => rfl⟩

instance : logging.InPlace := ⟨rfl⟩

instance : silenced.InPlace := ⟨rfl⟩

theorem code_logging {d : FunctionDef} (h : d.leavesLog = true) : logging.code d = d :=
  if_pos h

theorem leavesLog_code (d : FunctionDef) : (logging.code d).leavesLog = true := by
  simp only [logging]
  split
  · assumption
  · rfl

/-- Any two lines are recodings of the same number. -/
theorem exists_line (n n' : Nat) : ∃ c, n = logging.line c ∧ n' = silenced.line c :=
  ⟨Nat.pair n n', by simp [logging], by simp [silenced]⟩

end Recoding

open Recoding (logging silenced)

/-- The machines hold the same up to statements that only log, and have captured the same text. The
name of the logging builtin is not bound. -/
structure Machine.Alike (m m' : Machine) : Prop where
  heap : ∃ h, m.heap = logging.heap h ∧ m'.heap = silenced.heap h
  scopes : ∃ s, m.scopes = logging.scopes s ∧ m'.scopes = silenced.scopes s
  free : m.scopes.Free Builtin.logState.name
  reports : m.session.mode = .report
  reports' : m'.session.mode = .report
  captured : m'.session.captured = m.session.captured

/-! ## Runs that end alike -/

/-- When both runs end, from machines that are alike, they end with recodings of the same result,
and the machines are alike again. -/
def EndAlike {α β γ : Type} (f : γ → α) (g : γ → β) (r : Run α) (r' : Run β) : Prop :=
  ∀ m m', m.Alike m' → ∀ a m₁ b m₁', r m = .ok a m₁ → r' m' = .ok b m₁' →
    ∃ c, a = f c ∧ b = g c ∧ m₁.Alike m₁'

namespace EndAlike

variable {α β γ δ ε ζ : Type} {f : γ → α} {g : γ → β} {f' : δ → ε} {g' : δ → ζ} {r : Run α}
  {r' : Run β}

theorem pure (c : γ) : EndAlike f g (Pure.pure (f c)) (Pure.pure (g c)) := by
  intro m m' hm a m₁ b m₁' h h'
  cases h
  cases h'
  exact ⟨c, rfl, rfl, hm⟩

theorem bind {t : α → Run ε} {t' : β → Run ζ} (hr : EndAlike f g r r')
    (ht : ∀ c, EndAlike f' g' (t (f c)) (t' (g c))) : EndAlike f' g' (r >>= t) (r' >>= t') := by
  intro m m' hm a m₂ b m₂' h h'
  obtain ⟨x, m₁, hfirst, hsecond⟩ := Run.ok_of_bind h
  obtain ⟨y, m₁', hfirst', hsecond'⟩ := Run.ok_of_bind h'
  obtain ⟨c, rfl, rfl, hm₁⟩ := hr m m' hm x m₁ y m₁' hfirst hfirst'
  exact ht c m₁ m₁' hm₁ a m₂ b m₂' hsecond hsecond'

/-- Nothing is asked where the first run does not end. -/
theorem left (e : Stop) (r' : Run β) : EndAlike f g (throw e) r' := by
  intro m m' hm a m₁ b m₁' h
  cases h

/-- Nothing is asked where the second run does not end. -/
theorem right (r : Run α) (e : Stop) : EndAlike f g r (throw e) := by
  intro m m' hm a m₁ b m₁' _ h'
  cases h'

theorem error (e e' : Stop) : EndAlike f g (throw e) (throw e') :=
  left e _

theorem of {x : Except Fault γ} {y : Except Fault α} {y' : Except Fault β}
    (h : y = logging.outcome f x) (h' : y' = silenced.outcome g x) :
    EndAlike f g (Run.of y) (Run.of y') := by
  subst h h'
  cases x with
  | ok c => exact pure c
  | error e => exact error _ _

theorem read {x : Heap → Except Fault γ} {y : Heap → Except Fault α} {y' : Heap → Except Fault β}
    (h : ∀ i, y (logging.heap i) = logging.outcome f (x i))
    (h' : ∀ i, y' (silenced.heap i) = silenced.outcome g (x i)) :
    EndAlike f g (Run.read y) (Run.read y') := by
  intro m m' hm
  obtain ⟨i, hi, hi'⟩ := hm.heap
  have both : EndAlike f g (Run.of (y m.heap)) (Run.of (y' m'.heap)) :=
    of (by rw [hi, h]) (by rw [hi', h'])
  exact both m m' hm

theorem compute {x : Compute γ} {y : Compute α} {y' : Compute β} (h : logging.Computes f x y)
    (h' : silenced.Computes g x y') : EndAlike f g (Run.compute y) (Run.compute y') := by
  intro m m' hm a m₁ b m₁' hend hend'
  obtain ⟨i, hi, hi'⟩ := hm.heap
  simp only [Run.compute, hi, hi', h.apply i, h'.apply i] at hend hend'
  cases hx : x i with
  | error e j =>
    rw [hx] at hend
    cases hend
  | ok c j =>
    rw [hx] at hend hend'
    cases hend
    cases hend'
    exact ⟨c, rfl, rfl, ⟨j, rfl, rfl⟩, hm.scopes, hm.free, hm.reports, hm.reports', hm.captured⟩

/-- A change of scopes that commutes with recodings. -/
theorem modifyScopes {x y y' : Scopes → Scopes}
    (h : ∀ i, y (logging.scopes i) = logging.scopes (x i))
    (h' : ∀ i, y' (silenced.scopes i) = silenced.scopes (x i))
    (free : ∀ i : Scopes, i.Free Builtin.logState.name → (y i).Free Builtin.logState.name) :
    EndAlike id id (Run.modifyScopes y) (Run.modifyScopes y') := by
  intro m m' hm a m₁ b m₁' hend hend'
  obtain ⟨i, hi, hi'⟩ := hm.scopes
  cases hend
  cases hend'
  refine ⟨(), rfl, rfl, hm.heap, ⟨x i, ?_, ?_⟩, free _ hm.free, hm.reports, hm.reports',
    hm.captured⟩
  · rw [← h, ← hi]
  · rw [← h', ← hi']

theorem bindName {name : String} (hne : name ≠ Builtin.logState.name) (v : Value) :
    EndAlike id id (Run.bind name (logging.value v)) (Run.bind name (silenced.value v)) :=
  modifyScopes (fun i => (logging.scopes_assign i name v).symm)
    (fun i => (silenced.scopes_assign i name v).symm) fun _ hfree => hfree.assign hne _

theorem lookup (name : String) :
    EndAlike logging.value silenced.value (Run.lookup name) (Run.lookup name) := by
  intro m m' hm
  obtain ⟨i, hi, hi'⟩ := hm.scopes
  cases hv : i.lookup name with
  | some v =>
    have bound : m.scopes.lookup name = some (logging.value v) := by
      simp [hi, Recoding.lookup_scopes, hv]
    have bound' : m'.scopes.lookup name = some (silenced.value v) := by
      simp [hi', Recoding.lookup_scopes, hv]
    rw [Run.lookup_bound bound, Run.lookup_bound bound']
    exact pure v m m' hm
  | none =>
    have free : m.scopes.lookup name = none := by simp [hi, Recoding.lookup_scopes, hv]
    have free' : m'.scopes.lookup name = none := by simp [hi', Recoding.lookup_scopes, hv]
    cases hb : Builtin.ofName? name with
    | some b =>
      rw [Run.lookup_builtin free hb, Run.lookup_builtin free' hb]
      exact pure (f := logging.value) (g := silenced.value) (Value.builtin b) m m' hm
    | none =>
      rw [Run.lookup_unbound free hb]
      nofun

theorem setLine (n n' : Nat) :
    EndAlike id id (Run.setLine n) (Run.setLine n') := by
  intro m m' hm a m₁ b m₁' h h'
  cases h
  cases h'
  exact ⟨(), rfl, rfl, hm.heap, hm.scopes, hm.free, hm.reports, hm.reports', hm.captured⟩

theorem line : EndAlike logging.line silenced.line Run.line Run.line := by
  intro m m' hm a m₁ b m₁' h h'
  cases h
  cases h'
  obtain ⟨c, hc, hc'⟩ := Recoding.exists_line m.line m'.line
  exact ⟨c, hc, hc', hm⟩

theorem tick_ok {timeout : Option Nat} {m m₁ : Machine} {u : Unit}
    (h : Run.tick timeout m = .ok u m₁) : m₁ = { m with ticks := m.ticks + 1 } := by
  rw [Run.tick_apply] at h
  split at h <;> cases h
  rfl

theorem tick (timeout : Option Nat) : EndAlike id id (Run.tick timeout) (Run.tick timeout) := by
  intro m m' hm a m₁ b m₁' h h'
  obtain rfl := tick_ok h
  obtain rfl := tick_ok h'
  exact ⟨(), rfl, rfl, hm.heap, hm.scopes, hm.free, hm.reports, hm.reports', hm.captured⟩

theorem print (text : String) :
    EndAlike id id (Run.trace (Session.print text)) (Run.trace (Session.print text)) := by
  intro m m' hm a m₁ b m₁' h h'
  simp only [Run.trace, Session.print_report text hm.reports] at h
  simp only [Run.trace, Session.print_report text hm.reports'] at h'
  cases h
  cases h'
  exact ⟨(), rfl, rfl, hm.heap, hm.scopes, hm.free, hm.reports, hm.reports',
    congrArg (· ++ text) hm.captured⟩

theorem log (state : Report.Json) (n n' : Nat) :
    EndAlike id id (Run.trace (Session.log state n)) (Run.trace (Session.log state n')) := by
  intro m m' hm a m₁ b m₁' h h'
  simp only [Run.trace, Session.log_report state _ hm.reports] at h
  simp only [Run.trace, Session.log_report state _ hm.reports'] at h'
  cases h
  cases h'
  exact ⟨(), rfl, rfl, hm.heap, hm.scopes, hm.free, hm.reports, hm.reports', hm.captured⟩

/-- Ending alike, as a judgement about expressions. -/
def judgement : Judgement logging silenced where
  Holds := EndAlike
  Free name := name ≠ Builtin.logState.name
  pure := pure
  bind := bind
  fault _ := error _ _
  read := read
  compute := compute
  lookup := lookup
  bindName := bindName
  line := line
  print := print
  log state _ := log state _ _

/-! ## Statements that are left out -/

theorem eval_word {user : UserCall} {arg : Expr} {v : Value} {m m₁ : Machine}
    (harg : (∃ name, arg = .name name) ∨ ∃ l, arg = .literal l)
    (h : eval user arg m = .ok v m₁) : m₁ = m := by
  rcases harg with ⟨name, rfl⟩ | ⟨l, rfl⟩
  · rcases Run.lookup_apply name m with ⟨w, hw⟩ | ⟨e, he⟩
    · cases hw.symm.trans h
      rfl
    · cases he.symm.trans h
  · cases h
    rfl

theorem read_ok {α : Type} {y : Heap → Except Fault α} {a : α} {m m₁ : Machine}
    (h : Run.read y m = .ok a m₁) : m₁ = m := by
  change Run.of (y m.heap) m = _ at h
  cases hy : y m.heap with
  | ok b =>
    rw [hy] at h
    cases h
    rfl
  | error e =>
    rw [hy] at h
    cases h

theorem eval_logs {user : UserCall} {arg : Expr} {v : Value} {m m₁ : Machine}
    (harg : (∃ name, arg = .name name) ∨ ∃ l, arg = .literal l)
    (hfree : m.scopes.Free Builtin.logState.name)
    (h : eval user (.call (.name Builtin.logState.name) [arg] []) m = .ok v m₁) :
    ∃ state, Run.trace (Session.log state m.line) m = .ok () m₁ := by
  have builtin : Run.lookup Builtin.logState.name m = .ok (.builtin .logState) m :=
    Run.lookup_builtin hfree.lookup (by decide)
  obtain ⟨_, _, hname, happly⟩ := Run.ok_of_bind h
  cases builtin.symm.trans hname
  obtain ⟨_, m₂, hargs, hcall⟩ := Run.ok_of_bind happly
  obtain ⟨w, m₃, hword, hnone⟩ := Run.ok_of_bind hargs
  obtain rfl := eval_word harg hword
  cases hnone
  have hlog : Builtin.runLogState [w] _ = .ok v m₁ := hcall
  obtain ⟨state, m₄, hread, htell⟩ := Run.ok_of_bind hlog
  obtain rfl := read_ok hread
  obtain ⟨_, m₅, hline, htell'⟩ := Run.ok_of_bind htell
  cases hline
  obtain ⟨_, m₆, htrace, hend⟩ := Run.ok_of_bind htell'
  cases hend
  exact ⟨state, htrace⟩

/-- A statement that only logs changes nothing but the session. -/
theorem skip {user : UserCall} {timeout : Option Nat} {rounds : Nat} {s : Stmt}
    (hs : s.onlyLogs = true) :
    EndAlike (fun _ : Unit => Flow.normal) (fun _ => Flow.normal)
      (runStmt ⟨user, timeout, rounds⟩ s) (Pure.pure .normal) := by
  intro m m' hm _ m₁ _ m₁' h h'
  cases h'
  obtain ⟨n, arg, rfl, harg⟩ := Stmt.eq_logs hs
  obtain ⟨_, _, hline, hrun⟩ := Run.ok_of_bind h
  cases hline
  obtain ⟨_, m₂, htick, hrest⟩ := Run.ok_of_bind hrun
  obtain rfl := tick_ok htick
  obtain ⟨v, m₃, heval, hend⟩ := Run.ok_of_bind hrest
  cases hend
  obtain ⟨state, htrace⟩ :=
    eval_logs (m := { m with line := n, ticks := m.ticks + 1 }) harg hm.free heval
  simp only [Run.trace, Session.log_report state _ hm.reports] at htrace
  cases htrace
  exact ⟨(), rfl, rfl, hm.heap, hm.scopes, hm.free, hm.reports, hm.reports', hm.captured⟩

/-- Ending alike, as a judgement about statements. -/
def conduct (timeout : Option Nat) : Conduct logging silenced timeout where
  expr := judgement
  Holds := EndAlike
  Declares _ := True
  out := Stmt.onlyLogs
  lift h := h
  bind := bind
  setLine n := setLine n n
  tick := tick timeout
  declareGlobal names _ := modifyScopes (fun i => (logging.scopes_declareGlobal i names).symm)
    (fun i => (silenced.scopes_declareGlobal i names).symm) fun _ hfree => hfree.declareGlobal names
  outOfRounds := error _ _
  Uneven := True
  fewer _ := left _ _
  more _ := right _ _
  skip := skip

theorem admits {block : List Stmt} (hfree : Stmt.anyBinds Builtin.logState.name block = false)
    (timeout : Option Nat) : ∀ s ∈ Stmt.inBlock block, (conduct timeout).Admits s := by
  intro s hs
  have free : s.binds Builtin.logState.name = false := Script.binds_of_inBlock block hs hfree
  refine ⟨fun d hd => ?_, fun name hname heq => ?_, .inl judgement.lenient, fun _ _ => trivial⟩
  · have leaves : d.leavesLog = true := by
      cases s with
      | define n name params body =>
        obtain rfl := Option.some.inj hd
        rw [Stmt.binds, Bool.or_eq_false_iff, Bool.or_eq_false_iff] at free
        obtain ⟨⟨-, hparams⟩, hbody⟩ := free
        rw [FunctionDef.leavesLog, hparams, hbody]
        rfl
      | _ => cases hd
    have same := Recoding.code_logging leaves
    exact ⟨same, congrArg (FunctionDef.prune Stmt.onlyLogs) same⟩
  · rw [heq, free] at hname
    cases hname

/-! ## Calls and programs -/

variable {user user' : UserCall} {timeout : Option Nat} {rounds rounds' : Nat}

/-- The body of a function ends alike. -/
theorem body (hu : judgement.Calls user user') (d : FunctionDef) :
    EndAlike logging.flow silenced.flow
      (runBlock ⟨user, timeout, rounds⟩ (logging.code d).body)
      (runBlock ⟨user', timeout, rounds'⟩ (silenced.code d).body) := by
  have leaves := Recoding.leavesLog_code d
  rw [FunctionDef.leavesLog, Bool.and_eq_true, Bool.not_eq_true', Bool.not_eq_true'] at leaves
  exact (conduct timeout).prunedBlock (.inr trivial) hu _ (admits leaves.2 timeout)

/-- The frame of a call binds only the parameters of the function. -/
theorem pushFrame {d : FunctionDef} {defaults args : List Value} {keywords : Keywords}
    {locals : Bindings} (n : Nat)
    (hb : bindArguments (logging.code d) defaults args keywords = .ok locals) :
    EndAlike id id
      (Run.modifyScopes fun s => s.push ⟨d.name, logging.line n, logging.bindings locals, []⟩)
      (Run.modifyScopes fun s =>
        s.push ⟨d.name, silenced.line n, silenced.bindings locals, []⟩) := by
  refine modifyScopes (x := fun s => s.push ⟨d.name, n, locals, []⟩) (fun _ => rfl) (fun _ => rfl)
    fun i hfree => hfree.push ?_
  rw [Recoding.find?_bindings, Bindings.find?_eq_none.mpr, Option.map_none]
  intro p hp heq
  obtain ⟨q, hq, hname⟩ := List.mem_map.mp (bindArguments_names hb p hp)
  have leaves := Recoding.leavesLog_code d
  rw [FunctionDef.leavesLog, Bool.and_eq_true, Bool.not_eq_true', Bool.not_eq_true'] at leaves
  exact List.any_eq_false.mp leaves.1 q hq (by rw [hname, heq, beq_self_eq_true])

theorem callIn (hu : judgement.Calls user user') :
    judgement.Calls (callIn ⟨user, timeout, rounds⟩) (callIn ⟨user', timeout, rounds'⟩) := by
  intro d defaults args keywords
  refine line.bind fun n => ?_
  rw [logging.bindArguments_value (f := logging.code d) rfl rfl,
    silenced.bindArguments_value (f := logging.code d) (g := silenced.code d)
      rfl rfl]
  cases hb : bindArguments (logging.code d) defaults args keywords with
  | error e => exact error _ _
  | ok locals =>
    simp only [Recoding.outcome_ok, Run.of, pure_bind, Recoding.name_code]
    refine (pushFrame n hb).bind fun _ => (body hu d).bind fun flow => ?_
    have popped : EndAlike id id (Run.modifyScopes fun s => s.pop.2)
        (Run.modifyScopes fun s => s.pop.2) :=
      modifyScopes (fun i => (logging.scopes_pop i).symm) (fun i => (silenced.scopes_pop i).symm)
        fun _ hfree => hfree.pop
    refine popped.bind fun _ => (setLine _ _).bind fun _ => ?_
    exact judgement.pureOf flow.result (logging.result_flow flow) (silenced.result_flow flow)

/-- Functions of a script end alike, to any depth of calls. -/
theorem userCall (timeout : Option Nat) (rounds rounds' : Nat) : ∀ depth : Nat,
    judgement.Calls (userCall timeout rounds depth) (userCall timeout rounds' depth)
  | 0 => fun _ _ _ _ => error _ _
  | depth + 1 => callIn (userCall timeout rounds rounds' depth)

end EndAlike

theorem Machine.Alike.start (breakpoints : List Nat) (room : Option Nat) :
    (Machine.start (Session.start .report breakpoints room)).Alike
      (Machine.start (Session.start .report breakpoints room)) where
  heap := ⟨.empty, logging.heap_empty.symm, silenced.heap_empty.symm⟩
  scopes := ⟨.empty, rfl, rfl⟩
  free := .empty
  reports := rfl
  reports' := rfl
  captured := rfl

/-- A program captures the same text without the statements that only log, if it nowhere binds the
name of the logging builtin and both end, in however many rounds. -/
theorem captured_prune {program : List Stmt} {limits : Limits} {rounds rounds' : Nat}
    {breakpoints : List Nat} {room : Option Nat} {m m' : Machine}
    (hfree : Stmt.anyBinds Builtin.logState.name program = false)
    (h : runProgram limits rounds program (Machine.start (Session.start .report breakpoints room))
      = .ok () m)
    (h' : runProgram limits rounds' (Stmt.pruneBlock Stmt.onlyLogs program)
      (Machine.start (Session.start .report breakpoints room)) = .ok () m') :
    m'.session.captured = m.session.captured := by
  let c (rounds : Nat) : Control :=
    ⟨userCall limits.timeout rounds limits.recursion, limits.timeout, rounds⟩
  have block : EndAlike logging.flow silenced.flow (runBlock (c rounds) program)
      (runBlock (c rounds') (Stmt.pruneBlock Stmt.onlyLogs program)) :=
    (EndAlike.conduct limits.timeout).prunedBlock (.inr trivial)
      (EndAlike.userCall _ rounds rounds' _) program (EndAlike.admits hfree _)
  rw [Coupling.Sim.runProgram_apply] at h h'
  obtain ⟨flow, m₁, hblock, hend⟩ := Run.ok_of_bind h
  obtain ⟨flow', m₁', hblock', hend'⟩ := Run.ok_of_bind h'
  cases hend
  cases hend'
  obtain ⟨-, -, -, alike⟩ := block _ _ (.start breakpoints room) flow m flow' m' hblock hblock'
  exact alike.captured

end SortTrace
