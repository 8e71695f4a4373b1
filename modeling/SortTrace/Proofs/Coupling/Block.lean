import SortTrace.Machine.Program
import SortTrace.Proofs.Coupling.Eval
import SortTrace.Proofs.Recoding.Flow

/-!
# Coupled programs

Statements, blocks and loops of a marked program and of the stripped one run alike, and so do calls
to any depth (`Sim.userCall`) and whole programs (`Sim.runProgram`). A logging call that was put in
runs in the marked program only, where it either changes nothing but the session or stops the run
(`Sim.inserted`).
-/

namespace SortTrace

open Script (Expr Stmt FunctionDef)

/-! ## Logging calls -/

namespace Run

variable {m : Machine}

theorem lookup_apply (name : String) (m : Machine) :
    (∃ v, Run.lookup name m = .ok v m) ∨ ∃ e, Run.lookup name m = .error e m := by
  cases hv : m.scopes.lookup name with
  | some v => exact .inl ⟨v, lookup_bound hv⟩
  | none =>
    cases hb : Builtin.ofName? name with
    | some b => exact .inl ⟨.builtin b, lookup_builtin hv hb⟩
    | none => exact .inr ⟨_, lookup_unbound hv hb⟩

/-- A logging call stops where it is or logs a state at the line under way. -/
theorem eval_logCall (user : UserCall) (var : String)
    (hfree : m.scopes.Free Builtin.logState.name) :
    let logging := eval user (.call (.name Builtin.logState.name) [.name var] []) m
    (∃ e, logging = .error e m) ∨ ∃ state, logging
      = (Run.trace (Session.log state m.line) >>= fun _ => pure Value.none : Run Value) m := by
  have builtin : Run.lookup Builtin.logState.name m = .ok (.builtin .logState) m :=
    lookup_builtin hfree.lookup (by decide)
  have called : eval user (.call (.name Builtin.logState.name) [.name var] []) m
      = (Run.lookup var >>= fun v => Builtin.runLogState [v]) m := by
    simp only [eval, evalAll, evalKeywords, bind_assoc, pure_bind]
    rw [bind_ok builtin]
    rfl
  intro logging
  rw [show logging = _ from called]
  rcases lookup_apply var m with ⟨v, hv⟩ | ⟨e, he⟩
  · rw [bind_ok hv]
    cases hj : v.toJson m.heap with
    | error f =>
      refine .inl ⟨.fault f, bind_error ?_⟩
      change Run.of (v.toJson m.heap) m = _
      rw [hj]
      rfl
    | ok state =>
      refine .inr ⟨state, bind_ok ?_⟩
      change Run.of (v.toJson m.heap) m = _
      rw [hj]
      rfl
  · exact .inl ⟨e, bind_error he⟩

end Run

namespace Coupling

variable {k : Marking} (W : Coupling k)

/-- Two runs that end a statement alike. -/
abbrev SimFlow (p q : Bool) (r r' : Run Flow) : Prop :=
  W.Sim p q k.marked.flow k.stripped.flow r r'

variable {W} {user user' : UserCall} {rounds : Nat}

namespace Sim

/-! ## Loops -/

section Loops

variable {body body' otherwise otherwise' : Run Flow}

theorem whileRounds {condition condition' : Run Bool} (n : Nat)
    (hc : W.Sim true true id id condition condition') (hb : W.SimFlow false false body body')
    (ho : W.SimFlow false false otherwise otherwise') : ∀ rounds : Nat,
    W.SimFlow false false (whileRounds W.timeout n condition body otherwise rounds)
      (whileRounds W.timeout (k.line n) condition' body' otherwise' rounds)
  | 0 => outOfRounds
  | rounds + 1 => by
    refine (setLine n).bind fun _ => hc.bind fun holds => ?_
    cases holds
    · exact ho.fromLine
    refine hb.fromLine.bind fun flow => ?_
    cases flow with
    | leaveLoop => exact pure Flow.normal
    | giveBack v => exact pure (Flow.giveBack v)
    | normal | nextRound => exact tick.bind fun _ => whileRounds n hc hb ho rounds

omit W in
theorem forRounds_apply (timeout : Option Nat) (line : Nat) (take : Value → Run Unit)
    (rounds : Nat) (cursor : Cursor) (m : Machine) :
    SortTrace.forRounds timeout line take body otherwise (rounds + 1) cursor m
      = (match cursor.next? m.heap with
        | none => otherwise
        | some (v, rest) => do
          Run.setLine line
          take v
          match ← body with
          | .leaveLoop => Pure.pure .normal
          | .giveBack v => Pure.pure (.giveBack v)
          | .normal | .nextRound =>
            Run.tick timeout
            SortTrace.forRounds timeout line take body otherwise rounds rest) m :=
  rfl

theorem forRounds {take take' : Value → Run Unit} (n : Nat)
    (ht : ∀ v, W.Sim true true id id (take (k.marked.value v)) (take' (k.stripped.value v)))
    (hb : W.SimFlow false false body body') (ho : W.SimFlow false false otherwise otherwise') :
    ∀ (rounds : Nat) (cursor : Cursor),
    W.SimFlow false false
      (forRounds W.timeout n take body otherwise rounds (k.marked.cursor cursor))
      (forRounds W.timeout (k.line n) take' body' otherwise' rounds (k.stripped.cursor cursor))
  | 0, _ => outOfRounds
  | rounds + 1, cursor => by
    intro m m' hm
    obtain ⟨i, hi, hi'⟩ := hm.heap
    rw [forRounds_apply, forRounds_apply, hi, hi', Recoding.next?_cursor, Recoding.next?_cursor]
    cases cursor.next? i with
    | none => exact ho m m' hm
    | some next =>
      refine ((setLine n).bind fun _ => (ht next.1).bind fun _ => hb.fromLine.bind fun flow => ?_)
        m m' hm
      cases flow with
      | leaveLoop => exact pure Flow.normal
      | giveBack v => exact pure (Flow.giveBack v)
      | normal | nextRound => exact tick.bind fun _ => forRounds n ht hb ho rounds next.2

end Loops

/-! ## Statements -/

theorem define (hu : W.SimCall user user') {d : FunctionDef} (hclean : k.Clean d)
    (hne : k.Inserts → d.name ≠ Builtin.logState.name) :
    W.Sim true true id id (define user d)
      (define user' ⟨d.name, d.params, k.stripBlock d.body⟩) := by
  refine (evalAll hu _).bind fun defaults => (compute .mark .mark).bind fun id => ?_
  have bound := bindName (W := W) (p := true) hne (.function id d defaults)
  simpa only [Recoding.value, Recoding.values_eq_map, Marking.stripped,
    Marking.code_of_clean hclean, id_eq] using bound

theorem givenBack (hu : W.SimCall user user') (value : Option Expr) :
    W.SimValue (givenBack user value) (givenBack user' value) := by
  cases value with
  | none => exact pure Value.none
  | some e => exact eval hu e

/-- A logging call that was put in either changes nothing but the session or stops the run. -/
theorem inserted {s : Stmt} (hs : k.drops s = true) :
    W.Sim false false (fun _ : Unit => Flow.normal) (fun _ => Flow.normal)
      (runStmt ⟨user, W.timeout, rounds⟩ s) (Pure.pure .normal) := by
  intro m m' hm
  obtain ⟨hnew, hlog⟩ := Bool.and_eq_true_iff.mp hs
  obtain ⟨var, hvar⟩ := Stmt.eq_logCall hlog
  generalize s.line = n at hnew hvar
  subst hvar
  have yes : k.Inserts := ⟨n, hnew⟩
  have free : m.scopes.Free Builtin.logState.name := hm.free yes
  have ticked : Run.tick W.timeout { m with line := n }
      = .ok () { m with line := n, ticks := m.ticks + 1 } := by
    rw [Run.tick_apply, if_neg]
    simp [W.patient yes]
  have moved : Run.setLine n m = .ok () { m with line := n } := rfl
  simp only [Stmt.logCall, SortTrace.runStmt, Stmt.line]
  rw [Run.bind_ok moved, Run.bind_ok ticked]
  rcases Run.eval_logCall (m := { m with line := n, ticks := m.ticks + 1 }) user var free
    with ⟨e, he⟩ | ⟨state, he⟩
  · rw [Run.bind_error he]
    exact .lost hnew _
  · obtain ⟨s₁, hs₁, near⟩ := W.skip state n yes hm.near
    have logged : SortTrace.eval user (.call (.name Builtin.logState.name) [.name var] [])
          { m with line := n, ticks := m.ticks + 1 }
        = .ok .none { m with line := n, ticks := m.ticks + 1, session := s₁ } := by
      rw [he]
      change EStateM.bind (Run.trace (Session.log state n)) _ _ = _
      simp only [EStateM.bind, Run.trace, hs₁]
      rfl
    rw [Run.bind_ok logged]
    exact .ok () ⟨hm.heap, hm.scopes, near, Bool.noConfusion, hm.free⟩

mutual

/-- A statement runs alike without the logging calls that were put into it. -/
theorem runStmt (hu : W.SimCall user user') : ∀ s : Stmt,
    (k.Inserts → s.binds Builtin.logState.name = false) →
    W.SimFlow false false (runStmt ⟨user, W.timeout, rounds⟩ s)
      (runStmt ⟨user', W.timeout, rounds⟩ (k.strip s))
  | .expr n e, _ =>
    (setLine n).bind fun _ => tick.bind fun _ => (eval hu e).anywhere.bind fun _ =>
      pure Flow.normal
  | .assign n targets value, hfree =>
    (setLine n).bind fun _ => tick.bind fun _ => (eval hu value).bind fun v =>
      (assignAll hu v targets hfree).anywhere.bind fun _ => pure Flow.normal
  | .augment n target op operand, hfree =>
    (setLine n).bind fun _ => tick.bind fun _ =>
      (update hu target op operand hfree).anywhere.bind fun _ => pure Flow.normal
  | .branch n cases otherwise, hfree => by
    have parts (yes : k.Inserts) := Bool.or_eq_false_iff.mp (hfree yes)
    refine (setLine n).bind fun _ => tick.bind fun _ => ?_
    exact runCases hu cases (fun yes => (parts yes).1)
      (runBlock hu otherwise fun yes => (parts yes).2)
  | .whileLoop n condition body otherwise, hfree => by
    have parts (yes : k.Inserts) := Bool.or_eq_false_iff.mp (hfree yes)
    refine (setLine n).bind fun _ => tick.bind fun _ => ?_
    exact (whileRounds n (holds hu condition) (runBlock hu body fun yes => (parts yes).1)
      (runBlock hu otherwise fun yes => (parts yes).2) rounds).fromLine
  | .forLoop n target items body otherwise, hfree => by
    have parts (yes : k.Inserts) := Bool.or_eq_false_iff.mp (hfree yes)
    have fronts (yes : k.Inserts) := Bool.or_eq_false_iff.mp (parts yes).1
    refine (setLine n).bind fun _ => tick.bind fun _ => (eval hu items).bind fun v => ?_
    refine (of (k.marked.start_value v) (k.stripped.start_value v)).bind fun cursor => ?_
    exact (forRounds n (fun v => assign hu v target fun yes => (fronts yes).1)
      (runBlock hu body fun yes => (fronts yes).2)
      (runBlock hu otherwise fun yes => (parts yes).2) rounds cursor).fromLine
  | .define n name params body, hfree => by
    have parts (yes : k.Inserts) := Bool.or_eq_false_iff.mp (hfree yes)
    have fronts (yes : k.Inserts) := Bool.or_eq_false_iff.mp (parts yes).1
    have clean : k.Clean ⟨name, params, body⟩ := fun yes => ⟨(fronts yes).2, (parts yes).2⟩
    have hne (yes : k.Inserts) : name ≠ Builtin.logState.name := by
      simpa using (fronts yes).1
    refine (setLine n).bind fun _ => tick.bind fun _ => ?_
    exact (define hu clean hne).anywhere.bind fun _ => pure Flow.normal
  | .giveBack n value, _ =>
    (setLine n).bind fun _ => tick.bind fun _ =>
      (givenBack hu value).anywhere.map Flow.giveBack (fun _ => rfl) fun _ => rfl
  | .declareGlobal n names, _ =>
    (setLine n).bind fun _ => tick.bind fun _ =>
      (modifyScopes (fun i => (k.marked.scopes_declareGlobal i names).symm)
        (fun i => (k.stripped.scopes_declareGlobal i names).symm)
        fun _ _ hf => hf.declareGlobal names).anywhere.bind fun _ => pure Flow.normal
  | .leaveLoop n, _ =>
    (setLine n).bind fun _ => tick.anywhere.bind fun _ => pure Flow.leaveLoop
  | .nextRound n, _ =>
    (setLine n).bind fun _ => tick.anywhere.bind fun _ => pure Flow.nextRound
  | .pass n, _ => (setLine n).bind fun _ => tick.anywhere.bind fun _ => pure Flow.normal

/-- A block runs alike without the logging calls that were put into it. -/
theorem runBlock (hu : W.SimCall user user') : ∀ block : List Stmt,
    (k.Inserts → Stmt.anyBinds Builtin.logState.name block = false) →
    W.SimFlow false false (runBlock ⟨user, W.timeout, rounds⟩ block)
      (runBlock ⟨user', W.timeout, rounds⟩ (k.stripBlock block))
  | [], _ => pure Flow.normal
  | s :: rest, hfree => by
    have parts (yes : k.Inserts) := Bool.or_eq_false_iff.mp (hfree yes)
    have remaining := runBlock hu rest fun yes => (parts yes).2
    by_cases hs : k.drops s = true
    · rw [Marking.stripBlock, if_pos hs]
      change W.SimFlow false false _
        (Pure.pure Flow.normal >>= fun _ =>
          SortTrace.runBlock ⟨user', W.timeout, rounds⟩ (k.stripBlock rest))
      exact (inserted hs).bind fun _ => remaining
    · rw [Marking.stripBlock, if_neg hs]
      refine (runStmt hu s fun yes => (parts yes).1).bind fun flow => ?_
      cases flow with
      | normal => exact remaining
      | leaveLoop => exact pure Flow.leaveLoop
      | nextRound => exact pure Flow.nextRound
      | giveBack v => exact pure (Flow.giveBack v)

/-- Cases run alike without the logging calls that were put into their blocks. -/
theorem runCases (hu : W.SimCall user user') {otherwise otherwise' : Run Flow} :
    ∀ cases : List (Expr × List Stmt),
    (k.Inserts → Stmt.caseBinds Builtin.logState.name cases = false) →
    W.SimFlow false false otherwise otherwise' →
    W.SimFlow true false (runCases ⟨user, W.timeout, rounds⟩ cases otherwise)
      (runCases ⟨user', W.timeout, rounds⟩ (k.stripCases cases) otherwise')
  | [], _, ho => ho.fromLine
  | (condition, body) :: rest, hfree, ho => by
    have parts (yes : k.Inserts) := Bool.or_eq_false_iff.mp (hfree yes)
    refine (holds hu condition).bind fun holds => ?_
    cases holds
    · exact runCases hu rest (fun yes => (parts yes).2) ho
    · exact (runBlock hu body fun yes => (parts yes).1).fromLine

end

/-! ## Calls and programs -/

/-- The new frame of a call binds only the parameters of a clean function. -/
theorem pushFrame {d : FunctionDef} {defaults args : List Value} {keywords : Keywords}
    {locals : Bindings} (n : Nat)
    (hb : bindArguments (k.marked.code d) defaults args keywords = .ok locals) :
    W.Sim true true id id
      (Run.modifyScopes fun s => s.push ⟨d.name, n, k.marked.bindings locals, []⟩)
      (Run.modifyScopes fun s => s.push ⟨d.name, k.line n, k.stripped.bindings locals, []⟩) := by
  refine modifyScopes (x := fun s => s.push ⟨d.name, n, locals, []⟩) (fun _ => rfl) (fun _ => rfl)
    fun yes i hfree => hfree.push ?_
  rw [Recoding.find?_bindings, Bindings.find?_eq_none.mpr, Option.map_none]
  intro p hp heq
  have parameter := bindArguments_names hb p hp
  obtain ⟨q, hq, hname⟩ := List.mem_map.mp parameter
  have none := List.any_eq_false.mp (k.clean_code d yes).1 q hq
  exact none (by rw [hname, heq, beq_self_eq_true])

theorem callIn (hu : W.SimCall user user') :
    W.SimCall (callIn ⟨user, W.timeout, rounds⟩) (callIn ⟨user', W.timeout, rounds⟩) := by
  intro d defaults args keywords
  refine line.bind fun n => ?_
  rw [k.marked.bindArguments_value (f := k.marked.code d) rfl rfl,
    k.stripped.bindArguments_value (f := k.marked.code d) (g := k.stripped.code d)
      (k.marked.name_code d).symm rfl]
  cases hb : bindArguments (k.marked.code d) defaults args keywords with
  | error e =>
    rw [Recoding.outcome_error, Recoding.outcome_error, Marking.fault_marked]
    exact fun m m' hm => .error (.fault e) hm.weaken
  | ok locals =>
    have body : W.SimFlow false false
        (SortTrace.runBlock ⟨user, W.timeout, rounds⟩ (k.marked.code d).body)
        (SortTrace.runBlock ⟨user', W.timeout, rounds⟩ (k.stripped.code d).body) :=
      runBlock hu (k.marked.code d).body fun yes => (k.clean_code d yes).2
    have popped : W.Sim false false id id (Run.modifyScopes fun s => s.pop.2)
        (Run.modifyScopes fun s => s.pop.2) :=
      modifyScopes (fun i => (k.marked.scopes_pop i).symm) (fun i => (k.stripped.scopes_pop i).symm)
        fun _ _ hfree => hfree.pop
    simp only [Recoding.outcome_ok, Run.of, pure_bind, Recoding.name_code, id_eq]
    refine (pushFrame n hb).bind fun _ => body.fromLine.bind fun flow => popped.bind fun _ => ?_
    exact (setLine n).bind fun _ =>
      pureOf flow.result (k.marked.result_flow flow) (k.stripped.result_flow flow)

/-- Functions of a script do alike, to any depth of calls. -/
theorem userCall (rounds : Nat) : ∀ depth : Nat,
    W.SimCall (userCall W.timeout rounds depth) (userCall W.timeout rounds depth)
  | 0 => fun _ _ _ _ => fault .recursion
  | depth + 1 => callIn (userCall rounds depth)

omit W in
theorem runProgram_apply (limits : Limits) (rounds : Nat) (program : List Stmt) (m : Machine) :
    SortTrace.runProgram limits rounds program m
      = (SortTrace.runBlock ⟨SortTrace.userCall limits.timeout rounds
          (limits.recursion - m.scopes.depth), limits.timeout, rounds⟩ program
          >>= fun _ => Pure.pure ()) m :=
  rfl

/-- A program runs alike without the logging calls that were put into it. -/
theorem runProgram (recursion rounds : Nat) (program : List Stmt)
    (hfree : k.Inserts → Stmt.anyBinds Builtin.logState.name program = false) :
    W.Sim false false id id (runProgram ⟨recursion, W.timeout⟩ rounds program)
      (runProgram ⟨recursion, W.timeout⟩ rounds (k.stripBlock program)) := by
  intro m m' hm
  obtain ⟨i, hi, hi'⟩ := hm.scopes
  have depth : m'.scopes.depth = m.scopes.depth := by
    rw [hi, hi', Recoding.depth_scopes, Recoding.depth_scopes]
  have run : W.Sim false false id id
      (SortTrace.runBlock ⟨SortTrace.userCall W.timeout rounds (recursion - m.scopes.depth),
        W.timeout, rounds⟩ program >>= fun _ => Pure.pure ())
      (SortTrace.runBlock ⟨SortTrace.userCall W.timeout rounds (recursion - m.scopes.depth),
        W.timeout, rounds⟩ (k.stripBlock program) >>= fun _ => Pure.pure ()) :=
    (runBlock (userCall rounds _) program hfree).bind fun _ => pure ()
  rw [runProgram_apply, runProgram_apply, depth]
  exact run m m' hm

end Sim

end Coupling

end SortTrace
