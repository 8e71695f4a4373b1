import SortTrace.Proofs.Judgement.Call
import SortTrace.Proofs.Onward

/-!
# What costs a tick

Every statement begins with a tick (`Ticked`). So a block that is not empty costs one, and so does a
call of a function whose body is not empty; a round of a loop costs one even where its body is
empty, since a tick is counted behind it (`lt_ticks_loopRound`). A run that is out of rounds has
counted as many ticks as a loop may take rounds (`Spends`).
-/

namespace SortTrace

open Script (Expr Stmt FunctionDef)

variable {α β γ δ ε : Type}

/-- The run goes on, and when it is out of rounds it has counted at least so many ticks. -/
structure Spends (count : Nat) (f : γ → α) (r : Run α) : Prop where
  goesOn : GoesOn f r
  spent {m m₁ : Machine} (h : r m = .error .outOfRounds m₁) : m.ticks + count ≤ m₁.ticks

namespace Spends

variable {count : Nat} {f : γ → α} {g : γ → β} {f' : δ → ε} {r : Run α} {r' : Run β}

theorem weaken {fewer : Nat} (h : Spends count f r) (hle : fewer ≤ count) : Spends fewer f r :=
  ⟨h.goesOn, fun hr => Nat.le_trans (Nat.add_le_add_left hle _) (h.spent hr)⟩

theorem bind {t : α → Run ε} (hr : Spends count f r) (ht : ∀ c, Spends count f' (t (f c))) :
    Spends count f' (r >>= t) := by
  refine ⟨hr.goesOn.bind fun c => (ht c).goesOn, fun {m m₂} h => ?_⟩
  obtain ⟨x, hx, onward⟩ := hr.goesOn m
  cases x with
  | error e m₁ =>
    rw [Run.bind_error hx] at h
    cases h
    exact hr.spent hx
  | ok c m₁ =>
    rw [Run.bind_ok hx] at h
    have ticks : m.ticks ≤ m₁.ticks := onward.ticks
    have spent := (ht c).spent h
    omega

theorem step (h : Tickless f g r r') : Spends count f r := by
  refine ⟨h.goesOn, fun {m m₁} hr => ?_⟩
  obtain ⟨x, hx, -, stepped⟩ := h m
  cases x with
  | ok c m₂ =>
    rw [hx] at hr
    cases hr
  | error e m₂ =>
    rw [hx] at hr
    cases hr
    exact absurd rfl (stepped.inRounds m₁)

theorem pure (c : γ) : Spends count f (Pure.pure (f c)) :=
  step (g := f) (.pure c)

theorem fault (e : Fault) : Spends count f (Run.fault e) :=
  step (g := f) (.fault e)

theorem outOfRounds : Spends 0 f (throw .outOfRounds) where
  goesOn m := ⟨.error .outOfRounds m, rfl, .refl m⟩
  spent h := by
    cases h
    exact Nat.le_refl _

/-- What comes behind a tick spends one more. -/
theorem afterTick (timeout : Option Nat) (h : Spends count f r) :
    Spends (count + 1) f (Run.tick timeout >>= fun _ => r) := by
  refine ⟨(GoesOn.tick timeout).bind fun _ => h.goesOn, fun {m m₁} hr => ?_⟩
  have ticked := Run.tick_apply timeout m
  split at ticked
  · rw [Run.bind_error ticked] at hr
    cases hr
  · rw [Run.bind_ok ticked] at hr
    have spent : m.ticks + 1 + count ≤ m₁.ticks := h.spent hr
    omega

end Spends

/-- Spending ticks, as a judgement about expressions; it is about the first run only. -/
def spending (count : Nat) : Judgement .same .same :=
  .ofSteps (fun f _ r _ => Spends count f r) Spends.step Spends.bind

/-- Where statements end normally or early, as a flow of unchanged values. -/
abbrev SpendsFlow (count : Nat) (r : Run Flow) : Prop :=
  Spends count Recoding.same.flow r

/-! ## Loops -/

section Loops

variable {timeout : Option Nat} {count line : Nat} {condition : Run Bool} {take : Value → Run Unit}
  {body otherwise : Run Flow}

theorem spends_whileRounds (hc : Spends count id condition) (hb : SpendsFlow count body)
    (ho : SpendsFlow count otherwise) : ∀ rounds ≤ count,
    SpendsFlow rounds (whileRounds timeout line condition body otherwise rounds)
  | 0, _ => .outOfRounds
  | rounds + 1, h => by
    refine Spends.bind (Spends.step (.setLine line)) fun _ => (hc.weaken h).bind fun holds => ?_
    cases holds
    · exact ho.weaken h
    refine (hb.weaken h).bind fun flow => ?_
    cases flow with
    | leaveLoop => exact .pure Flow.normal
    | giveBack v => exact .pure (Flow.giveBack v)
    | normal | nextRound =>
      exact .afterTick timeout
        (spends_whileRounds hc hb ho rounds (Nat.le_of_succ_le h))

theorem spends_forRounds (ht : ∀ v, Spends count id (take (Recoding.same.value v)))
    (hb : SpendsFlow count body) (ho : SpendsFlow count otherwise) : ∀ rounds ≤ count,
    ∀ cursor, SpendsFlow rounds
      (forRounds timeout line take body otherwise rounds (Recoding.same.cursor cursor))
  | 0, _, _ => .outOfRounds
  | rounds + 1, h, cursor => by
    rw [forRounds_succ]
    refine Spends.bind ((spending (rounds + 1)).next? cursor) fun next => ?_
    cases next with
    | none => exact ho.weaken h
    | some next =>
      refine Spends.bind (Spends.step (.setLine line)) fun _ => ?_
      refine ((ht next.1).weaken h).bind fun _ => (hb.weaken h).bind fun flow => ?_
      cases flow with
      | leaveLoop => exact .pure Flow.normal
      | giveBack v => exact .pure (Flow.giveBack v)
      | normal | nextRound =>
        exact .afterTick timeout
          (spends_forRounds ht hb ho rounds (Nat.le_of_succ_le h) next.2)

end Loops

/-! ## Statements -/

/-- The run goes to a line and counts a tick before it spends what it does. -/
def Ticked (timeout : Option Nat) (count : Nat) (r : Run Flow) : Prop :=
  ∃ line rest, r = (do Run.setLine line; Run.tick timeout; rest) ∧ SpendsFlow count rest

theorem Ticked.spends {timeout : Option Nat} {count : Nat} {r : Run Flow}
    (h : Ticked timeout count r) : SpendsFlow count r := by
  obtain ⟨line, rest, rfl, spends⟩ := h
  exact Spends.bind (Spends.step (.setLine line)) fun _ =>
    (spends.afterTick timeout).weaken (Nat.le_succ count)

section Statements

variable {user : UserCall} {timeout : Option Nat} {count : Nat}

/-- The statements behind one that has ended so. -/
theorem spends_behind {rest : Run Flow} (h : SpendsFlow count rest) (flow : Flow) :
    SpendsFlow count (match Recoding.same.flow flow with
      | .normal => rest
      | flow => pure flow) := by
  cases flow with
  | normal => exact h
  | leaveLoop => exact .pure Flow.leaveLoop
  | nextRound => exact .pure Flow.nextRound
  | giveBack v => exact .pure (Flow.giveBack v)

mutual

/-- A statement begins with a tick. -/
theorem ticked_runStmt (hu : (spending count).Calls user user) : ∀ s : Stmt,
    Ticked timeout count (runStmt ⟨user, timeout, count⟩ s)
  | .expr n e =>
    ⟨n, _, rfl, Spends.bind ((spending count).eval hu e) fun _ => .pure Flow.normal⟩
  | .assign n targets value =>
    ⟨n, _, rfl, Spends.bind ((spending count).eval hu value) fun v =>
      Spends.bind ((spending count).assignAll hu v targets (fun _ _ => trivial)
        (.inl (spending count).lenient)) fun _ => .pure Flow.normal⟩
  | .augment n target op operand =>
    ⟨n, _, rfl, Spends.bind ((spending count).update hu target op operand (fun _ _ => trivial)
      (.inl (spending count).lenient)) fun _ => .pure Flow.normal⟩
  | .branch n cases otherwise =>
    ⟨n, _, rfl, spends_runCases hu cases (spends_runBlock hu otherwise)⟩
  | .whileLoop n condition body otherwise =>
    ⟨n, _, rfl, spends_whileRounds ((spending count).holds hu condition) (spends_runBlock hu body)
      (spends_runBlock hu otherwise) count (Nat.le_refl count)⟩
  | .forLoop n target items body otherwise =>
    ⟨n, _, rfl, Spends.bind ((spending count).eval hu items) fun v =>
      Spends.bind ((spending count).of (Recoding.same.start_value v) (Recoding.same.start_value v))
        fun cursor => spends_forRounds
          (fun v => (spending count).assign hu v target (fun _ _ => trivial)
            (.inl (spending count).lenient))
          (spends_runBlock hu body) (spends_runBlock hu otherwise) count (Nat.le_refl count) cursor⟩
  | .define n name params body =>
    have whole := (Script.code_prune_eq_self ⟨name, params, body⟩ fun _ => rfl).symm
    ⟨n, _, rfl, Spends.bind ((spending count).define hu ⟨rfl, whole⟩ trivial) fun _ =>
      .pure Flow.normal⟩
  | .giveBack n value => by
    have given : (spending count).Holds Recoding.same.flow Recoding.same.flow
        (Flow.giveBack <$> givenBack user value) (Flow.giveBack <$> givenBack user value) :=
      ((spending count).givenBack hu value).map Flow.giveBack (fun _ => rfl) fun _ => rfl
    exact ⟨n, _, rfl, given⟩
  | .declareGlobal n names =>
    ⟨n, _, rfl, Spends.bind (Spends.step (.modifyScopes _)) fun _ => .pure Flow.normal⟩
  | .leaveLoop n => ⟨n, _, rfl, .pure Flow.leaveLoop⟩
  | .nextRound n => ⟨n, _, rfl, .pure Flow.nextRound⟩
  | .pass n => ⟨n, _, rfl, .pure Flow.normal⟩

theorem spends_runBlock (hu : (spending count).Calls user user) : ∀ block : List Stmt,
    SpendsFlow count (runBlock ⟨user, timeout, count⟩ block)
  | [] => .pure Flow.normal
  | s :: rest => (ticked_runStmt hu s).spends.bind (spends_behind (spends_runBlock hu rest))

theorem spends_runCases (hu : (spending count).Calls user user) {otherwise : Run Flow} :
    ∀ cases : List (Expr × List Stmt), SpendsFlow count otherwise →
    SpendsFlow count (runCases ⟨user, timeout, count⟩ cases otherwise)
  | [], ho => ho
  | (condition, body) :: rest, ho => by
    refine Spends.bind ((spending count).holds hu condition) fun holds => ?_
    cases holds
    · exact spends_runCases hu rest ho
    · exact spends_runBlock hu body

end

end Statements

/-! ## Calls and programs -/

section Calls

variable {timeout : Option Nat} {count : Nat} {limits : Limits}

theorem spends_userCall : ∀ room : Nat,
    (spending count).Calls (userCall timeout count room) (userCall timeout count room)
  | 0 => fun _ _ _ _ => .fault .recursion
  | room + 1 =>
    (spending count).callIn (fun n => Spends.step (.setLine n))
      (fun f => Spends.step (.modifyScopes f)) fun d =>
        spends_runBlock (spends_userCall room) d.body

/-- A program that is out of rounds has counted as many ticks. -/
theorem spends_runProgram (program : List Stmt) :
    Spends count id (runProgram limits count program) := by
  have ends (m : Machine) : Spends count id (runBlock ⟨userCall limits.timeout count
      (limits.recursion - m.scopes.depth), limits.timeout, count⟩ program
        >>= fun _ => Pure.pure (id ())) :=
    (spends_runBlock (spends_userCall _) program).bind fun _ => .pure ()
  exact ⟨fun m => (ends m).goesOn m, fun {m _} h => (ends m).spent h⟩

end Calls

/-! ## What costs a tick -/

/-- A tick is counted, whether the time is over or not. -/
theorem GoesOn.lt_ticks {f : γ → α} {r : Run α} (h : GoesOn f r) (timeout : Option Nat)
    (m : Machine) : m.ticks < (leftBy ((Run.tick timeout >>= fun _ => r) m)).ticks := by
  have ticked := Run.tick_apply timeout m
  split at ticked
  · rw [Run.bind_error ticked]
    exact Nat.lt_succ_self m.ticks
  · rw [Run.bind_ok ticked]
    have onward := (h.onward { m with ticks := m.ticks + 1 }).ticks
    exact onward

theorem Ticked.lt_ticks {timeout : Option Nat} {count : Nat} {r : Run Flow}
    (h : Ticked timeout count r) (m : Machine) : m.ticks < (leftBy (r m)).ticks := by
  obtain ⟨line, rest, rfl, spends⟩ := h
  exact spends.goesOn.lt_ticks timeout { m with line }

section Costs

variable {timeout : Option Nat} {rounds : Nat}

/-- What calls can be made when `room` more of them can be under way. -/
abbrev Control.within (timeout : Option Nat) (rounds room : Nat) : Control :=
  ⟨userCall timeout rounds room, timeout, rounds⟩

/-- A block that is not empty costs a tick. -/
theorem lt_ticks_runBlock {block : List Stmt} (h : block ≠ []) (room : Nat) (m : Machine) :
    m.ticks < (leftBy (runBlock (.within timeout rounds room) block m)).ticks := by
  cases block with
  | nil => exact absurd rfl h
  | cons s rest =>
    have hu : (spending rounds).Calls (userCall timeout rounds room)
      (userCall timeout rounds room) := spends_userCall room
    have first : Ticked timeout rounds (runStmt (.within timeout rounds room) s) :=
      ticked_runStmt hu s
    have others : SpendsFlow rounds (runBlock (.within timeout rounds room) rest) :=
      spends_runBlock hu rest
    exact Nat.lt_of_lt_of_le (first.lt_ticks m)
      (first.spends.goesOn.onward_bind (fun flow => (spends_behind others flow).goesOn) m).ticks

/-- A round of a loop, from the start of its body to the tick behind it. -/
def loopRound (timeout : Option Nat) (body : Run Flow) : Run Flow := do
  match ← body with
  | .leaveLoop => pure .leaveLoop
  | .giveBack v => pure (.giveBack v)
  | flow =>
    Run.tick timeout
    pure flow

/-- What a loop does behind a round that has ended so, when `rest` are the rounds that are left. -/
def afterRound (rest : Run Flow) : Flow → Run Flow
  | .leaveLoop => pure .normal
  | .giveBack v => pure (.giveBack v)
  | .normal | .nextRound => rest

theorem loopRound_bind (timeout : Option Nat) (body rest : Run Flow) :
    loopRound timeout body >>= afterRound rest = (do
      match ← body with
      | .leaveLoop => pure .normal
      | .giveBack v => pure (.giveBack v)
      | .normal | .nextRound =>
        Run.tick timeout
        rest) := by
  rw [loopRound, bind_assoc]
  congr 1
  funext flow
  cases flow <;> simp only [pure_bind, bind_assoc, afterRound]

/-- Every round of a loop costs a tick, even if its body is empty. -/
theorem lt_ticks_loopRound (body : List Stmt) (room : Nat) (m : Machine) : m.ticks
    < (leftBy (loopRound timeout (runBlock (.within timeout rounds room) body) m)).ticks := by
  have costs (h : body ≠ []) :
      m.ticks < (leftBy (runBlock (.within timeout rounds room) body m)).ticks :=
    lt_ticks_runBlock h room m
  have goesOn : SpendsFlow rounds (runBlock (.within timeout rounds room) body) :=
    spends_runBlock (spends_userCall room) body
  have onward := (goesOn.goesOn.onward m).ticks
  have ended (h : body = []) : runBlock (.within timeout rounds room) body m = .ok .normal m := by
    subst h
    rfl
  rw [loopRound]
  generalize hr : runBlock (.within timeout rounds room) body m = r at costs onward ended
  cases r with
  | error e m₁ =>
    rw [Run.bind_error hr]
    exact costs fun h => nomatch ended h
  | ok flow m₁ =>
    rw [Run.bind_ok hr]
    cases flow with
    | leaveLoop | giveBack v => exact costs fun h => nomatch ended h
    | normal | nextRound =>
      have ticked (flow : Flow) : GoesOn id (pure (id flow) : Run Flow) :=
        (Tickless.pure (g := id) flow).goesOn
      exact Nat.lt_of_le_of_lt onward ((ticked _).lt_ticks timeout m₁)

section Loops

variable {line : Nat} {condition : Run Bool} {take : Value → Run Unit} {body otherwise : Run Flow}
  {m m₁ : Machine}

/-- A loop whose condition holds takes a round, and goes on as the round has ended. -/
theorem whileRounds_round (h : condition { m with line } = .ok true m₁) :
    whileRounds timeout line condition body otherwise (rounds + 1) m
      = (loopRound timeout body
        >>= afterRound (whileRounds timeout line condition body otherwise rounds)) m₁ := by
  rw [loopRound_bind]
  exact Run.bind_ok h

/-- A loop that has a next item takes a round, and goes on as the round has ended. -/
theorem forRounds_round {cursor rest : Cursor} {v : Value}
    (hnext : cursor.next? m.heap = some (v, rest)) (h : take v { m with line } = .ok () m₁) :
    forRounds timeout line take body otherwise (rounds + 1) cursor m
      = (loopRound timeout body
        >>= afterRound (forRounds timeout line take body otherwise rounds rest)) m₁ := by
  rw [loopRound_bind, forRounds, Run.bind_ok Run.get_apply, hnext]
  exact Run.bind_ok h

end Loops

/-- A call that is made costs a tick if the body of the function is not empty, and none else. -/
theorem lt_ticks_callIn {d : FunctionDef} {defaults args : List Value} {keywords : Keywords}
    {locals : Bindings} (h : bindArguments d defaults args keywords = .ok locals) (room : Nat)
    (m : Machine) :
    let called := callIn (.within timeout rounds room) d defaults args keywords m
    m.ticks < (leftBy called).ticks ↔ d.body ≠ [] := by
  intro called
  have goesOn : m.ticks = (m.enter d.name locals).ticks := rfl
  have body : (leftBy called).ticks = (leftBy (runBlock (.within timeout rounds room) d.body
      (m.enter d.name locals))).ticks := by
    simp only [called, callIn_eq]
    cases hr : runBlock (.within timeout rounds room) d.body (m.enter d.name locals) with
    | ok flow m₁ =>
      rw [watchedIn_ok h rfl hr rfl]
      rfl
    | error e m₁ =>
      rw [watchedIn_error h rfl hr]
      rfl
  rw [body, goesOn]
  refine ⟨fun hlt hnil => ?_, fun hne => lt_ticks_runBlock hne room _⟩
  rw [hnil] at hlt
  exact Nat.lt_irrefl _ hlt

end Costs

/-- Rounds of loops and bodies of functions cost ticks, as far as they are not empty. -/
structure CostsTicks (c : Control) : Prop where
  whileRound {line rounds : Nat} {condition : Run Bool} {body : List Stmt} {otherwise : Run Flow}
    {m m₁ : Machine} (h : condition { m with line } = .ok true m₁) :
    let loop := whileRounds c.timeout line condition (runBlock c body) otherwise
    let round := loopRound c.timeout (runBlock c body)
    loop (rounds + 1) m = (round >>= afterRound (loop rounds)) m₁ ∧
      m₁.ticks < (leftBy (round m₁)).ticks
  forRound {line rounds : Nat} {take : Value → Run Unit} {body : List Stmt} {otherwise : Run Flow}
    {cursor rest : Cursor} {v : Value} {m m₁ : Machine}
    (hnext : cursor.next? m.heap = some (v, rest)) (h : take v { m with line } = .ok () m₁) :
    let loop := forRounds c.timeout line take (runBlock c body) otherwise
    let round := loopRound c.timeout (runBlock c body)
    loop (rounds + 1) cursor m = (round >>= afterRound (loop rounds rest)) m₁ ∧
      m₁.ticks < (leftBy (round m₁)).ticks
  call {d : FunctionDef} {defaults args : List Value} {keywords : Keywords} {locals : Bindings}
    {m : Machine} (h : bindArguments d defaults args keywords = .ok locals) :
    m.ticks < (leftBy (callIn c d defaults args keywords m)).ticks ↔ d.body ≠ []

theorem costsTicks (timeout : Option Nat) (rounds room : Nat) :
    CostsTicks (.within timeout rounds room) where
  whileRound h := ⟨whileRounds_round h, lt_ticks_loopRound _ room _⟩
  forRound hnext h := ⟨forRounds_round hnext h, lt_ticks_loopRound _ room _⟩
  call h := lt_ticks_callIn h room _

end SortTrace
