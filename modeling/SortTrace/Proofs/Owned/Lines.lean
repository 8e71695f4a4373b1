import SortTrace.Proofs.Judgement.Course
import SortTrace.Proofs.Owned.Run
import SortTrace.Proofs.Recoding.Flow

/-!
# The line of a machine is that of its statement

Whenever a part of an expression is evaluated outside of the calls that it makes, the machine is on
the line of the statement that the expression belongs to: the conditions of loops in every round,
the targets, subscripts and default values, and what comes behind a call, a loop or the making of
keys. So it makes no difference whether the line is taken from the machine or handed down by the
statement, and nothing that looks out for another line ever finds one (`runProgram_owned`).

Two runs are `Alike` on a line if they are the same from there and end there. An expression is alike
if the calls that it makes are, and a call is since it comes back to its line. A statement sets the
line before all else, and a loop does so in every round; from there on the runs have only to be the
same.
-/

namespace SortTrace.Owned

open Script (Expr Stmt BinOp CompareOp FunctionDef)

variable {α β : Type} {n : Nat} {alarm : Run Unit} {r r' : Run α}

/-! ## Runs on a line -/

/-- From machines on line `n`, both runs end alike, and on this line if they do not stop. -/
def Alike (n : Nat) (r r' : Run α) : Prop :=
  ∀ m, m.line = n → r' m = r m ∧ ∀ a m₁, r m = .ok a m₁ → m₁.line = n

namespace Alike

theorem bind {t t' : α → Run β} (hr : Alike n r r') (ht : ∀ a, Alike n (t a) (t' a)) :
    Alike n (r >>= t) (r' >>= t') := by
  intro m hm
  obtain ⟨same, stays⟩ := hr m hm
  change EStateM.bind r' t' m = EStateM.bind r t m ∧
    ∀ b m₂, EStateM.bind r t m = .ok b m₂ → m₂.line = n
  rw [EStateM.bind, EStateM.bind, same]
  cases hx : r m with
  | ok a m₁ => exact ht a m₁ (stays a m₁ hx)
  | error e m₁ => exact ⟨rfl, nofun⟩

theorem pure (a : α) : Alike n (Pure.pure a) (Pure.pure a) := by
  refine fun m hm => ⟨rfl, fun b m₁ h => ?_⟩
  cases h
  exact hm

theorem map (f : α → β) (hr : Alike n r r') : Alike n (f <$> r) (f <$> r') := by
  rw [map_eq_pure_bind, map_eq_pure_bind]
  exact hr.bind fun a => .pure (f a)

theorem fault (e : Fault) : Alike n (Run.fault e : Run α) (Run.fault e) :=
  fun _ _ => ⟨rfl, nofun⟩

theorem of (x : Except Fault α) : Alike n (Run.of x) (Run.of x) := by
  cases x with
  | ok a => exact .pure a
  | error e => exact .fault e

theorem read (f : Heap → Except Fault α) : Alike n (Run.read f) (Run.read f) :=
  fun m hm => of (f m.heap) m hm

theorem compute (c : Compute α) : Alike n (Run.compute c) (Run.compute c) := by
  refine fun m hm => ⟨rfl, fun a m₁ h => ?_⟩
  rw [Run.compute] at h
  split at h
  · cases h
    exact hm
  · cases h

theorem modifyScopes (f : Scopes → Scopes) : Alike n (Run.modifyScopes f) (Run.modifyScopes f) := by
  refine fun m hm => ⟨rfl, fun a m₁ h => ?_⟩
  cases h
  exact hm

theorem trace (t : EStateM Fault Session α) : Alike n (Run.trace t) (Run.trace t) := by
  refine fun m hm => ⟨rfl, fun a m₁ h => ?_⟩
  rw [Run.trace] at h
  split at h
  · cases h
    exact hm
  · cases h

theorem tick (timeout : Option Nat) : Alike n (Run.tick timeout) (Run.tick timeout) := by
  refine fun m hm => ⟨rfl, fun a m₁ h => ?_⟩
  rw [Run.tick_apply] at h
  split at h
  · cases h
  · cases h
    exact hm

theorem lookup (name : String) : Alike n (Run.lookup name) (Run.lookup name) := by
  refine fun m hm => ⟨rfl, fun v m₁ h => ?_⟩
  cases hv : m.scopes.lookup name with
  | some v =>
    rw [Run.lookup_bound hv] at h
    cases h
    exact hm
  | none =>
    cases hb : Builtin.ofName? name with
    | some b =>
      rw [Run.lookup_builtin hv hb] at h
      cases h
      exact hm
    | none =>
      rw [Run.lookup_unbound hv hb] at h
      cases h

/-- On the line, it can be taken from the machine. -/
theorem onLine {t : Nat → Run α} (h : Alike n (t n) r') : Alike n (Run.line >>= t) r' := by
  intro m hm
  have here : (Run.line >>= t) m = t n m := by
    rw [← hm]
    rfl
  rw [here]
  exact h m hm

/-- There is nothing to look out for. -/
theorem guarded (h : Alike n r r') : Alike n r (guarded alarm n r') := by
  have quiet {m : Machine} (hm : m.line = n) : lookOut alarm n m = .ok () m := by
    change (if m.line ≠ n then alarm else Pure.pure () : Run Unit) m = _
    rw [if_neg fun other => other hm]
    rfl
  intro m hm
  obtain ⟨same, stays⟩ := h m hm
  refine ⟨?_, stays⟩
  rw [Owned.guarded, Run.bind_ok (quiet hm)]
  cases hr : r m with
  | error e m₁ => exact Run.bind_error (same.trans hr)
  | ok a m₁ =>
    rw [Run.bind_ok (same.trans hr), Run.bind_ok (quiet (stays a m₁ hr))]
    rfl

end Alike

/-! ## Builtins and methods -/

/-- The course of which nothing is said, but that expressions stay on their line. -/
def anyCourse : Course .same where
  Apt _ := True
  Keeps _ _ := True
  Leaves _ _ := True
  line_eq := Recoding.line_same
  heap {m} _ := ⟨m.heap, (Recoding.heap_same _).symm⟩
  scopes {m} _ := ⟨m.scopes, (Recoding.scopes_same _).symm⟩
  trans _ _ := trivial
  leaves _ _ := trivial
  change _ _ _ _ := ⟨trivial, trivial, trivial⟩
  assign _ _ _ := ⟨trivial, trivial⟩
  declareGlobal _ _ _ := ⟨trivial, trivial⟩

/-- Being alike on a line, as a judgement about the functions of the library. -/
def alike (n : Nat) : Judgement .same .same where
  Holds f g r r' := ∀ m, m.line = n → anyCourse.Ends true f g m (r m) (r' m)
  Free _ := True
  pure c m _ := Course.Follows.pure c m trivial
  bind {_ _ _ _ _ _ f g f' g' r r' t t'} hr ht m hm := by
    have first := hr m hm
    change anyCourse.Ends true f' g' m (EStateM.bind r t m) (EStateM.bind r' t' m)
    rw [EStateM.bind, EStateM.bind]
    generalize r m = x, r' m = y at first ⊢
    cases first with
    | error e leaves => exact .error e leaves
    | @ok m₁ c apt keeps line =>
      have second := ht c m₁ ((line rfl).trans hm)
      simp only
      generalize t (f c) m₁ = x, t' (g c) m₁ = y at second ⊢
      cases second with
      | error e leaves => exact .error e leaves
      | ok d apt' keeps' line' => exact .ok d apt' keeps' fun h => (line' h).trans (line h)
  fault e m _ := Course.Follows.fault e m trivial
  read h h' m _ := Course.Follows.read h h' m trivial
  compute h h' m _ := Course.Follows.compute h h' m trivial
  lookup name m _ := Course.Follows.lookup name m trivial
  bindName _ v m _ := Course.Follows.bindName _ v m trivial
  line m _ := Course.Follows.line m trivial
  print _ m _ := Course.Follows.trace (fun _ _ _ h => Session.print_error h) m trivial
  log _ _ m _ := Course.Follows.trace (fun _ _ _ h => Session.log_error h) m trivial

theorem alike_iff {r r' : Run Value} : (alike n).Values r r' ↔ Alike n r r' := by
  have plain : Recoding.same.value = id := funext Recoding.value_same
  constructor
  · intro h m hm
    have ends : anyCourse.Ends true id id m (r m) (r' m) := plain ▸ h m hm
    refine ⟨ends.same, fun a m₁ hx => ?_⟩
    rw [hx] at ends
    generalize r' m = y at ends
    cases ends with
    | ok c apt keeps line => exact (line rfl).trans hm
  · intro h m hm
    obtain ⟨same, stays⟩ := h m hm
    rw [plain, same]
    cases hx : r m with
    | ok a m₁ =>
      have line : m₁.line = m.line := (stays a m₁ hx).trans hm.symm
      exact .ok a trivial trivial fun _ => line
    | error e m₁ =>
      rw [← Recoding.stop_same e]
      exact .error e trivial

/-- Two ways to apply a value are alike. -/
def AppliesAlike (n : Nat) (apply apply' : Apply) : Prop :=
  ∀ f v, Alike n (apply f v) (apply' f v)

variable {apply apply' : Apply}

theorem AppliesAlike.applies (h : AppliesAlike n apply apply') :
    (alike n).Applies apply apply' := by
  intro f v
  rw [Recoding.value_same, Recoding.value_same]
  exact alike_iff.mpr (h f v)

theorem builtin_alike (h : AppliesAlike n apply apply') (b : Builtin) (args : List Value)
    (keywords : Keywords) :
    Alike n (b.run apply args keywords) (builtin n apply' b args keywords) := by
  have any : Alike n (b.run apply args keywords) (b.run apply' args keywords) := by
    have run := alike_iff.mp ((alike n).builtin args keywords h.applies b)
    rwa [← Recoding.values_eq_map, Recoding.values_same, Recoding.bindings_same] at run
  cases b with
  | logState =>
    refine (Alike.of _).bind fun _ => ?_
    match args with
    | [] => exact .fault _
    | [v] =>
      exact (Alike.read _).bind fun state => .onLine ((Alike.trace _).bind fun _ => .pure _)
    | _ :: _ :: _ => exact .fault _
  | _ => exact any

theorem method_alike (h : AppliesAlike n apply apply') (object : Value) (name : String)
    (args : List Value) (keywords : Keywords) :
    Alike n (ListMethod.run apply object name args keywords)
      (ListMethod.run apply' object name args keywords) := by
  have run := alike_iff.mp ((alike n).method args keywords h.applies object name)
  rwa [← Recoding.values_eq_map, Recoding.values_same, Recoding.bindings_same,
    Recoding.value_same] at run

/-! ## Expressions -/

/-- The calls that statements make are alike on the lines of the statements. -/
def CallsAlike (user : UserCall) (owned : OwnedCall) : Prop :=
  ∀ n d defaults args keywords,
    Alike n (user d defaults args keywords) (owned n d defaults args keywords)

section Expressions

variable {user : UserCall} {owned : OwnedCall}

theorem applyTo_alike (hu : CallsAlike user owned) :
    AppliesAlike n (SortTrace.applyTo user) (applyTo alarm owned n) := by
  intro f v
  refine .guarded ?_
  cases f with
  | builtin b => exact builtin_alike (fun _ item => .pure item) b [v] []
  | function _ d defaults => exact hu n d defaults [v] []
  | _ => exact .fault _

theorem call_alike (hu : CallsAlike user owned) (f : Value) (args : List Value)
    (keywords : Keywords) :
    Alike n (SortTrace.call user f args keywords)
      (call alarm owned n f args keywords) := by
  refine .guarded ?_
  cases f with
  | builtin b => exact builtin_alike (applyTo_alike hu) b args keywords
  | function _ d defaults => exact hu n d defaults args keywords
  | _ => exact .fault _

mutual

theorem eval_alike (hu : CallsAlike user owned) :
    ∀ e : Expr, Alike n (SortTrace.eval user e) (eval alarm owned n e)
  | .literal _ => .guarded (.pure _)
  | .name s => .guarded (.lookup s)
  | .list items => .guarded ((evalAll_alike hu items).bind fun _ => .compute _)
  | .tuple items => .guarded ((evalAll_alike hu items).bind fun _ => .compute _)
  | .unary _ operand => .guarded ((eval_alike hu operand).bind fun _ => .read _)
  | .binary _ left right =>
    .guarded ((eval_alike hu left).bind fun _ => (eval_alike hu right).bind fun _ => .compute _)
  | .logic op left right => by
    refine .guarded ((eval_alike hu left).bind fun v => (Alike.read _).bind fun holds => ?_)
    cases op <;> cases holds
    · exact .pure v
    · exact eval_alike hu right
    · exact eval_alike hu right
    · exact .pure v
  | .compare first rest =>
    .guarded ((eval_alike hu first).bind fun v => evalLinks_alike hu v rest)
  | .ifElse condition yes no => by
    refine .guarded ((eval_alike hu condition).bind fun v => (Alike.read _).bind fun holds => ?_)
    cases holds
    · exact eval_alike hu no
    · exact eval_alike hu yes
  | .index object subscript =>
    .guarded ((eval_alike hu object).bind fun _ => (eval_alike hu subscript).bind fun _ => .read _)
  | .slice object lower upper step =>
    .guarded ((eval_alike hu object).bind fun _ => (evalBound_alike hu lower).bind fun _ =>
      (evalBound_alike hu upper).bind fun _ => (evalBound_alike hu step).bind fun _ => .compute _)
  | .call function args keywords =>
    .guarded ((eval_alike hu function).bind fun f => (evalAll_alike hu args).bind fun vs =>
      (evalKeywords_alike hu keywords).bind fun ws => call_alike hu f vs ws)
  | .method object name args keywords =>
    .guarded ((eval_alike hu object).bind fun v => (evalAll_alike hu args).bind fun vs =>
      (evalKeywords_alike hu keywords).bind fun ws =>
        .guarded (method_alike (applyTo_alike hu) v name vs ws))

theorem evalAll_alike (hu : CallsAlike user owned) :
    ∀ es : List Expr, Alike n (SortTrace.evalAll user es) (evalAll alarm owned n es)
  | [] => .pure []
  | e :: es =>
    (eval_alike hu e).bind fun _ => (evalAll_alike hu es).bind fun _ => .pure _

theorem evalKeywords_alike (hu : CallsAlike user owned) : ∀ keywords : List (String × Expr),
    Alike n (SortTrace.evalKeywords user keywords) (evalKeywords alarm owned n keywords)
  | [] => .pure []
  | (_, e) :: rest =>
    (eval_alike hu e).bind fun _ => (evalKeywords_alike hu rest).bind fun _ => .pure _

theorem evalLinks_alike (hu : CallsAlike user owned) (v : Value) : ∀ rest : List (CompareOp × Expr),
    Alike n (SortTrace.evalLinks user v rest) (evalLinks alarm owned n v rest)
  | [] => .pure _
  | (_, e) :: rest => by
    refine (eval_alike hu e).bind fun w => (Alike.read _).bind fun holds => ?_
    cases holds
    · exact .pure _
    · exact evalLinks_alike hu w rest

theorem evalBound_alike (hu : CallsAlike user owned) : ∀ bound : Option Expr,
    Alike n (SortTrace.evalBound user bound) (evalBound alarm owned n bound)
  | none => .pure none
  | some e => (eval_alike hu e).bind fun _ => .of _

end

theorem holds_alike (hu : CallsAlike user owned) (e : Expr) :
    Alike n (SortTrace.holds user e) (holds alarm owned n e) :=
  (eval_alike hu e).bind fun _ => .read _

theorem evalSlice_alike (hu : CallsAlike user owned) (lower upper step : Option Expr) :
    Alike n (SortTrace.evalSlice user lower upper step)
      (evalSlice alarm owned n lower upper step) :=
  (evalBound_alike hu lower).bind fun _ => (evalBound_alike hu upper).bind fun _ =>
    (evalBound_alike hu step).bind fun _ => .pure _

/-! ## Assignments -/

theorem misplaced_alike {γ : Type} (message : String) :
    Alike n (SortTrace.misplaced message : Run γ) (misplaced n message) :=
  .onLine (.fault _)

theorem unpack_alike (count : Nat) (v : Value) : Alike n (unpack count v) (unpack count v) := by
  refine (Alike.read _).bind fun items => ?_
  split
  · exact .fault _
  · split
    · exact .fault _
    · exact .pure _

mutual

theorem assign_alike (hu : CallsAlike user owned) :
    ∀ (e : Expr) (v : Value), Alike n (SortTrace.assign user e v) (assign alarm owned n e v)
  | .name _, _ => .guarded (.modifyScopes _)
  | .index object subscript, _ =>
    .guarded ((eval_alike hu object).bind fun _ => (eval_alike hu subscript).bind fun _ =>
      .compute _)
  | .slice object lower upper step, _ =>
    .guarded ((eval_alike hu object).bind fun _ =>
      (evalSlice_alike hu lower upper step).bind fun _ => .compute _)
  | .tuple targets, v =>
    .guarded ((unpack_alike targets.length v).bind fun vs => assignEach_alike hu targets vs)
  | .list targets, v =>
    .guarded ((unpack_alike targets.length v).bind fun vs => assignEach_alike hu targets vs)
  | .literal _, _ | .unary .., _ | .binary .., _ | .logic .., _ | .compare .., _ | .ifElse .., _
  | .call .., _ | .method .., _ => .guarded (misplaced_alike _)

theorem assignEach_alike (hu : CallsAlike user owned) : ∀ (es : List Expr) (vs : List Value),
    Alike n (SortTrace.assignEach user es vs) (assignEach alarm owned n es vs)
  | e :: es, v :: vs => (assign_alike hu e v).bind fun _ => assignEach_alike hu es vs
  | [], _ => .pure ()
  | _ :: _, [] => .pure ()

end

theorem assignAll_alike (hu : CallsAlike user owned) (v : Value) : ∀ es : List Expr,
    Alike n (SortTrace.assignAll user v es) (assignAll alarm owned n v es)
  | [] => .pure ()
  | e :: es => (assign_alike hu e v).bind fun _ => assignAll_alike hu v es

theorem update_alike (hu : CallsAlike user owned) (target : Expr) (op : BinOp) (operand : Expr) :
    Alike n (SortTrace.update user target op operand)
      (update alarm owned n target op operand) := by
  refine .guarded ?_
  cases target with
  | name s =>
    exact (Alike.lookup s).bind fun _ => (eval_alike hu operand).bind fun _ =>
      (Alike.compute _).bind fun _ => .modifyScopes _
  | index object subscript =>
    exact (eval_alike hu object).bind fun _ => (eval_alike hu subscript).bind fun _ =>
      (Alike.read _).bind fun _ => (eval_alike hu operand).bind fun _ =>
        (Alike.compute _).bind fun _ => .compute _
  | slice object lower upper step =>
    exact (eval_alike hu object).bind fun _ =>
      (evalSlice_alike hu lower upper step).bind fun _ => (Alike.compute _).bind fun _ =>
        (eval_alike hu operand).bind fun _ => (Alike.compute _).bind fun _ => .compute _
  | _ => exact misplaced_alike _

theorem define_alike (hu : CallsAlike user owned) (d : FunctionDef) :
    Alike n (SortTrace.define user d) (define alarm owned n d) :=
  (evalAll_alike hu _).bind fun _ => (Alike.compute _).bind fun _ => .modifyScopes _

theorem givenBack_alike (hu : CallsAlike user owned) : ∀ value : Option Expr,
    Alike n (SortTrace.givenBack user value) (givenBack alarm owned n value)
  | none => .pure _
  | some e => eval_alike hu e

end Expressions

/-! ## Statements -/

/-- From machines on line `n`, both runs are the same, wherever they end. -/
def SameFrom (n : Nat) (r r' : Run α) : Prop :=
  ∀ m, m.line = n → r' m = r m

namespace SameFrom

theorem of_eq (h : r' = r) : SameFrom n r r' :=
  fun _ _ => h ▸ rfl

theorem of_alike (h : Alike n r r') : SameFrom n r r' :=
  fun m hm => (h m hm).1

theorem bind {t t' : α → Run β} (hr : Alike n r r') (ht : ∀ a, SameFrom n (t a) (t' a)) :
    SameFrom n (r >>= t) (r' >>= t') := by
  intro m hm
  obtain ⟨same, stays⟩ := hr m hm
  cases hx : r m with
  | error e m₁ => rw [Run.bind_error hx, Run.bind_error (same.trans hx)]
  | ok a m₁ =>
    rw [Run.bind_ok hx, Run.bind_ok (same.trans hx)]
    exact ht a m₁ (stays a m₁ hx)

/-- Behind the setting of the line, the runs are on it. -/
theorem setLine (h : SameFrom n r r') :
    (do Run.setLine n; r') = (do Run.setLine n; r) := by
  funext m
  exact h { m with line := n } rfl

end SameFrom

section Loops

variable {timeout : Option Nat} {body otherwise : Run Flow}

theorem whileRounds_owned {condition condition' : Run Bool} (h : Alike n condition condition')
    (rounds : Nat) : whileRounds timeout n condition' body otherwise rounds
      = whileRounds timeout n condition body otherwise rounds := by
  induction rounds with
  | zero => rfl
  | succ rounds ih =>
    rw [whileRounds, whileRounds, ih]
    exact SameFrom.setLine (.bind h fun _ => .of_eq rfl)

theorem forRounds_owned {take take' : Value → Run Unit} (h : ∀ v, Alike n (take v) (take' v))
    (rounds : Nat) (cursor : Cursor) : forRounds timeout n take' body otherwise rounds cursor
      = forRounds timeout n take body otherwise rounds cursor := by
  induction rounds generalizing cursor with
  | zero => rfl
  | succ rounds ih =>
    rw [forRounds, forRounds]
    refine bind_congr fun m => ?_
    split
    · rfl
    · simp only [ih]
      exact SameFrom.setLine (.bind (h _) fun _ => .of_eq rfl)

end Loops

/-- Statements are run in the same way, and their calls are alike. -/
structure ControlAlike (c : SortTrace.Control) (owned : Control) : Prop where
  user : CallsAlike c.user owned.user
  timeout : owned.timeout = c.timeout
  rounds : owned.rounds = c.rounds

section Statements

variable {c : SortTrace.Control} {owned : Control}

/-- A statement is on its line when its time is counted. -/
theorem enter (hc : ControlAlike c owned) (n : Nat) {r r' : Run Flow} (h : SameFrom n r r') :
    (do Run.setLine n; Run.tick owned.timeout; r')
      = (do Run.setLine n; Run.tick c.timeout; r) := by
  rw [hc.timeout]
  exact SameFrom.setLine (.bind (.tick _) fun _ => h)

mutual

theorem runStmt_owned (hc : ControlAlike c owned) :
    ∀ s : Stmt, runStmt owned s = SortTrace.runStmt c s
  | .expr n e => enter hc n <| .bind (eval_alike hc.user e) fun _ => .of_eq rfl
  | .assign n targets value =>
    enter hc n <| .bind (eval_alike hc.user value) fun v =>
      .bind (assignAll_alike hc.user v targets) fun _ => .of_eq rfl
  | .augment n target op operand =>
    enter hc n <| .bind (update_alike hc.user target op operand) fun _ => .of_eq rfl
  | .branch n cases otherwise =>
    enter hc n <| runCases_owned hc n cases (runBlock_owned hc otherwise)
  | .whileLoop n condition body otherwise => by
    refine enter hc n (.of_eq ?_)
    simp only [hc.timeout, hc.rounds, runBlock_owned hc body, runBlock_owned hc otherwise]
    exact whileRounds_owned (holds_alike hc.user condition) _
  | .forLoop n target items body otherwise => by
    refine enter hc n ?_
    refine .bind (eval_alike hc.user items) fun v => .bind (.of _) fun cursor => .of_eq ?_
    simp only [hc.timeout, hc.rounds, runBlock_owned hc body, runBlock_owned hc otherwise]
    exact forRounds_owned (assign_alike hc.user target) _ cursor
  | .define n name params body =>
    enter hc n <| .bind (define_alike hc.user _) fun _ => .of_eq rfl
  | .giveBack n value => enter hc n <| .of_alike (.map _ (givenBack_alike hc.user value))
  | .declareGlobal n _ | .leaveLoop n | .nextRound n | .pass n => enter hc n (.of_eq rfl)

theorem runBlock_owned (hc : ControlAlike c owned) :
    ∀ block : List Stmt, runBlock owned block = SortTrace.runBlock c block
  | [] => rfl
  | s :: rest => by
    rw [runBlock, SortTrace.runBlock]
    refine congrArg₂ (· >>= ·) (runStmt_owned hc s) (funext fun flow => ?_)
    cases flow with
    | normal => exact runBlock_owned hc rest
    | _ => rfl

theorem runCases_owned (hc : ControlAlike c owned) {otherwise otherwise' : Run Flow} (n : Nat) :
    ∀ (cases : List (Expr × List Stmt)), otherwise' = otherwise →
      SameFrom n (SortTrace.runCases c cases otherwise) (runCases owned n cases otherwise')
  | [], h => .of_eq h
  | (condition, body) :: rest, h => by
    refine .bind (holds_alike hc.user condition) fun holds => ?_
    cases holds
    · exact runCases_owned hc n rest h
    · exact .of_eq (runBlock_owned hc body)

end

/-- A call comes back to the line of the statement that makes it, which its frame remembers. -/
theorem callIn_alike (hc : ControlAlike c owned) :
    CallsAlike (SortTrace.callIn c) (callIn owned) := by
  intro n d defaults args keywords
  have body : runBlock owned d.body = SortTrace.runBlock c d.body := runBlock_owned hc d.body
  refine .onLine ((Alike.of _).bind fun locals => (Alike.modifyScopes _).bind fun _ => ?_)
  intro m _
  rw [body]
  refine ⟨rfl, fun v m₁ h => ?_⟩
  obtain ⟨flow, m₂, -, h⟩ := Run.ok_of_bind h
  obtain ⟨_, m₃, -, h⟩ := Run.ok_of_bind h
  cases h
  rfl

end Statements

theorem userCall_alike (alarm : Run Unit) (timeout : Option Nat) (rounds : Nat) : ∀ depth : Nat,
    CallsAlike (SortTrace.userCall timeout rounds depth) (userCall alarm timeout rounds depth)
  | 0 => fun _ _ _ _ _ => .fault .recursion
  | depth + 1 => callIn_alike ⟨userCall_alike alarm timeout rounds depth, rfl, rfl⟩

/-- **The line of the machine is that of the statement under way.** It makes no difference whether
states are logged, calls remembered and errors told at the line of the machine or at the line that
the statement hands down to its expressions, and whoever looks out for another line never sounds the
alarm, whatever the alarm does. -/
theorem runProgram_owned (alarm : Run Unit) (limits : Limits) (rounds : Nat)
    (program : List Stmt) :
    runProgram alarm limits rounds program = SortTrace.runProgram limits rounds program := by
  funext m
  have calls := userCall_alike alarm limits.timeout rounds (limits.recursion - m.scopes.depth)
  have control : ControlAlike ⟨_, limits.timeout, rounds⟩ ⟨alarm, _, limits.timeout, rounds⟩ :=
    ⟨calls, rfl, rfl⟩
  rw [runProgram, SortTrace.runProgram, Run.bind_ok Run.get_apply, Run.bind_ok Run.get_apply,
    runBlock_owned control program]

end SortTrace.Owned
