import SortTrace.Machine.Block
import SortTrace.Proofs.Judgement.Eval
import SortTrace.Proofs.Recoding.Flow
import SortTrace.Proofs.Statements

/-!
# Judgements of statements

A statement goes to its line, counts a tick and may declare names global, which no expression does.
A `Conduct` is a judgement about pairs of runs of statements, together with the one about
expressions that it relies on: it may ask for less than that one, as a statement keeps less of the
machine than an expression.

Both runs are those of one program, but the second may leave statements out, and it may have another
limit of time. `Conduct.prunedBlock` concludes that the judgement holds of a block, as soon as the
one about expressions holds of calls and the statements of the block are admitted: the functions
that they define are the same in the recodings up to what is left out, and they bind and declare
only names that may be. Where nothing is left out, this is `Conduct.block`. Loops take as many
rounds in one run as in the other, unless the judgement holds of a run that is out of rounds,
whatever the other run does.
-/

namespace SortTrace

open Script (Expr Stmt FunctionDef)

theorem forRounds_succ (timeout : Option Nat) (line : Nat) (take : Value → Run Unit)
    (body otherwise : Run Flow) (rounds : Nat) (cursor : Cursor) :
    forRounds timeout line take body otherwise (rounds + 1) cursor = (do
      match ← Run.read fun h => .ok (cursor.next? h) with
      | none => otherwise
      | some (v, rest) =>
        Run.setLine line
        take v
        match ← body with
        | .leaveLoop => pure .normal
        | .giveBack v => pure (.giveBack v)
        | .normal | .nextRound =>
          Run.tick timeout
          forRounds timeout line take body otherwise rounds rest) :=
  rfl

/-! ## Expressions in statements -/

namespace Judgement

variable {ρ ρ' : Recoding} (J : Judgement ρ ρ') {user user' : UserCall}

theorem next? (cursor : Cursor) :
    J.Holds (Option.map (Prod.map ρ.value ρ.cursor)) (Option.map (Prod.map ρ'.value ρ'.cursor))
      (Run.read fun h => .ok ((ρ.cursor cursor).next? h))
      (Run.read fun h => .ok ((ρ'.cursor cursor).next? h)) :=
  J.read (x := fun h => .ok (cursor.next? h))
    (fun h => congrArg Except.ok (ρ.next?_cursor h cursor))
    fun h => congrArg Except.ok (ρ'.next?_cursor h cursor)

/-- A function is made, without the statements that are left out of its body in the second run. -/
theorem define (hu : J.Calls user user') {d : FunctionDef} {out : Stmt → Bool}
    (hd : ρ.code d = d ∧ ρ'.code d = d.prune out) (hname : J.Free d.name) :
    J.Holds id id (SortTrace.define user d) (SortTrace.define user' (d.prune out)) := by
  refine (J.evalAll hu _).bind fun defaults => (J.compute .mark .mark).bind fun id => ?_
  have bound := J.bindName hname (.function id d defaults)
  simp only [Recoding.value, Recoding.values_eq_map, hd.1, hd.2] at bound
  exact bound

theorem givenBack (hu : J.Calls user user') (value : Option Expr) :
    J.Values (SortTrace.givenBack user value) (SortTrace.givenBack user' value) := by
  cases value with
  | none => exact J.pure Value.none
  | some e => exact J.eval hu e

end Judgement

/-! ## Statements -/

/-- A judgement about pairs of runs of statements, on values recoded by `ρ` and by `ρ'`. -/
structure Conduct (ρ ρ' : Recoding) (timeout : Option Nat) (timeout' : Option Nat := timeout)
    where
  expr : Judgement ρ ρ'
  Holds {α β γ : Type} (f : γ → α) (g : γ → β) (r : Run α) (r' : Run β) : Prop
  /-- The names that may be declared global. -/
  Declares : String → Prop
  /-- The statements that the second run leaves out. -/
  out : Stmt → Bool := fun _ => false
  lift {α β γ : Type} {f : γ → α} {g : γ → β} {r : Run α} {r' : Run β} (h : expr.Holds f g r r') :
    Holds f g r r'
  bind {α β γ δ ε ζ : Type} {f : γ → α} {g : γ → β} {f' : δ → ε} {g' : δ → ζ} {r : Run α}
    {r' : Run β} {t : α → Run ε} {t' : β → Run ζ} (hr : Holds f g r r')
    (ht : ∀ c, Holds f' g' (t (f c)) (t' (g c))) : Holds f' g' (r >>= t) (r' >>= t')
  setLine (n : Nat) : Holds id id (Run.setLine n) (Run.setLine n)
  tick : Holds id id (Run.tick timeout) (Run.tick timeout')
  declareGlobal (names : List String) (h : ∀ name ∈ names, Declares name) :
    Holds id id (Run.modifyScopes fun s => s.declareGlobal names)
      (Run.modifyScopes fun s => s.declareGlobal names)
  outOfRounds {α β γ : Type} {f : γ → α} {g : γ → β} :
    Holds f g (throw .outOfRounds) (throw .outOfRounds)
  /-- May a loop take more rounds in one run than in the other? -/
  Uneven : Prop := False
  fewer {α β γ : Type} {f : γ → α} {g : γ → β} {r' : Run β} (h : Uneven) :
    Holds f g (throw .outOfRounds) r' := by exact False.elim
  more {α β γ : Type} {f : γ → α} {g : γ → β} {r : Run α} (h : Uneven) :
    Holds f g r (throw .outOfRounds) := by exact False.elim
  /-- A statement that is left out. -/
  skip {user : UserCall} {rounds : Nat} {s : Stmt} (h : out s = true) :
    Holds (fun _ : Unit => Flow.normal) (fun _ => Flow.normal)
      (runStmt ⟨user, timeout, rounds⟩ s) (Pure.pure Flow.normal)

namespace Conduct

variable {ρ ρ' : Recoding} {timeout timeout' : Option Nat} (C : Conduct ρ ρ' timeout timeout')

/-- The runs end a statement alike. -/
abbrev Flows (r r' : Run Flow) : Prop :=
  C.Holds ρ.flow ρ'.flow r r'

variable {α β γ δ ε ζ : Type} {f : γ → α} {g : γ → β} {f' : δ → ε} {g' : δ → ζ}
  {r : Run α} {r' : Run β} {user user' : UserCall} {rounds rounds' : Nat}

variable {C} in
theorem Holds.bind {t : α → Run ε} {t' : β → Run ζ} (hr : C.Holds f g r r')
    (ht : ∀ c, C.Holds f' g' (t (f c)) (t' (g c))) : C.Holds f' g' (r >>= t) (r' >>= t') :=
  C.bind hr ht

theorem pure (c : γ) : C.Holds f g (Pure.pure (f c)) (Pure.pure (g c)) :=
  C.lift (C.expr.pure c)

/-! ## Loops -/

section Loops

variable {body body' otherwise otherwise' : Run Flow}

theorem whileRounds {condition condition' : Run Bool} (n : Nat)
    (hc : C.expr.Holds id id condition condition') (hb : C.Flows body body')
    (ho : C.Flows otherwise otherwise') : ∀ rounds rounds' : Nat, rounds = rounds' ∨ C.Uneven →
    C.Flows (whileRounds timeout n condition body otherwise rounds)
      (whileRounds timeout' n condition' body' otherwise' rounds')
  | 0, 0, _ => C.outOfRounds
  | 0, _ + 1, hr => C.fewer (hr.resolve_left (Nat.succ_ne_zero _).symm)
  | _ + 1, 0, hr => C.more (hr.resolve_left (Nat.succ_ne_zero _))
  | rounds + 1, rounds' + 1, hr => by
    refine (C.setLine n).bind fun _ => (C.lift hc).bind fun holds => ?_
    cases holds
    · exact ho
    refine hb.bind fun flow => ?_
    cases flow with
    | leaveLoop => exact C.pure Flow.normal
    | giveBack v => exact C.pure (Flow.giveBack v)
    | normal | nextRound =>
      exact C.tick.bind fun _ =>
        whileRounds n hc hb ho rounds rounds' (hr.imp_left Nat.succ.inj)

theorem forRounds {take take' : Value → Run Unit} (n : Nat)
    (ht : ∀ v, C.expr.Holds id id (take (ρ.value v)) (take' (ρ'.value v)))
    (hb : C.Flows body body') (ho : C.Flows otherwise otherwise') :
    ∀ (rounds rounds' : Nat) (cursor : Cursor), rounds = rounds' ∨ C.Uneven →
    C.Flows (forRounds timeout n take body otherwise rounds (ρ.cursor cursor))
      (forRounds timeout' n take' body' otherwise' rounds' (ρ'.cursor cursor))
  | 0, 0, _, _ => C.outOfRounds
  | 0, _ + 1, _, hr => C.fewer (hr.resolve_left (Nat.succ_ne_zero _).symm)
  | _ + 1, 0, _, hr => C.more (hr.resolve_left (Nat.succ_ne_zero _))
  | rounds + 1, rounds' + 1, cursor, hr => by
    rw [forRounds_succ, forRounds_succ]
    refine (C.lift (C.expr.next? cursor)).bind fun next => ?_
    cases next with
    | none => exact ho
    | some next =>
      refine (C.setLine n).bind fun _ => (C.lift (ht next.1)).bind fun _ => hb.bind fun flow => ?_
      cases flow with
      | leaveLoop => exact C.pure Flow.normal
      | giveBack v => exact C.pure (Flow.giveBack v)
      | normal | nextRound =>
        exact C.tick.bind fun _ =>
          forRounds n ht hb ho rounds rounds' next.2 (hr.imp_left Nat.succ.inj)

end Loops

/-! ## What is asked of statements -/

/-- What a statement has to be for the judgement to hold of it: the function that it defines is the
same in both recodings, up to what is left out, it binds only names that may be bound, and those it
declares global may be declared so. If it assigns to what cannot be assigned to, the judgement has
to hold of the error. -/
structure Admits (s : Stmt) : Prop where
  function : ∀ d, s.function? = some d → ρ.code d = d ∧ ρ'.code d = d.prune C.out
  bound : ∀ name, s.binds name = true → C.expr.Free name
  assignable : C.expr.Lenient ∨ s.assignable = true
  declared : ∀ name ∈ s.declared, C.Declares name

/-- Nothing is left out, and every name may be bound. -/
class Whole : Prop where
  out_eq (s : Stmt) : C.out s = false
  free (name : String) : C.expr.Free name

variable {C} in
/-- Where nothing is left out and every name may be bound. -/
theorem Admits.whole [C.Whole] {s : Stmt}
    (function : ∀ d, s.function? = some d → ρ.code d = d ∧ ρ'.code d = d)
    (assignable : C.expr.Lenient ∨ s.assignable = true)
    (declared : ∀ name ∈ s.declared, C.Declares name) : C.Admits s where
  function d hd := by
    rw [Script.code_prune_eq_self d Whole.out_eq]
    exact function d hd
  bound name _ := Whole.free name
  assignable := assignable
  declared := declared

/-- Every name may be declared global. -/
class DeclaresAll : Prop where
  declares (name : String) : C.Declares name

variable {C} in
/-- Where nothing is asked of targets and declarations. -/
theorem Admits.of_function [ρ.KeepsErrors] [ρ'.KeepsErrors] [C.Whole] [C.DeclaresAll] {s : Stmt}
    (h : ∀ d, s.function? = some d → ρ.code d = d ∧ ρ'.code d = d) : C.Admits s :=
  .whole h (.inl C.expr.lenient) fun name _ => DeclaresAll.declares name

mutual

/-- The judgement holds of a statement, up to what is left out of it. -/
theorem prunedStatement (hr : rounds = rounds' ∨ C.Uneven) (hu : C.expr.Calls user user') :
    ∀ s : Stmt, C.Admits s → (∀ p ∈ s.inner, C.Admits p) →
    C.Flows (runStmt ⟨user, timeout, rounds⟩ s)
      (runStmt ⟨user', timeout', rounds'⟩ (s.prune C.out))
  | .expr n e, _, _ =>
    (C.setLine n).bind fun _ => C.tick.bind fun _ => (C.lift (C.expr.eval hu e)).bind fun _ =>
      C.pure Flow.normal
  | .assign n targets value, hs, _ =>
    (C.setLine n).bind fun _ => C.tick.bind fun _ => (C.lift (C.expr.eval hu value)).bind fun v =>
      (C.lift (C.expr.assignAll hu v targets hs.bound hs.assignable)).bind
        fun _ => C.pure Flow.normal
  | .augment n target op operand, hs, _ =>
    (C.setLine n).bind fun _ => C.tick.bind fun _ =>
      (C.lift (C.expr.update hu target op operand hs.bound hs.assignable)).bind
        fun _ => C.pure Flow.normal
  | .branch n branches otherwise, _, hinner => by
    refine (C.setLine n).bind fun _ => C.tick.bind fun _ => ?_
    exact prunedCases hr hu branches (fun p hp => hinner p (List.mem_append_left _ hp))
      (prunedBlock hr hu otherwise fun p hp => hinner p (List.mem_append_right _ hp))
  | .whileLoop n condition body otherwise, _, hinner => by
    refine (C.setLine n).bind fun _ => C.tick.bind fun _ => ?_
    exact C.whileRounds n (C.expr.holds hu condition)
      (prunedBlock hr hu body fun p hp => hinner p (List.mem_append_left _ hp))
      (prunedBlock hr hu otherwise fun p hp => hinner p (List.mem_append_right _ hp))
      rounds rounds' hr
  | .forLoop n target items body otherwise, hs, hinner => by
    have htarget (name : String) (h : target.binds name = true) : C.expr.Free name :=
      hs.bound name (by rw [Stmt.binds, h, Bool.true_or, Bool.true_or])
    refine (C.setLine n).bind fun _ => C.tick.bind fun _ => ?_
    refine (C.lift (C.expr.eval hu items)).bind fun v => ?_
    refine (C.lift (C.expr.of (ρ.start_value v) (ρ'.start_value v))).bind fun cursor => ?_
    exact C.forRounds n
      (fun v => C.expr.assign hu v target htarget hs.assignable)
      (prunedBlock hr hu body fun p hp => hinner p (List.mem_append_left _ hp))
      (prunedBlock hr hu otherwise fun p hp => hinner p (List.mem_append_right _ hp))
      rounds rounds' cursor hr
  | .define n name params body, hs, _ => by
    have hname : C.expr.Free name :=
      hs.bound name (by rw [Stmt.binds, beq_self_eq_true, Bool.true_or, Bool.true_or])
    refine (C.setLine n).bind fun _ => C.tick.bind fun _ => ?_
    exact (C.lift (C.expr.define hu (hs.function ⟨name, params, body⟩ rfl) hname)).bind fun _ =>
      C.pure Flow.normal
  | .giveBack n value, _, _ =>
    (C.setLine n).bind fun _ => C.tick.bind fun _ =>
      C.lift ((C.expr.givenBack hu value).map Flow.giveBack (fun _ => rfl) fun _ => rfl)
  | .declareGlobal n names, hs, _ =>
    (C.setLine n).bind fun _ => C.tick.bind fun _ => (C.declareGlobal names hs.declared).bind
      fun _ => C.pure Flow.normal
  | .leaveLoop n, _, _ => (C.setLine n).bind fun _ => C.tick.bind fun _ => C.pure Flow.leaveLoop
  | .nextRound n, _, _ => (C.setLine n).bind fun _ => C.tick.bind fun _ => C.pure Flow.nextRound
  | .pass n, _, _ => (C.setLine n).bind fun _ => C.tick.bind fun _ => C.pure Flow.normal

/-- The judgement holds of a block, up to what is left out of it. -/
theorem prunedBlock (hr : rounds = rounds' ∨ C.Uneven) (hu : C.expr.Calls user user') :
    ∀ block : List Stmt, (∀ p ∈ Stmt.inBlock block, C.Admits p) →
    C.Flows (runBlock ⟨user, timeout, rounds⟩ block)
      (runBlock ⟨user', timeout', rounds'⟩ (Stmt.pruneBlock C.out block))
  | [], _ => C.pure Flow.normal
  | s :: rest, hblock => by
    have hs := hblock s List.mem_cons_self
    have hinner p (hp : p ∈ s.inner) := hblock p (.tail _ (List.mem_append_left _ hp))
    have others := prunedBlock hr hu rest fun p hp =>
      hblock p (.tail _ (List.mem_append_right _ hp))
    rw [Stmt.pruneBlock]
    split
    · next hout =>
      change C.Flows _ (Pure.pure Flow.normal >>= fun _ : Flow =>
        SortTrace.runBlock ⟨user', timeout', rounds'⟩ (Stmt.pruneBlock C.out rest))
      exact (C.skip hout).bind fun _ => others
    · refine (prunedStatement hr hu s hs hinner).bind fun flow => ?_
      cases flow with
      | normal => exact others
      | leaveLoop => exact C.pure Flow.leaveLoop
      | nextRound => exact C.pure Flow.nextRound
      | giveBack v => exact C.pure (Flow.giveBack v)

/-- The judgement holds of cases, up to what is left out of them. -/
theorem prunedCases (hr : rounds = rounds' ∨ C.Uneven) (hu : C.expr.Calls user user')
    {otherwise otherwise' : Run Flow} :
    ∀ cases : List (Expr × List Stmt), (∀ p ∈ Stmt.inCases cases, C.Admits p) →
    C.Flows otherwise otherwise' →
    C.Flows (runCases ⟨user, timeout, rounds⟩ cases otherwise)
      (runCases ⟨user', timeout', rounds'⟩ (Stmt.pruneCases C.out cases) otherwise')
  | [], _, ho => ho
  | (condition, body) :: rest, hcases, ho => by
    refine (C.lift (C.expr.holds hu condition)).bind fun holds => ?_
    cases holds
    · exact prunedCases hr hu rest (fun p hp => hcases p (List.mem_append_right _ hp)) ho
    · exact prunedBlock hr hu body fun p hp => hcases p (List.mem_append_left _ hp)

end

section Whole

variable [C.Whole]

/-- The judgement holds of a statement. -/
theorem statement (hu : C.expr.Calls user user') (s : Stmt) (hs : C.Admits s)
    (hinner : ∀ p ∈ s.inner, C.Admits p) :
    C.Flows (runStmt ⟨user, timeout, rounds⟩ s) (runStmt ⟨user', timeout', rounds⟩ s) := by
  have pruned : C.Flows (runStmt ⟨user, timeout, rounds⟩ s) _ :=
    C.prunedStatement (.inl rfl) hu s hs hinner
  rwa [Script.prune_eq_self s fun p _ => Whole.out_eq p] at pruned

/-- The judgement holds of a block. -/
theorem block (hu : C.expr.Calls user user') (block : List Stmt)
    (h : ∀ p ∈ Stmt.inBlock block, C.Admits p) :
    C.Flows (SortTrace.runBlock ⟨user, timeout, rounds⟩ block)
      (SortTrace.runBlock ⟨user', timeout', rounds⟩ block) := by
  have pruned : C.Flows (SortTrace.runBlock ⟨user, timeout, rounds⟩ block) _ :=
    C.prunedBlock (.inl rfl) hu block h
  rwa [Script.pruneBlock_eq_self block fun p _ => Whole.out_eq p] at pruned

/-- The judgement holds of a block, where nothing is asked of targets and declarations. -/
theorem runBlock [ρ.KeepsErrors] [ρ'.KeepsErrors] [C.DeclaresAll]
    (hu : C.expr.Calls user user') (stmts : List Stmt)
    (h : ∀ d ∈ Stmt.blockFunctions stmts, ρ.code d = d ∧ ρ'.code d = d) :
    C.Flows (runBlock ⟨user, timeout, rounds⟩ stmts) (runBlock ⟨user', timeout', rounds⟩ stmts) :=
  C.block hu stmts fun p hp => .of_function fun d hd => h d (List.mem_filterMap.mpr ⟨p, hp, hd⟩)

end Whole

end Conduct

end SortTrace
