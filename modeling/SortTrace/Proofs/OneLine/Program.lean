import SortTrace.Execution
import SortTrace.Proofs.Judgement.Block
import SortTrace.Proofs.OneLine.Eval
import SortTrace.Proofs.OneLine.Tokens

/-!
# Statements that fail on one line

Where all names of a program are on one line, its run ends neatly (`Neatly.runProgram`): statements
do if calls to the functions of the script do (`Neatly.block`), and a call does because the body of
the function does (`Neatly.userCall`). So does the run of every source (`Neatly.runText`).
-/

namespace SortTrace.Neatly

open Recoding (neat)
open Script (Expr Stmt FunctionDef)

/-- All functions that the end of a statement holds are neat. -/
abbrev Flow (f : SortTrace.Flow) : Prop :=
  neat.flow f = f

theorem giveBack {v : Value} (hv : v.Neat) : Flow (.giveBack v) :=
  congrArg SortTrace.Flow.giveBack hv

theorem of_giveBack {v : Value} (h : Flow (.giveBack v)) : v.Neat :=
  SortTrace.Flow.giveBack.inj h

/-! ## Loops -/

section Loops

variable {timeout : Option Nat} {body otherwise : Run SortTrace.Flow} (hb : Neatly Flow body)
  (ho : Neatly Flow otherwise)

include hb ho

theorem whileRounds {condition : Run Bool} (n : Nat) (hc : Neatly (fun _ => True) condition) :
    ∀ rounds : Nat, Neatly Flow (SortTrace.whileRounds timeout n condition body otherwise rounds)
  | 0 => outOfRounds
  | rounds + 1 => by
    refine (setLine n).bind fun _ _ => hc.bind fun holds _ => ?_
    cases holds
    · exact ho
    refine hb.bind fun flow hflow => ?_
    cases flow with
    | leaveLoop => exact pure rfl
    | giveBack v => exact pure hflow
    | normal | nextRound => exact (tick timeout).bind fun _ _ => whileRounds n hc rounds

theorem forRounds {take : Value → Run Unit} (n : Nat)
    (ht : ∀ v : Value, v.Neat → Neatly (fun _ => True) (take v)) :
    ∀ (rounds : Nat) (cursor : Cursor), neat.cursor cursor = cursor →
    Neatly Flow (SortTrace.forRounds timeout n take body otherwise rounds cursor)
  | 0, _, _ => outOfRounds
  | rounds + 1, cursor, hcursor => by
    rw [forRounds_succ]
    refine Neatly.bind (p := fun next => Option.map (Prod.map neat.value neat.cursor) next = next)
      (read (fun h hh => ?_) fun _ _ => .ok _) fun next hnext => ?_
    · have next := neat.next?_cursor h cursor
      rw [hh, hcursor] at next
      exact congrArg Except.ok next
    cases next with
    | none => exact ho
    | some next =>
      obtain ⟨v, rest⟩ := next
      obtain ⟨hv, hrest⟩ := Prod.mk.inj (Option.some.inj hnext)
      refine (setLine n).bind fun _ _ => (ht v hv).bind fun _ _ => hb.bind fun flow hflow => ?_
      cases flow with
      | leaveLoop => exact pure rfl
      | giveBack v => exact pure hflow
      | normal | nextRound =>
        exact (tick timeout).bind fun _ _ => forRounds n ht rounds rest hrest

end Loops

/-! ## Statements -/

section Statements

variable {user : UserCall} {timeout : Option Nat} {rounds : Nat}

theorem define (hu : Calls user) {d : FunctionDef} (hd : d.Neat) :
    Neatly (fun _ => True) (SortTrace.define user d) := by
  have defaults : Expr.AllNames Text.OneLine (d.params.filterMap fun p => p.default) := by
    refine Script.allNames_iff.mpr fun e he => ?_
    obtain ⟨p, hp, hdefault⟩ := List.mem_filterMap.mp he
    have names := (hd.2.1 p hp).2
    rwa [hdefault] at names
  refine (evalAll hu _ defaults).bind fun vs hvs => ?_
  refine (compute (f := id) (d := modifyGet Heap.mark) .mark rfl nofun).bind fun id _ => ?_
  exact bindName d.name (Value.neat_function.mpr ⟨hd, hvs⟩)

theorem givenBack (hu : Calls user) {value : Option Expr}
    (h : Expr.BoundNames Text.OneLine value) :
    Neatly Value.Neat (SortTrace.givenBack user value) := by
  cases value with
  | none => exact pure rfl
  | some e => exact eval hu e h

mutual

/-- A statement whose names are on one line ends neatly. -/
theorem statement (hu : Calls user) : ∀ s : Stmt, s.Names Text.OneLine →
    Neatly Flow (runStmt ⟨user, timeout, rounds⟩ s)
  | .expr n e, h =>
    (setLine n).bind fun _ _ => (tick timeout).bind fun _ _ => (eval hu e h).bind fun _ _ =>
      pure rfl
  | .assign n targets value, h =>
    (setLine n).bind fun _ _ => (tick timeout).bind fun _ _ => (eval hu value h.2).bind
      fun _ hv => (assignAll hu hv targets h.1).bind fun _ _ => pure rfl
  | .augment n target op operand, h =>
    (setLine n).bind fun _ _ => (tick timeout).bind fun _ _ => (update hu h.1 h.2 op).bind
      fun _ _ => pure rfl
  | .branch n branches otherwise, h =>
    (setLine n).bind fun _ _ => (tick timeout).bind fun _ _ =>
      cases hu branches h.1 (block hu otherwise h.2)
  | .whileLoop n condition body otherwise, h =>
    (setLine n).bind fun _ _ => (tick timeout).bind fun _ _ =>
      whileRounds (block hu body h.2.1) (block hu otherwise h.2.2) n (holds hu h.1) rounds
  | .forLoop n target items body otherwise, h => by
    refine (setLine n).bind fun _ _ => (tick timeout).bind fun _ _ => ?_
    refine (eval hu items h.2.1).bind fun v hv => ?_
    have start : Neatly (fun c => neat.cursor c = c) (Run.of (Cursor.start v)) := by
      refine of (by simpa only [hv] using neat.start_value v) ?_
      unfold Cursor.start
      split
      · exact .ok _
      · exact .ok _
      · exact .ok _
      · exact .ok _
      · exact .error (.framed (Value.oneLine_typeName _) rfl rfl)
    exact start.bind fun cursor hcursor =>
      forRounds (block hu body h.2.2.1) (block hu otherwise h.2.2.2) n
        (fun v hv => assign hu hv target h.1) rounds cursor hcursor
  | .define n name params body, h =>
    (setLine n).bind fun _ _ => (tick timeout).bind fun _ _ =>
      (define hu (d := ⟨name, params, body⟩) h).bind fun _ _ => pure rfl
  | .giveBack n value, h =>
    (setLine n).bind fun _ _ => (tick timeout).bind fun _ _ =>
      (givenBack hu h).map fun _ hv => giveBack hv
  | .declareGlobal n names, _ =>
    (setLine n).bind fun _ _ => (tick timeout).bind fun _ _ =>
      (modifyScopes fun s hs => by rw [Recoding.scopes_declareGlobal, hs]).bind fun _ _ => pure rfl
  | .leaveLoop n, _ | .nextRound n, _ | .pass n, _ =>
    (setLine n).bind fun _ _ => (tick timeout).bind fun _ _ => pure rfl

/-- A block whose names are on one line ends neatly. -/
theorem block (hu : Calls user) : ∀ block : List Stmt, Stmt.BlockNames Text.OneLine block →
    Neatly Flow (runBlock ⟨user, timeout, rounds⟩ block)
  | [], _ => pure rfl
  | s :: rest, h => by
    refine (statement hu s h.1).bind fun flow hflow => ?_
    cases flow with
    | normal => exact block hu rest h.2
    | leaveLoop | nextRound => exact pure rfl
    | giveBack v => exact pure hflow

/-- Cases whose names are on one line end neatly. -/
theorem cases (hu : Calls user) {otherwise : Run SortTrace.Flow} :
    ∀ cases : List (Expr × List Stmt), Stmt.CaseNames Text.OneLine cases →
    Neatly Flow otherwise → Neatly Flow (runCases ⟨user, timeout, rounds⟩ cases otherwise)
  | [], _, ho => ho
  | (condition, body) :: rest, h, ho => by
    refine (holds hu h.1).bind fun holds _ => ?_
    cases holds
    · exact cases hu rest h.2.2 ho
    · exact block hu body h.2.1

end

end Statements

/-! ## Calls and programs -/

/-- Calls of neat functions end neatly if their bodies do. -/
theorem callIn {c : Control}
    (body : ∀ stmts, Stmt.BlockNames Text.OneLine stmts → Neatly Flow (runBlock c stmts)) :
    Calls (SortTrace.callIn c) := by
  intro d defaults args keywords hd hdefaults hargs hk
  have bound := neat.bindArguments_value (f := d) rfl rfl defaults args keywords
  rw [hdefaults, hargs, hk.values] at bound
  refine line.bind fun n _ => (of bound (bindArguments_inLine hd hk defaults args)).bind
    fun locals hlocals => ?_
  refine (modifyScopes fun s hs => ?_).bind fun _ _ => (body d.body hd.2.2).bind
    fun flow hflow => ?_
  · rw [Recoding.scopes_push, hs, Recoding.frame, hlocals]
    rfl
  refine (modifyScopes fun s hs => by rw [Recoding.scopes_pop, hs]).bind fun _ _ =>
    (setLine n).bind fun _ _ => pure ?_
  cases flow with
  | giveBack v => exact of_giveBack hflow
  | _ => rfl

theorem userCall (timeout : Option Nat) (rounds : Nat) : ∀ depth : Nat,
    Calls (SortTrace.userCall timeout rounds depth)
  | 0 => fun _ _ _ _ _ _ _ _ => fault Fault.oneLine_recursion
  | depth + 1 => callIn fun stmts h => block (userCall timeout rounds depth) stmts h

/-- A program whose names are on one line ends neatly. -/
theorem runProgram (limits : Limits) (rounds : Nat) {program : List Stmt}
    (h : Stmt.BlockNames Text.OneLine program) :
    Neatly (fun _ => True) (SortTrace.runProgram limits rounds program) := by
  intro m hm
  have whole : Neatly Flow (runBlock ⟨SortTrace.userCall limits.timeout rounds
      (limits.recursion - m.scopes.depth), limits.timeout, rounds⟩ program) :=
    block (userCall _ rounds _) program h
  exact (whole.bind fun _ _ => pure trivial) m hm

/-! ## Sources -/

/-- A source ends neatly. -/
theorem runText (limits : Limits) (rounds : Nat) (source var : String) :
    Neatly (fun _ => True) (SortTrace.runText limits rounds source var) := by
  have read : Neatly (Stmt.BlockNames Text.OneLine) (Run.of (programOf source var)) := by
    cases hprogram : programOf source var with
    | ok program => exact pure (Script.names_of_parseProgram hprogram)
    | error e => exact fault (Script.parseProgram_inLine _ _ e hprogram)
  exact read.bind fun program h => runProgram limits rounds h

end SortTrace.Neatly
