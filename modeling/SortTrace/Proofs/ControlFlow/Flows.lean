import SortTrace.Proofs.ControlFlow.Confined
import SortTrace.Proofs.Judgement.Held

/-!
# How programs leave loops and functions

The end of a statement (`Flow`) can leave a loop or a function only if the statement is in the body
of one (`runBlock_allows`). So the body of a function, if it is confined, ends without having left a
loop, and a program that was read from a text just ends.

The bodies that are run are those of functions that a machine holds. `control_flow_confined`: where
only programs read from texts have run (`Reached`), all of these are confined, and whatever is done
when one of them leaves a loop that it is not in, is never done.
-/

namespace SortTrace

open Script (Expr Stmt FunctionDef Surrounding)

/-! ## Flows -/

/-- May a statement that is surrounded like this end in this way? -/
def Flow.allowed (around : Surrounding) : Flow → Bool
  | .normal => true
  | .leaveLoop | .nextRound => around.inLoop
  | .giveBack _ => around.inFunction

/-- Whatever the run ends with has the property. -/
def Run.Yields {α : Type} (p : α → Prop) (r : Run α) : Prop :=
  ∀ m a m₁, r m = .ok a m₁ → p a

namespace Run.Yields

variable {α β : Type} {p : β → Prop} {q : α → Prop} {r : Run α} {t : α → Run β}

theorem pure {b : β} (h : p b) : Yields p (Pure.pure b) := by
  intro m b' m₁ hb
  cases hb
  exact h

theorem bind (hr : Yields q r) (ht : ∀ a, q a → Yields p (t a)) : Yields p (r >>= t) := by
  intro m b m₁ h
  cases hfirst : r m with
  | error e m₂ =>
    rw [Run.bind_error hfirst] at h
    cases h
  | ok a m₂ =>
    rw [Run.bind_ok hfirst] at h
    exact ht a (hr m a m₂ hfirst) m₂ b m₁ h

/-- After something whose result says nothing. -/
theorem after (ht : ∀ a, Yields p (t a)) : Yields p (r >>= t) :=
  bind (fun _ _ _ _ => trivial) fun a (_ : True) => ht a

theorem map {u : α → β} (hu : ∀ a, p (u a)) : Yields p (u <$> r) := by
  rw [map_eq_pure_bind]
  exact after fun a => pure (hu a)

theorem throw (e : Stop) : Yields p (throw e) :=
  fun _ _ _ h => nomatch h

end Run.Yields

/-- The run ends in a way that is allowed to a statement with these surroundings. -/
abbrev Allows (around : Surrounding) (r : Run Flow) : Prop :=
  Run.Yields (fun flow => flow.allowed around = true) r

variable {around : Surrounding} {c : Control}

section Loops

variable {body otherwise : Run Flow} (hb : Allows { around with inLoop := true } body)
  (ho : Allows around otherwise) (timeout : Option Nat) (line : Nat)

include hb ho

theorem whileRounds_allows (condition : Run Bool) : ∀ rounds : Nat,
    Allows around (whileRounds timeout line condition body otherwise rounds)
  | 0 => .throw _
  | rounds + 1 => by
    refine .after fun _ => .after fun holds => ?_
    cases holds
    · exact ho
    refine .bind hb fun flow hflow => ?_
    cases flow with
    | leaveLoop => exact .pure rfl
    | giveBack v => exact .pure hflow
    | normal | nextRound => exact .after fun _ => whileRounds_allows condition rounds

theorem forRounds_allows (take : Value → Run Unit) : ∀ (rounds : Nat) (cursor : Cursor),
    Allows around (forRounds timeout line take body otherwise rounds cursor)
  | 0, _ => .throw _
  | rounds + 1, cursor => by
    rw [forRounds_succ]
    refine .after fun next => ?_
    cases next with
    | none => exact ho
    | some next =>
      refine .after fun _ => .after fun _ => .bind hb fun flow hflow => ?_
      cases flow with
      | leaveLoop => exact .pure rfl
      | giveBack v => exact .pure hflow
      | normal | nextRound => exact .after fun _ => forRounds_allows take rounds next.2

end Loops

mutual

theorem runStmt_allows (around : Surrounding) : ∀ s : Stmt, s.confined around = true →
    Allows around (runStmt c s)
  | .expr .., _ | .augment .., _ | .define .., _ | .declareGlobal .., _ =>
    .after fun _ => .after fun _ => .after fun _ => .pure rfl
  | .assign .., _ => .after fun _ => .after fun _ => .after fun _ => .after fun _ => .pure rfl
  | .branch _ cases otherwise, hs => by
    obtain ⟨hcases, hotherwise⟩ := Bool.and_eq_true_iff.mp hs
    refine .after fun _ => .after fun _ => ?_
    exact runCases_allows around cases hcases (runBlock_allows around otherwise hotherwise)
  | .whileLoop line condition body otherwise, hs => by
    obtain ⟨hbody, hotherwise⟩ := Bool.and_eq_true_iff.mp hs
    refine .after fun _ => .after fun _ => ?_
    exact whileRounds_allows (runBlock_allows { around with inLoop := true } body hbody)
      (runBlock_allows around otherwise hotherwise) _ line _ _
  | .forLoop line target items body otherwise, hs => by
    obtain ⟨hbody, hotherwise⟩ := Bool.and_eq_true_iff.mp hs
    refine .after fun _ => .after fun _ => .after fun _ => .after fun cursor => ?_
    exact forRounds_allows (runBlock_allows { around with inLoop := true } body hbody)
      (runBlock_allows around otherwise hotherwise) _ line _ _ cursor
  | .giveBack .., hs => .after fun _ => .after fun _ => .map fun _ => hs
  | .leaveLoop _, hs | .nextRound _, hs => .after fun _ => .after fun _ => .pure hs
  | .pass _, _ => .after fun _ => .after fun _ => .pure rfl

/-- A block leaves a loop or a function only if it is in the body of one. -/
theorem runBlock_allows (around : Surrounding) : ∀ block : List Stmt,
    Stmt.confinedBlock around block = true → Allows around (runBlock c block)
  | [], _ => .pure rfl
  | s :: rest, hblock => by
    obtain ⟨hs, hrest⟩ := Bool.and_eq_true_iff.mp hblock
    refine .bind (runStmt_allows around s hs) fun flow hflow => ?_
    cases flow with
    | normal => exact runBlock_allows around rest hrest
    | leaveLoop | nextRound | giveBack => exact .pure hflow

theorem runCases_allows (around : Surrounding) {otherwise : Run Flow} :
    ∀ cases : List (Expr × List Stmt), Stmt.confinedCases around cases = true →
    Allows around otherwise → Allows around (runCases c cases otherwise)
  | [], _, ho => ho
  | (_, body) :: rest, hcases, ho => by
    obtain ⟨hbody, hrest⟩ := Bool.and_eq_true_iff.mp hcases
    refine .after fun holds => ?_
    cases holds
    · exact runCases_allows around rest hrest ho
    · exact runBlock_allows around body hbody

end

/-- A program that is confined just ends. -/
theorem runBlock_normal {program : List Stmt} {m m₁ : Machine} {flow : Flow}
    (hprogram : Stmt.confinedBlock ⟨false, false⟩ program = true)
    (h : runBlock c program m = .ok flow m₁) : flow = .normal := by
  have allowed := runBlock_allows ⟨false, false⟩ program hprogram m flow m₁ h
  cases flow with
  | normal => rfl
  | leaveLoop | nextRound | giveBack => cases allowed

/-! ## Functions that a machine holds -/

/-- Is the body of the function confined? -/
def Script.FunctionDef.confined (d : FunctionDef) : Bool :=
  Stmt.confinedBlock ⟨true, false⟩ d.body

mutual

theorem confined_inner {around : Surrounding} : ∀ s : Stmt, s.confined around = true →
    ∀ p ∈ s.inner, ∃ around, p.confined around = true
  | .branch _ cases otherwise, hs, p, hp => by
    obtain ⟨hcases, hotherwise⟩ := Bool.and_eq_true_iff.mp hs
    rcases List.mem_append.mp hp with hp | hp
    · exact confined_inCases cases hcases p hp
    · exact confined_inBlock otherwise hotherwise p hp
  | .whileLoop _ _ body otherwise, hs, p, hp | .forLoop _ _ _ body otherwise, hs, p, hp => by
    obtain ⟨hbody, hotherwise⟩ := Bool.and_eq_true_iff.mp hs
    rcases List.mem_append.mp hp with hp | hp
    · exact confined_inBlock body hbody p hp
    · exact confined_inBlock otherwise hotherwise p hp
  | .define _ _ _ body, hs, p, hp => confined_inBlock body hs p hp
  | .expr .., _, _, hp | .assign .., _, _, hp | .augment .., _, _, hp | .giveBack .., _, _, hp
  | .declareGlobal .., _, _, hp | .leaveLoop .., _, _, hp | .nextRound .., _, _, hp
  | .pass .., _, _, hp => nomatch hp

theorem confined_inBlock {around : Surrounding} : ∀ block : List Stmt,
    Stmt.confinedBlock around block = true →
    ∀ p ∈ Stmt.inBlock block, ∃ around, p.confined around = true
  | s :: rest, hblock, p, hp => by
    obtain ⟨hs, hrest⟩ := Bool.and_eq_true_iff.mp hblock
    rcases List.mem_cons.mp hp with rfl | hp
    · exact ⟨around, hs⟩
    rcases List.mem_append.mp hp with hp | hp
    · exact confined_inner s hs p hp
    · exact confined_inBlock rest hrest p hp

theorem confined_inCases {around : Surrounding} : ∀ cases : List (Expr × List Stmt),
    Stmt.confinedCases around cases = true →
    ∀ p ∈ Stmt.inCases cases, ∃ around, p.confined around = true
  | (_, body) :: rest, hcases, p, hp => by
    obtain ⟨hbody, hrest⟩ := Bool.and_eq_true_iff.mp hcases
    rcases List.mem_append.mp hp with hp | hp
    · exact confined_inBlock body hbody p hp
    · exact confined_inCases rest hrest p hp

end

/-- A function that a confined statement defines is confined. -/
theorem confined_function {s : Stmt} {d : FunctionDef} (hs : s.confined around = true)
    (hd : s.function? = some d) : d.confined = true := by
  cases s with
  | define n name params body =>
    obtain rfl := Option.some.inj hd
    exact hs
  | _ => cases hd

/-- Functions that are not confined stand for empty ones. -/
abbrev Recoding.confining : Recoding :=
  .only FunctionDef.confined

theorem Recoding.confined_code (d : FunctionDef) : (confining.code d).confined = true :=
  only_code (fun _ => rfl) d

/-- Machines that hold only functions whose bodies are confined. -/
abbrev confinedCode : Course .confining :=
  .recoded Recoding.line_only

theorem confinedCode_admits {block : List Stmt} (hblock : Stmt.confinedBlock around block = true)
    (timeout : Option Nat) : ∀ p ∈ Stmt.inBlock block, (confinedCode.conduct timeout).Admits p := by
  intro p hp
  obtain ⟨around, hconfined⟩ := confined_inBlock block hblock p hp
  refine .of_function fun d hd => ?_
  have fixed : Recoding.confining.code d = d :=
    Recoding.code_of_only (confined_function hconfined hd)
  exact ⟨fixed, fixed⟩

/-- Sounds the alarm when the body of a function has left a loop that it is not in. -/
def flowWatch (alarm : Run Unit) : Watch where
  entered := pure ()
  ended
    | .leaveLoop | .nextRound => alarm
    | .normal | .giveBack _ => pure ()

theorem confinedCode_calls (alarm : Run Unit) (timeout : Option Nat) (rounds : Nat) :
    ∀ room, confinedCode.judgement.Calls (userCall timeout rounds room)
      (watchedCall (flowWatch alarm) timeout rounds room) := by
  refine Course.recoded_calls
    (fun d => confinedCode_admits (Recoding.confined_code d) timeout) (fun _ => rfl) ?_
  intro c d flow m m₁ h
  have allowed := runBlock_allows ⟨true, false⟩ _ (Recoding.confined_code d) m flow m₁ h
  cases flow with
  | normal | giveBack => rfl
  | leaveLoop | nextRound => cases allowed

/-- A confined block runs alike when it is watched, and leaves a machine with confined functions. -/
theorem confinedCode_runBlock {block : List Stmt} {m : Machine}
    (hblock : Stmt.confinedBlock around block = true) (hm : confinedCode.Apt m) (alarm : Run Unit)
    (timeout : Option Nat) (rounds room : Nat) :
    confinedCode.Ends false Recoding.confining.flow Recoding.confining.flow m
      (runBlock ⟨userCall timeout rounds room, timeout, rounds⟩ block m)
      (runBlock ⟨watchedCall (flowWatch alarm) timeout rounds room, timeout, rounds⟩ block m) :=
  (confinedCode.conduct timeout).block (confinedCode_calls alarm timeout rounds room) block
    (confinedCode_admits hblock timeout) m hm

theorem Reached.confined {m : Machine} (hm : Reached m) : confinedCode.Apt m :=
  hm.recoded (fun timeout d => confinedCode_admits (Recoding.confined_code d) timeout)
    fun timeout _ _ _ read => confinedCode_admits (Script.parseProgram_confined read) timeout

/-- A block that just ends has run its parts one after the other. -/
theorem runBlock_append {before after : List Stmt} {m m₁ : Machine}
    (h : runBlock c (before ++ after) m = .ok .normal m₁) :
    ∃ m₂, runBlock c before m = .ok .normal m₂ ∧ runBlock c after m₂ = .ok .normal m₁ := by
  induction before generalizing m with
  | nil => exact ⟨m, rfl, h⟩
  | cons s before ih =>
    rw [List.cons_append, runBlock] at h
    cases hs : runStmt c s m with
    | error e m₃ =>
      rw [Run.bind_error hs] at h
      cases h
    | ok flow m₃ =>
      rw [Run.bind_ok hs] at h
      cases flow with
      | normal =>
        obtain ⟨m₂, hbefore, hafter⟩ := ih h
        refine ⟨m₂, ?_, hafter⟩
        rw [runBlock, Run.bind_ok hs]
        exact hbefore
      | leaveLoop | nextRound | giveBack => cases h

/-- **Loops and functions are left from inside of their bodies only.** -/
theorem control_flow_confined {text : String} {map : Array Nat} {program : List Stmt}
    (read : Script.parseProgram text map = .ok program) :
    Stmt.confinedBlock ⟨false, false⟩ program = true ∧
    ∀ (m : Machine) (limits : Limits) (rounds : Nat) (alarm : Run Unit), Reached m →
      let room := limits.recursion - m.scopes.depth
      let run (user : UserCall) := runBlock ⟨user, limits.timeout, rounds⟩ program m
      let user := userCall limits.timeout rounds room
      run (watchedCall (flowWatch alarm) limits.timeout rounds room) = run user ∧
      ∀ flow m₁, run user = .ok flow m₁ → flow = .normal ∧
        ∀ before after, program = before ++ after →
          ∃ m₂, runBlock ⟨user, limits.timeout, rounds⟩ before m = .ok .normal m₂ ∧
            runBlock ⟨user, limits.timeout, rounds⟩ after m₂ = .ok .normal m₁ := by
  have confined := Script.parseProgram_confined read
  refine ⟨confined, fun m limits rounds alarm hm => ?_⟩
  intro room run user
  refine ⟨?_, fun flow m₁ h => ?_⟩
  · exact (confinedCode_runBlock confined hm.confined alarm limits.timeout rounds room).same
  · obtain rfl := runBlock_normal confined h
    refine ⟨rfl, ?_⟩
    rintro before after rfl
    exact runBlock_append h

/-- A loop that is left from inside of its body. -/
theorem control_flow_confined_break :
    let text := "for i in x:\n break"
    let program : List Stmt := [.forLoop 1 (.name "i") (.name "x") [.leaveLoop 2] []]
    let m := Machine.start (Session.start .report [] none)
    let run (user : UserCall) := runBlock ⟨user, none, 1⟩ program m
    Script.parseProgram text #[] = .ok program ∧ Reached m ∧
      Stmt.confinedBlock ⟨false, false⟩ program = true ∧
      run (watchedCall (flowWatch (Run.setLine 0)) none 1 1) = run (userCall none 1 1) := by
  intro text program m run
  have tokens : Script.tokenize text #[] = .ok [⟨.mark Script.Keyword.forKw, 1⟩, ⟨.name "i", 1⟩,
      ⟨.mark Script.Keyword.inKw, 1⟩, ⟨.name "x", 1⟩, ⟨.mark Script.Punct.colon, 1⟩,
      ⟨.mark Script.Layout.newline, 1⟩, ⟨.mark Script.Layout.indent, 2⟩,
      ⟨.mark Script.Keyword.breakKw, 2⟩, ⟨.mark Script.Layout.newline, 2⟩,
      ⟨.mark Script.Layout.dedent, 2⟩, ⟨.mark Script.Layout.finish, 2⟩] := by decide +kernel
  have read : Script.parseProgram text #[] = .ok program :=
    (Script.parseProgram_of_tokenize tokens).trans rfl
  obtain ⟨confined, runs⟩ := control_flow_confined read
  have reached : Reached m := .start _
  exact ⟨read, reached, confined, (runs m ⟨1, none⟩ 1 (Run.setLine 0) reached).1⟩

end SortTrace
