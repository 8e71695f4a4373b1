import SortTrace.Execution
import SortTrace.Proofs.Coupling.Block
import SortTrace.Proofs.Events
import SortTrace.Proofs.Sessions

/-!
# The two modes tell of one run

A run of a source prints texts and logs states. `modes_tell_one_run`: these events are the same in
both modes. In stream mode the output holds them in order as `Event.text` writes them, and after
them the message of the fault if there is one; in report mode the printed texts are captured and the
logged states recorded as numbered steps.

The two runs are coupled (`Coupling.twoModes`), the one in stream mode as that of a marked program
into which nothing was put.
-/

namespace SortTrace

open Script (Stmt)
open Report (Json)

/-- What a stream session has put out after the events. -/
structure Session.Streamed (s : Session) (events : List Event) : Prop where
  mode : s.mode = .stream
  room : s.sink.room = none
  bytes : s.sink.bytes = (String.join (events.map Event.text)).toUTF8
  states : s.states = (Event.states events).length

/-- What a report session holds after the events. -/
structure Session.Reported (s : Session) (events : List Event) : Prop where
  mode : s.mode = .report
  bytes : s.sink.bytes = .empty
  captured : s.captured = String.join (events.map Event.printedText)
  steps : s.steps.toList = Event.steps s.breakpoints events
  states : s.states = (Event.states events).length

namespace Session

variable {s : Session} {events : List Event}

theorem Streamed.print (h : s.Streamed events) (text : String) :
    ∃ s₁, print text s = .ok () s₁ ∧ s₁.Streamed (events ++ [.printed text]) := by
  refine ⟨_, print_stream text h.room h.mode, h.mode, rfl, ?_, ?_⟩
  · simp [h.bytes, Event.text]
  · simp [h.states]

theorem Streamed.log (h : s.Streamed events) (state : Json) (line : Nat) :
    ∃ s₁, log state line s = .ok () s₁ ∧ s₁.Streamed (events ++ [.logged state line]) := by
  refine ⟨_, log_stream state line h.room h.mode, h.mode, rfl, ?_, ?_⟩
  · simp [h.bytes, Event.text]
  · simp [h.states]

theorem Reported.print (h : s.Reported events) (text : String) :
    ∃ s₁, print text s = .ok () s₁ ∧ s₁.breakpoints = s.breakpoints ∧
      s₁.Reported (events ++ [.printed text]) := by
  refine ⟨_, print_report text h.mode, rfl, h.mode, h.bytes, ?_, ?_, ?_⟩
  · simp [h.captured, Event.printedText]
  · rw [Event.steps_printed]
    exact h.steps
  · simp [h.states]

theorem Reported.log (h : s.Reported events) (state : Json) (line : Nat) :
    ∃ s₁, log state line s = .ok () s₁ ∧ s₁.breakpoints = s.breakpoints ∧
      s₁.Reported (events ++ [.logged state line]) := by
  refine ⟨_, log_report state line h.mode, rfl, h.mode, h.bytes, ?_, ?_, ?_⟩
  · simp [h.captured, Event.printedText]
  · rw [Event.steps_logged, ← h.states, ← h.steps]
    simp
  · simp [h.states]

theorem Streamed.start (breakpoints : List Nat) :
    (Session.start .stream breakpoints none).Streamed [] :=
  ⟨rfl, rfl, rfl, rfl⟩

theorem Reported.start (breakpoints : List Nat) :
    (Session.start .report breakpoints none).Reported [] :=
  ⟨rfl, rfl, rfl, rfl, rfl⟩

end Session

/-! ## Both runs side by side -/

namespace Marking

theorem not_inserts_plain : ¬ plain.Inserts :=
  fun ⟨_, h⟩ => nomatch h

@[simp] theorem fault_plain (f : Fault) : plain.stripped.fault f = f := by
  cases f <;> rfl

@[simp] theorem stop_plain (e : Stop) : plain.stripped.stop e = e := by
  cases e <;> simp [Recoding.stop]

end Marking

namespace Coupling

/-- A stream session and a report session that were told the same events. -/
def twoModes (timeout : Option Nat) (breakpoints : List Nat) : Coupling .plain where
  near s t s' t' :=
    t = t' ∧ s'.breakpoints = breakpoints ∧ ∃ events, s.Streamed events ∧ s'.Reported events
  timeout := timeout
  tick h := ⟨congrArg (· + 1) h.1, h.2⟩
  sameTicks _ h := h.1
  print text h := by
    obtain ⟨ht, hb, events, streamed, reported⟩ := h
    obtain ⟨s₁, hs₁, streamed⟩ := streamed.print text
    obtain ⟨s₁', hs₁', hb', reported⟩ := reported.print text
    exact ⟨s₁, s₁', hs₁, hs₁', ht, hb'.trans hb, _, streamed, reported⟩
  log state n h := by
    obtain ⟨ht, hb, events, streamed, reported⟩ := h
    obtain ⟨s₁, hs₁, streamed⟩ := streamed.log state n
    obtain ⟨s₁', hs₁', hb', reported⟩ := reported.log state n
    exact ⟨s₁, s₁', hs₁, hs₁', ht, hb'.trans hb, _, streamed, reported⟩
  skip _ _ yes := absurd yes Marking.not_inserts_plain
  patient yes := absurd yes Marking.not_inserts_plain

variable (timeout : Option Nat) (breakpoints : List Nat)

theorem twoModes_start :
    (twoModes timeout breakpoints).Twin false
      (Machine.start (Session.start .stream breakpoints none))
      (Machine.start (Session.start .report breakpoints none)) where
  heap := ⟨.empty, (Recoding.heap_empty _).symm, (Recoding.heap_empty _).symm⟩
  scopes := ⟨.empty, rfl, rfl⟩
  near := ⟨rfl, rfl, [], .start breakpoints, .start breakpoints⟩
  line := nofun
  free _ := Scopes.Free.empty

/-- A source runs alike in both modes. -/
theorem twoModes_runText (recursion rounds : Nat) (source var : String) :
    (twoModes timeout breakpoints).Sim false false id id
      (runText ⟨recursion, timeout⟩ rounds source var)
      (runText ⟨recursion, timeout⟩ rounds source var) := by
  have same {α : Type} (x : Except Fault α) : x = Marking.plain.stripped.outcome id x := by
    cases x <;> simp [Recoding.outcome]
  have same' {α : Type} (x : Except Fault α) : x = Marking.plain.marked.outcome id x := by
    cases x <;> simp [Recoding.outcome]
  refine (Sim.of (same' _) (same _)).bind fun program => ?_
  have run := Sim.runProgram (W := twoModes timeout breakpoints) recursion rounds program
    fun yes => absurd yes Marking.not_inserts_plain
  rwa [Marking.stripBlock_plain] at run

end Coupling

/-- **The two modes tell of one run.** -/
theorem modes_tell_one_run (source : String) (settings : Settings) (rounds : Nat)
    (hvalid : settings.check = .ok ()) :
    let streamRun := runSource source { settings with mode := .stream } none rounds
    let reportRun := runSource source { settings with mode := .report } none rounds
    (streamRun = .error .outOfRounds ∧ reportRun = .error .outOfRounds) ∨
    ∃ (events : List Event) (o o' : Outcome), streamRun = .ok o ∧ reportRun = .ok o' ∧
      o.fault = o'.fault ∧
      o.session.sink.bytes
        = (String.join (events.map Event.text) ++ errorText o.fault).toUTF8 ∧
      o'.session.sink.bytes = .empty ∧
      o'.session.captured = String.join (events.map Event.printedText) ∧
      o'.session.steps.toList = Event.steps settings.breakpoints events ∧
      o.session.states = (Event.states events).length ∧
      o'.session.states = (Event.states events).length := by
  intro streamRun reportRun
  have check (mode : Mode) : Settings.check { settings with mode := mode } = .ok () := hvalid
  have ends := Coupling.twoModes_runText settings.timeout settings.breakpoints
    settings.recursion rounds source settings.watched _ _
    (Coupling.twoModes_start settings.timeout settings.breakpoints)
  simp only [streamRun, reportRun, runSource, check, Settings.limits]
  generalize runText ⟨settings.recursion, settings.timeout⟩ rounds source settings.watched
    (Machine.start (Session.start .stream settings.breakpoints none)) = x at ends ⊢
  generalize runText ⟨settings.recursion, settings.timeout⟩ rounds source settings.watched
    (Machine.start (Session.start .report settings.breakpoints none)) = y at ends ⊢
  cases ends with
  | lost no => cases no
  | ok c twins =>
    obtain ⟨-, hb, events, streamed, reported⟩ := twins.near
    refine .inr ⟨events, _, _, rfl, rfl, rfl, ?_, reported.bytes, reported.captured, ?_,
      streamed.states, reported.states⟩
    · rw [streamed.bytes, errorText, String.append_empty]
    · rw [reported.steps, hb]
  | error e twins =>
    rw [Marking.stop_plain]
    obtain ⟨-, hb, events, streamed, reported⟩ := twins.near
    cases e with
    | outOfRounds => exact .inl ⟨rfl, rfl⟩
    | fault f =>
      simp only [Session.fail_stream f streamed.room streamed.mode,
        Session.fail_report f reported.mode]
      refine .inr ⟨events, _, _, rfl, rfl, rfl, ?_, reported.bytes, reported.captured, ?_,
        streamed.states, reported.states⟩
      · simp [streamed.bytes, errorText]
      · rw [reported.steps, hb]

/-- A text is printed, a state is logged at a breakpoint, and a subscript fails. -/
theorem modes_tell_one_run_standard :
    let source := "arr = [1]\nprint(\"x\")\narr[0] = 2\narr[1]\n"
    let settings := { Settings.standard with breakpoints := [3] }
    let output := "x\nSTATE:[2]\nError: list index out of range\n"
    settings.check = .ok () ∧
    ∃ (events : List Event) (o o' : Outcome),
      runSource source { settings with mode := .stream } none 1 = .ok o ∧
      runSource source { settings with mode := .report } none 1 = .ok o' ∧
      o.fault = o'.fault ∧ o.fault.map Fault.message = some "list index out of range" ∧
      o.session.sink.bytes = output.toUTF8 ∧
      String.join (events.map Event.text) ++ errorText o.fault = output ∧
      o'.session.sink.bytes = .empty ∧
      String.join (events.map Event.printedText) = "x\n" ∧ o'.session.captured = "x\n" ∧
      o'.session.steps.toList = Event.steps [3] events ∧
      (Event.steps [3] events).map (fun s => (s.number, s.line, s.state.oneLine, s.breakpoint))
        = [(1, 3, "[2]", true)] ∧
      (Event.states events).length = 1 ∧ o.session.states = 1 ∧ o'.session.states = 1 := by
  intro source settings output
  have valid : settings.check = .ok () := by decide
  have streamed : (runSource source { settings with mode := .stream } none 1).toOption.map
      (fun o => (o.session.states, o.fault.map Fault.message, o.session.sink.bytes))
      = some (1, some "list index out of range", output.toUTF8) := by decide +kernel
  have reported : (runSource source { settings with mode := .report } none 1).toOption.map
      (fun o => (o.session.captured, o.session.steps.toList.map fun s =>
        (s.number, s.line, s.state.oneLine, s.breakpoint)))
      = some ("x\n", [(1, 3, "[2]", true)]) := by decide +kernel
  refine ⟨valid, ?_⟩
  rcases modes_tell_one_run source settings 1 valid with
    ⟨out, -⟩ | ⟨events, o, o', ho, ho', fault, bytes, silent, captured, steps, states, states'⟩
  · rw [out] at streamed
    cases streamed
  · rw [ho] at streamed
    rw [ho'] at reported
    have seen := Option.some.inj streamed
    have seen' := Option.some.inj reported
    have put : o.session.sink.bytes = output.toUTF8 := congrArg (·.2.2) seen
    have one : o.session.states = 1 := congrArg Prod.fst seen
    have caught : o'.session.captured = "x\n" := congrArg Prod.fst seen'
    refine ⟨events, o, o', ho, ho', fault, congrArg (·.2.1) seen, put,
      String.toByteArray_inj.mp (bytes.symm.trans put), silent, captured.symm.trans caught, caught,
      steps, ?_, states.symm.trans one, one, states'.trans (states.symm.trans one)⟩
    rw [← show o'.session.steps.toList = Event.steps [3] events from steps]
    exact congrArg Prod.snd seen'

end SortTrace
