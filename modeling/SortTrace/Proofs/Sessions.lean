import SortTrace.Execution
import SortTrace.Proofs.Runs

/-!
# What a session does with what it is told

In report mode a printed text is captured and a logged state is recorded, and nothing is refused. In
stream mode both go to the output, which accepts them if its room is not limited, and otherwise as
far as there is room. In both modes the logged states are counted.

When the run of a source has ended or stopped, the session is told of the fault and is left to the
outcome (`Outcome.ofEnd`).
-/

namespace SortTrace

/-- The line that tells of a fault in stream mode. -/
def errorText : Option Fault → String
  | some f => Session.errorMarker ++ f.message ++ "\n"
  | none => ""

namespace Session

variable {s : Session} (text : String) (state : Report.Json) (line : Nat) (f : Fault)

section Report

variable (hmode : s.mode = .report)

include hmode

theorem print_report : print text s = .ok () { s with captured := s.captured ++ text } := by
  obtain ⟨mode⟩ := s
  subst hmode
  rfl

theorem log_report : log state line s = .ok ()
    { s with
      states := s.states + 1
      steps := s.steps.push ⟨s.states + 1, line, state, s.breakpoints.contains line⟩ } := by
  obtain ⟨mode⟩ := s
  subst hmode
  rfl

theorem fail_report : fail f s = .ok () s := by
  obtain ⟨mode⟩ := s
  subst hmode
  rfl

end Report

section Stream

variable (hroom : s.sink.room = none)

include hroom

theorem write_unlimited :
    write text s = .ok () { s with sink := ⟨s.sink.bytes ++ text.toUTF8, none⟩ } := by
  simp only [write, Sink.write, hroom]

variable (hmode : s.mode = .stream)

include hmode

theorem print_stream :
    print text s = .ok () { s with sink := ⟨s.sink.bytes ++ text.toUTF8, none⟩ } := by
  obtain ⟨mode⟩ := s
  subst hmode
  exact write_unlimited _ hroom

theorem log_stream : log state line s = .ok ()
    { s with
      states := s.states + 1
      sink := ⟨s.sink.bytes ++ (stateMarker ++ state.oneLine ++ "\n").toUTF8, none⟩ } := by
  obtain ⟨mode⟩ := s
  subst hmode
  exact write_unlimited _ hroom

theorem fail_stream : fail f s = .ok ()
    { s with sink := ⟨s.sink.bytes ++ (errorMarker ++ f.message ++ "\n").toUTF8, none⟩ } := by
  obtain ⟨mode⟩ := s
  subst hmode
  exact write_unlimited _ hroom

end Stream

section Room

variable {room : Nat} (hroom : s.sink.room = some room)

include hroom

/-- A text that fits. -/
theorem write_fits (h : text.toUTF8.size ≤ room) : write text s = .ok ()
    { s with sink := ⟨s.sink.bytes ++ text.toUTF8, some (room - text.toUTF8.size)⟩ } := by
  simp only [write, Sink.write, hroom, if_pos h]

/-- A text that does not fit is cut. -/
theorem write_cut (h : room < text.toUTF8.size) : write text s = .error (.output Sink.full)
    { s with sink := ⟨s.sink.bytes ++ text.toUTF8.extract 0 room, some 0⟩ } := by
  simp only [write, Sink.write, hroom, if_neg (Nat.not_le.mpr h)]

end Room

section Refused

variable {text state line} {s₁ : Session} {e : Fault}

/-- Nothing but a full output refuses a text. -/
theorem write_error (h : write text s = .error e s₁) : e = .output Sink.full := by
  cases hroom : s.sink.room with
  | none =>
    rw [write_unlimited text hroom] at h
    cases h
  | some room =>
    rcases Nat.lt_or_ge room text.toUTF8.size with hsize | hsize
    · rw [write_cut text hroom hsize] at h
      cases h
      rfl
    · rw [write_fits text hroom hsize] at h
      cases h

theorem print_error (h : print text s = .error e s₁) : e = .output Sink.full := by
  obtain ⟨mode⟩ := s
  cases mode with
  | stream => exact write_error h
  | report => cases h

theorem log_error (h : log state line s = .error e s₁) : e = .output Sink.full := by
  obtain ⟨mode⟩ := s
  cases mode with
  | stream => exact write_error h
  | report => cases h

end Refused

end Session

/-! ## Sources -/

/-- What a source comes to when its run ends like this. -/
def Outcome.ofEnd : EStateM.Result Stop Machine Unit → Except Failure Outcome
  | .ok () m => .ok ⟨none, m.session⟩
  | .error (.fault f) m => match Session.fail f m.session with
    | .ok () session => .ok ⟨some f, session⟩
    | .error refusal session => .error (.output (outputMessage refusal) session.sink)
  | .error .outOfRounds _ => .error .outOfRounds

theorem runSource_eq {source : String} {settings : Settings} {room : Option Nat} {rounds : Nat}
    (h : settings.check = .ok ()) : runSource source settings room rounds
      = Outcome.ofEnd (runText settings.limits rounds source settings.watched
        (Machine.start (Session.start settings.mode settings.breakpoints room))) := by
  rw [runSource, h]
  rfl

/-- A fault is told in a line of its own kind behind all that was written. -/
theorem Outcome.ofEnd_fault {f : Fault} {m : Machine} (hmode : m.session.mode = .stream)
    (hroom : m.session.sink.room = none) : ofEnd (.error (.fault f) m) = .ok ⟨some f,
      { m.session with
        sink := ⟨m.session.sink.bytes ++ (errorText (some f)).toUTF8, none⟩ }⟩ := by
  simp only [ofEnd, Session.fail_stream f hroom hmode]
  rfl

/-- What an outcome has written: all that the run has, and the line of its fault. -/
theorem Outcome.bytes_of_ofEnd {x : EStateM.Result Stop Machine Unit} {o : Outcome}
    (hmode : (leftBy x).session.mode = .stream) (hroom : (leftBy x).session.sink.room = none)
    (h : ofEnd x = .ok o) : o.session.sink.bytes
      = (leftBy x).session.sink.bytes ++ (errorText o.fault).toUTF8 := by
  cases x with
  | ok u m =>
    obtain rfl := Except.ok.inj h
    exact ByteArray.append_empty.symm
  | error e m =>
    cases e with
    | fault f =>
      have told := ofEnd_fault (f := f) (m := m) hmode hroom
      obtain rfl := Except.ok.inj (told.symm.trans h)
      rfl
    | outOfRounds => cases h

/-- The fault of an outcome is the one at which the run stopped. -/
theorem Outcome.fault_of_ofEnd {f : Fault} {m : Machine} {o : Outcome}
    (h : ofEnd (.error (.fault f) m) = .ok o) : o.fault = some f := by
  simp only [ofEnd] at h
  cases hs : Session.fail f m.session with
  | ok u s =>
    rw [hs] at h
    exact (congrArg Outcome.fault (Except.ok.inj h)).symm
  | error refusal s =>
    rw [hs] at h
    cases h

end SortTrace
