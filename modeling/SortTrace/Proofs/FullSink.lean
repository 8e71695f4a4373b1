import SortTrace.Proofs.Sessions
import SortTrace.Proofs.Told

/-!
# Outputs that fill up

A run in stream mode that would put out the bytes `T` loses only the tail when the output has room
for `n` bytes (`full_sink_loses_tail`): if `T` fits the outcome is the same, and otherwise the first
`n` bytes of `T` are put out and the run fails with the refusal of the output. The refusal stops the
script at the event that does not fit, and the message of the fault, which is told to the same
output, is refused too.
-/

namespace ByteArray

theorem extract_of_size_le {bytes : ByteArray} {n : Nat} (h : bytes.size ≤ n) :
    bytes.extract 0 n = bytes := by
  ext1
  rw [data_extract, Array.extract_eq_self_of_le h]

theorem extract_append_of_le {bytes more : ByteArray} {n : Nat} (h : n ≤ bytes.size) :
    (bytes ++ more).extract 0 n = bytes.extract 0 n := by
  rw [extract_append, Nat.zero_sub, Nat.sub_eq_zero_of_le h]
  simp

theorem extract_append_of_size_le {bytes more : ByteArray} {n : Nat} (h : bytes.size ≤ n) :
    (bytes ++ more).extract 0 n = bytes ++ more.extract 0 (n - bytes.size) := by
  rw [extract_append, Nat.zero_sub, extract_of_size_le h]

end ByteArray

namespace SortTrace

/-- What the events put out in stream mode. -/
def Event.output (events : List Event) : ByteArray :=
  (String.join (events.map Event.text)).toUTF8

theorem Event.output_cons (e : Event) (events : List Event) :
    output (e :: events) = e.text.toUTF8 ++ output events := by
  simp [output]

namespace Session

variable {s : Session} {room : Nat}

/-- The session after it has taken the events, with what is put out and the room that is left. -/
def took (s : Session) (events : List Event) (room : Option Nat) : Session :=
  { s with
    sink := ⟨s.sink.bytes ++ Event.output events, room⟩
    states := s.states + (Event.states events).length }

theorem took_cons (s : Session) (e : Event) (events : List Event) (room room' : Option Nat) :
    (s.took [e] room').took events room = s.took (e :: events) room := by
  have count : (Event.states (e :: events)).length
      = (Event.states [e]).length + (Event.states events).length := by
    rw [← List.length_append, Event.states, Event.states, Event.states, ← List.filterMap_append]
    rfl
  simp only [took, count, Event.output_cons, ← Nat.add_assoc]
  simp [Event.output, ByteArray.append_assoc]

/-! ## One event -/

section Tell

variable (hmode : s.mode = .stream) (e : Event)

include hmode

theorem tell_stream :
    tell e s = write e.text { s with states := s.states + (Event.states [e]).length } := by
  obtain ⟨mode⟩ := s
  subst hmode
  cases e <;> rfl

theorem tell_unlimited (hroom : s.sink.room = none) : tell e s = .ok () (s.took [e] none) := by
  have written := write_unlimited (s := { s with states := s.states + (Event.states [e]).length })
    e.text hroom
  rw [tell_stream hmode, written]
  simp [took, Event.output]

variable (hroom : s.sink.room = some room)

include hroom

theorem tell_fits (h : e.text.toUTF8.size ≤ room) :
    tell e s = .ok () (s.took [e] (some (room - e.text.toUTF8.size))) := by
  have written := write_fits (s := { s with states := s.states + (Event.states [e]).length })
    e.text hroom h
  rw [tell_stream hmode, written]
  simp [took, Event.output]

theorem tell_cut (h : room < e.text.toUTF8.size) : ∃ s₁, tell e s = .error (.output Sink.full) s₁ ∧
    s₁.mode = .stream ∧ s₁.sink = ⟨s.sink.bytes ++ e.text.toUTF8.extract 0 room, some 0⟩ := by
  have written := write_cut (s := { s with states := s.states + (Event.states [e]).length })
    e.text hroom h
  rw [tell_stream hmode, written]
  exact ⟨_, rfl, hmode, rfl⟩

end Tell

/-! ## All events -/

theorem tellAll_cons_ok {e : Event} {events : List Event} {s₁ : Session}
    (h : tell e s = .ok () s₁) : tellAll (e :: events) s = tellAll events s₁ := by
  change EStateM.bind (tell e) _ s = _
  rw [EStateM.bind, h]

/-- An output without a limit takes all events. -/
theorem tellAll_unlimited (events : List Event) (hmode : s.mode = .stream)
    (hroom : s.sink.room = none) : tellAll events s = .ok () (s.took events none) := by
  induction events generalizing s with
  | nil =>
    obtain ⟨mode, breakpoints, ⟨bytes, room⟩⟩ := s
    subst hroom
    simp [took, tellAll, Event.output, Event.states]
    rfl
  | cons e events ih =>
    have others := ih (s := s.took [e] none) hmode rfl
    rw [tellAll_cons_ok (tell_unlimited hmode e hroom), others, took_cons]

/-- An output takes events that there is room for. -/
theorem tellAll_fits (events : List Event) (hmode : s.mode = .stream)
    (hroom : s.sink.room = some room) (h : (Event.output events).size ≤ room) :
    tellAll events s = .ok () (s.took events (some (room - (Event.output events).size))) := by
  induction events generalizing s room with
  | nil =>
    obtain ⟨mode, breakpoints, ⟨bytes, room⟩⟩ := s
    subst hroom
    simp [took, tellAll, Event.output, Event.states]
    rfl
  | cons e events ih =>
    rw [Event.output_cons, ByteArray.size_append] at h ⊢
    have first := tell_fits hmode e hroom (by omega)
    have mode₁ : (s.took [e] (some (room - e.text.toUTF8.size))).mode = .stream := hmode
    rw [tellAll_cons_ok first, ih mode₁ rfl (by omega), took_cons, Nat.sub_sub]

/-- An output cuts off what there is no room for. -/
theorem tellAll_cut (events : List Event) (hmode : s.mode = .stream)
    (hroom : s.sink.room = some room) (h : room < (Event.output events).size) :
    ∃ s₁, tellAll events s = .error (.output Sink.full) s₁ ∧ s₁.mode = .stream ∧
      s₁.sink = ⟨s.sink.bytes ++ (Event.output events).extract 0 room, some 0⟩ := by
  induction events generalizing s room with
  | nil => exact absurd h (Nat.not_lt_zero _)
  | cons e events ih =>
    rw [Event.output_cons] at h ⊢
    rw [ByteArray.size_append] at h
    by_cases hfits : e.text.toUTF8.size ≤ room
    · have first := tell_fits hmode e hroom hfits
      have mode₁ : (s.took [e] (some (room - e.text.toUTF8.size))).mode = .stream := hmode
      obtain ⟨s₁, hs₁, hmode₁, hsink⟩ := ih mode₁ rfl (by omega)
      refine ⟨s₁, (tellAll_cons_ok first).trans hs₁, hmode₁, ?_⟩
      rw [hsink, ByteArray.extract_append_of_size_le hfits, ← ByteArray.append_assoc]
      simp [took, Event.output]
    · obtain ⟨s₁, hs₁, hmode₁, hsink⟩ := tell_cut hmode e hroom (by omega)
      refine ⟨s₁, ?_, hmode₁, ?_⟩
      · change EStateM.bind (tell e) _ s = _
        rw [EStateM.bind, hs₁]
      · rw [hsink, ByteArray.extract_append_of_le (by omega)]

theorem fail_eq_write (hmode : s.mode = .stream) (f : Fault) :
    fail f s = write (errorText (some f)) s := by
  obtain ⟨mode⟩ := s
  subst hmode
  rfl

theorem errorText_size (f : Fault) : 0 < (errorText (some f)).toUTF8.size := by
  have marker : "Error: ".utf8ByteSize = 7 := by decide
  simp only [errorText, errorMarker, String.toUTF8_eq_toByteArray, String.toByteArray_append,
    ByteArray.size_append, String.size_toByteArray]
  omega

end Session

/-! ## Whole runs -/

namespace Outcome

variable {x : EStateM.Result Stop Machine Unit} {s : Session} {o : Outcome}

/-- The end that is put out without a limit, put out to some room. -/
structure PutsOut (x : EStateM.Result Stop Machine Unit) (s : Session) (o : Outcome) : Prop where
  unlimited : o = ⟨o.fault, { s with sink := ⟨s.sink.bytes ++ (errorText o.fault).toUTF8, none⟩ }⟩
  fits (s' : Session) (room : Nat) (hmode : s'.mode = .stream) (hroom : s'.sink.room = some room)
    (h : (errorText o.fault).toUTF8.size ≤ room) : ofEnd (endWith id s' x)
      = .ok ⟨o.fault, { s' with
          sink := ⟨s'.sink.bytes ++ (errorText o.fault).toUTF8,
            some (room - (errorText o.fault).toUTF8.size)⟩ }⟩
  cut (s' : Session) (room : Nat) (hmode : s'.mode = .stream) (hroom : s'.sink.room = some room)
    (h : room < (errorText o.fault).toUTF8.size) : ofEnd (endWith id s' x)
      = .error (.output Sink.full
          ⟨s'.sink.bytes ++ (errorText o.fault).toUTF8.extract 0 room, some 0⟩)

theorem putsOut (hmode : s.mode = .stream) (hroom : s.sink.room = none)
    (h : ofEnd (endWith id s x) = .ok o) : PutsOut x s o := by
  cases x with
  | ok u m =>
    obtain rfl : ⟨none, s⟩ = o := Except.ok.inj h
    refine ⟨?_, fun s' room _ hroom' _ => ?_, fun _ room _ _ h => ?_⟩
    · obtain ⟨mode, breakpoints, ⟨bytes, room⟩⟩ := s
      subst hroom
      simp [errorText]
    · obtain ⟨mode', breakpoints', ⟨bytes', room'⟩⟩ := s'
      subst hroom'
      simp [errorText, endWith, ofEnd]
    · exact absurd h (Nat.not_lt_zero room)
  | error e m =>
    cases e with
    | outOfRounds => cases h
    | fault f =>
      have told := Session.write_unlimited (errorText (some f)) hroom
      rw [← Session.fail_eq_write hmode] at told
      simp only [endWith, ofEnd, told] at h
      obtain rfl := Except.ok.inj h
      refine ⟨rfl, fun s' room hmode' hroom' h => ?_, fun s' room hmode' hroom' h => ?_⟩
      · have told' := Session.write_fits (errorText (some f)) hroom' h
        rw [← Session.fail_eq_write hmode'] at told'
        simp only [endWith, ofEnd, told']
      · have told' := Session.write_cut (errorText (some f)) hroom' h
        rw [← Session.fail_eq_write hmode'] at told'
        simp only [endWith, ofEnd, told']
        rfl

/-- An output without room refuses the message of every fault. -/
theorem ofEnd_refused {f : Fault} {m : Machine} {bytes : ByteArray}
    (hmode : m.session.mode = .stream) (hsink : m.session.sink = ⟨bytes, some 0⟩) :
    ofEnd (.error (.fault f) m) = .error (.output Sink.full ⟨bytes, some 0⟩) := by
  have hroom : m.session.sink.room = some 0 := congrArg Sink.room hsink
  have told := Session.write_cut (errorText (some f)) hroom (Session.errorText_size f)
  rw [← Session.fail_eq_write hmode, hsink] at told
  simp only [ofEnd, told]
  simp [outputMessage]

end Outcome

/-- **An output that fills up loses only the tail.** -/
theorem full_sink_loses_tail {source : String} {settings : Settings} {rounds : Nat} {o : Outcome}
    (hmode : settings.mode = .stream) (h : runSource source settings none rounds = .ok o) (n : Nat) :
    let T := o.session.sink.bytes
    (T.size ≤ n → runSource source settings (some n) rounds
      = .ok { o with session := { o.session with sink := ⟨T, some (n - T.size)⟩ } }) ∧
    (n < T.size → ∃ sink, runSource source settings (some n) rounds
      = .error (.output Sink.full sink) ∧ sink.bytes = T.extract 0 n) := by
  intro T
  cases hcheck : settings.check with
  | error f =>
    rw [runSource, hcheck] at h
    cases h
  | ok u =>
  rw [runSource_eq hcheck, hmode] at h ⊢
  let begin (room : Option Nat) := Session.start .stream settings.breakpoints room
  obtain ⟨events, x, told⟩ := tells_runText settings.limits rounds source settings.watched
    (Machine.start (begin none))
  have free : runText settings.limits rounds source settings.watched (Machine.start (begin none))
      = endWith id ((begin none).took events none) x := by
    have ends := told (begin none)
    rwa [Session.tellAll_unlimited events rfl rfl] at ends
  rw [free] at h
  have puts := Outcome.putsOut rfl rfl h
  have bytes : T = Event.output events ++ (errorText o.fault).toUTF8 := by
    simp only [T]
    rw [puts.unlimited]
    simp [Session.took, begin, Session.start, Sink.empty]
  have limited := told (begin (some n))
  by_cases hfits : (Event.output events).size ≤ n
  · rw [Session.tellAll_fits events rfl rfl hfits] at limited
    change runText _ _ _ _ (Machine.start (begin (some n))) = _ at limited
    rw [limited, bytes, ByteArray.size_append]
    refine ⟨fun hsize => ?_, fun hsize => ?_⟩
    · have session := congrArg Outcome.session puts.unlimited
      rw [puts.fits _ _ rfl rfl (by omega), session, Nat.sub_sub]
      simp [Session.took, begin, Session.start, Sink.empty]
    · rw [puts.cut _ _ rfl rfl (by omega), ByteArray.extract_append_of_size_le hfits]
      refine ⟨_, rfl, ?_⟩
      simp [Session.took, begin, Session.start, Sink.empty]
  · obtain ⟨s₁, hs₁, hmode₁, hsink₁⟩ :=
      Session.tellAll_cut (s := begin (some n)) events rfl rfl (by omega)
    rw [hs₁] at limited
    obtain ⟨m₁, hm₁, limited⟩ := limited
    change runText _ _ _ _ (Machine.start (begin (some n))) = _ at limited
    subst hm₁
    rw [limited, bytes, ByteArray.size_append]
    refine ⟨fun hsize => by omega, fun _ => ⟨_, Outcome.ofEnd_refused hmode₁ hsink₁, ?_⟩⟩
    rw [ByteArray.extract_append_of_le (by omega)]
    simp [begin, Session.start, Sink.empty]

/-- Of two bytes that are printed, the first one is put out where there is room for one. -/
theorem full_sink_loses_tail_print :
    let settings := { Settings.standard with mode := .stream }
    ∃ o sink, runSource "print(7)" settings none 1 = .ok o ∧
      o.session.sink.bytes = "7\n".toUTF8 ∧
      runSource "print(7)" settings (some 1) 1 = .error (.output Sink.full sink) ∧
      sink.bytes = "7".toUTF8 := by
  intro settings
  have out : (runSource "print(7)" settings none 1).toOption.map (fun o => o.session.sink.bytes)
      = some "7\n".toUTF8 := by decide +kernel
  cases h : runSource "print(7)" settings none 1 with
  | error e =>
    rw [h] at out
    cases out
  | ok o =>
    rw [h] at out
    have bytes : o.session.sink.bytes = "7\n".toUTF8 := Option.some.inj out
    obtain ⟨-, cut⟩ := full_sink_loses_tail rfl h 1
    obtain ⟨sink, hrun, hsink⟩ := cut (by rw [bytes]; decide)
    refine ⟨o, sink, rfl, bytes, hrun, ?_⟩
    rw [hsink, bytes]
    decide

end SortTrace
