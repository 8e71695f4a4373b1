import SortTrace.Proofs.MarkerLines

/-!
# Descriptions of errors

The description of a fault is one line whatever the script is, and so is the marker line that tells
of it. A refusal by the output is such a fault as well, told in the words of the output; so this is
stated for outputs of every kind (`Writer`), and it holds where their own words are one line.

A run never looks at its output: it puts out the texts of its events in order, and the first refusal
stops it. What a source comes to with an output is therefore settled by its events and by the way it
ends where nothing is refused (`Writer.deliver`). With an output that may be limited this is what
`runSource` gives (`settles_runSource`).

* `faults_told_in_one_line` — the fault of every outcome is described in one line, with every kind
  of output.
-/

namespace SortTrace

/-! ## Outputs -/

/-- An output with the state `ω`: what becomes of it when it is given a text, and how it describes
its failure where it refuses the text. -/
abbrev Writer (ω : Type) :=
  String → EStateM String ω Unit

namespace Writer

variable {ω : Type} (w : Writer ω) (mode : Mode)

/-- Put out a text in stream mode; in report mode nothing is written. -/
def put (text : String) : EStateM String ω Unit :=
  match mode with
  | .stream => w text
  | .report => pure ()

/-- Put out the texts of events in order. -/
def putAll : List Event → EStateM String ω Unit
  | [] => pure ()
  | e :: events => do
    w.put mode e.text
    putAll events

/-- Tell of the fault at which the run stopped. -/
def report (f : Fault) : EStateM (Option String) ω (Option Fault) := fun out =>
  match w.put mode (errorText (some f)) out with
  | .ok _ out => .ok (some f) out
  | .error refusal out => .error (some refusal) out

/-- What a run comes to that puts out the events and then ends so: the fault of its outcome, or the
refusal to be told of it. It has no outcome either where it is out of rounds. -/
def deliver (events : List Event) (ending : Option Stop) :
    EStateM (Option String) ω (Option Fault) := fun out =>
  match w.putAll mode events out, ending with
  | .error refusal out, _ => w.report mode (.output refusal) out
  | .ok _ out, none => .ok none out
  | .ok _ out, some (.fault f) => w.report mode f out
  | .ok _ out, some .outOfRounds => .error none out

/-- The output describes each of its failures in one line. -/
def RefusesInLine : Prop :=
  ∀ text out refusal out', w text out = .error refusal out' → Text.OneLine refusal

variable {w mode}

theorem RefusesInLine.putAll (hw : w.RefusesInLine) {events : List Event} {out out' : ω}
    {refusal : String} (h : w.putAll mode events out = .error refusal out') :
    Text.OneLine refusal := by
  induction events generalizing out with
  | nil => cases h
  | cons e events ih =>
    change EStateM.bind (w.put mode e.text) _ out = _ at h
    cases hput : w.put mode e.text out with
    | ok u out₁ =>
      simp only [EStateM.bind, hput] at h
      exact ih h
    | error refusal' out₁ =>
      simp only [EStateM.bind, hput] at h
      obtain ⟨rfl, rfl⟩ := EStateM.Result.error.inj h
      cases mode with
      | stream => exact hw _ _ _ _ hput
      | report => cases hput

/-- The fault of an outcome is one of the run or a refusal, and its line was put out last. -/
theorem told_of_deliver (hw : w.RefusesInLine) {events : List Event} {ending : Option Stop}
    {f : Fault} {out out' : ω} (h : w.deliver mode events ending out = .ok (some f) out') :
    (f.OneLine ∨ ending = some (.fault f)) ∧
      ∃ out₁, w.put mode (errorText (some f)) out₁ = .ok () out' := by
  have told {g : Fault} {out₁ : ω} (hr : w.report mode g out₁ = .ok (some f) out') :
      g = f ∧ w.put mode (errorText (some g)) out₁ = .ok () out' := by
    cases hput : w.put mode (errorText (some g)) out₁ with
    | error refusal out₂ =>
      simp only [report, hput] at hr
      cases hr
    | ok u out₂ =>
      simp only [report, hput] at hr
      obtain ⟨hg, rfl⟩ := EStateM.Result.ok.inj hr
      exact ⟨Option.some.inj hg, rfl⟩
  cases hall : w.putAll mode events out with
  | error refusal out₁ =>
    simp only [deliver, hall] at h
    obtain ⟨rfl, put⟩ := told h
    exact ⟨.inl (Fault.oneLine_output (hw.putAll hall)), out₁, put⟩
  | ok u out₁ =>
    rcases ending with - | ⟨g⟩ | -
    · simp only [deliver, hall] at h
      cases h
    · simp only [deliver, hall] at h
      obtain ⟨rfl, put⟩ := told h
      exact ⟨.inr rfl, out₁, put⟩
    · simp only [deliver, hall] at h
      cases h

end Writer

/-! ## The output of a session -/

/-- The sink of a session as an output. -/
def Sink.writer : Writer Sink := fun text out =>
  match Sink.write text out with
  | .ok _ out => .ok () out
  | .error e out => .error (outputMessage e) out

/-- A sink takes a text behind all that it has, or it is full. -/
theorem Sink.writer_apply (text : String) (out : Sink) :
    (∃ room, writer text out = .ok () ⟨out.bytes ++ text.toUTF8, room⟩) ∨
    ∃ out', writer text out = .error full out' := by
  obtain ⟨bytes, - | room⟩ := out
  · exact .inl ⟨none, rfl⟩
  by_cases h : text.toUTF8.size ≤ room
  · refine .inl ⟨some (room - text.toUTF8.size), ?_⟩
    simp only [writer, write, if_pos h]
  · refine .inr ⟨⟨bytes ++ text.toUTF8.extract 0 room, some 0⟩, ?_⟩
    simp only [writer, write, if_neg h, outputMessage]

theorem Sink.refusesInLine : Sink.writer.RefusesInLine := by
  intro text out refusal out' h
  obtain ⟨room, told⟩ | ⟨sink, told⟩ := Sink.writer_apply text out
  · cases told.symm.trans h
  · obtain ⟨rfl, rfl⟩ := EStateM.Result.error.inj (told.symm.trans h)
    exact .literal rfl

/-- What a session did with a text or with events is what its sink does with them. -/
def Session.PutsOut (s : Session) (x : EStateM.Result String Sink Unit) :
    EStateM.Result Fault Session Unit → Prop
  | .ok _ s₁ => x = .ok () s₁.sink ∧ s₁.mode = s.mode
  | .error e s₁ => e = .output Sink.full ∧ x = .error Sink.full s₁.sink ∧ s₁.mode = s.mode

namespace Session

variable (s : Session)

theorem putsOut_write (text : String) :
    s.PutsOut (Sink.writer text s.sink) (write text s) := by
  cases hw : write text s with
  | ok u s₁ =>
    cases hsink : Sink.write text s.sink with
    | ok u sink =>
      simp only [write, hsink] at hw
      obtain ⟨-, rfl⟩ := EStateM.Result.ok.inj hw
      exact ⟨by simp only [Sink.writer, hsink], rfl⟩
    | error e sink =>
      simp only [write, hsink] at hw
      cases hw
  | error e s₁ =>
    obtain rfl := write_error hw
    cases hsink : Sink.write text s.sink with
    | ok u sink =>
      simp only [write, hsink] at hw
      cases hw
    | error e sink =>
      simp only [write, hsink] at hw
      obtain ⟨rfl, rfl⟩ := EStateM.Result.error.inj hw
      refine ⟨rfl, ?_, rfl⟩
      simp only [Sink.writer, hsink, outputMessage]

theorem putsOut_tell (e : Event) :
    s.PutsOut (Sink.writer.put s.mode e.text s.sink) (tell e s) := by
  obtain ⟨mode⟩ := s
  cases mode with
  | stream => cases e <;> exact putsOut_write _ _
  | report => cases e <;> exact ⟨rfl, rfl⟩

theorem putsOut_fail (f : Fault) :
    s.PutsOut (Sink.writer.put s.mode (errorText (some f)) s.sink) (fail f s) := by
  obtain ⟨mode⟩ := s
  cases mode with
  | stream => exact putsOut_write _ _
  | report => exact ⟨rfl, rfl⟩

theorem putsOut_tellAll (events : List Event) :
    s.PutsOut (Sink.writer.putAll s.mode events s.sink) (tellAll events s) := by
  induction events generalizing s with
  | nil => exact ⟨rfl, rfl⟩
  | cons e events ih =>
    have first := putsOut_tell s e
    change s.PutsOut (EStateM.bind (Sink.writer.put s.mode e.text) _ s.sink)
      (EStateM.bind (tell e) _ s)
    cases he : tell e s with
    | ok u s₁ =>
      rw [he] at first
      obtain ⟨put, mode⟩ := first
      have rest := ih s₁
      rw [mode] at rest
      simp only [EStateM.bind, put, he]
      generalize Sink.writer.putAll s.mode events s₁.sink = x at rest ⊢
      generalize tellAll events s₁ = y at rest ⊢
      cases y with
      | ok u s₂ => exact ⟨rest.1, rest.2.trans mode⟩
      | error e s₂ => exact ⟨rest.1, rest.2.1, rest.2.2.trans mode⟩
    | error e s₁ =>
      rw [he] at first
      simp only [EStateM.bind, first.2.1, he]
      exact ⟨first.1, rfl, first.2.2⟩

end Session

/-! ## Sources -/

/-- What a source comes to with the sink of its session: with the fault and with the sink that
`Writer.deliver` leaves, or with its failure. -/
def Outcome.Settled (o : Except Failure Outcome) :
    EStateM.Result (Option String) Sink (Option Fault) → Prop
  | .ok fault sink => ∃ outcome, o = .ok outcome ∧ outcome.fault = fault ∧
      outcome.session.sink = sink
  | .error (some refusal) sink => o = .error (.output refusal sink)
  | .error none _ => o = .error .outOfRounds

theorem Outcome.settled_fault {f : Fault} {m : Machine} {s : Session} (hm : m.session = s) :
    Settled (ofEnd (.error (.fault f) m)) (Sink.writer.report s.mode f s.sink) := by
  have told := s.putsOut_fail f
  subst hm
  rw [ofEnd]
  cases hs : m.session.fail f with
  | ok u s₁ =>
    rw [hs] at told
    simp only [Writer.report, told.1]
    exact ⟨_, rfl, rfl, rfl⟩
  | error e s₁ =>
    rw [hs] at told
    obtain ⟨rfl, told, -⟩ := told
    simp only [Writer.report, told]
    rfl

/-- How a run ends that tells its session nothing of its own: where no text was refused. -/
def Stop.ofEnd : EStateM.Result Stop Machine Unit → Option Stop
  | .ok .. => none
  | .error e _ => some e

/-- What a source puts out and how it ends settles what it comes to with each sink. -/
theorem settles_runSource (source : String) {settings : Settings} {rounds : Nat}
    (hvalid : settings.check = .ok ()) : ∃ (events : List Event) (ending : Option Stop),
    (∀ f, ending = some (.fault f) → f.OneLine) ∧
    ∀ room, Outcome.Settled (runSource source settings room rounds)
      (Sink.writer.deliver settings.mode events ending (.empty room)) := by
  let start (room : Option Nat) := Session.start settings.mode settings.breakpoints room
  obtain ⟨events, x, told⟩ := tells_runText settings.limits rounds source settings.watched
    (Machine.start (start none))
  refine ⟨events, Stop.ofEnd x, fun f hf => ?_, fun room => ?_⟩
  · let free := Session.start .stream settings.breakpoints none
    have ends := told free
    rw [Session.tellAll_unlimited events rfl rfl] at ends
    change runText _ _ _ _ (Machine.start free) = _ at ends
    have neat := Neatly.runText settings.limits rounds source settings.watched
      (Machine.start free) (.start _)
    rw [ends] at neat
    cases x with
    | ok u m => cases hf
    | error e m =>
      obtain rfl := Option.some.inj hf
      cases neat with
      | fault h => exact h
  have all := (start room).putsOut_tellAll events
  have ends := told (start room)
  rw [runSource_eq hvalid]
  change Outcome.Settled (Outcome.ofEnd (runText _ _ _ _ (Machine.start (start room)))) _
  change Session.PutsOut _ (Sink.writer.putAll settings.mode events (.empty room)) _ at all
  cases hs : Session.tellAll events (start room) with
  | error e s₁ =>
    rw [hs] at all ends
    obtain ⟨rfl, all, mode⟩ := all
    obtain ⟨m₁, rfl, ends⟩ := ends
    change runText _ _ _ _ (Machine.start (start room)) = _ at ends
    simp only [Writer.deliver, all]
    rw [ends, ← show m₁.session.mode = settings.mode from mode]
    exact Outcome.settled_fault rfl
  | ok u s₁ =>
    rw [hs] at all ends
    obtain ⟨all, mode⟩ := all
    change runText _ _ _ _ (Machine.start (start room)) = _ at ends
    simp only [Writer.deliver, all]
    rw [ends]
    cases x with
    | ok u m => exact ⟨_, rfl, rfl, rfl⟩
    | error e m =>
      cases e with
      | fault f =>
        rw [← show s₁.mode = settings.mode from mode]
        exact Outcome.settled_fault rfl
      | outOfRounds => rfl

/-- **Faults are told in one line.** -/
theorem faults_told_in_one_line (source : String) (settings : Settings) (rounds : Nat)
    (hvalid : settings.check = .ok ()) :
    let Told (f : Fault) := Text.OneLine f.message ∧
      Text.lines (errorText (some f)) = [Session.errorMarker ++ f.message, ""]
    (∀ room o f, runSource source settings room rounds = .ok o → o.fault = some f →
      Told f ∧ (settings.mode = .stream →
        ∃ before, o.session.sink.bytes = before ++ (errorText (some f)).toUTF8)) ∧
    ∃ (events : List Event) (ending : Option Stop),
      (∀ room, Outcome.Settled (runSource source settings room rounds)
        (Sink.writer.deliver settings.mode events ending (.empty room))) ∧
      ∀ {ω : Type} (w : Writer ω) (out out' : ω) (f : Fault), w.RefusesInLine →
        w.deliver settings.mode events ending out = .ok (some f) out' →
        Told f ∧ (settings.mode = .stream →
          ∃ out₁, w (errorText (some f)) out₁ = .ok () out') := by
  intro Told
  obtain ⟨events, ending, inLine, settled⟩ := settles_runSource source hvalid
  have told {ω : Type} (w : Writer ω) (out out' : ω) (f : Fault) (hw : w.RefusesInLine)
      (h : w.deliver settings.mode events ending out = .ok (some f) out') :
      Told f ∧ (settings.mode = .stream →
        ∃ out₁, w (errorText (some f)) out₁ = .ok () out') := by
    obtain ⟨own, out₁, put⟩ := Writer.told_of_deliver hw h
    have hf : f.OneLine := own.elim id (inLine f)
    have marker : Text.OneLine (Session.errorMarker ++ f.message) := .append (.literal rfl) hf
    have cut := Text.lines_line marker ""
    rw [String.append_empty] at cut
    refine ⟨⟨hf, cut⟩, fun hmode => ⟨out₁, ?_⟩⟩
    rwa [hmode] at put
  refine ⟨fun room o f ho hf => ?_, events, ending, settled, told⟩
  have written := settled room
  rw [ho] at written
  cases hd : Sink.writer.deliver settings.mode events ending (.empty room) with
  | error refusal sink =>
    rw [hd] at written
    cases refusal <;> cases written
  | ok fault sink =>
    rw [hd] at written
    obtain ⟨_, ⟨⟩, rfl, rfl⟩ := written
    rw [hf] at hd
    obtain ⟨one, put⟩ := told _ _ _ f Sink.refusesInLine hd
    refine ⟨one, fun hmode => ?_⟩
    obtain ⟨sink₁, put⟩ := put hmode
    obtain ⟨room, put'⟩ | ⟨sink, put'⟩ := Sink.writer_apply (errorText (some f)) sink₁
    · exact ⟨sink₁.bytes, congrArg Sink.bytes (EStateM.Result.ok.inj (put.symm.trans put')).2⟩
    · cases put.symm.trans put'

/-- A string with line ends in it is searched for, with an output that refuses its first text. -/
theorem faults_told_in_one_line_searched :
    let source := "x = [\"a\\nb\"]\nx.index([\"a\\nb\\rc\", x])"
    let message := "['a\\nb\\rc', ['a\\nb']] is not in list"
    let reopened : Writer Nat := fun _ n => if n = 0 then .error "closed" 1 else .ok () (n + 1)
    Settings.standard.check = .ok () ∧
    (∃ o, runSource source Settings.standard none 1 = .ok o ∧
      Text.lines (errorText o.fault) = ["Error: " ++ message, ""]) ∧
    ∃ events ending, ∀ f n, reopened.deliver .stream events ending 0 = .ok (some f) n →
      Text.OneLine f.message := by
  intro source message reopened
  have valid : Settings.standard.check = .ok () := by decide
  have one : reopened.RefusesInLine := by
    intro text n refusal n' h
    by_cases hn : n = 0
    · simp only [reopened, if_pos hn] at h
      obtain ⟨rfl, rfl⟩ := EStateM.Result.error.inj h
      exact .literal rfl
    · simp only [reopened, if_neg hn] at h
      cases h
  obtain ⟨sink, events, ending, -, told⟩ := faults_told_in_one_line source Settings.standard 1 valid
  refine ⟨valid, ?_, events, ending, fun f n h => (told reopened 0 n f one h).1.1⟩
  have stopped : (runSource source Settings.standard none 1).toOption.map
      (fun o => o.fault.map Fault.message) = some (some message) := by decide +kernel
  cases ho : runSource source Settings.standard none 1 with
  | error e =>
    rw [ho] at stopped
    cases stopped
  | ok o =>
    rw [ho] at stopped
    obtain ⟨f, hf, hmessage⟩ := Option.map_eq_some_iff.mp (Option.some.inj stopped)
    have line := (sink none o f ho hf).1.2
    rw [hmessage, ← hf] at line
    exact ⟨o, rfl, line⟩

end SortTrace
