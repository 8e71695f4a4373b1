import SortTrace.Proofs.OneLine.Writer

/-!
# How logged states are counted

A session is asked to log values, to deliver printed texts and to tell of faults. A value that has
no document is not logged, and nothing changes. A state that has one is counted before it is
delivered: in report mode it is recorded as a step, which cannot fail, and in stream mode its line
is handed to the output piece by piece. Where the output refuses a piece the state has been counted
all the same, so the count is that of the states that were logged and of those that were refused
(`Channel.logs_counted`).

An output may refuse any piece and go on or not, so sessions are taken over outputs of every kind
here (`Channel`). The sessions of the machine are those over its sinks (`Channel.serve_ofSession`).
-/

namespace SortTrace

/-! ## Sessions of the machine -/

/-- What a session is asked to do. A value is logged with the lists as they are then. -/
inductive Request where
  | log (h : Heap) (v : Value) (line : Nat)
  | print (text : String)
  | fail (f : Fault)

/-- Is it asked to log a value that has a document? -/
def Request.isRecordable : Request → Bool
  | log h v _ => (v.toJson h).isOk
  | _ => false

namespace Session

/-- Log a value, if it has a document. -/
def logValue (h : Heap) (v : Value) (line : Nat) : EStateM Fault Session Unit := fun s =>
  match v.toJson h with
  | .error f => .error f s
  | .ok state => log state line s

/-- Do what is asked. -/
def serve : Request → EStateM Fault Session Unit
  | .log h v line => logValue h v line
  | .print text => print text
  | .fail f => fail f

end Session

/-- The builtin logs the value of its argument at the current line. -/
theorem Builtin.runLogState_value (v : Value) (m : Machine) : runLogState [v] m
    = match Session.logValue m.heap v m.line m.session with
      | .ok _ session => .ok .none { m with session }
      | .error f session => .error (.fault f) { m with session } := by
  cases hv : v.toJson m.heap with
  | error f =>
    have stopped : Run.read (fun h => v.toJson h) m = .error (.fault f) m := by
      change Run.of (v.toJson m.heap) m = _
      rw [hv]
      rfl
    simp only [Session.logValue, hv]
    exact Run.bind_error stopped
  | ok state =>
    have read : Run.read (fun h => v.toJson h) m = .ok state m := by
      change Run.of (v.toJson m.heap) m = _
      rw [hv]
      rfl
    simp only [Session.logValue, hv]
    have current : Run.line m = .ok m.line m := rfl
    refine (Run.bind_ok read).trans ((Run.bind_ok current).trans ?_)
    cases hs : Session.log state m.line m.session with
    | ok u session =>
      have traced : Run.trace (Session.log state m.line) m = .ok u { m with session } := by
        simp only [Run.trace, hs]
      exact Run.bind_ok traced
    | error f session =>
      have traced : Run.trace (Session.log state m.line) m
          = .error (.fault f) { m with session } := by
        simp only [Run.trace, hs]
      exact Run.bind_error traced

/-! ## Sessions over any output -/

namespace Writer

variable {ω : Type}

/-- Give the output pieces of a text, up to the first that it refuses. -/
def pieces (w : Writer ω) : List String → EStateM String ω Unit
  | [] => pure ()
  | piece :: rest => do
    w piece
    pieces w rest

end Writer

/-- A session over an output of any kind. -/
structure Channel (ω : Type) where
  mode : Mode
  breakpoints : List Nat
  out : ω
  steps : Array Step
  captured : String
  /-- The number of states that were counted. -/
  states : Nat

namespace Channel

variable {ω : Type} (w : Writer ω) (cut : Fault → List String)

/-- The pieces in which the line of a state is put out. -/
def statePieces (state : Report.Json) : List String :=
  [Session.stateMarker, state.oneLine, "\n"]

/-- Put out a text in pieces. -/
def put (pieces : List String) : EStateM Fault (Channel ω) Unit := fun c =>
  match w.pieces pieces c.out with
  | .ok _ out => .ok () { c with out }
  | .error refusal out => .error (.output refusal) { c with out }

/-- Log a value, if it has a document. -/
def log (h : Heap) (v : Value) (line : Nat) : EStateM Fault (Channel ω) Unit := fun c =>
  match v.toJson h with
  | .error f => .error f c
  | .ok state =>
    let counted := { c with states := c.states + 1 }
    match c.mode with
    | .stream => put w (statePieces state) counted
    | .report => .ok () { counted with
        steps := c.steps.push ⟨counted.states, line, state, c.breakpoints.contains line⟩ }

/-- Deliver a printed text. -/
def print (text : String) : EStateM Fault (Channel ω) Unit := fun c =>
  match c.mode with
  | .stream => put w [text] c
  | .report => .ok () { c with captured := c.captured ++ text }

/-- Tell of a fault. Its message is put out in pieces of its own. -/
def fail (f : Fault) : EStateM Fault (Channel ω) Unit := fun c =>
  match c.mode with
  | .stream => put w (Session.errorMarker :: (cut f ++ ["\n"])) c
  | .report => .ok () c

/-- Do what is asked. -/
def serve : Request → EStateM Fault (Channel ω) Unit
  | .log h v line => log w h v line
  | .print text => print w text
  | .fail f => fail w cut f

/-- What is left of a session, and the fault if there is one. -/
def answer : EStateM.Result Fault (Channel ω) Unit → Channel ω × Option Fault
  | .ok _ c => (c, none)
  | .error f c => (c, some f)

/-- Do what is asked, one request after the other, whatever becomes of each. The faults are kept
with the requests. -/
def serveAll : List Request → Channel ω → Channel ω × List (Request × Option Fault)
  | [], c => (c, [])
  | r :: requests, c =>
    let (c, fault) := answer (serve w cut r c)
    let (c, answers) := serveAll requests c
    (c, (r, fault) :: answers)

/-- How many states were logged. -/
def logged (answers : List (Request × Option Fault)) : Nat :=
  answers.countP fun a => a.1.isRecordable && a.2.isNone

/-- How many states were refused by the output. -/
def refused (answers : List (Request × Option Fault)) : Nat :=
  answers.countP fun a => a.1.isRecordable && a.2.isSome

/-- The value was logged: it has a document, is counted, and was recorded as one step or put out as
one whole line. -/
def Logged (h : Heap) (v : Value) (line : Nat) (c c' : Channel ω) : Prop :=
  ∃ state, v.toJson h = .ok state ∧ c'.states = c.states + 1 ∧ c'.captured = c.captured ∧
    match c.mode with
    | .report => c'.out = c.out ∧
      c'.steps = c.steps.push ⟨c.states + 1, line, state, c.breakpoints.contains line⟩
    | .stream => c'.steps = c.steps ∧ w.pieces (statePieces state) c.out = .ok () c'.out

/-- The value was not logged: it has no document, and nothing changed, or the output refused its
line, and only the output and the count changed. -/
def Unlogged (h : Heap) (v : Value) (f : Fault) (c c' : Channel ω) : Prop :=
  (v.toJson h = .error f ∧ c' = c) ∨
  ∃ state refusal, v.toJson h = .ok state ∧ c.mode = .stream ∧ f = .output refusal ∧
    w.pieces (statePieces state) c.out = .error refusal c'.out ∧
    c' = { c with out := c'.out, states := c.states + 1 }

/-! ### One request -/

variable {w cut} {h : Heap} {v : Value} {line : Nat} {c c' : Channel ω} {f : Fault}
  {ps : List String} {r : Request}

theorem put_ok (hput : put w ps c = .ok () c') :
    w.pieces ps c.out = .ok () c'.out ∧ c' = { c with out := c'.out } := by
  unfold put at hput
  split at hput
  · next hw =>
    cases hput
    exact ⟨hw, rfl⟩
  · cases hput

theorem put_error (hput : put w ps c = .error f c') : ∃ refusal, f = .output refusal ∧
    w.pieces ps c.out = .error refusal c'.out ∧ c' = { c with out := c'.out } := by
  unfold put at hput
  split at hput
  · cases hput
  · next hw =>
    cases hput
    exact ⟨_, rfl, hw, rfl⟩

theorem log_ok (hlog : log w h v line c = .ok () c') : Logged w h v line c c' := by
  unfold log at hlog
  split at hlog
  · cases hlog
  · next state hv =>
    refine ⟨state, hv, ?_⟩
    split at hlog
    · next hmode =>
      obtain ⟨put, rest⟩ := put_ok hlog
      rw [rest, hmode]
      exact ⟨rfl, rfl, rfl, put⟩
    · next hmode =>
      cases hlog
      rw [hmode]
      exact ⟨rfl, rfl, rfl, rfl⟩

theorem log_error (hlog : log w h v line c = .error f c') : Unlogged w h v f c c' := by
  unfold log at hlog
  split at hlog
  · next hv =>
    cases hlog
    exact .inl ⟨hv, rfl⟩
  · next state hv =>
    split at hlog
    · next hmode =>
      obtain ⟨refusal, rfl, put, rest⟩ := put_error hlog
      exact .inr ⟨state, refusal, hv, hmode, rfl, put, rest⟩
    · cases hlog

theorem answer_put (ps : List String) (c : Channel ω) :
    (answer (put w ps c)).1.mode = c.mode ∧ (answer (put w ps c)).1.states = c.states := by
  unfold put
  split <;> exact ⟨rfl, rfl⟩

/-- Whatever becomes of a request, it is counted if it is to log a value that has a document. -/
theorem answer_serve (r : Request) (c : Channel ω) :
    (answer (serve w cut r c)).1.mode = c.mode ∧
      (answer (serve w cut r c)).1.states = c.states + r.isRecordable.toNat := by
  obtain ⟨mode⟩ := c
  cases r with
  | log h v line =>
    rw [serve, log, Request.isRecordable]
    cases v.toJson h with
    | error f => exact ⟨rfl, rfl⟩
    | ok state =>
      cases mode with
      | stream => exact answer_put (statePieces state) _
      | report => exact ⟨rfl, rfl⟩
  | print text =>
    cases mode with
    | stream => exact answer_put [text] _
    | report => exact ⟨rfl, rfl⟩
  | fail f =>
    cases mode with
    | stream => exact answer_put _ _
    | report => exact ⟨rfl, rfl⟩

/-- In report mode only a value without a document is not logged. -/
theorem answer_serve_report (hmode : c.mode = .report) (hr : r.isRecordable = true) :
    (answer (serve w cut r c)).2 = none := by
  cases r with
  | log h v line =>
    cases hlog : log w h v line c with
    | ok u c' =>
      rw [serve, hlog]
      rfl
    | error f c' =>
      obtain ⟨hv, -⟩ | ⟨state, refusal, -, stream, -⟩ := log_error hlog
      · rw [Request.isRecordable, hv] at hr
        cases hr
      · cases hmode.symm.trans stream
  | print | fail => cases hr

/-! ### Requests in a row -/

theorem states_serveAll (w : Writer ω) (cut : Fault → List String) (requests : List Request)
    (c : Channel ω) :
    (serveAll w cut requests c).1.states = c.states + logged (serveAll w cut requests c).2
      + refused (serveAll w cut requests c).2 := by
  induction requests generalizing c with
  | nil => rfl
  | cons r requests ih =>
    have first : (answer (serve w cut r c)).1.states = c.states + r.isRecordable.toNat :=
      (answer_serve r c).2
    have others := ih (answer (serve w cut r c)).1
    rw [serveAll]
    simp only [logged, refused, List.countP_cons] at others ⊢
    rw [others, first]
    cases r.isRecordable <;> cases (answer (serve w cut r c)).2 <;> simp <;> omega

theorem refused_serveAll_report (w : Writer ω) (cut : Fault → List String)
    (requests : List Request) (hmode : c.mode = .report) :
    refused (serveAll w cut requests c).2 = 0 := by
  induction requests generalizing c with
  | nil => rfl
  | cons r requests ih =>
    have first : (answer (serve w cut r c)).1.mode = c.mode := (answer_serve r c).1
    have others := ih (first.trans hmode)
    rw [refused] at others ⊢
    rw [serveAll, List.countP_cons, others]
    cases hr : r.isRecordable with
    | false => rfl
    | true =>
      rw [answer_serve_report hmode hr]
      rfl

end Channel

/-! ## The output of a session -/

namespace Sink

variable {bytes : ByteArray} {room : Nat} {text : String}

theorem writer_unlimited :
    writer text ⟨bytes, none⟩ = .ok () ⟨bytes ++ text.toUTF8, none⟩ :=
  rfl

theorem writer_fits (h : text.toUTF8.size ≤ room) : writer text ⟨bytes, some room⟩
    = .ok () ⟨bytes ++ text.toUTF8, some (room - text.toUTF8.size)⟩ := by
  simp only [writer, write, if_pos h]

theorem writer_cut (h : room < text.toUTF8.size) : writer text ⟨bytes, some room⟩
    = .error full ⟨bytes ++ text.toUTF8.extract 0 room, some 0⟩ := by
  simp only [writer, write, if_neg (Nat.not_le.mpr h), outputMessage]

/-- A sink takes a text as it takes its pieces. -/
theorem pieces_writer (ps : List String) (out : Sink) :
    writer.pieces ps out = writer (String.join ps) out := by
  induction ps generalizing out with
  | nil =>
    obtain ⟨bytes, - | room⟩ := out
    · simp [Writer.pieces, writer, write]
      rfl
    · simp [Writer.pieces, writer, write]
      rfl
  | cons p ps ih =>
    have join : (String.join (p :: ps)).toUTF8 = p.toUTF8 ++ (String.join ps).toUTF8 := by simp
    have size := congrArg ByteArray.size join
    rw [ByteArray.size_append] at size
    change EStateM.bind (writer p) (fun _ => writer.pieces ps) out = _
    obtain ⟨bytes, - | room⟩ := out
    · rw [EStateM.bind, writer_unlimited, writer_unlimited, join, ← ByteArray.append_assoc]
      exact ih _
    by_cases hp : p.toUTF8.size ≤ room
    · rw [EStateM.bind, writer_fits hp]
      refine (ih _).trans ?_
      by_cases hps : (String.join ps).toUTF8.size ≤ room - p.toUTF8.size
      · rw [writer_fits hps, writer_fits (by omega), size, join, ByteArray.append_assoc,
          Nat.sub_sub]
      · rw [writer_cut (by omega), writer_cut (by omega), join,
          ByteArray.extract_append_of_size_le hp, ByteArray.append_assoc]
    · rw [EStateM.bind, writer_cut (by omega), writer_cut (by omega), join,
        ByteArray.extract_append_of_le (by omega)]

end Sink

namespace Channel

variable {cut : Fault → List String}

/-- A session of the machine. -/
def ofSession (s : Session) : Channel Sink :=
  { mode := s.mode
    breakpoints := s.breakpoints
    out := s.sink
    steps := s.steps
    captured := s.captured
    states := s.states }

/-- The end of something that a session of the machine does. -/
def ofResult : EStateM.Result Fault Session Unit → EStateM.Result Fault (Channel Sink) Unit
  | .ok _ s => .ok () (ofSession s)
  | .error f s => .error f (ofSession s)

theorem put_ofSession (ps : List String) (s : Session) :
    put Sink.writer ps (ofSession s) = ofResult (Session.write (String.join ps) s) := by
  have told := Sink.pieces_writer ps s.sink
  rw [put, show (ofSession s).out = s.sink from rfl, told]
  cases hs : Sink.write (String.join ps) s.sink with
  | ok u sink =>
    simp only [Sink.writer, Session.write, hs]
    rfl
  | error e sink =>
    have refusal : e = .output Sink.full := by
      have stopped : Session.write (String.join ps) s = .error e { s with sink } := by
        simp only [Session.write, hs]
      exact Session.write_error stopped
    simp only [Sink.writer, Session.write, hs, refusal]
    rfl

/-- What is asked of a session of the machine is done as over its sink. -/
theorem serve_ofSession (hcut : ∀ f, String.join (cut f) = f.message) (r : Request)
    (s : Session) : serve Sink.writer cut r (ofSession s) = ofResult (Session.serve r s) := by
  obtain ⟨mode, breakpoints, sink, steps, captured, states⟩ := s
  cases r with
  | log h v line =>
    rw [serve, log, Session.serve, Session.logValue]
    cases v.toJson h with
    | error f => rfl
    | ok state =>
      cases mode with
      | stream =>
        have text : String.join (statePieces state)
            = Session.stateMarker ++ state.oneLine ++ "\n" := by
          simp [statePieces, String.join]
        refine (put_ofSession (statePieces state)
          ⟨.stream, breakpoints, sink, steps, captured, states + 1⟩).trans ?_
        rw [text]
        rfl
      | report => rfl
  | print text =>
    cases mode with
    | stream =>
      have whole : String.join [text] = text := by simp [String.join]
      refine (put_ofSession [text] _).trans ?_
      rw [whole]
      rfl
    | report => rfl
  | fail f =>
    cases mode with
    | stream =>
      have text : String.join (Session.errorMarker :: (cut f ++ ["\n"]))
          = Session.errorMarker ++ f.message ++ "\n" := by
        rw [← hcut f]
        simp [String.join_cons, String.append_assoc]
      refine (put_ofSession _ _).trans ?_
      rw [text]
      rfl
    | report => rfl

/-- **States are counted before they are put out.** Logging a value succeeds, with one count and one
step or one whole line; or the value has no document, and nothing changes; or the output refuses the
line, and the state is counted all the same. So the count of a session is that of the states that
were logged and of those that were refused, and in report mode none is refused. This is so over
every output, and the sessions of the machine are those over its sinks. The builtin of a script logs
its argument to them, at the current line. -/
theorem logs_counted {ω : Type} (w : Writer ω) (cut : Fault → List String) (c : Channel ω) :
    (∀ h v line c', log w h v line c = .ok () c' → Logged w h v line c c') ∧
    (∀ h v line f c', log w h v line c = .error f c' → Unlogged w h v f c c') ∧
    (∀ requests, let (c', answers) := serveAll w cut requests c
      c'.states = c.states + logged answers + refused answers ∧
        (c.mode = .report → refused answers = 0)) ∧
    ((∀ f, String.join (cut f) = f.message) → ∀ (r : Request) (s : Session),
      serve Sink.writer cut r (ofSession s) = ofResult (Session.serve r s)) ∧
    ∀ (v : Value) (m : Machine), Builtin.runLogState [v] m
      = match Session.logValue m.heap v m.line m.session with
        | .ok _ session => .ok .none { m with session }
        | .error f session => .error (.fault f) { m with session } := by
  refine ⟨fun _ _ _ _ => log_ok, fun _ _ _ _ _ => log_error, fun requests => ?_, ?_,
    Builtin.runLogState_value⟩
  · exact ⟨states_serveAll w cut requests c, refused_serveAll_report w cut requests⟩
  · exact fun hcut => serve_ofSession hcut

/-- An output that refuses the second piece that it is given and takes all others. -/
theorem logs_counted_refused :
    let moody : Writer Nat := fun _ n => if n = 1 then .error "closed" 2 else .ok () (n + 1)
    let c : Channel Nat := ⟨.stream, [], 0, #[], "", 0⟩
    let log : Request := .log .empty (.int 1) 1
    let (c', answers) := serveAll moody (fun f => [f.message]) [log, log, .print "x"] c
    logged answers = 1 ∧ refused answers = 1 ∧ c'.states = 2 := by
  intro moody c log
  have counted := (logs_counted moody (fun f => [f.message]) c).2.2.1 [log, log, .print "x"]
  have once : logged (serveAll moody (fun f => [f.message]) [log, log, .print "x"] c).2 = 1 := by
    decide
  have refusal :
      refused (serveAll moody (fun f => [f.message]) [log, log, .print "x"] c).2 = 1 := by
    decide
  exact ⟨once, refusal, counted.1.trans (congrArg₂ (c.states + · + ·) once refusal)⟩

end Channel

/-- A state that does not fit is counted, although it is not logged. -/
theorem Session.refused_state_counted : ¬ ∀ (h : Heap) (v : Value) (line : Nat) (f : Fault)
    (s s' : Session), logValue h v line s = .error f s' → s'.states = s.states := by
  intro uncounted
  let counted : Session := { start .stream [] (some 3) with states := 1 }
  have refused : logValue .empty (.int 1) 1 (start .stream [] (some 3)) = _ :=
    write_cut (s := counted) "STATE:1\n" rfl (by decide)
  cases uncounted _ _ _ _ _ _ refused

end SortTrace
