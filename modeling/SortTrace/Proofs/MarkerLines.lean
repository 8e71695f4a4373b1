import SortTrace.Proofs.FullSink
import SortTrace.Proofs.Instrumenting.Origins
import SortTrace.Proofs.Modes
import SortTrace.Proofs.OneLine.Program

/-!
# Lines with markers

In stream mode what a script prints and the markers of the session share one output, and nothing
starts a new line before a marker: it stands behind whatever was printed since the last newline. As
neither the document of a state nor the message of a fault holds a newline, and a newline follows
both, each marker ends the line it stands on (`markers_end_lines`), and it is all of that line where
every text that was printed ended its own (`Event.markerLines_of_ended`).
-/

namespace SortTrace

open Report (Json)

/-! ## The last line -/

namespace Text

/-- The last line of a text: what stands behind its last newline. -/
def lastLine (s : String) : String :=
  (lines s).getLastD ""

variable {s t : String}

/-- Behind a text another one goes on with its last line. -/
theorem splitLines_append (cs : List Char) : ∃ before last, splitLines cs = before ++ [last] ∧
    ∀ ds, splitLines (cs ++ ds) = before ++ splitLines (last ++ ds) := by
  induction cs with
  | nil => exact ⟨[], [], rfl, fun _ => rfl⟩
  | cons c cs ih =>
    obtain ⟨before, last, hcs, happend⟩ := ih
    by_cases hc : c = '\n'
    · subst hc
      exact ⟨[] :: before, last, by simp [splitLines, hcs], fun ds => by
        simp [splitLines, happend]⟩
    · cases before with
      | nil =>
        refine ⟨[], c :: last, by simp [splitLines, hc, hcs], fun ds => ?_⟩
        simp [splitLines, hc, happend]
      | cons line before =>
        refine ⟨(c :: line) :: before, last, by simp [splitLines, hc, hcs], fun ds => ?_⟩
        simp [splitLines, hc, happend]

theorem lines_append (s : String) : ∃ before, lines s = before ++ [lastLine s] ∧
    ∀ t, lines (s ++ t) = before ++ lines (lastLine s ++ t) := by
  obtain ⟨before, last, hs, happend⟩ := splitLines_append s.toList
  have cut : lines s = before.map String.ofList ++ [String.ofList last] := by
    rw [lines, hs, List.map_append]
    rfl
  have final : lastLine s = String.ofList last := by
    rw [lastLine, cut, List.getLastD_concat]
  refine ⟨before.map String.ofList, by rw [cut, final], fun t => ?_⟩
  rw [final, lines, lines, String.toList_append, String.toList_append, String.toList_ofList,
    happend, List.map_append]

/-- The last line of a text goes on where another text stands behind it. -/
theorem lastLine_append (s t : String) : lastLine (s ++ t) = lastLine (lastLine s ++ t) := by
  obtain ⟨before, -, happend⟩ := lines_append s
  obtain ⟨more, hmore, -⟩ := lines_append (lastLine s ++ t)
  rw [lastLine, happend, hmore, ← List.append_assoc, List.getLastD_concat]

theorem oneLine_lastLine (s : String) : OneLine (lastLine s) := by
  obtain ⟨before, hs, -⟩ := lines_append s
  have member : lastLine s ∈ lines s := by
    rw [hs]
    exact List.mem_append_right _ (List.mem_singleton_self _)
  obtain ⟨line, hline, heq⟩ := List.mem_map.mp member
  rw [← heq, oneLine_ofList]
  exact splitLines_onLine _ line hline

theorem splitLines_line {cs : List Char} (h : '\n' ∉ cs) (ds : List Char) :
    splitLines (cs ++ '\n' :: ds) = cs :: splitLines ds := by
  induction cs with
  | nil => rfl
  | cons c cs ih =>
    obtain ⟨hc, hcs⟩ := not_or.mp (mt List.mem_cons.mpr h)
    simp [splitLines, Ne.symm hc, ih hcs]

/-- A text on one line, and a newline behind it, is a line. -/
theorem lines_line (h : OneLine s) (t : String) : lines (s ++ "\n" ++ t) = s :: lines t := by
  rw [lines, String.append_assoc, String.toList_append, String.toList_append]
  change (splitLines (s.toList ++ '\n' :: t.toList)).map String.ofList = _
  rw [splitLines_line h, List.map_cons, String.ofList_toList]
  rfl

/-- Behind a newline nothing is left of a line. -/
theorem lastLine_newline (s : String) : lastLine (s ++ "\n") = "" := by
  have cut := lines_line (oneLine_lastLine s) ""
  rw [String.append_empty] at cut
  rw [lastLine_append, lastLine, cut]
  rfl

end Text

/-! ## The lines of the markers -/

namespace Event

/-- The lines that the states end, where the events follow what is written before: the marker and
the document of each stand behind the last line of what precedes them. -/
def markerLines : (written : String) → List Event → List String
  | _, [] => []
  | written, .printed text :: events => markerLines (written ++ text) events
  | written, .logged state line :: events =>
    (Text.lastLine written ++ Session.stateMarker ++ state.oneLine)
      :: markerLines (written ++ text (.logged state line)) events

theorem length_markerLines (written : String) (events : List Event) :
    (markerLines written events).length = (states events).length := by
  induction events generalizing written with
  | nil => rfl
  | cons e events ih =>
    cases e with
    | printed text => exact ih _
    | logged state line => exact congrArg (· + 1) (ih _)

theorem lastLine_logged (written : String) (state : Json) (line : Nat) :
    Text.lastLine (written ++ text (.logged state line)) = "" := by
  rw [text, ← String.append_assoc, Text.lastLine_newline]

/-- The lines of the states are among the lines of the output, in order. -/
theorem markerLines_sublist (written : String) (events : List Event) (more : String) :
    (markerLines written events).Sublist
      (Text.lines (Text.lastLine written ++ (String.join (events.map text) ++ more))) := by
  induction events generalizing written with
  | nil => exact List.nil_sublist _
  | cons e events ih =>
    rw [List.map_cons, String.join_cons, String.append_assoc]
    cases e with
    | printed printed =>
      obtain ⟨before, -, goesOn⟩ := Text.lines_append (Text.lastLine written ++ printed)
      rw [text, ← String.append_assoc, goesOn, ← Text.lastLine_append]
      exact (ih _).trans (List.sublist_append_right _ _)
    | logged state line =>
      have marker : Text.OneLine (Text.lastLine written ++ Session.stateMarker ++ state.oneLine) :=
        .append (.append (Text.oneLine_lastLine written) (.literal rfl)) state.oneLine_oneLine
      have next := ih (written ++ text (.logged state line))
      rw [lastLine_logged, String.empty_append] at next
      have told : Text.lastLine written
            ++ (text (.logged state line) ++ (String.join (events.map text) ++ more))
          = Text.lastLine written ++ Session.stateMarker ++ state.oneLine ++ "\n"
            ++ (String.join (events.map text) ++ more) := by
        simp [text, String.append_assoc]
      rw [told, Text.lines_line marker]
      exact next.cons_cons _

/-- Where every printed text ends its last line, the marker of a state is all of its line. -/
theorem markerLines_of_ended (written : String) (events : List Event)
    (hw : Text.lastLine written = "")
    (h : ∀ printed, .printed printed ∈ events → Text.lastLine printed = "") :
    markerLines written events
        = (states events).map (fun s => Session.stateMarker ++ s.1.oneLine) ∧
      Text.lastLine (written ++ String.join (events.map text)) = "" := by
  induction events generalizing written with
  | nil => exact ⟨rfl, by simpa using hw⟩
  | cons e events ih =>
    have others := fun printed hp => h printed (List.mem_cons_of_mem e hp)
    cases e with
    | printed printed =>
      have ended : Text.lastLine (written ++ printed) = "" := by
        rw [Text.lastLine_append, hw, String.empty_append]
        exact h printed List.mem_cons_self
      have rest := ih _ ended others
      rw [String.append_assoc] at rest
      rwa [List.map_cons, String.join_cons]
    | logged state line =>
      obtain ⟨lines, last⟩ := ih _ (lastLine_logged written state line) others
      rw [String.append_assoc] at last
      refine ⟨?_, by rwa [List.map_cons, String.join_cons]⟩
      rw [markerLines, lines, hw, String.empty_append]
      rfl

end Event

/-- The message of a fault ends the last line of the output that is not empty. -/
theorem lines_errorText {f : Fault} (hf : f.OneLine) (written : String) :
    ∃ before, Text.lines (written ++ errorText (some f))
      = before ++ [Text.lastLine written ++ Session.errorMarker ++ f.message, ""] := by
  obtain ⟨before, -, goesOn⟩ := Text.lines_append written
  have marker : Text.OneLine (Text.lastLine written ++ Session.errorMarker ++ f.message) :=
    .append (.append (Text.oneLine_lastLine written) (.literal rfl)) hf
  have told : Text.lastLine written ++ errorText (some f)
      = Text.lastLine written ++ Session.errorMarker ++ f.message ++ "\n" ++ "" := by
    simp [errorText, String.append_assoc]
  exact ⟨before, by rw [goesOn, told, Text.lines_line marker]; rfl⟩

/-! ## Sources -/

/-- A session in report mode takes all events. -/
theorem Session.Reported.tellAll {s : Session} {events : List Event} (h : s.Reported events)
    (more : List Event) : ∃ s₁, Session.tellAll more s = .ok () s₁ ∧
      s₁.breakpoints = s.breakpoints ∧ s₁.Reported (events ++ more) := by
  induction more generalizing s events with
  | nil => exact ⟨s, rfl, rfl, by rwa [List.append_nil]⟩
  | cons e more ih =>
    obtain ⟨s₁, hs₁, hb, reported⟩ : ∃ s₁, tell e s = .ok () s₁ ∧
        s₁.breakpoints = s.breakpoints ∧ s₁.Reported (events ++ [e]) := by
      cases e with
      | printed text => exact h.print text
      | logged state line => exact h.log state line
    obtain ⟨s₂, hs₂, hb', reported⟩ := ih reported
    rw [List.append_assoc] at reported
    exact ⟨s₂, (tellAll_cons_ok hs₁).trans hs₂, hb'.trans hb, reported⟩

/-- **Each marker ends the line it stands on.** -/
theorem markers_end_lines (source : String) (settings : Settings) (rounds : Nat)
    (hvalid : settings.check = .ok ()) :
    let streamRun := runSource source { settings with mode := .stream } none rounds
    let reportRun := runSource source { settings with mode := .report } none rounds
    streamRun = .error .outOfRounds ∨
    ∃ (events : List Event) (o o' : Outcome), streamRun = .ok o ∧ reportRun = .ok o' ∧
      o'.session.steps.toList = Event.steps settings.breakpoints events ∧
      o'.session.captured = String.join (events.map Event.printedText) ∧
      let written := String.join (events.map Event.text)
      let output := written ++ errorText o.fault
      o.session.sink.bytes = output.toUTF8 ∧
      o.session.states = (Event.markerLines "" events).length ∧
      (Event.markerLines "" events).Sublist (Text.lines output) ∧
      (∀ f, o.fault = some f → ∃ before, Text.lines output
        = before ++ [Text.lastLine written ++ Session.errorMarker ++ f.message, ""]) ∧
      ((∀ text, .printed text ∈ events → Text.lastLine text = "") →
        Event.markerLines "" events
          = (Event.states events).map (fun s => Session.stateMarker ++ s.1.oneLine) ∧
        Text.lastLine written = "") := by
  intro streamRun reportRun
  let start (mode : Mode) := Session.start mode settings.breakpoints none
  obtain ⟨events, x, told⟩ := tells_runText settings.limits rounds source settings.watched
    (Machine.start (start .stream))
  obtain ⟨s', hs', hb, reported⟩ := (Session.Reported.start settings.breakpoints).tellAll events
  let s := (start .stream).took events none
  have streamEnd : runText settings.limits rounds source settings.watched
      (Machine.start (start .stream)) = endWith id s x := by
    have ends := told (start .stream)
    rwa [Session.tellAll_unlimited events rfl rfl] at ends
  have reportEnd : runText settings.limits rounds source settings.watched
      (Machine.start (start .report)) = endWith id s' x := by
    have ends := told (start .report)
    rwa [hs'] at ends
  have neat := Neatly.runText settings.limits rounds source settings.watched
    (Machine.start (start .stream)) (.start _)
  rw [streamEnd] at neat
  have check (mode : Mode) : Settings.check { settings with mode := mode } = .ok () := hvalid
  have stream : streamRun = Outcome.ofEnd (endWith id s x) := by
    rw [← streamEnd]
    exact runSource_eq (check .stream)
  have report : reportRun = Outcome.ofEnd (endWith id s' x) := by
    rw [← reportEnd]
    exact runSource_eq (check .report)
  have steps : s'.steps.toList = Event.steps settings.breakpoints events := by
    rw [reported.steps, hb]
    rfl
  have bytes : s.sink.bytes = Event.output events := ByteArray.empty_append
  have states : s.states = (Event.markerLines "" events).length := by
    rw [Event.length_markerLines]
    exact Nat.zero_add _
  have among (more : String) := Event.markerLines_sublist "" events more
  have ended := Event.markerLines_of_ended "" events rfl
  rw [String.empty_append] at ended
  cases x with
  | ok u m =>
    refine .inr ⟨events, ⟨none, s⟩, ⟨none, s'⟩, stream, report, steps, reported.captured, ?_,
      states, among _, nofun, ended⟩
    rw [bytes, errorText, String.append_empty, Event.output]
  | error e m =>
    cases e with
    | outOfRounds => exact .inl stream
    | fault f =>
      have hf : f.OneLine := by
        cases neat with
        | fault h => exact h
      refine .inr ⟨events, _, ⟨some f, s'⟩, stream.trans (Outcome.ofEnd_fault rfl rfl),
        report.trans ?_, steps, reported.captured, ?_, states, among _, ?_, ended⟩
      · simp only [endWith, Outcome.ofEnd, Session.fail_report f reported.mode]
      · simp [bytes, Event.output]
      · rintro _ ⟨⟩
        exact lines_errorText hf _

/-- A state is marked and a subscript fails, with a text before it that does not end its line. -/
theorem markers_end_lines_unended :
    let source := "arr = [1]\narr[0] = 2\nprint(\"x\", end=\"\")\narr[1]\n"
    let output := "STATE:[2]\nxError: list index out of range\n"
    Settings.standard.check = .ok () ∧
    ∃ (o : Outcome) (events : List Event), runSource source Settings.standard none 1 = .ok o ∧
      o.session.sink.bytes = output.toUTF8 ∧ (Event.markerLines "" events).length = 1 ∧
      (Event.markerLines "" events).Sublist (Text.lines output) ∧
      ∃ before last, Text.lines output
        = before ++ [last ++ "Error: list index out of range", ""] := by
  intro source output
  have valid : Settings.standard.check = .ok () := by decide
  have told : (runSource source Settings.standard none 1).toOption.map (fun o =>
      (o.session.states, o.fault.map Fault.message, o.session.sink.bytes))
      = some (1, some "list index out of range", output.toUTF8) := by decide +kernel
  refine ⟨valid, ?_⟩
  rcases markers_end_lines source Settings.standard 1 valid with
    out | ⟨events, o, -, ho, -, -, -, bytes, states, among, last, -⟩
  · change runSource source Settings.standard none 1 = _ at out
    rw [out] at told
    cases told
  · change runSource source Settings.standard none 1 = _ at ho
    rw [ho] at told
    have seen := Option.some.inj told
    have hbytes : o.session.sink.bytes = output.toUTF8 := congrArg (·.2.2) seen
    have hstates : o.session.states = 1 := congrArg Prod.fst seen
    obtain ⟨f, hf, message⟩ : ∃ f, o.fault = some f ∧ f.message = "list index out of range" :=
      Option.map_eq_some_iff.mp (congrArg (·.2.1) seen)
    have same := String.toByteArray_inj.mp (bytes.symm.trans hbytes)
    rw [same] at among last
    obtain ⟨before, hlines⟩ := last f hf
    rw [message, String.append_assoc] at hlines
    exact ⟨o, events, ho, hbytes, states.symm.trans hstates, among, before, _, hlines⟩

/-- A marker is no line of its own where the text before it does not end its line. -/
theorem marker_behind_text :
    let source := "arr = [1]\nprint(\"x\", end=\"\")\narr[0] = 2\n"
    ∃ o, runSource source Settings.standard none 1 = .ok o ∧ o.session.states = 1 ∧
      o.session.sink.bytes = "xSTATE:[2]\n".toUTF8 ∧
      ∀ state : Json, Session.stateMarker ++ state.oneLine ∉ Text.lines "xSTATE:[2]\n" := by
  intro source
  have told : (runSource source Settings.standard none 1).toOption.map (fun o =>
      (o.session.states, o.session.sink.bytes)) = some (1, "xSTATE:[2]\n".toUTF8) := by
    decide +kernel
  have apart (state : Json) : Session.stateMarker ++ state.oneLine ∉ Text.lines "xSTATE:[2]\n" := by
    have lines : Text.lines "xSTATE:[2]\n" = ["xSTATE:[2]", ""] := by decide
    have first : (Session.stateMarker ++ state.oneLine).toList.head? = some 'S' := by
      rw [String.toList_append]
      rfl
    rw [lines]
    intro found
    rcases List.mem_cons.mp found with h | found
    · rw [h] at first
      exact absurd first (by decide)
    · rw [List.mem_singleton.mp found] at first
      exact absurd first (by decide)
  cases h : runSource source Settings.standard none 1 with
  | error e =>
    rw [h] at told
    cases told
  | ok o =>
    rw [h] at told
    have seen := Option.some.inj told
    exact ⟨o, rfl, congrArg Prod.fst seen, congrArg Prod.snd seen, apart⟩

end SortTrace
