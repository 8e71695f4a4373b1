import SortTrace.Proofs.CutShort

/-!
# Raising the recursion limit

A limit on the number of calls under way does nothing but refuse a call. So under a lower limit a
run is the same as under a higher one, or it is cut short at a call that the lower one refuses
(`follows_userCall_le`). Raising the limit then leaves a run as it is unless it stopped at such a
call, and there it goes on (`higher_limit_goes_on`).
-/

namespace SortTrace

/-- The cut of a run at a call that is refused. It does not matter how many ticks there were. -/
def refusedCall : Cut where
  stop := .recursion
  Before _ := True
  At _ := True

theorem refusedCall_tick (timeout : Option Nat) :
    refusedCall.Follows id id (Run.tick timeout) (Run.tick timeout) :=
  .tick timeout fun _ _ => trivial

/-- Under a lower limit calls are the same, or cut short where one of them is refused. -/
theorem follows_userCall_le (rounds : Nat) : ∀ {low high : Nat}, low ≤ high →
    refusedCall.judgement.Calls (userCall none rounds high) (userCall none rounds low)
  | 0, high, _ => by
    intro d defaults args keywords
    have goesOn :=
      (Cut.follows_userCall (refusedCall_tick none) rounds high d defaults args keywords).1
    exact ⟨goesOn, fun m _ => .cut trivial (goesOn.onward m)⟩
  | _ + 1, _ + 1, h =>
    Cut.follows_callIn (refusedCall_tick none)
      (follows_userCall_le rounds (Nat.le_of_succ_le_succ h)) rounds

/-- What the run of a source has written to an unlimited output when it ends or stops, ahead of the
line that tells of a fault. -/
def writtenBy (source : String) (settings : Settings) (rounds : Nat) : ByteArray :=
  let begin := Machine.start (.start settings.mode settings.breakpoints none)
  (leftBy (runText settings.limits rounds source settings.watched begin)).session.sink.bytes

section Sources

variable {source : String} {settings : Settings} {rounds low high : Nat} {o : Outcome}

/-- Limits that allow a call are as good as each other to settings. -/
theorem check_recursion (hlow : 1 ≤ low) (hhigh : 1 ≤ high) :
    { settings with recursion := low }.check = { settings with recursion := high }.check := by
  simp only [Settings.check, Nat.ne_of_gt hlow, Nat.ne_of_gt hhigh]

/-- A source that is run under two limits. -/
theorem follows_runText_le (htimeout : settings.timeout = none) (hle : low ≤ high)
    (source : String) (rounds : Nat) : refusedCall.Follows id id
      (runText { settings with recursion := high }.limits rounds source settings.watched)
      (runText { settings with recursion := low }.limits rounds source settings.watched) := by
  have limits (limit : Nat) : { settings with recursion := limit }.limits = ⟨limit, none⟩ := by
    rw [Settings.limits, htimeout]
  rw [limits, limits]
  exact Cut.follows_runText (refusedCall_tick none)
    (fun depth => follows_userCall_le rounds (Nat.sub_le_sub_right hle depth)) source _

/-- The outcome has written what the run has and the line of its fault. -/
theorem bytes_of_runSource (htimeout : settings.timeout = none) (hmode : settings.mode = .stream)
    (h : runSource source settings none rounds = .ok o) :
    o.session.sink.bytes = writtenBy source settings rounds ++ (errorText o.fault).toUTF8 := by
  cases hcheck : settings.check with
  | error f =>
    rw [runSource, hcheck] at h
    cases h
  | ok u =>
    rw [runSource_eq hcheck] at h
    have follows := follows_runText_le htimeout (Nat.le_refl settings.recursion) source rounds
    have goesOn := follows.1.onward (Machine.start (.start settings.mode settings.breakpoints none))
    exact Outcome.bytes_of_ofEnd (goesOn.session.mode.trans hmode) (goesOn.session.unlimited rfl) h

/-- **Raising the recursion limit only takes refusals away.** -/
theorem higher_limit_goes_on (hmode : settings.mode = .stream) (htimeout : settings.timeout = none)
    (hlow : 1 ≤ low) (hle : low ≤ high)
    (h : runSource source { settings with recursion := low } none rounds = .ok o) :
    let written (limit : Nat) := writtenBy source { settings with recursion := limit } rounds
    (o.fault ≠ some .recursion →
      runSource source { settings with recursion := high } none rounds = .ok o) ∧
    (o.fault = some .recursion →
      o.session.sink.bytes = written low ++ (errorText (some .recursion)).toUTF8 ∧
      (∃ more, written high = written low ++ more) ∧
      ∀ o', runSource source { settings with recursion := high } none rounds = .ok o' →
        ∃ more, o'.session.sink.bytes = written low ++ more) := by
  intro written
  have ends := (follows_runText_le htimeout hle source rounds).2
    (Machine.start (.start settings.mode settings.breakpoints none)) trivial
  obtain ⟨more, hmore⟩ : ∃ more, written high = written low ++ more := ends.onward.session.written
  refine ⟨fun hfault => ?_, fun hfault => ⟨?_, ⟨more, hmore⟩, fun o' h' => ?_⟩⟩
  · cases hcheck : { settings with recursion := low }.check with
    | error f =>
      rw [runSource, hcheck] at h
      cases h
    | ok u =>
      rw [runSource_eq hcheck] at h
      rw [check_recursion hlow (Nat.le_trans hlow hle)] at hcheck
      rw [runSource_eq hcheck]
      change Outcome.ofEnd (runText _ rounds source settings.watched (.start _)) = .ok o at h ⊢
      generalize runText _ rounds source settings.watched _ = x,
        runText _ rounds source settings.watched _ = y at ends h ⊢
      cases ends with
      | ok | error => exact h
      | cut => exact absurd (Outcome.fault_of_ofEnd h) hfault
  · rw [@bytes_of_runSource _ { settings with recursion := low } _ _ htimeout hmode h, hfault]
  · rw [@bytes_of_runSource _ { settings with recursion := high } _ _ htimeout hmode h']
    exact ⟨more ++ (errorText o'.fault).toUTF8, by rw [← ByteArray.append_assoc, ← hmore]⟩

end Sources

/-- Of three calls within each other the third is refused under a limit of two. -/
theorem higher_limit_goes_on_count :
    let source := "def f(n):\n  print(n)\n  if n < 2:\n    f(n + 1)\nf(0)\n"
    let run (limit : Nat) := runSource source { Settings.standard with recursion := limit } none 0
    ∃ o o' more, run 2 = .ok o ∧ o.fault = some .recursion ∧ run 3 = .ok o' ∧ o'.fault = none ∧
      o.session.sink.bytes = "0\n1\n".toUTF8 ++ (errorText (some .recursion)).toUTF8 ∧
      o'.session.sink.bytes = "0\n1\n".toUTF8 ++ more := by
  intro source run
  have refused : (run 2).toOption.map (fun o => (o.fault, o.session.sink.bytes))
      = some (some .recursion, "0\n1\n".toUTF8 ++ (errorText (some .recursion)).toUTF8) := by
    decide +kernel
  have allowed : (run 3).toOption.map (fun o => o.fault) = some none := by decide +kernel
  cases h : run 2 with
  | error e =>
    rw [h] at refused
    cases refused
  | ok o =>
    cases h' : run 3 with
    | error e =>
      rw [h'] at allowed
      cases allowed
    | ok o' =>
      rw [h] at refused
      rw [h'] at allowed
      obtain ⟨hfault, hbytes⟩ := Prod.mk.inj (Option.some.inj refused)
      obtain ⟨-, raised⟩ := @higher_limit_goes_on source .standard 0 2 3 o rfl rfl (by decide)
        (by decide) h
      obtain ⟨written, -, goesOn⟩ := raised hfault
      obtain ⟨more, hmore⟩ := goesOn o' h'
      rw [hbytes, ByteArray.append_left_inj] at written
      rw [← written] at hmore
      exact ⟨o, o', more, rfl, hfault, rfl, Option.some.inj allowed, hbytes, hmore⟩

end SortTrace
