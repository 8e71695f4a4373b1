import SortTrace.Execution
import SortTrace.Proofs.Events
import SortTrace.Proofs.Judgement.Call

/-!
# Runs only tell their session

A run never looks at its session. From a machine it tells a list of events, whatever the session is,
and only if the session refuses one of them does the run stop there (`Tells`); else it ends as it
would with any other session. This is so of every step, and therefore of expressions and blocks, of
calls (`tells_userCall`) and of whole sources (`tells_runText`).
-/

namespace SortTrace

open Script (FunctionDef Stmt)

/-! ## Telling events -/

namespace Session

/-- Tell a session an event. -/
def tell : Event → EStateM Fault Session Unit
  | .printed text => print text
  | .logged state line => log state line

/-- Tell a session events in order. -/
def tellAll : List Event → EStateM Fault Session Unit
  | [] => pure ()
  | e :: events => do
    tell e
    tellAll events

theorem tellAll_append (events more : List Event) :
    tellAll (events ++ more) = (do tellAll events; tellAll more) := by
  induction events with
  | nil => rfl
  | cons e events ih =>
    rw [List.cons_append, tellAll, tellAll, ih, bind_assoc]

theorem tellAll_append_ok {events more : List Event} {s s₁ : Session}
    (h : tellAll events s = .ok () s₁) : tellAll (events ++ more) s = tellAll more s₁ := by
  rw [tellAll_append]
  change EStateM.bind (tellAll events) _ s = _
  rw [EStateM.bind, h]

theorem tellAll_append_error {events more : List Event} {s s₁ : Session} {e : Fault}
    (h : tellAll events s = .error e s₁) : tellAll (events ++ more) s = .error e s₁ := by
  rw [tellAll_append]
  change EStateM.bind (tellAll events) _ s = _
  rw [EStateM.bind, h]

theorem tellAll_singleton (e : Event) (s : Session) : tellAll [e] s = tell e s := by
  change EStateM.bind (tell e) _ s = _
  rw [EStateM.bind]
  cases tell e s <;> rfl

end Session

section Tells

variable {α γ δ ε : Type}

/-- The end of a run with `f` of the result, and with another session. -/
def endWith (f : γ → α) (s : Session) :
    EStateM.Result Stop Machine γ → EStateM.Result Stop Machine α
  | .ok c m => .ok (f c) { m with session := s }
  | .error e m => .error e { m with session := s }

/-- How the run `r` from `m` with the session `s` ends, when the events were told: as `x`, or where
the session refused. -/
def EndsTelling (f : γ → α) (r : Run α) (m : Machine) (x : EStateM.Result Stop Machine γ)
    (s : Session) : EStateM.Result Fault Session Unit → Prop
  | .ok _ s₁ => r { m with session := s } = endWith f s₁ x
  | .error e s₁ => ∃ m₁ : Machine, m₁.session = s₁ ∧
    r { m with session := s } = .error (.fault e) m₁

/-- From every machine, the run tells its session events, and ends with `f` of some result, in a way
that does not depend on the session. -/
def Tells (f : γ → α) (r : Run α) : Prop :=
  ∀ m, ∃ (events : List Event) (x : EStateM.Result Stop Machine γ),
    ∀ s, EndsTelling f r m x s (Session.tellAll events s)

namespace Tells

variable {f : γ → α} {f' : δ → ε} {r : Run α}

/-- A run that tells nothing. -/
theorem silent (h : ∀ m : Machine, ∃ x : EStateM.Result Stop Machine γ,
    ∀ s, r { m with session := s } = endWith f s x) : Tells f r := by
  intro m
  obtain ⟨x, hx⟩ := h m
  exact ⟨[], x, hx⟩

theorem pure (c : γ) : Tells f (Pure.pure (f c)) :=
  silent fun m => ⟨.ok c m, fun _ => rfl⟩

theorem error (e : Stop) : Tells f (throw e) :=
  silent fun m => ⟨.error e m, fun _ => rfl⟩

theorem bind {t : α → Run ε} (hr : Tells f r) (ht : ∀ c, Tells f' (t (f c))) :
    Tells f' (r >>= t) := by
  intro m
  obtain ⟨events, x, hx⟩ := hr m
  cases x with
  | error e m₁ =>
    refine ⟨events, .error e m₁, fun s => ?_⟩
    have first := hx s
    cases hs : Session.tellAll events s with
    | ok u s₁ =>
      rw [hs] at first
      exact Run.bind_error first
    | error e' s₁ =>
      rw [hs] at first
      obtain ⟨m₂, hm₂, first⟩ := first
      exact ⟨m₂, hm₂, Run.bind_error first⟩
  | ok c m₁ =>
    obtain ⟨more, y, hy⟩ := ht c m₁
    refine ⟨events ++ more, y, fun s => ?_⟩
    have first := hx s
    cases hs : Session.tellAll events s with
    | ok u s₁ =>
      rw [hs] at first
      have goesOn : (r >>= t) { m with session := s } = t (f c) { m₁ with session := s₁ } :=
        Run.bind_ok first
      have second := hy s₁
      rw [Session.tellAll_append_ok hs]
      generalize Session.tellAll more s₁ = told at second ⊢
      cases told with
      | ok u s₂ => exact goesOn.trans second
      | error e s₂ =>
        obtain ⟨m₂, hm₂, second⟩ := second
        exact ⟨m₂, hm₂, goesOn.trans second⟩
    | error e s₁ =>
      rw [hs] at first
      obtain ⟨m₂, hm₂, first⟩ := first
      rw [Session.tellAll_append_error hs]
      exact ⟨m₂, hm₂, Run.bind_error first⟩

theorem of (x : Except Fault γ) {y : Except Fault α} (h : y = Recoding.same.outcome f x) :
    Tells f (Run.of y) := by
  subst h
  cases x with
  | ok c => exact pure c
  | error e => exact error _

theorem read {x : Heap → Except Fault γ} {y : Heap → Except Fault α}
    (h : ∀ i, y (Recoding.same.heap i) = Recoding.same.outcome f (x i)) : Tells f (Run.read y) := by
  refine silent fun m => ?_
  have outcome := h m.heap
  rw [Recoding.heap_same] at outcome
  have reads (s : Session) : Run.read y { m with session := s }
      = Run.of (y m.heap) { m with session := s } := rfl
  cases hx : x m.heap with
  | ok c =>
    refine ⟨.ok c m, fun s => ?_⟩
    rw [reads, outcome, hx]
    rfl
  | error e =>
    refine ⟨.error (.fault (Recoding.same.fault e)) m, fun s => ?_⟩
    rw [reads, outcome, hx]
    rfl

theorem compute {x : Compute γ} {y : Compute α} (h : Recoding.same.Computes f x y) :
    Tells f (Run.compute y) := by
  refine silent fun m => ?_
  have result := h.apply m.heap
  rw [Recoding.heap_same] at result
  cases hx : x m.heap with
  | ok c i =>
    refine ⟨.ok c { m with heap := Recoding.same.heap i }, fun s => ?_⟩
    simp only [Run.compute, result, hx]
    rfl
  | error e i =>
    refine ⟨.error (.fault (Recoding.same.fault e)) { m with heap := Recoding.same.heap i },
      fun s => ?_⟩
    simp only [Run.compute, result, hx]
    rfl

theorem lookup (name : String) : Tells Recoding.same.value (Run.lookup name) := by
  refine silent fun m => ?_
  cases hv : m.scopes.lookup name with
  | some v =>
    refine ⟨.ok v m, fun s => ?_⟩
    rw [endWith, Recoding.value_same]
    exact Run.lookup_bound hv
  | none =>
    cases hb : Builtin.ofName? name with
    | some b => exact ⟨.ok (.builtin b) m, fun s => Run.lookup_builtin hv hb⟩
    | none => exact ⟨.error (.fault (.unboundName name)) m, fun s => Run.lookup_unbound hv hb⟩

theorem modifyScopes (f : Scopes → Scopes) : Tells id (Run.modifyScopes f) :=
  silent fun m => ⟨.ok () { m with scopes := f m.scopes }, fun _ => rfl⟩

theorem line : Tells Recoding.same.line Run.line :=
  silent fun m => ⟨.ok m.line m, fun _ => rfl⟩

theorem setLine (n : Nat) : Tells id (Run.setLine n) :=
  silent fun m => ⟨.ok () { m with line := n }, fun _ => rfl⟩

theorem tick (timeout : Option Nat) : Tells id (Run.tick timeout) := by
  refine silent fun m => ?_
  let late : Bool := (m.ticks + 1) % Run.ticksPerLook = 0 && timeout = some 0
  have ticks (s : Session) : Run.tick timeout { m with session := s }
      = if late then .error (.fault (.timeout 0)) { m with session := s, ticks := m.ticks + 1 }
        else .ok () { m with session := s, ticks := m.ticks + 1 } :=
    Run.tick_apply timeout { m with session := s }
  simp only [ticks]
  cases late with
  | true => exact ⟨.error (.fault (.timeout 0)) { m with ticks := m.ticks + 1 }, fun _ => rfl⟩
  | false => exact ⟨.ok () { m with ticks := m.ticks + 1 }, fun _ => rfl⟩

theorem trace (e : Event) : Tells id (Run.trace (Session.tell e)) := by
  intro m
  refine ⟨[e], .ok () m, fun s => ?_⟩
  rw [Session.tellAll_singleton]
  cases hs : Session.tell e s with
  | ok u s₁ =>
    change Run.trace (Session.tell e) { m with session := s } = _
    simp only [Run.trace, hs]
    rfl
  | error e' s₁ =>
    refine ⟨{ m with session := s₁ }, rfl, ?_⟩
    simp only [Run.trace, hs]

end Tells

end Tells

/-! ## Programs -/

/-- Telling events, as a judgement about expressions; it is about the first run only. -/
def tellsJudgement : Judgement .same .same where
  Holds f _ r _ := Tells f r
  Free _ := True
  pure := Tells.pure
  bind := Tells.bind
  fault _ := Tells.error _
  read h _ := Tells.read h
  compute h _ := Tells.compute h
  lookup := Tells.lookup
  bindName _ _ := Tells.modifyScopes _
  line := Tells.line
  print text := Tells.trace (.printed text)
  log state n := Tells.trace (.logged state n)

/-- Telling events, as a judgement about statements. -/
def tellsConduct (timeout : Option Nat) : Conduct .same .same timeout where
  expr := tellsJudgement
  Holds f _ r _ := Tells f r
  Declares _ := True
  lift h := h
  bind := Tells.bind
  setLine := Tells.setLine
  tick := Tells.tick timeout
  declareGlobal _ _ := Tells.modifyScopes _
  outOfRounds := Tells.error _
  skip h := absurd h Bool.false_ne_true

instance (timeout : Option Nat) : (tellsConduct timeout).Whole where
  out_eq _ := rfl
  free _ := trivial

instance (timeout : Option Nat) : (tellsConduct timeout).DeclaresAll := ⟨fun _ => trivial⟩

theorem tells_userCall (timeout : Option Nat) (rounds : Nat) : ∀ room : Nat,
    tellsJudgement.Calls (userCall timeout rounds room) (userCall timeout rounds room)
  | 0 => fun _ _ _ _ => Tells.error _
  | room + 1 => tellsJudgement.callIn Tells.setLine Tells.modifyScopes fun d =>
    (tellsConduct timeout).runBlock (tells_userCall timeout rounds room) d.body fun _ _ =>
      ⟨rfl, rfl⟩

theorem tells_runProgram (limits : Limits) (rounds : Nat) (program : List Stmt) :
    Tells id (runProgram limits rounds program) := by
  intro m
  have block : Tells Recoding.same.flow
      (runBlock ⟨userCall limits.timeout rounds (limits.recursion - m.scopes.depth), limits.timeout,
        rounds⟩ program) :=
    (tellsConduct limits.timeout).runBlock (tells_userCall _ rounds _) program fun _ _ => ⟨rfl, rfl⟩
  exact (block.bind fun _ => Tells.pure (f := id) ()) m

/-- What a source tells the session does not depend on the session. -/
theorem tells_runText (limits : Limits) (rounds : Nat) (source var : String) :
    Tells id (runText limits rounds source var) := by
  have read : Tells id (Run.of (programOf source var)) := by
    cases programOf source var with
    | ok program => exact Tells.pure program
    | error e => exact Tells.error _
  exact read.bind fun program => tells_runProgram limits rounds program

end SortTrace
