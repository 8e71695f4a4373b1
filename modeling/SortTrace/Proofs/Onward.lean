import SortTrace.Proofs.Judgement.Eval
import SortTrace.Proofs.Recoding.Flow
import SortTrace.Proofs.Sessions

/-!
# Machines go on

A session never takes back what it was told: what is written, captured and recorded stays, and more
comes behind it (`Session.Extends`). Nor does a machine take back a tick (`Machine.Onward`).

The steps that expressions are made of count no tick at all and take no round of a loop
(`Tickless`). So a judgement that holds of all such steps, and of two runs in a row if it holds of
each, is one about expressions (`Judgement.ofSteps`).
-/

namespace SortTrace

/-- The session `s₁` is `s` with more told to it, as far as that can be seen from outside. -/
structure Session.Extends (s s₁ : Session) : Prop where
  mode : s₁.mode = s.mode
  breakpoints : s₁.breakpoints = s.breakpoints
  unlimited : s.sink.room = none → s₁.sink.room = none
  written : ∃ more, s₁.sink.bytes = s.sink.bytes ++ more
  captured : ∃ more, s₁.captured = s.captured ++ more
  recorded : ∃ more, s₁.steps = s.steps ++ more
  states : s.states ≤ s₁.states

namespace Session.Extends

variable {s s₁ s₂ : Session}

theorem refl (s : Session) : s.Extends s where
  mode := rfl
  breakpoints := rfl
  unlimited := id
  written := ⟨.empty, ByteArray.append_empty.symm⟩
  captured := ⟨"", String.append_empty.symm⟩
  recorded := ⟨#[], Array.append_empty.symm⟩
  states := Nat.le_refl _

theorem trans (h : s.Extends s₁) (h' : s₁.Extends s₂) : s.Extends s₂ where
  mode := h'.mode.trans h.mode
  breakpoints := h'.breakpoints.trans h.breakpoints
  unlimited := h'.unlimited ∘ h.unlimited
  written := by
    obtain ⟨more, hmore⟩ := h.written
    obtain ⟨rest, hrest⟩ := h'.written
    exact ⟨more ++ rest, by rw [hrest, hmore, ByteArray.append_assoc]⟩
  captured := by
    obtain ⟨more, hmore⟩ := h.captured
    obtain ⟨rest, hrest⟩ := h'.captured
    exact ⟨more ++ rest, by rw [hrest, hmore, String.append_assoc]⟩
  recorded := by
    obtain ⟨more, hmore⟩ := h.recorded
    obtain ⟨rest, hrest⟩ := h'.recorded
    exact ⟨more ++ rest, by rw [hrest, hmore, Array.append_assoc]⟩
  states := Nat.le_trans h.states h'.states

/-- A session that only writes more. -/
theorem wrote (more : ByteArray) {room : Option Nat} (h : s.sink.room = none → room = none) :
    s.Extends { s with sink := ⟨s.sink.bytes ++ more, room⟩ } :=
  { refl s with unlimited := h, written := ⟨more, rfl⟩ }

/-- A session that only counts a state. -/
theorem counted : s.Extends { s with states := s.states + 1 } :=
  { refl s with states := Nat.le_succ _ }

end Session.Extends

namespace Session

/-- The session that is left when something was told. -/
def left {α : Type} : EStateM.Result Fault Session α → Session
  | .ok _ s => s
  | .error _ s => s

theorem write_extends (text : String) (s : Session) : s.Extends (left (write text s)) := by
  cases hroom : s.sink.room with
  | none =>
    rw [write_unlimited text hroom]
    exact .wrote _ fun _ => rfl
  | some room =>
    have limited (h : s.sink.room = none) : False := Option.some_ne_none room (hroom.symm.trans h)
    rcases Nat.lt_or_ge room text.toUTF8.size with hsize | hsize
    · rw [write_cut text hroom hsize]
      exact .wrote _ fun h => (limited h).elim
    · rw [write_fits text hroom hsize]
      exact .wrote _ fun h => (limited h).elim

theorem print_extends (text : String) (s : Session) : s.Extends (left (print text s)) := by
  cases hmode : s.mode with
  | stream =>
    have written : print text s = write text s := by
      obtain ⟨mode⟩ := s
      subst hmode
      rfl
    rw [written]
    exact write_extends text s
  | report =>
    rw [print_report text hmode]
    exact { Extends.refl s with captured := ⟨text, rfl⟩ }

theorem log_extends (state : Report.Json) (line : Nat) (s : Session) :
    s.Extends (left (log state line s)) := by
  cases hmode : s.mode with
  | stream =>
    have written : log state line s = write (stateMarker ++ state.oneLine ++ "\n")
        { s with states := s.states + 1 } := by
      obtain ⟨mode⟩ := s
      subst hmode
      rfl
    rw [written]
    exact Extends.counted.trans (write_extends _ _)
  | report =>
    rw [log_report state line hmode]
    exact { Extends.refl s with
      recorded := ⟨#[_], Array.push_eq_append⟩
      states := Nat.le_succ _ }

end Session

/-- The machine `m₁` is `m` after more ticks and with more told to its session. -/
structure Machine.Onward (m m₁ : Machine) : Prop where
  ticks : m.ticks ≤ m₁.ticks
  session : m.session.Extends m₁.session

namespace Machine.Onward

variable {m m₁ m₂ : Machine}

theorem refl (m : Machine) : m.Onward m :=
  ⟨Nat.le_refl _, .refl _⟩

theorem trans (h : m.Onward m₁) (h' : m₁.Onward m₂) : m.Onward m₂ :=
  ⟨Nat.le_trans h.ticks h'.ticks, h.session.trans h'.session⟩

end Machine.Onward

/-! ## Runs -/

section Runs

variable {α β γ δ ε : Type}

/-- The end of a run with `f` of the result. -/
def endAs (f : γ → α) : EStateM.Result Stop Machine γ → EStateM.Result Stop Machine α
  | .ok c m => .ok (f c) m
  | .error e m => .error e m

/-- From every machine the run goes on, and if it ends then with `f` of some result. -/
def GoesOn (f : γ → α) (r : Run α) : Prop :=
  ∀ m, ∃ x : EStateM.Result Stop Machine γ, r m = endAs f x ∧ m.Onward (leftBy x)

namespace GoesOn

variable {f : γ → α} {f' : δ → ε} {r : Run α}

theorem onward (h : GoesOn f r) (m : Machine) : m.Onward (leftBy (r m)) := by
  obtain ⟨x, hx, onward⟩ := h m
  rw [hx]
  cases x <;> exact onward

theorem bind {t : α → Run ε} (hr : GoesOn f r) (ht : ∀ c, GoesOn f' (t (f c))) :
    GoesOn f' (r >>= t) := by
  intro m
  obtain ⟨x, hx, onward⟩ := hr m
  cases x with
  | error e m₁ => exact ⟨.error e m₁, Run.bind_error hx, onward⟩
  | ok c m₁ =>
    obtain ⟨y, hy, onward'⟩ := ht c m₁
    exact ⟨y, (Run.bind_ok hx).trans hy, onward.trans onward'⟩

/-- What comes behind a run goes on from what the run leaves. -/
theorem onward_bind {t : α → Run ε} (hr : GoesOn f r) (ht : ∀ c, GoesOn f' (t (f c)))
    (m : Machine) : (leftBy (r m)).Onward (leftBy ((r >>= t) m)) := by
  obtain ⟨x, hx, -⟩ := hr m
  cases x with
  | error e m₁ =>
    rw [Run.bind_error hx, hx]
    exact .refl m₁
  | ok c m₁ =>
    rw [Run.bind_ok hx, hx]
    exact (ht c).onward m₁

theorem tick (timeout : Option Nat) : GoesOn id (Run.tick timeout) := by
  intro m
  rw [Run.tick_apply]
  split
  · exact ⟨.error (.fault (.timeout 0)) { m with ticks := m.ticks + 1 }, rfl, Nat.le_succ _,
      .refl _⟩
  · exact ⟨.ok () { m with ticks := m.ticks + 1 }, rfl, Nat.le_succ _, .refl _⟩

end GoesOn

/-- The end of a step from `m` that counts no tick and is not out of rounds. -/
structure Machine.Stepped (m : Machine) (x : EStateM.Result Stop Machine γ) : Prop where
  ticks : (leftBy x).ticks = m.ticks
  session : m.session.Extends (leftBy x).session
  inRounds (m₁ : Machine) : x ≠ .error .outOfRounds m₁

/-- The runs take the same step, which counts no tick and is never out of rounds. -/
def Tickless (f : γ → α) (g : γ → β) (r : Run α) (r' : Run β) : Prop :=
  ∀ m, ∃ x : EStateM.Result Stop Machine γ, r m = endAs f x ∧ r' m = endAs g x ∧ m.Stepped x

namespace Tickless

variable {f : γ → α} {g : γ → β} {r : Run α} {r' : Run β}

theorem goesOn (h : Tickless f g r r') : GoesOn f r := by
  intro m
  obtain ⟨x, hx, -, stepped⟩ := h m
  exact ⟨x, hx, Nat.le_of_eq stepped.ticks.symm, stepped.session⟩

theorem pure (c : γ) : Tickless f g (Pure.pure (f c)) (Pure.pure (g c)) :=
  fun m => ⟨.ok c m, rfl, rfl, rfl, .refl _, nofun⟩

theorem fault (e : Fault) : Tickless f g (Run.fault e) (Run.fault e) :=
  fun m => ⟨.error (.fault e) m, rfl, rfl, rfl, .refl _, nofun⟩

theorem compute {x : Compute γ} {y : Compute α} {y' : Compute β}
    (h : Recoding.same.Computes f x y) (h' : Recoding.same.Computes g x y') :
    Tickless f g (Run.compute y) (Run.compute y') := by
  intro m
  have result := h.apply m.heap
  have result' := h'.apply m.heap
  rw [Recoding.heap_same] at result result'
  simp only [Run.compute, result, result']
  cases x m.heap with
  | ok c i =>
    exact ⟨.ok c { m with heap := Recoding.same.heap i }, rfl, rfl, rfl, .refl _, nofun⟩
  | error e i =>
    exact ⟨.error (.fault (Recoding.same.fault e)) { m with heap := Recoding.same.heap i },
      rfl, rfl, rfl, .refl _, nofun⟩

theorem read {x : Heap → Except Fault γ} {y : Heap → Except Fault α} {y' : Heap → Except Fault β}
    (h : ∀ i, y (Recoding.same.heap i) = Recoding.same.outcome f (x i))
    (h' : ∀ i, y' (Recoding.same.heap i) = Recoding.same.outcome g (x i)) :
    Tickless f g (Run.read y) (Run.read y') := by
  intro m
  have outcome := h m.heap
  have outcome' := h' m.heap
  rw [Recoding.heap_same] at outcome outcome'
  change ∃ x, Run.of (y m.heap) m = _ ∧ Run.of (y' m.heap) m = _ ∧ _
  rw [outcome, outcome']
  cases x m.heap with
  | ok c => exact pure c m
  | error e => exact fault (Recoding.same.fault e) m

theorem lookup (name : String) :
    Tickless Recoding.same.value Recoding.same.value (Run.lookup name) (Run.lookup name) := by
  intro m
  cases hv : m.scopes.lookup name with
  | some v =>
    rw [Run.lookup_bound hv, ← Recoding.value_same v]
    exact pure v m
  | none =>
    cases hb : Builtin.ofName? name with
    | some b =>
      rw [Run.lookup_builtin hv hb, ← Recoding.value_same (.builtin b)]
      exact pure (Value.builtin b) m
    | none =>
      rw [Run.lookup_unbound hv hb]
      exact fault (.unboundName name) m

theorem modifyScopes (f : Scopes → Scopes) :
    Tickless id id (Run.modifyScopes f) (Run.modifyScopes f) :=
  fun m => ⟨.ok () { m with scopes := f m.scopes }, rfl, rfl, rfl, .refl _, nofun⟩

theorem line : Tickless Recoding.same.line Recoding.same.line Run.line Run.line :=
  fun m => ⟨.ok m.line m, rfl, rfl, rfl, .refl _, nofun⟩

theorem setLine (n : Nat) : Tickless id id (Run.setLine n) (Run.setLine n) :=
  fun m => ⟨.ok () { m with line := n }, rfl, rfl, rfl, .refl _, nofun⟩

theorem trace {t : EStateM Fault Session Unit}
    (h : ∀ s : Session, s.Extends (Session.left (t s))) :
    Tickless id id (Run.trace t) (Run.trace t) := by
  intro m
  have more := h m.session
  simp only [Run.trace]
  cases ht : t m.session with
  | ok u s =>
    rw [ht] at more
    exact ⟨.ok () { m with session := s }, rfl, rfl, rfl, more, nofun⟩
  | error e s =>
    rw [ht] at more
    exact ⟨.error (.fault e) { m with session := s }, rfl, rfl, rfl, more, nofun⟩

end Tickless

end Runs

/-- What holds of steps, and of runs in a row, is a judgement about expressions. -/
def Judgement.ofSteps
    (Holds : ∀ {α β γ : Type} (_ : γ → α) (_ : γ → β) (_ : Run α) (_ : Run β), Prop)
    (step : ∀ {α β γ : Type} {f : γ → α} {g : γ → β} {r : Run α} {r' : Run β},
      Tickless f g r r' → Holds f g r r')
    (bind : ∀ {α β γ δ ε ζ : Type} {f : γ → α} {g : γ → β} {f' : δ → ε} {g' : δ → ζ} {r : Run α}
      {r' : Run β} {t : α → Run ε} {t' : β → Run ζ}, Holds f g r r' →
      (∀ c, Holds f' g' (t (f c)) (t' (g c))) → Holds f' g' (r >>= t) (r' >>= t')) :
    Judgement .same .same where
  Holds := Holds
  Free _ := True
  pure c := step (.pure c)
  bind := bind
  fault _ := step (.fault _)
  read h h' := step (.read h h')
  compute h h' := step (.compute h h')
  lookup name := step (.lookup name)
  bindName _ _ := step (.modifyScopes _)
  line := step .line
  print text := step (.trace (Session.print_extends text))
  log state n := step (.trace (Session.log_extends state n))

end SortTrace
