import SortTrace.Proofs.Coupling.Marking
import SortTrace.Proofs.Runs

/-!
# Coupled runs

A `Coupling` says how the session and the ticks of a run of a marked program and those of a run of
the stripped program have to correspond. Two machines are twins (`Twin`) when their sessions do and
when their lists and scopes are recodings of the same lists and scopes; whether the second is at the
line of the first is noted apart, since it may not be right after a logging call that was put in.

Two runs are coupled (`Sim`) when they lead from twins to twins and end alike, unless the run of the
marked program stops at a statement that was put in. The rules below couple the steps of which runs
are made.
-/

namespace SortTrace

/-- How a session and its ticks correspond to those of the stripped program. -/
structure Coupling (k : Marking) where
  near : Session → Nat → Session → Nat → Prop
  timeout : Option Nat
  tick : ∀ {s t s' t'}, near s t s' t' → near s (t + 1) s' (t' + 1)
  /-- Where the time counts, it passes alike. -/
  sameTicks : ∀ {s t s' t'}, timeout = some 0 → near s t s' t' → t = t'
  print : ∀ {s t s' t'} (text : String), near s t s' t' →
    ∃ s₁ s₁', Session.print text s = .ok () s₁ ∧ Session.print text s' = .ok () s₁' ∧
      near s₁ t s₁' t'
  log : ∀ {s t s' t'} (state : Report.Json) (n : Nat), near s t s' t' →
    ∃ s₁ s₁', Session.log state n s = .ok () s₁ ∧ Session.log state (k.line n) s' = .ok () s₁' ∧
      near s₁ t s₁' t'
  /-- A logging call that was put in is not noticed. -/
  skip : ∀ {s t s' t'} (state : Report.Json) (n : Nat), k.Inserts → near s t s' t' →
    ∃ s₁, Session.log state n s = .ok () s₁ ∧ near s₁ (t + 1) s' t'
  patient : k.Inserts → timeout ≠ some 0

namespace Coupling

variable {k : Marking} (W : Coupling k) {α β γ δ ε ζ : Type}

/-- The machine `m` of a marked program and the machine `m'` of the stripped one. -/
structure Twin (atLine : Bool) (m m' : Machine) : Prop where
  heap : ∃ h, m.heap = k.marked.heap h ∧ m'.heap = k.stripped.heap h
  scopes : ∃ s, m.scopes = k.marked.scopes s ∧ m'.scopes = k.stripped.scopes s
  near : W.near m.session m.ticks m'.session m'.ticks
  line : atLine = true → m'.line = k.line m.line
  free : k.Inserts → m.scopes.Free Builtin.logState.name

/-- The ends of two runs, whose results are `f c` and `g c` for the same `c`. -/
inductive Ends (atLine : Bool) (f : γ → α) (g : γ → β) :
    EStateM.Result Stop Machine α → EStateM.Result Stop Machine β → Prop
  | ok {m m' : Machine} (c : γ) (h : W.Twin atLine m m') :
    Ends atLine f g (.ok (f c) m) (.ok (g c) m')
  | error {m m' : Machine} (e : Stop) (h : W.Twin false m m') :
    Ends atLine f g (.error e m) (.error (k.stripped.stop e) m')
  /-- The first run stopped at a statement that was put in. -/
  | lost {m : Machine} {e : Stop} (h : k.inserted m.line = true)
      (r' : EStateM.Result Stop Machine β) : Ends atLine f g (.error e m) r'

/-- From twins, the runs `r` and `r'` end alike. -/
def Sim (before after : Bool) (f : γ → α) (g : γ → β) (r : Run α) (r' : Run β) : Prop :=
  ∀ m m', W.Twin before m m' → W.Ends after f g (r m) (r' m')

variable {W} {p q s : Bool} {f : γ → α} {g : γ → β} {f' : δ → ε} {g' : δ → ζ}
  {r : Run α} {r' : Run β}

theorem Twin.weaken {m m' : Machine} (h : W.Twin p m m') : W.Twin false m m' :=
  ⟨h.heap, h.scopes, h.near, Bool.noConfusion, h.free⟩

namespace Sim

theorem anywhere (h : W.Sim p q f g r r') : W.Sim p false f g r r' := by
  intro m m' hm
  have ends := h m m' hm
  generalize r m = x, r' m' = y at ends ⊢
  cases ends with
  | ok c hm' => exact .ok c hm'.weaken
  | error e hm' => exact .error e hm'
  | lost hl y => exact .lost hl y

theorem fromLine (h : W.Sim false q f g r r') : W.Sim p q f g r r' :=
  fun m m' hm => h m m' hm.weaken

theorem pure (c : γ) : W.Sim p p f g (Pure.pure (f c)) (Pure.pure (g c)) :=
  fun _ _ hm => .ok c hm

theorem pureOf {a : α} {b : β} (c : γ) (ha : a = f c) (hb : b = g c) :
    W.Sim p p f g (Pure.pure a) (Pure.pure b) := by
  subst ha hb
  exact pure c

theorem bind {t : α → Run ε} {t' : β → Run ζ} (hr : W.Sim p q f g r r')
    (ht : ∀ c, W.Sim q s f' g' (t (f c)) (t' (g c))) :
    W.Sim p s f' g' (r >>= t) (r' >>= t') := by
  intro m m' hm
  change W.Ends s f' g' (EStateM.bind r t m) (EStateM.bind r' t' m')
  have ends := hr m m' hm
  rw [EStateM.bind, EStateM.bind]
  generalize r m = x, r' m' = y at ends ⊢
  cases ends with
  | ok c hm' => exact ht c _ _ hm'
  | error e hm' => exact .error e hm'
  | lost hl y => exact .lost hl _

theorem map {t : α → ε} {t' : β → ζ} (u : γ → δ) (hr : W.Sim p q f g r r')
    (ht : ∀ c, t (f c) = f' (u c)) (ht' : ∀ c, t' (g c) = g' (u c)) :
    W.Sim p q f' g' (t <$> r) (t' <$> r') := by
  intro m m' hm
  change W.Ends q f' g' (EStateM.map t r m) (EStateM.map t' r' m')
  have ends := hr m m' hm
  rw [EStateM.map, EStateM.map]
  generalize r m = x, r' m' = y at ends ⊢
  cases ends with
  | ok c hm' =>
    change W.Ends q f' g' (.ok (t (f c)) _) (.ok (t' (g c)) _)
    rw [ht, ht']
    exact .ok (u c) hm'
  | error e hm' => exact .error e hm'
  | lost hl y => exact .lost hl _

theorem fault (e : Fault) :
    W.Sim p q f g (Run.fault e) (Run.fault (k.stripped.fault e)) :=
  fun _ _ hm => .error (.fault e) hm.weaken

theorem outOfRounds : W.Sim p q f g (throw .outOfRounds) (throw .outOfRounds) :=
  fun _ _ hm => .error .outOfRounds hm.weaken

/-- An outcome that is a recoding of the same outcome on both sides. -/
theorem of {x : Except Fault γ} {y : Except Fault α} {y' : Except Fault β}
    (h : y = k.marked.outcome f x) (h' : y' = k.stripped.outcome g x) :
    W.Sim p p f g (Run.of y) (Run.of y') := by
  subst h h'
  cases x with
  | ok c => exact pure c
  | error e =>
    rw [Recoding.outcome, Recoding.outcome, Marking.fault_marked]
    exact fault e

/-- Something that only reads lists, and commutes with recodings. -/
theorem read {x : Heap → Except Fault γ} {y : Heap → Except Fault α} {y' : Heap → Except Fault β}
    (h : ∀ i, y (k.marked.heap i) = k.marked.outcome f (x i))
    (h' : ∀ i, y' (k.stripped.heap i) = k.stripped.outcome g (x i)) :
    W.Sim p p f g (Run.read y) (Run.read y') := by
  intro m m' hm
  obtain ⟨i, hi, hi'⟩ := hm.heap
  have both : W.Sim p p f g (Run.of (y m.heap)) (Run.of (y' m'.heap)) :=
    of (by rw [hi, h]) (by rw [hi', h'])
  exact both m m' hm

/-- Something that concerns only lists, and commutes with recodings. -/
theorem compute {x : Compute γ} {y : Compute α} {y' : Compute β} (h : k.marked.Computes f x y)
    (h' : k.stripped.Computes g x y') : W.Sim p p f g (Run.compute y) (Run.compute y') := by
  intro m m' hm
  obtain ⟨i, hi, hi'⟩ := hm.heap
  simp only [Run.compute, hi, hi', h.apply i, h'.apply i]
  cases x i with
  | ok c i' => exact .ok c ⟨⟨i', rfl, rfl⟩, hm.scopes, hm.near, hm.line, hm.free⟩
  | error e i' =>
    simp only [Recoding.result, Marking.fault_marked]
    exact .error (.fault e)
      ⟨⟨i', rfl, rfl⟩, hm.scopes, hm.near, Bool.noConfusion, hm.free⟩

/-- A change of scopes that commutes with recodings. -/
theorem modifyScopes {x y y' : Scopes → Scopes}
    (h : ∀ i, y (k.marked.scopes i) = k.marked.scopes (x i))
    (h' : ∀ i, y' (k.stripped.scopes i) = k.stripped.scopes (x i))
    (free : k.Inserts → ∀ i : Scopes, i.Free Builtin.logState.name →
      (y i).Free Builtin.logState.name) :
    W.Sim p p id id (Run.modifyScopes y) (Run.modifyScopes y') := by
  intro m m' hm
  obtain ⟨i, hi, hi'⟩ := hm.scopes
  refine .ok () ⟨hm.heap, ⟨x i, ?_, ?_⟩, hm.near, hm.line, fun yes => free yes _ (hm.free yes)⟩
  · rw [← h, ← hi]
  · rw [← h', ← hi']

theorem bindName {name : String} (hne : k.Inserts → name ≠ Builtin.logState.name) (v : Value) :
    W.Sim p p id id (Run.bind name (k.marked.value v)) (Run.bind name (k.stripped.value v)) :=
  modifyScopes (fun i => (k.marked.scopes_assign i name v).symm)
    (fun i => (k.stripped.scopes_assign i name v).symm)
    fun yes _ hfree => hfree.assign (hne yes) _

theorem lookup (name : String) :
    W.Sim p p k.marked.value k.stripped.value (Run.lookup name) (Run.lookup name) := by
  intro m m' hm
  obtain ⟨i, hi, hi'⟩ := hm.scopes
  cases hv : i.lookup name with
  | some v =>
    have bound : m.scopes.lookup name = some (k.marked.value v) := by
      simp [hi, Recoding.lookup_scopes, hv]
    have bound' : m'.scopes.lookup name = some (k.stripped.value v) := by
      simp [hi', Recoding.lookup_scopes, hv]
    rw [Run.lookup_bound bound, Run.lookup_bound bound']
    exact pure v m m' hm
  | none =>
    have free : m.scopes.lookup name = none := by simp [hi, Recoding.lookup_scopes, hv]
    have free' : m'.scopes.lookup name = none := by simp [hi', Recoding.lookup_scopes, hv]
    cases hb : Builtin.ofName? name with
    | some b =>
      rw [Run.lookup_builtin free hb, Run.lookup_builtin free' hb]
      exact pure (Value.builtin b) m m' hm
    | none =>
      rw [Run.lookup_unbound free hb, Run.lookup_unbound free' hb]
      exact fault (.unboundName name) m m' hm

theorem setLine (n : Nat) : W.Sim p true id id (Run.setLine n) (Run.setLine (k.line n)) :=
  fun _ _ hm => .ok () ⟨hm.heap, hm.scopes, hm.near, fun _ => rfl, hm.free⟩

theorem line : W.Sim true true id k.line Run.line Run.line := by
  intro m m' hm
  change W.Ends true id k.line (.ok m.line m) (.ok m'.line m')
  rw [hm.line rfl]
  exact .ok m.line hm

theorem tick : W.Sim p p id id (Run.tick W.timeout) (Run.tick W.timeout) := by
  intro m m' hm
  have later : W.Twin p { m with ticks := m.ticks + 1 } { m' with ticks := m'.ticks + 1 } :=
    ⟨hm.heap, hm.scopes, W.tick hm.near, hm.line, hm.free⟩
  rw [Run.tick_apply, Run.tick_apply]
  by_cases ht : W.timeout = some 0
  · rw [W.sameTicks ht hm.near] at later ⊢
    split
    · exact .error (.fault (.timeout 0)) later.weaken
    · exact .ok () later
  · simp only [ht, decide_false, Bool.and_false, Bool.false_eq_true, if_false]
    exact .ok () later

theorem print (text : String) :
    W.Sim p p id id (Run.trace (Session.print text)) (Run.trace (Session.print text)) := by
  intro m m' hm
  obtain ⟨s₁, s₁', h, h', near⟩ := W.print text hm.near
  simp only [Run.trace, h, h']
  exact .ok () ⟨hm.heap, hm.scopes, near, hm.line, hm.free⟩

theorem log (state : Report.Json) (n : Nat) :
    W.Sim p p id id (Run.trace (Session.log state n))
      (Run.trace (Session.log state (k.line n))) := by
  intro m m' hm
  obtain ⟨s₁, s₁', h, h', near⟩ := W.log state n hm.near
  simp only [Run.trace, h, h']
  exact .ok () ⟨hm.heap, hm.scopes, near, hm.line, hm.free⟩

end Sim

end Coupling

end SortTrace
