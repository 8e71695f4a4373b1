import SortTrace.Proofs.Judgement.Block
import SortTrace.Proofs.Runs
import SortTrace.Proofs.Sessions

/-!
# What runs keep of a machine

A `Course` says how a machine may change from the start of a run to its end, or to the place where
it stops. Two runs follow a course (`Course.Follows`) when they are the same from every machine the
course is about, the machine changes as the course allows, and what they end with is recoded, be it
a result or a fault; this makes a judgement about expressions, which also stay on their line
(`Course.judgement`), and one about statements (`Course.conduct`).

That both runs are the same is of use where one of them is watched: it does something more when
something happens that never does.
-/

namespace SortTrace

/-- How machines whose values are recoded by `ρ` may change. -/
structure Course (ρ : Recoding) where
  /-- The machines that the course is about. -/
  Apt : Machine → Prop
  /-- How a run that ends may change a machine. -/
  Keeps : Machine → Machine → Prop
  /-- How a run that stops may change a machine. -/
  Leaves : Machine → Machine → Prop
  /-- The names that may be declared global. -/
  Declares : String → Prop := fun _ => True
  line_eq (n : Nat) : ρ.line n = n
  [inPlace : ρ.InPlace]
  heap {m : Machine} (hm : Apt m) : ∃ h, m.heap = ρ.heap h
  scopes {m : Machine} (hm : Apt m) : ∃ s, m.scopes = ρ.scopes s
  trans {m m₁ m₂ : Machine} (h : Keeps m m₁) (h' : Keeps m₁ m₂) : Keeps m m₂
  leaves {m m₁ m₂ : Machine} (h : Keeps m m₁) (h' : Leaves m₁ m₂) : Leaves m m₂
  /-- Anything may change but the scopes, where lists stay recoded. -/
  change {m : Machine} (hm : Apt m) (m₁ : Machine) (hs : m₁.scopes = m.scopes)
    (hh : ∃ h, m₁.heap = ρ.heap h) : Apt m₁ ∧ Keeps m m₁ ∧ Leaves m m₁
  assign {m : Machine} (hm : Apt m) (name : String) (v : Value) :
    let m₁ := { m with scopes := m.scopes.assign name (ρ.value v) }
    Apt m₁ ∧ Keeps m m₁
  declareGlobal {m : Machine} (hm : Apt m) (names : List String)
    (h : ∀ name ∈ names, Declares name) :
    let m₁ := { m with scopes := m.scopes.declareGlobal names }
    Apt m₁ ∧ Keeps m m₁

namespace Course

variable {ρ : Recoding} (K : Course ρ) {α β γ δ ε ζ : Type}

/-- The end of two runs from `m`, both at the same machine and with something recoded. The line is
that of `m` if `still`. -/
inductive Ends (still : Bool) (f : γ → α) (g : γ → β) (m : Machine) :
    EStateM.Result Stop Machine α → EStateM.Result Stop Machine β → Prop
  | ok {m₁ : Machine} (c : γ) (apt : K.Apt m₁) (keeps : K.Keeps m m₁)
      (line : still = true → m₁.line = m.line) : Ends still f g m (.ok (f c) m₁) (.ok (g c) m₁)
  | error {m₁ : Machine} (e : Stop) (leaves : K.Leaves m m₁) :
      Ends still f g m (.error (ρ.stop e) m₁) (.error (ρ.stop e) m₁)

/-- From every machine that the course is about, the runs change it alike and as the course
allows. -/
def Follows (still : Bool) (f : γ → α) (g : γ → β) (r : Run α) (r' : Run β) : Prop :=
  ∀ m, K.Apt m → K.Ends still f g m (r m) (r' m)

variable {K} {still : Bool} {f : γ → α} {g : γ → β} {f' : δ → ε} {g' : δ → ζ} {r : Run α}
  {r' : Run β} {m : Machine}

theorem Ends.same {x y : EStateM.Result Stop Machine α} (h : K.Ends still f f m x y) : y = x := by
  cases h <;> rfl

/-- What stops a run is recoded. -/
theorem Ends.stop {x : EStateM.Result Stop Machine α} {y : EStateM.Result Stop Machine β}
    (h : K.Ends still f g m x y) {e : Stop} {m₁ : Machine} (hx : x = .error e m₁) :
    ∃ e', e = ρ.stop e' := by
  cases h with
  | ok => cases hx
  | error e' =>
    cases hx
    exact ⟨e', rfl⟩

theorem refl (hm : K.Apt m) : K.Keeps m m :=
  (K.change hm m rfl (K.heap hm)).2.1

theorem stays (hm : K.Apt m) : K.Leaves m m :=
  (K.change hm m rfl (K.heap hm)).2.2

namespace Follows

theorem weaken (h : K.Follows true f g r r') : K.Follows still f g r r' := by
  intro m hm
  have ends := h m hm
  generalize r m = x, r' m = y at ends ⊢
  cases ends with
  | ok c apt keeps line => exact .ok c apt keeps fun _ => line rfl
  | error e leaves => exact .error e leaves

theorem pure (c : γ) : K.Follows still f g (Pure.pure (f c)) (Pure.pure (g c)) :=
  fun _ hm => .ok c hm (refl hm) fun _ => rfl

theorem bind {t : α → Run ε} {t' : β → Run ζ} (hr : K.Follows still f g r r')
    (ht : ∀ c, K.Follows still f' g' (t (f c)) (t' (g c))) :
    K.Follows still f' g' (r >>= t) (r' >>= t') := by
  intro m hm
  have first := hr m hm
  change K.Ends still f' g' m (EStateM.bind r t m) (EStateM.bind r' t' m)
  rw [EStateM.bind, EStateM.bind]
  generalize r m = x, r' m = y at first ⊢
  cases first with
  | error e leaves => exact .error e leaves
  | @ok m₁ c apt keeps line =>
    have second := ht c m₁ apt
    simp only
    generalize t (f c) m₁ = x, t' (g c) m₁ = y at second ⊢
    cases second with
    | error e leaves => exact .error e (K.leaves keeps leaves)
    | ok d apt' keeps' line' =>
      exact .ok d apt' (K.trans keeps keeps') fun h => (line' h).trans (line h)

theorem error (e : Stop) : K.Follows still f g (throw (ρ.stop e)) (throw (ρ.stop e)) :=
  fun _ hm => .error e (stays hm)

theorem fault (e : Fault) : K.Follows still f g (Run.fault (ρ.fault e)) (Run.fault (ρ.fault e)) :=
  error (.fault e)

theorem of {x : Except Fault γ} {y : Except Fault α} {y' : Except Fault β}
    (h : y = ρ.outcome f x) (h' : y' = ρ.outcome g x) :
    K.Follows still f g (Run.of y) (Run.of y') := by
  subst h h'
  cases x with
  | ok c => exact pure c
  | error e => exact fault e

theorem read {x : Heap → Except Fault γ} {y : Heap → Except Fault α} {y' : Heap → Except Fault β}
    (h : ∀ i, y (ρ.heap i) = ρ.outcome f (x i)) (h' : ∀ i, y' (ρ.heap i) = ρ.outcome g (x i)) :
    K.Follows still f g (Run.read y) (Run.read y') := by
  intro m hm
  obtain ⟨i, hi⟩ := K.heap hm
  have both : K.Follows still f g (Run.of (y m.heap)) (Run.of (y' m.heap)) :=
    of (by rw [hi, h]) (by rw [hi, h'])
  exact both m hm

theorem compute {x : Compute γ} {y : Compute α} {y' : Compute β} (h : ρ.Computes f x y)
    (h' : ρ.Computes g x y') : K.Follows still f g (Run.compute y) (Run.compute y') := by
  intro m hm
  obtain ⟨i, hi⟩ := K.heap hm
  have inPlace := K.inPlace
  simp only [Run.compute, hi, h.apply i, h'.apply i]
  cases x i with
  | ok c i' =>
    obtain ⟨apt, keeps, -⟩ := K.change hm { m with heap := ρ.heap i' } rfl ⟨i', rfl⟩
    exact .ok c apt keeps fun _ => rfl
  | error e i' =>
    obtain ⟨-, -, leaves⟩ := K.change hm { m with heap := ρ.heap i' } rfl ⟨i', rfl⟩
    exact .error (.fault e) leaves

theorem lookup (name : String) :
    K.Follows still ρ.value ρ.value (Run.lookup name) (Run.lookup name) := by
  intro m hm
  obtain ⟨i, hi⟩ := K.scopes hm
  cases hv : i.lookup name with
  | some v =>
    have bound : m.scopes.lookup name = some (ρ.value v) := by simp [hi, Recoding.lookup_scopes, hv]
    rw [Run.lookup_bound bound]
    exact pure v m hm
  | none =>
    have free : m.scopes.lookup name = none := by simp [hi, Recoding.lookup_scopes, hv]
    cases hb : Builtin.ofName? name with
    | some b =>
      rw [Run.lookup_builtin free hb]
      exact pure (Value.builtin b) m hm
    | none =>
      rw [Run.lookup_unbound free hb]
      exact fault (.unboundName name) m hm

theorem bindName (name : String) (v : Value) :
    K.Follows still id id (Run.bind name (ρ.value v)) (Run.bind name (ρ.value v)) := by
  intro m hm
  obtain ⟨apt, keeps⟩ := K.assign hm name v
  exact .ok () apt keeps fun _ => rfl

theorem declareGlobal (names : List String) (h : ∀ name ∈ names, K.Declares name) :
    K.Follows still id id (Run.modifyScopes fun s => s.declareGlobal names)
      (Run.modifyScopes fun s => s.declareGlobal names) := by
  intro m hm
  obtain ⟨apt, keeps⟩ := K.declareGlobal hm names h
  exact .ok () apt keeps fun _ => rfl

theorem line : K.Follows still ρ.line ρ.line Run.line Run.line := by
  intro m hm
  change K.Ends still ρ.line ρ.line m (.ok m.line m) (.ok m.line m)
  have ends : K.Ends still ρ.line ρ.line m (.ok (ρ.line m.line) m) (.ok (ρ.line m.line) m) :=
    .ok m.line hm (refl hm) fun _ => rfl
  rwa [K.line_eq] at ends

theorem setLine (n : Nat) : K.Follows false id id (Run.setLine n) (Run.setLine n) := by
  intro m hm
  have heap := K.heap hm
  obtain ⟨apt, keeps, -⟩ := K.change hm { m with line := n } rfl heap
  exact .ok () apt keeps nofun

theorem tick (timeout : Option Nat) :
    K.Follows still id id (Run.tick timeout) (Run.tick timeout) := by
  intro m hm
  have heap := K.heap hm
  obtain ⟨apt, keeps, leaves⟩ := K.change hm { m with ticks := m.ticks + 1 } rfl heap
  rw [Run.tick_apply]
  split
  · exact .error (.fault (.timeout 0)) leaves
  · exact .ok () apt keeps fun _ => rfl

theorem trace {t : EStateM Fault Session Unit}
    (h : ∀ s e s₁, t s = .error e s₁ → e = .output Sink.full) :
    K.Follows still id id (Run.trace t) (Run.trace t) := by
  intro m hm
  have heap := K.heap hm
  rw [Run.trace]
  cases ht : t m.session with
  | ok u s =>
    obtain ⟨apt, keeps, -⟩ := K.change hm { m with session := s } rfl heap
    exact .ok () apt keeps fun _ => rfl
  | error e s =>
    obtain rfl := h _ _ _ ht
    obtain ⟨-, -, leaves⟩ := K.change hm { m with session := s } rfl heap
    exact .error (.fault (.output Sink.full)) leaves

end Follows

variable (K)

/-- Following a course without leaving the line, as a judgement about expressions. -/
def judgement : Judgement ρ ρ where
  Holds f g r r' := K.Follows true f g r r'
  Free _ := True
  pure := Follows.pure
  bind := Follows.bind
  fault := Follows.fault
  read := Follows.read
  compute := Follows.compute
  lookup := Follows.lookup
  bindName {name} _ v := Follows.bindName name v
  line := Follows.line
  print _ := Follows.trace fun _ _ _ h => Session.print_error h
  log _ _ := Follows.trace fun _ _ _ h => Session.log_error h

/-- Following a course, as a judgement about statements. -/
def conduct (timeout : Option Nat) : Conduct ρ ρ timeout where
  expr := K.judgement
  Holds f g r r' := K.Follows false f g r r'
  Declares := K.Declares
  lift := Follows.weaken
  bind := Follows.bind
  setLine := Follows.setLine
  tick := Follows.tick timeout
  declareGlobal := Follows.declareGlobal
  outOfRounds := Follows.error .outOfRounds
  skip h := absurd h Bool.false_ne_true

instance (timeout : Option Nat) : (K.conduct timeout).Whole where
  out_eq _ := rfl
  free _ := trivial

/-- Every name may be declared global. -/
class DeclaresAll : Prop where
  declares (name : String) : K.Declares name

instance [K.DeclaresAll] (timeout : Option Nat) : (K.conduct timeout).DeclaresAll :=
  ⟨fun name => DeclaresAll.declares name⟩

end Course

end SortTrace
