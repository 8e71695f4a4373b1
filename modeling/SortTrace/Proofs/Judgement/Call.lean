import SortTrace.Machine.Program
import SortTrace.Proofs.Judgement.Course
import SortTrace.Proofs.Recoding.Flow

/-!
# Judgements of calls

A judgement holds of a call if it holds of the body of the function (`Judgement.callIn`).

A call can be watched (`watchedIn`): something is done when the frame of the call is there, and
something else when the body of the function has ended. Calls of functions follow a course if their
bodies do, and so does a call that is watched by something that never shows (`Course.calls`).
-/

namespace SortTrace

open Script (FunctionDef Stmt)

/-- A judgement that is about lines and changes of the scopes holds of calls if it holds of the
bodies of functions. -/
theorem Judgement.callIn (J : Judgement .same .same) {c c' : Control}
    (setLine : ∀ n, J.Holds id id (Run.setLine n) (Run.setLine n))
    (scopes : ∀ f, J.Holds id id (Run.modifyScopes f) (Run.modifyScopes f))
    (body : ∀ d : FunctionDef, J.Holds Recoding.same.flow Recoding.same.flow (runBlock c d.body)
      (runBlock c' d.body)) :
    J.Calls (SortTrace.callIn c) (SortTrace.callIn c') := by
  intro d defaults args keywords
  have bound := Recoding.same.bindArguments_value (f := d) rfl rfl defaults args keywords
  refine J.line.bind fun n => (J.of bound bound).bind fun locals => ?_
  refine (scopes _).bind fun _ => (body d).bind fun flow => ?_
  refine (scopes _).bind fun _ => (setLine n).bind fun _ => ?_
  rw [Recoding.result_flow]
  exact J.pure flow.result

/-- What is done beside the calls of a run. -/
structure Watch where
  /-- Done when the frame of a call is there. -/
  entered : Run Unit
  /-- Done when the body of a function has ended. -/
  ended : Flow → Run Unit

/-- Run the body of a function in a new frame, and be watched. -/
def watchedIn (watch : Watch) (c : Control) : UserCall := fun f defaults args keywords => do
  let line ← Run.line
  let locals ← Run.of (bindArguments f defaults args keywords)
  Run.modifyScopes fun s => s.push ⟨f.name, line, locals, []⟩
  watch.entered
  let flow ← runBlock c f.body
  watch.ended flow
  Run.modifyScopes fun s => s.pop.2
  Run.setLine line
  pure flow.result

/-- The way to call functions, all of them watched, when `depth` more calls can be under way. -/
def watchedCall (watch : Watch) (timeout : Option Nat) (rounds : Nat) : (depth : Nat) → UserCall
  | 0 => fun _ _ _ _ => Run.fault .recursion
  | depth + 1 => watchedIn watch ⟨watchedCall watch timeout rounds depth, timeout, rounds⟩

/-- The machine in a new call. -/
def Machine.enter (m : Machine) (function : String) (locals : Bindings) : Machine :=
  { m with scopes := m.scopes.push ⟨function, m.line, locals, []⟩ }

/-- The machine behind the innermost call, which was made at `line`. -/
def Machine.leave (m : Machine) (line : Nat) : Machine :=
  { m with scopes := m.scopes.pop.2, line }

section Apply

variable {watch : Watch} {c : Control} {f : FunctionDef} {defaults args : List Value}
  {keywords : Keywords} {m m₁ : Machine} {locals : Bindings}

/-- A call that nobody watches. -/
theorem callIn_eq (c : Control) : callIn c = watchedIn ⟨pure (), fun _ => pure ()⟩ c :=
  rfl

theorem watchedIn_refused {e : Fault} (h : bindArguments f defaults args keywords = .error e) :
    watchedIn watch c f defaults args keywords m = .error (.fault e) m := by
  have line : Run.line m = .ok m.line m := rfl
  rw [watchedIn, Run.bind_ok line, h]
  rfl

theorem watchedIn_error {e : Stop} (h : bindArguments f defaults args keywords = .ok locals)
    (entered : watch.entered (m.enter f.name locals) = .ok () (m.enter f.name locals))
    (body : runBlock c f.body (m.enter f.name locals) = .error e m₁) :
    watchedIn watch c f defaults args keywords m = .error e m₁ := by
  have line : Run.line m = .ok m.line m := rfl
  have push : Run.modifyScopes (fun s => s.push ⟨f.name, m.line, locals, []⟩) m
      = .ok () (m.enter f.name locals) := rfl
  rw [watchedIn, Run.bind_ok line, h, Run.of, pure_bind, Run.bind_ok push, Run.bind_ok entered,
    Run.bind_error body]

theorem watchedIn_ok {flow : Flow} (h : bindArguments f defaults args keywords = .ok locals)
    (entered : watch.entered (m.enter f.name locals) = .ok () (m.enter f.name locals))
    (body : runBlock c f.body (m.enter f.name locals) = .ok flow m₁)
    (ended : watch.ended flow m₁ = .ok () m₁) :
    watchedIn watch c f defaults args keywords m = .ok flow.result (m₁.leave m.line) := by
  have line : Run.line m = .ok m.line m := rfl
  have push : Run.modifyScopes (fun s => s.push ⟨f.name, m.line, locals, []⟩) m
      = .ok () (m.enter f.name locals) := rfl
  rw [watchedIn, Run.bind_ok line, h, Run.of, pure_bind, Run.bind_ok push, Run.bind_ok entered,
    Run.bind_ok body, Run.bind_ok ended]
  rfl

end Apply

namespace Course

variable {ρ : Recoding}

/-- A call takes a machine from the course `K` to the course `K₁`, on which the body of the function
runs, and back. -/
structure Enters (K K₁ : Course ρ) : Prop where
  enter {m : Machine} (hm : K.Apt m) (function : String) (locals : Bindings) :
    K₁.Apt (m.enter function (ρ.bindings locals))
  leave {m m₁ : Machine} {function : String} {locals : Bindings} (hm : K.Apt m) (hm₁ : K₁.Apt m₁)
    (h : K₁.Keeps (m.enter function locals) m₁) :
    K.Apt (m₁.leave m.line) ∧ K.Keeps m (m₁.leave m.line)
  stop {m m₁ : Machine} {function : String} {locals : Bindings} (hm : K.Apt m)
    (h : K₁.Leaves (m.enter function locals) m₁) : K.Leaves m m₁

variable {K K₁ : Course ρ} {watch : Watch} {user user' : UserCall} {timeout : Option Nat}
  {rounds : Nat}

/-- A call follows a course, whether it is watched or not, if the body of the function does. -/
theorem calls (enters : K.Enters K₁) (hu : K₁.judgement.Calls user user')
    (admits : ∀ d, ∀ p ∈ Stmt.inBlock (ρ.code d).body, (K₁.conduct timeout).Admits p)
    (entered : ∀ m, K₁.Apt m → watch.entered m = .ok () m)
    (ended : ∀ d flow m m₁, K₁.Apt m₁ →
      runBlock ⟨user, timeout, rounds⟩ (ρ.code d).body m = .ok flow m₁ →
      watch.ended flow m₁ = .ok () m₁) :
    K.judgement.Calls (callIn ⟨user, timeout, rounds⟩)
      (watchedIn watch ⟨user', timeout, rounds⟩) := by
  intro d defaults args keywords m hm
  have bound := ρ.bindArguments_value (f := ρ.code d) rfl rfl defaults args keywords
  rw [callIn_eq]
  cases hb : bindArguments (ρ.code d) defaults args keywords with
  | error e =>
    rw [hb] at bound
    rw [watchedIn_refused bound, watchedIn_refused bound]
    exact .error (.fault e) (stays hm)
  | ok locals =>
    rw [hb] at bound
    have apt := enters.enter hm (ρ.code d).name locals
    have flows : (K₁.conduct timeout).Flows (runBlock ⟨user, timeout, rounds⟩ (ρ.code d).body)
        (runBlock ⟨user', timeout, rounds⟩ (ρ.code d).body) :=
      (K₁.conduct timeout).block hu _ (admits d)
    have body := flows _ apt
    generalize hr : runBlock ⟨user, timeout, rounds⟩ (ρ.code d).body _ = r,
      hr' : runBlock ⟨user', timeout, rounds⟩ (ρ.code d).body _ = r' at body
    cases body with
    | error e leaves =>
      rw [watchedIn_error bound rfl hr, watchedIn_error bound (entered _ apt) hr']
      exact .error _ (enters.stop hm leaves)
    | ok flow apt₁ keeps line =>
      obtain ⟨apt₂, keeps₂⟩ := enters.leave hm apt₁ keeps
      rw [watchedIn_ok bound rfl hr rfl,
        watchedIn_ok bound (entered _ apt) hr' (ended d _ _ _ apt₁ hr), ρ.result_flow]
      exact .ok flow.result apt₂ keeps₂ fun _ => rfl

end Course

end SortTrace
