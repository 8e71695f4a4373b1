import SortTrace.Execution
import SortTrace.Proofs.Judgement.Call
import SortTrace.Proofs.Onward

/-!
# Runs that are cut short

Two runs of one program, the second under a stricter limit than the first. They are the same until
the second meets its limit, if it does; there it stops at a fault that tells so, and the first goes
on from the machine that is left (`Cut.Ends`). So what the second told its session by then is what
the first told it at first. This holds of every step, and therefore of expressions and blocks and of
whole programs.

What the limit is about is left open: a `Cut` names the fault and says for which numbers of ticks
the runs are compared and with which the second is cut.
-/

namespace SortTrace

open Script (Stmt)

/-- How a run can be cut short. -/
structure Cut where
  /-- The fault at which a run is cut. -/
  stop : Fault
  /-- The numbers of ticks before a run is cut. -/
  Before : Nat → Prop
  /-- The numbers of ticks at which a run is cut. -/
  At : Nat → Prop

namespace Cut

variable (C : Cut) {α β γ δ ε ζ : Type}

/-- The end of two runs: the same, or the second is cut where the first goes on. -/
inductive Ends (f : γ → α) (g : γ → β) :
    EStateM.Result Stop Machine α → EStateM.Result Stop Machine β → Prop
  | ok (c : γ) {m₁ : Machine} (before : C.Before m₁.ticks) : Ends f g (.ok (f c) m₁) (.ok (g c) m₁)
  | error (e : Stop) {m₁ : Machine} (before : C.Before m₁.ticks) :
      Ends f g (.error e m₁) (.error e m₁)
  | cut {x : EStateM.Result Stop Machine α} {m₁ : Machine} (here : C.At m₁.ticks)
      (onward : m₁.Onward (leftBy x)) : Ends f g x (.error (.fault C.stop) m₁)

variable {C} in
/-- What the second run leaves is what the first goes on from. -/
theorem Ends.onward {f : γ → α} {g : γ → β} {x : EStateM.Result Stop Machine α}
    {y : EStateM.Result Stop Machine β} (h : C.Ends f g x y) : (leftBy y).Onward (leftBy x) := by
  cases h with
  | ok => exact .refl _
  | error => exact .refl _
  | cut _ onward => exact onward

/-- From every machine the first run goes on, and while the second is not cut it is the same. -/
def Follows (f : γ → α) (g : γ → β) (r : Run α) (r' : Run β) : Prop :=
  GoesOn f r ∧ ∀ m, C.Before m.ticks → C.Ends f g (r m) (r' m)

namespace Follows

variable {C} {f : γ → α} {g : γ → β} {f' : δ → ε} {g' : δ → ζ} {r : Run α} {r' : Run β}

theorem step (h : Tickless f g r r') : C.Follows f g r r' := by
  refine ⟨h.goesOn, fun m hm => ?_⟩
  obtain ⟨x, hr, hr', stepped⟩ := h m
  rw [← stepped.ticks] at hm
  rw [hr, hr']
  cases x with
  | ok c m₁ => exact .ok c hm
  | error e m₁ => exact .error e hm

theorem bind {t : α → Run ε} {t' : β → Run ζ} (hr : C.Follows f g r r')
    (ht : ∀ c, C.Follows f' g' (t (f c)) (t' (g c))) : C.Follows f' g' (r >>= t) (r' >>= t') := by
  refine ⟨hr.1.bind fun c => (ht c).1, fun m hm => ?_⟩
  have first := hr.2 m hm
  have onward := hr.1.onward_bind (fun c => (ht c).1) m
  generalize hx : r m = x, hy : r' m = y at first onward
  cases first with
  | ok c before =>
    rw [Run.bind_ok hx, Run.bind_ok hy]
    exact (ht c).2 _ before
  | error e before =>
    rw [Run.bind_error hx, Run.bind_error hy]
    exact .error e before
  | cut here goesOn =>
    rw [Run.bind_error hy]
    exact .cut here (goesOn.trans onward)

theorem outOfRounds : C.Follows f g (throw .outOfRounds) (throw .outOfRounds) :=
  ⟨fun m => ⟨.error .outOfRounds m, rfl, .refl m⟩, fun _ hm => .error .outOfRounds hm⟩

theorem tick (timeout : Option Nat) (h : ∀ n, C.Before n → C.Before (n + 1)) :
    C.Follows id id (Run.tick timeout) (Run.tick timeout) := by
  refine ⟨.tick timeout, fun m hm => ?_⟩
  rw [Run.tick_apply]
  split
  · exact .error _ (h _ hm)
  · exact .ok () (h _ hm)

end Follows

/-- Being cut short, as a judgement about expressions. -/
def judgement : Judgement .same .same :=
  .ofSteps C.Follows Follows.step Follows.bind

variable {timeout timeout' : Option Nat}

/-- Being cut short, as a judgement about statements. -/
def conduct (ticks : C.Follows id id (Run.tick timeout) (Run.tick timeout')) :
    Conduct .same .same timeout timeout' where
  expr := C.judgement
  Holds f g r r' := C.Follows f g r r'
  Declares _ := True
  lift h := h
  bind := Follows.bind
  setLine n := Follows.step (.setLine n)
  tick := ticks
  declareGlobal _ _ := Follows.step (.modifyScopes _)
  outOfRounds := Follows.outOfRounds
  skip h := absurd h Bool.false_ne_true

variable {C}

section Blocks

variable (ticks : C.Follows id id (Run.tick timeout) (Run.tick timeout')) {user user' : UserCall}

instance : (C.conduct ticks).Whole where
  out_eq _ := rfl
  free _ := trivial

instance : (C.conduct ticks).DeclaresAll := ⟨fun _ => trivial⟩

include ticks

theorem follows_runBlock (hu : C.judgement.Calls user user') (rounds : Nat) (block : List Stmt) :
    C.Follows Recoding.same.flow Recoding.same.flow (runBlock ⟨user, timeout, rounds⟩ block)
      (runBlock ⟨user', timeout', rounds⟩ block) :=
  (C.conduct ticks).runBlock hu block fun _ _ => ⟨rfl, rfl⟩

theorem follows_callIn (hu : C.judgement.Calls user user') (rounds : Nat) :
    C.judgement.Calls (callIn ⟨user, timeout, rounds⟩) (callIn ⟨user', timeout', rounds⟩) :=
  C.judgement.callIn (fun n => Follows.step (.setLine n)) (fun f => Follows.step (.modifyScopes f))
    fun d => follows_runBlock ticks hu rounds d.body

/-- Calls under the same limit on their number. -/
theorem follows_userCall (rounds : Nat) : ∀ room : Nat,
    C.judgement.Calls (userCall timeout rounds room) (userCall timeout' rounds room)
  | 0 => fun _ _ _ _ => Follows.step (.fault _)
  | room + 1 => follows_callIn ticks (follows_userCall rounds room) rounds

end Blocks

section Programs

variable {limits limits' : Limits} {rounds : Nat}
  (ticks : C.Follows id id (Run.tick limits.timeout) (Run.tick limits'.timeout))
  (hu : ∀ depth, C.judgement.Calls (userCall limits.timeout rounds (limits.recursion - depth))
    (userCall limits'.timeout rounds (limits'.recursion - depth)))

include ticks hu

theorem follows_runProgram (program : List Stmt) :
    C.Follows id id (runProgram limits rounds program) (runProgram limits' rounds program) := by
  let c (m : Machine) : Control :=
    ⟨userCall limits.timeout rounds (limits.recursion - m.scopes.depth), limits.timeout, rounds⟩
  let c' (m : Machine) : Control :=
    ⟨userCall limits'.timeout rounds (limits'.recursion - m.scopes.depth), limits'.timeout, rounds⟩
  have ends (m : Machine) : C.Follows id id (runBlock (c m) program >>= fun _ => Pure.pure (id ()))
      (runBlock (c' m) program >>= fun _ => Pure.pure (id ())) :=
    (follows_runBlock ticks (hu m.scopes.depth) rounds program).bind fun _ =>
      Follows.step (.pure ())
  exact ⟨fun m => (ends m).1 m, fun m => (ends m).2 m⟩

theorem follows_runText (source var : String) :
    C.Follows id id (runText limits rounds source var) (runText limits' rounds source var) := by
  have read : C.Follows id id (Run.of (programOf source var)) (Run.of (programOf source var)) := by
    cases programOf source var with
    | ok program => exact Follows.step (.pure program)
    | error e => exact Follows.step (.fault e)
  exact read.bind fun program => follows_runProgram ticks hu program

end Programs

end Cut

end SortTrace
