import SortTrace.Proofs.CutShort
import SortTrace.Proofs.Ticks

/-!
# A time limit of nothing

The time is looked at only at every 1024th tick, and a limit of zero seconds has passed by then. So
a run with this limit is cut short at tick 1024 of the run without a limit, if that gets there, and
is the same run otherwise (`zero_timeout_cuts`). That loops which go round forever get there is what
ticks are counted for: a run that is out of rounds has spent a tick on each of them. Only functions
with an empty body are called for nothing.
-/

namespace SortTrace

open Script (Stmt)

/-- The cut of a run at the first look at the time. -/
def firstLook : Cut where
  stop := .timeout 0
  Before n := n < Run.ticksPerLook
  At n := n = Run.ticksPerLook

theorem firstLook_tick : firstLook.Follows id id (Run.tick none) (Run.tick (some 0)) := by
  refine ⟨.tick none, fun m hm => ?_⟩
  have hm : m.ticks < Run.ticksPerLook := hm
  have untimed : Run.tick none m = .ok () { m with ticks := m.ticks + 1 } := by
    rw [Run.tick_apply]
    simp
  rw [untimed, Run.tick_apply]
  rcases Nat.eq_or_lt_of_le (show m.ticks + 1 ≤ Run.ticksPerLook from hm) with h | h
  · have late : (m.ticks + 1) % Run.ticksPerLook = 0 := by rw [h, Nat.mod_self]
    simp only [late]
    exact .cut h (.refl _)
  · have early : (m.ticks + 1) % Run.ticksPerLook ≠ 0 := by
      rw [Nat.mod_eq_of_lt h]
      exact Nat.succ_ne_zero _
    simp only [early]
    exact .ok () h

/-- The run with the limit is cut short at the first look at the time. -/
theorem ends_firstLook (program : List Stmt) (session : Session) (recursion rounds : Nat) :
    firstLook.Ends id id (runProgram ⟨recursion, none⟩ rounds program (.start session))
      (runProgram ⟨recursion, some 0⟩ rounds program (.start session)) := by
  have follows : firstLook.Follows id id (runProgram ⟨recursion, none⟩ rounds program)
      (runProgram ⟨recursion, some 0⟩ rounds program) :=
    Cut.follows_runProgram firstLook_tick (fun _ => Cut.follows_userCall firstLook_tick rounds _)
      program
  exact follows.2 (.start session) (show 0 < Run.ticksPerLook by decide)

/-- **A time limit of nothing cuts a run at tick 1024 and nowhere else.** -/
theorem zero_timeout_cuts (program : List Stmt) (session : Session) (recursion rounds : Nat) :
    let free := runProgram ⟨recursion, none⟩ rounds program (.start session)
    let timed := runProgram ⟨recursion, some 0⟩ rounds program (.start session)
    ((leftBy free).ticks < 1024 → timed = free) ∧
    (1024 ≤ (leftBy free).ticks → ∃ m, timed = .error (.fault (.timeout 0)) m ∧ m.ticks = 1024 ∧
      m.session.Extends (leftBy free).session) ∧
    (∀ m, free = .error .outOfRounds m → rounds ≤ m.ticks) ∧
    ∀ room, CostsTicks ⟨userCall none rounds room, none, rounds⟩ := by
  intro free timed
  have ends : firstLook.Ends id id free timed := ends_firstLook program session recursion rounds
  refine ⟨fun h => ?_, fun h => ?_, fun m h => ?_, fun room => costsTicks none rounds room⟩
  · generalize free = x, timed = y at ends h ⊢
    cases ends with
    | ok | error => rfl
    | cut here onward =>
      have ticks := onward.ticks
      have here : _ = 1024 := here
      omega
  · generalize free = x, timed = y at ends h ⊢
    cases ends with
    | ok _ before | error _ before => exact absurd before (Nat.not_lt.mpr h)
    | @cut _ m here onward => exact ⟨m, rfl, here, onward.session⟩
  · exact (Nat.zero_add rounds) ▸ (spends_runProgram program).spent h

/-- A body is empty where nothing but a continued line is indented, and calls then cost nothing. -/
example : (programOf "def f(x):\n    \\\n\n" "arr").toOption.any
    (fun program => program.any fun s => s.function?.any fun d => d.body.isEmpty) = true := by
  decide +kernel

end SortTrace
