import SortTrace.Proofs.Judgement.Call
import SortTrace.Proofs.Recoding.Flow

/-!
# The stack of calls

Calls can happen inside of every expression, and their frames are taken away only where the body
ends. `call_stack_kept`: from a machine with no more calls under way than the limit allows, there
never are more. When an expression or a block ends, the calls under way are those from before, only
the local names of the innermost one may be other ones, and an expression has not left its line.
When it stops at a fault, the calls from before are still there, below those that it had begun.

That there never are more calls is said by an alarm, which is sounded as soon as a frame too many is
pushed: whatever the alarm does, the run is the same without it.
-/

namespace SortTrace

open Script (Expr Stmt)

/-- The same calls: the frames are what they were, but for the names of the innermost one. -/
inductive SameCalls : List Frame → List Frame → Prop
  | outside : SameCalls [] []
  | inside {f f₁ : Frame} {rest : List Frame} (function : f₁.function = f.function)
      (callLine : f₁.callLine = f.callLine) : SameCalls (f :: rest) (f₁ :: rest)

/-- Below the frames of further calls there are the same calls, and not more than `limit` in all. -/
def CallsLeft (limit : Nat) (before after : List Frame) : Prop :=
  after.length ≤ limit ∧ ∃ further bottom, after = further ++ bottom ∧ SameCalls before bottom

namespace SameCalls

variable {before between after : List Frame}

theorem refl : ∀ frames : List Frame, SameCalls frames frames
  | [] => .outside
  | _ :: _ => .inside rfl rfl

theorem trans (h : SameCalls before between) (h' : SameCalls between after) :
    SameCalls before after := by
  cases h with
  | outside => exact h'
  | inside function callLine =>
    cases h' with
    | inside function' callLine' =>
      exact .inside (function'.trans function) (callLine'.trans callLine)

theorem length (h : SameCalls before after) : after.length = before.length := by
  cases h <;> rfl

/-- Behind the innermost call, all frames are what they were. -/
theorem tail {f : Frame} {rest : List Frame} (h : SameCalls (f :: rest) after) :
    after.tail = rest := by
  cases h
  rfl

theorem left {limit : Nat} (h : SameCalls before between) (h' : CallsLeft limit between after) :
    CallsLeft limit before after := by
  obtain ⟨hlimit, further, bottom, rfl, same⟩ := h'
  exact ⟨hlimit, further, bottom, rfl, h.trans same⟩

theorem assign (s : Scopes) (name : String) (v : Value) :
    SameCalls s.frames (s.assign name v).frames := by
  obtain ⟨globals, frames⟩ := s
  cases frames with
  | nil => exact .outside
  | cons f rest =>
    simp only [Scopes.assign]
    split
    · exact .refl _
    · exact .inside rfl rfl

theorem foldl_declare (names : List String) (f : Frame) (rest : List Frame) :
    SameCalls (f :: rest) (names.foldl Frame.declare f :: rest) := by
  induction names generalizing f with
  | nil => exact .refl _
  | cons name names ih =>
    have once : SameCalls (f :: rest) (f.declare name :: rest) := .inside rfl rfl
    exact once.trans (ih (f.declare name))

theorem declareGlobal (s : Scopes) (names : List String) :
    SameCalls s.frames (s.declareGlobal names).frames := by
  obtain ⟨globals, frames⟩ := s
  cases frames with
  | nil => exact .outside
  | cons f rest => exact foldl_declare names f rest

end SameCalls

theorem Scopes.frames_pop (s : Scopes) : s.pop.2.frames = s.frames.tail := by
  obtain ⟨globals, frames⟩ := s
  cases frames <;> rfl

/-- A stop inside of a call leaves the calls from before it. -/
theorem CallsLeft.outer {limit : Nat} {f : Frame} {before after : List Frame}
    (h : CallsLeft limit (f :: before) after) : CallsLeft limit before after := by
  obtain ⟨hlimit, further, bottom, rfl, same⟩ := h
  cases same with
  | @inside f f₁ rest function callLine =>
    refine ⟨hlimit, further ++ [f₁], before, ?_, .refl before⟩
    rw [List.append_assoc]
    rfl

/-- The calls under way stay the same. There may be `limit` of them, and `room` more than there
are. -/
def callStack (limit room : Nat) : Course .same where
  Apt m := m.scopes.depth + room = limit
  Keeps m m₁ := SameCalls m.scopes.frames m₁.scopes.frames
  Leaves m m₁ := CallsLeft limit m.scopes.frames m₁.scopes.frames
  line_eq _ := rfl
  heap {m} _ := ⟨m.heap, (Recoding.heap_same _).symm⟩
  scopes {m} _ := ⟨m.scopes, (Recoding.scopes_same _).symm⟩
  trans h h' := h.trans h'
  leaves h h' := h.left h'
  change {m} hm m₁ hs _ := by
    rw [hs]
    have within : m.scopes.frames.length ≤ limit := by
      rw [← hm]
      exact Nat.le_add_right _ _
    exact ⟨hm, .refl _, within, [], _, rfl, .refl _⟩
  assign {m} hm name v := by
    have same := SameCalls.assign m.scopes name (Recoding.same.value v)
    exact ⟨(congrArg (· + room) same.length).trans hm, same⟩
  declareGlobal {m} hm names _ := by
    have same := SameCalls.declareGlobal m.scopes names
    exact ⟨(congrArg (· + room) same.length).trans hm, same⟩

instance (limit room : Nat) : (callStack limit room).DeclaresAll := ⟨fun _ => trivial⟩

theorem callStack_enters (limit room : Nat) :
    (callStack limit (room + 1)).Enters (callStack limit room) where
  enter {m} hm function locals := by
    have pushed : (m.enter function (Recoding.same.bindings locals)).scopes.depth
        = m.scopes.depth + 1 := rfl
    change m.scopes.depth + (room + 1) = limit at hm
    change _ + room = limit
    omega
  leave {m m₁ function locals} hm _ h := by
    have popped : (m₁.leave m.line).scopes.frames = m.scopes.frames :=
      (Scopes.frames_pop _).trans h.tail
    refine ⟨?_, ?_⟩
    · change (m₁.leave m.line).scopes.frames.length + _ = limit
      rw [popped]
      exact hm
    · change SameCalls _ (m₁.leave m.line).scopes.frames
      rw [popped]
      exact .refl _
  stop _ h := h.outer

/-- Sounds the alarm when there are more calls than the limit allows. -/
def depthWatch (alarm : Run Unit) (limit : Nat) : Watch where
  entered := do
    if limit < (← get).scopes.depth then alarm
  ended _ := pure ()

theorem callStack_calls (alarm : Run Unit) (limit : Nat) (timeout : Option Nat) (rounds : Nat) :
    ∀ room, (callStack limit room).judgement.Calls (userCall timeout rounds room)
      (watchedCall (depthWatch alarm limit) timeout rounds room)
  | 0 => fun _ _ _ _ => Course.Follows.fault .recursion
  | room + 1 => by
    refine Course.calls (callStack_enters limit room)
      (callStack_calls alarm limit timeout rounds room)
      (fun _ _ _ => .of_function fun _ _ => ⟨rfl, rfl⟩) ?_ fun _ _ _ _ _ _ => rfl
    intro m hm
    change m.scopes.depth + room = limit at hm
    change (if limit < m.scopes.depth then alarm else pure () : Run Unit) m = _
    rw [if_neg (by omega)]
    rfl

/-- What an end of a run says of the calls under way, and of the line if it is the end of an
expression. -/
def KeepsCalls {α : Type} (limit : Nat) (still : Bool) (m : Machine) :
    EStateM.Result Stop Machine α → Prop
  | .ok _ m₁ => SameCalls m.scopes.frames m₁.scopes.frames ∧ (still = true → m₁.line = m.line)
  | .error _ m₁ => CallsLeft limit m.scopes.frames m₁.scopes.frames

theorem keepsCalls_of_ends {α γ : Type} {limit room : Nat} {still : Bool} {f : γ → α} {m : Machine}
    {x y : EStateM.Result Stop Machine α} (h : (callStack limit room).Ends still f f m x y) :
    y = x ∧ KeepsCalls limit still m x := by
  cases h with
  | ok c apt keeps line => exact ⟨rfl, keeps, line⟩
  | error e leaves => exact ⟨rfl, leaves⟩

/-- **The calls under way are kept, and there are never too many of them.** -/
theorem call_stack_kept (limit : Nat) (timeout : Option Nat) (rounds : Nat) (alarm : Run Unit)
    (m : Machine) (hm : m.scopes.depth ≤ limit) :
    let user := userCall timeout rounds (limit - m.scopes.depth)
    let watched := watchedCall (depthWatch alarm limit) timeout rounds (limit - m.scopes.depth)
    (∀ e : Expr, eval watched e m = eval user e m ∧ KeepsCalls limit true m (eval user e m)) ∧
    ∀ block : List Stmt,
      runBlock ⟨watched, timeout, rounds⟩ block m = runBlock ⟨user, timeout, rounds⟩ block m ∧
        KeepsCalls limit false m (runBlock ⟨user, timeout, rounds⟩ block m) := by
  intro user watched
  have apt : (callStack limit (limit - m.scopes.depth)).Apt m := Nat.add_sub_cancel' hm
  have calls := callStack_calls alarm limit timeout rounds (limit - m.scopes.depth)
  constructor
  · intro e
    exact keepsCalls_of_ends ((callStack limit _).judgement.eval calls e m apt)
  · intro block
    exact keepsCalls_of_ends
      (((callStack limit _).conduct timeout).runBlock calls block (fun _ _ => ⟨rfl, rfl⟩) m apt)

/-- A function that calls itself without end is stopped with as many calls under way as there may
be. -/
theorem call_stack_kept_endless :
    let m := Machine.start (Session.start .report [] none)
    let endless : List Stmt := [
      .define 1 "f" [] [.giveBack 2 (some (.call (.name "f") [] []))],
      .expr 3 (.call (.name "f") [] [])]
    let run (user : UserCall) := runBlock ⟨user, none, 1⟩ endless m
    let watched := watchedCall (depthWatch (Run.setLine 0) 2) none 1 2
    m.scopes.depth ≤ 2 ∧ run watched = run (userCall none 1 2) ∧
      KeepsCalls 2 false m (run (userCall none 1 2)) ∧
      ∃ m₁, run (userCall none 1 2) = .error (.fault .recursion) m₁ ∧ m₁.scopes.depth = 2 := by
  intro m endless run watched
  have within : m.scopes.depth ≤ 2 := by decide
  obtain ⟨same, keeps⟩ := (call_stack_kept 2 none 1 _ m within).2 endless
  exact ⟨within, same, keeps, _, rfl, rfl⟩

end SortTrace
