import SortTrace.Execution
import SortTrace.Proofs.Judgement.Held

/-!
# Local and global names

In a frame, no name is local and declared global at once (`Frame.Split`): a declaration takes the
name out of the local ones, and an assignment to a declared name binds a global one. This is so
whatever is done to the scopes, by calls that begin and end, assignments and declarations in any
order (`Scopes.Reached`), and a run does nothing else to them: not in the calls it makes, and not
where it stops and leaves frames behind on which later programs go on.

So a name that was assigned is read back, a name that was declared global is read among the global
names, and neither shows on any other name (`Scopes.ReadsBack`).

* `locals_and_globals_apart` — all this for scopes, for all parts of runs and for programs one after
  the other.
-/

namespace SortTrace

open Script (Expr Stmt)

/-- No name is local and declared global. -/
def Frame.Split (f : Frame) : Prop :=
  ∀ name ∈ f.declared, f.locals.find? name = none

instance : DecidablePred Frame.Split :=
  fun f => inferInstanceAs (Decidable (∀ name ∈ f.declared, f.locals.find? name = none))

namespace Bindings

theorem find?_erase_self (b : Bindings) (name : String) : (b.erase name).find? name = none := by
  induction b with
  | nil => rfl
  | cons p rest ih =>
    by_cases h : p.1 = name
    · rw [erase, List.filter_cons_of_neg (by simpa using h)]
      exact ih
    · rw [erase, List.filter_cons_of_pos (by simpa using h), find?, if_neg h]
      exact ih

theorem find?_erase_of_ne (b : Bindings) {name other : String} (h : other ≠ name) :
    (b.erase name).find? other = b.find? other := by
  induction b with
  | nil => rfl
  | cons p rest ih =>
    by_cases hp : p.1 = name
    · rw [erase, List.filter_cons_of_neg (by simpa using hp), find?, if_neg (hp ▸ h.symm)]
      exact ih
    · rw [erase, List.filter_cons_of_pos (by simpa using hp), find?, find?]
      split
      · rfl
      · exact ih

end Bindings

/-! ## Declarations -/

namespace Frame

variable {f : Frame} {name other : String}

theorem mem_declare : other ∈ (f.declare name).declared ↔ other = name ∨ other ∈ f.declared := by
  rw [declare]
  by_cases h : f.declares name
  · have declared : name ∈ f.declared := by simpa [declares] using h
    rw [if_pos h]
    exact (or_iff_right_of_imp fun same => same ▸ declared).symm
  · simp only [if_neg h]
    exact List.mem_cons

theorem Split.declare (hf : f.Split) : (f.declare name).Split := by
  intro other h
  by_cases hn : other = name
  · exact hn ▸ f.locals.find?_erase_self name
  · have declared := (mem_declare.mp h).resolve_left hn
    exact (f.locals.find?_erase_of_ne hn).trans (hf other declared)

theorem Split.declareAll (hf : f.Split) (names : List String) :
    (names.foldl Frame.declare f).Split := by
  induction names generalizing f with
  | nil => exact hf
  | cons name names ih => exact ih hf.declare

theorem mem_declareAll {names : List String} :
    other ∈ (names.foldl declare f).declared ↔ other ∈ names ∨ other ∈ f.declared := by
  induction names generalizing f with
  | nil => simp
  | cons name names ih => rw [List.foldl_cons, ih, mem_declare, List.mem_cons]; tauto

theorem find?_declareAll {names : List String} (h : other ∉ names) :
    (names.foldl declare f).locals.find? other = f.locals.find? other := by
  induction names generalizing f with
  | nil => rfl
  | cons name names ih =>
    obtain ⟨ne, others⟩ := not_or.mp (List.mem_cons.not.mp h)
    exact (ih others).trans (f.locals.find?_erase_of_ne ne)

theorem Split.insert (hf : f.Split) (hn : ¬ f.declares name) (v : Value) :
    Split { f with locals := Bindings.insert name v f.locals } := by
  intro other h
  have ne : other ≠ name := fun same => hn (by simpa [declares] using same ▸ h)
  exact (f.locals.find?_insert_of_ne v ne).trans (hf other h)

end Frame

/-! ## Operations on scopes -/

/-- What is done to scopes. -/
inductive ScopeOp where
  | push (f : Frame)
  | pop
  | assign (name : String) (v : Value)
  | declareGlobal (names : List String)

namespace ScopeOp

/-- The scopes after an operation. -/
def run (s : Scopes) : ScopeOp → Scopes
  | push f => s.push f
  | pop => s.pop.2
  | assign name v => s.assign name v
  | declareGlobal names => s.declareGlobal names

/-- A frame that is pushed has no name that is local and declared global, as no frame of a call has
that begins. -/
def Proper : ScopeOp → Prop
  | push f => f.Split
  | _ => True

end ScopeOp

namespace Scopes

variable {s s₁ s₂ : Scopes}

/-- Operations lead from some scopes to others. -/
def Leads (s s₁ : Scopes) : Prop :=
  ∃ ops : List ScopeOp, (∀ op ∈ ops, op.Proper) ∧ s₁ = ops.foldl ScopeOp.run s

/-- The scopes can be reached by operations from those where nothing is bound. -/
def Reached (s : Scopes) : Prop :=
  empty.Leads s

theorem Leads.refl (s : Scopes) : s.Leads s :=
  ⟨[], nofun, rfl⟩

theorem Leads.trans (h : s.Leads s₁) (h' : s₁.Leads s₂) : s.Leads s₂ := by
  obtain ⟨ops, proper, rfl⟩ := h
  obtain ⟨more, proper', rfl⟩ := h'
  exact ⟨ops ++ more, List.forall_mem_append.mpr ⟨proper, proper'⟩, List.foldl_append.symm⟩

theorem Leads.one (s : Scopes) (op : ScopeOp) (h : op.Proper) : s.Leads (op.run s) :=
  ⟨[op], List.forall_mem_singleton.mpr h, rfl⟩

/-- One operation keeps local and declared names apart in every frame. -/
theorem split_run {op : ScopeOp} (hop : op.Proper) (hs : ∀ f ∈ s.frames, f.Split) :
    ∀ f ∈ (op.run s).frames, f.Split := by
  obtain ⟨globals, frames⟩ := s
  cases op with
  | push f => exact List.forall_mem_cons.mpr ⟨hop, hs⟩
  | pop =>
    cases frames with
    | nil => exact hs
    | cons f rest => exact (List.forall_mem_cons.mp hs).2
  | assign name v =>
    cases frames with
    | nil => exact hs
    | cons f rest =>
      obtain ⟨hf, hrest⟩ := List.forall_mem_cons.mp hs
      simp only [ScopeOp.run, assign]
      split
      · exact hs
      · next undeclared => exact List.forall_mem_cons.mpr ⟨hf.insert undeclared v, hrest⟩
  | declareGlobal names =>
    cases frames with
    | nil => exact hs
    | cons f rest =>
      obtain ⟨hf, hrest⟩ := List.forall_mem_cons.mp hs
      exact List.forall_mem_cons.mpr ⟨hf.declareAll names, hrest⟩

/-- Any number of operations do. -/
theorem Leads.split (h : s.Leads s₁) (hs : ∀ f ∈ s.frames, f.Split) :
    ∀ f ∈ s₁.frames, f.Split := by
  obtain ⟨ops, proper, rfl⟩ := h
  induction ops generalizing s with
  | nil => exact hs
  | cons op ops ih =>
    obtain ⟨first, others⟩ := List.forall_mem_cons.mp proper
    exact ih (split_run first hs) others

theorem Reached.split (h : s.Reached) : ∀ f ∈ s.frames, f.Split :=
  Leads.split h nofun

/-! ## Names read back -/

/-- What is assigned is read, a name that is declared is read among the global names, and other
names are read as before. -/
structure ReadsBack (s : Scopes) : Prop where
  assigned (name : String) (v : Value) : (s.assign name v).lookup name = some v
  unassigned (name : String) (v : Value) {other : String} (h : other ≠ name) :
    (s.assign name v).lookup other = s.lookup other
  declared (names : List String) {name : String} (h : name ∈ names) :
    (s.declareGlobal names).lookup name = s.globals.find? name
  undeclared (names : List String) {other : String} (h : other ∉ names) :
    (s.declareGlobal names).lookup other = s.lookup other
  outside (names : List String) (h : s.frames = []) : s.declareGlobal names = s

section Lookup

variable {globals : Bindings} {f : Frame} {rest : List Frame} {name : String}

theorem lookup_inside (globals : Bindings) (f : Frame) (rest : List Frame) (name : String) :
    lookup ⟨globals, f :: rest⟩ name
      = (if f.declares name then none else f.locals.find? name).or (globals.find? name) := by
  by_cases h : f.declares name
  · simp [lookup, h]
  · cases hl : f.locals.find? name <;> simp [lookup, h, hl]

theorem assign_declared (h : f.declares name) (v : Value) :
    assign ⟨globals, f :: rest⟩ name v = ⟨globals.insert name v, f :: rest⟩ :=
  if_pos h

theorem assign_local (h : ¬ f.declares name) (v : Value) :
    assign ⟨globals, f :: rest⟩ name v
      = ⟨globals, { f with locals := f.locals.insert name v } :: rest⟩ :=
  if_neg h

theorem lookup_assign (s : Scopes) (name : String) (v : Value) :
    (s.assign name v).lookup name = some v := by
  obtain ⟨globals, _ | ⟨f, rest⟩⟩ := s
  · exact globals.find?_insert_self name v
  by_cases h : f.declares name
  · rw [assign_declared h, lookup_inside, if_pos h, Bindings.find?_insert_self]
    rfl
  · rw [assign_local h, lookup_inside, Bindings.find?_insert_self]
    exact congrArg (Option.or · _) (if_neg h)

theorem lookup_assign_of_ne (s : Scopes) (name : String) (v : Value) {other : String}
    (ne : other ≠ name) : (s.assign name v).lookup other = s.lookup other := by
  obtain ⟨globals, _ | ⟨f, rest⟩⟩ := s
  · exact globals.find?_insert_of_ne v ne
  by_cases h : f.declares name
  · rw [assign_declared h, lookup_inside, lookup_inside, Bindings.find?_insert_of_ne _ v ne]
  · rw [assign_local h, lookup_inside, lookup_inside, Bindings.find?_insert_of_ne _ v ne]
    rfl

theorem lookup_declared (s : Scopes) (names : List String) {name : String} (h : name ∈ names) :
    (s.declareGlobal names).lookup name = s.globals.find? name := by
  obtain ⟨globals, _ | ⟨f, rest⟩⟩ := s
  · rfl
  have declared : (names.foldl Frame.declare f).declares name :=
    List.contains_iff_mem.mpr (Frame.mem_declareAll.mpr (.inl h))
  exact (lookup_inside ..).trans (by rw [if_pos declared]; rfl)

theorem lookup_undeclared (s : Scopes) (names : List String) {other : String}
    (h : other ∉ names) : (s.declareGlobal names).lookup other = s.lookup other := by
  obtain ⟨globals, _ | ⟨f, rest⟩⟩ := s
  · rfl
  have same : (names.foldl Frame.declare f).declares other = f.declares other := by
    rw [Bool.eq_iff_iff, Frame.declares, Frame.declares, List.contains_iff_mem,
      List.contains_iff_mem, Frame.mem_declareAll]
    exact or_iff_right h
  refine (lookup_inside ..).trans ?_
  rw [same, Frame.find?_declareAll h, ← lookup_inside globals f rest]

theorem declareGlobal_outside (s : Scopes) (names : List String) (h : s.frames = []) :
    s.declareGlobal names = s := by
  rw [declareGlobal, h]

end Lookup

theorem readsBack (s : Scopes) : s.ReadsBack where
  assigned := s.lookup_assign
  unassigned := s.lookup_assign_of_ne
  declared := s.lookup_declared
  undeclared := s.lookup_undeclared
  outside := s.declareGlobal_outside

end Scopes

/-! ## Runs -/

/-- Scopes that can be reached lead to others by operations. -/
def scopesReached : Course .same where
  Apt m := m.scopes.Reached
  Keeps m m₁ := m.scopes.Leads m₁.scopes
  Leaves m m₁ := m.scopes.Leads m₁.scopes
  line_eq := Recoding.line_same
  heap {m} _ := ⟨m.heap, (Recoding.heap_same _).symm⟩
  scopes {m} _ := ⟨m.scopes, (Recoding.scopes_same _).symm⟩
  trans h h' := h.trans h'
  leaves h h' := h.trans h'
  change {m} hm m₁ hs _ := by
    rw [hs]
    exact ⟨hm, .refl _, .refl _⟩
  assign {m} hm name v := by
    have leads := Scopes.Leads.one m.scopes (.assign name (Recoding.same.value v)) trivial
    exact ⟨hm.trans leads, leads⟩
  declareGlobal {m} hm names _ := by
    have leads := Scopes.Leads.one m.scopes (.declareGlobal names) trivial
    exact ⟨hm.trans leads, leads⟩

instance : scopesReached.DeclaresAll := ⟨fun _ => trivial⟩

/-- A call pushes a frame that declares nothing, and pops it when it ends. -/
theorem scopesReached_enters : scopesReached.Enters scopesReached := by
  have entered (m : Machine) (function : String) (locals : Bindings) :
      m.scopes.Leads (m.enter function locals).scopes :=
    .one m.scopes (.push ⟨function, m.line, locals, []⟩) nofun
  refine ⟨fun hm function locals => hm.trans (entered _ function _),
    fun {m m₁ function locals} hm hm₁ h => ?_, fun {m m₁ function locals} _ h =>
      (entered m function locals).trans h⟩
  have left : m₁.scopes.Leads (m₁.leave m.line).scopes := .one m₁.scopes .pop trivial
  exact ⟨hm₁.trans left, (entered m function locals).trans (h.trans left)⟩

/-- Sounds the alarm when some frame has a name that is local and declared global, be it where the
frame of a call is there or where the body of a function has ended. -/
def splitWatch (alarm : Run Unit) : Watch :=
  let check : Run Unit := do
    if ¬ ∀ f ∈ (← get).scopes.frames, f.Split then alarm
  ⟨check, fun _ => check⟩

theorem splitWatch_silent (alarm : Run Unit) {m : Machine} (hm : m.scopes.Reached) :
    (splitWatch alarm).entered m = .ok () m := by
  change (if ¬ ∀ f ∈ m.scopes.frames, f.Split then alarm else pure () : Run Unit) m = _
  rw [if_neg (not_not.mpr hm.split)]
  rfl

theorem scopesReached_calls (alarm : Run Unit) (timeout : Option Nat) (rounds : Nat) : ∀ room,
    scopesReached.judgement.Calls (userCall timeout rounds room)
      (watchedCall (splitWatch alarm) timeout rounds room)
  | 0 => fun _ _ _ _ => Course.Follows.fault .recursion
  | room + 1 =>
    Course.calls scopesReached_enters (scopesReached_calls alarm timeout rounds room)
      (fun _ _ _ => .of_function fun _ _ => ⟨rfl, rfl⟩) (fun _ hm => splitWatch_silent alarm hm)
      fun _ _ _ _ hm _ => splitWatch_silent alarm hm

theorem reached_of_ends {α γ : Type} {still : Bool} {f : γ → α} {m : Machine}
    {x y : EStateM.Result Stop Machine α} (hm : m.scopes.Reached)
    (h : scopesReached.Ends still f f m x y) : y = x ∧ (leftBy x).scopes.Reached := by
  refine ⟨h.same, ?_⟩
  cases h with
  | ok _ apt => exact apt
  | error _ leaves => exact hm.trans leaves

/-- Programs leave scopes that can be reached, on which later programs go on. -/
theorem reached_runProgram (limits : Limits) (rounds : Nat) (program : List Stmt) {m : Machine}
    (hm : m.scopes.Reached) : (leftBy (runProgram limits rounds program m)).scopes.Reached := by
  rw [leftBy_runProgram]
  have calls := scopesReached_calls (pure ()) limits.timeout rounds
    (limits.recursion - m.scopes.depth)
  exact (reached_of_ends hm ((scopesReached.conduct limits.timeout).runBlock calls program
    (fun _ _ => ⟨rfl, rfl⟩) m hm)).2

theorem reached_runText (limits : Limits) (rounds : Nat) (source var : String) {m : Machine}
    (hm : m.scopes.Reached) : (leftBy (runText limits rounds source var m)).scopes.Reached := by
  rw [runText]
  cases programOf source var with
  | error e => exact hm
  | ok program => exact reached_runProgram limits rounds program hm

/-- **Local and global names stay apart.** -/
theorem locals_and_globals_apart (alarm : Run Unit) :
    (∀ s : Scopes, s.Reached → (∀ f ∈ s.frames, f.Split) ∧ s.ReadsBack) ∧
    (∀ m : Machine, m.scopes.Reached → ∀ timeout rounds room,
      let user := userCall timeout rounds room
      let watched := watchedCall (splitWatch alarm) timeout rounds room
      (∀ e : Expr, eval watched e m = eval user e m ∧ (leftBy (eval user e m)).scopes.Reached) ∧
      (∀ s : Stmt, let run (user : UserCall) := runStmt ⟨user, timeout, rounds⟩ s m
        run watched = run user ∧ (leftBy (run user)).scopes.Reached) ∧
      ∀ block : List Stmt, let run (user : UserCall) := runBlock ⟨user, timeout, rounds⟩ block m
        run watched = run user ∧ (leftBy (run user)).scopes.Reached) ∧
    (∀ m : Machine, m.scopes.Reached → ∀ limits rounds,
      (∀ program, (leftBy (runProgram limits rounds program m)).scopes.Reached) ∧
      ∀ source var, (leftBy (runText limits rounds source var m)).scopes.Reached) ∧
    ∀ m : Machine, Reached m → m.scopes.Reached := by
  refine ⟨fun s hs => ⟨hs.split, s.readsBack⟩, fun m hm timeout rounds room => ?_,
    fun m hm limits rounds => ⟨fun program => reached_runProgram limits rounds program hm,
      fun source var => reached_runText limits rounds source var hm⟩, fun m hm => ?_⟩
  · intro user watched
    have calls := scopesReached_calls alarm timeout rounds room
    let C := scopesReached.conduct timeout
    have admits (p : Stmt) : C.Admits p := .of_function fun _ _ => ⟨rfl, rfl⟩
    refine ⟨fun e => ?_, fun s => ?_, fun block => ?_⟩
    · exact reached_of_ends hm (scopesReached.judgement.eval calls e m hm)
    · exact reached_of_ends hm (C.statement calls s (admits s) (fun p _ => admits p) m hm)
    · exact reached_of_ends hm (C.runBlock calls block (fun _ _ => ⟨rfl, rfl⟩) m hm)
  · induction hm with
    | start session => exact .refl _
    | told _ _ ih => exact ih
    | ran limits rounds _ _ ih => exact reached_runProgram limits rounds _ ih

/-- A parameter that is declared global, in scopes and in a call. -/
theorem locals_and_globals_apart_parameter :
    let inside : List ScopeOp := [.push ⟨"f", 4, [("x", .int 1)], []⟩, .declareGlobal ["x"]]
    let s := inside.foldl ScopeOp.run .empty
    let m := Machine.start default
    let program : List Stmt := [
      .define 1 "f" [⟨"x", none⟩]
        [.declareGlobal 2 ["x"], .assign 3 [.name "x"] (.literal (.int 2))],
      .expr 4 (.call (.name "f") [.literal (.int 1)] [])]
    let watched := watchedCall (splitWatch (Run.setLine 0)) none 1 1
    s.Reached ∧ (∀ f ∈ s.frames, f.Split) ∧ s.lookup "x" = none ∧
      (s.assign "x" (.int 3)).lookup "x" = some (.int 3) ∧ m.scopes.Reached ∧
      runBlock ⟨watched, none, 1⟩ program m = runBlock ⟨userCall none 1 1, none, 1⟩ program m := by
  intro inside s m program watched
  have reached : s.Reached := by
    refine ⟨inside, List.forall_mem_cons.mpr ⟨nofun, List.forall_mem_singleton.mpr trivial⟩, rfl⟩
  have start : m.scopes.Reached := .refl _
  obtain ⟨scopes, runs, -, -⟩ := locals_and_globals_apart (Run.setLine 0)
  obtain ⟨split, reads⟩ := scopes s reached
  exact ⟨reached, split, rfl, reads.assigned "x" (.int 3), start,
    ((runs m start none 1 1).2.2 program).1⟩

end SortTrace
