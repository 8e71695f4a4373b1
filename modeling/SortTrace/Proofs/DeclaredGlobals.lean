import SortTrace.Proofs.CallStack
import SortTrace.Proofs.Judgement.Held

/-!
# Calls change only the globals that are declared

Names are bound by assignments of all kinds, loops, definitions and the parameters of calls, at any
depth of calls. Inside of a call all of these bind in the frame of the call, but for the names that
the call has declared global. So if the functions of a machine and the calls under way declare only
certain names (`Machine.DeclaresOnly`), whatever is done inside of a call leaves all other global
names bound to what they were (`globals_kept_in_calls`).
-/

namespace SortTrace

open Script (Expr FunctionDef Stmt)

/-- The names that statements of the block declare global, those in function bodies too. -/
def Script.Stmt.globalNames (block : List Stmt) : List String :=
  (Stmt.inBlock block).flatMap Stmt.declared

/-- The functions that the machine holds and the calls under way declare only these names. -/
structure Machine.DeclaresOnly (names : List String) (m : Machine) : Prop where
  functions : ∀ d ∈ m.functions, Stmt.globalNames d.body ⊆ names
  frames : ∀ f ∈ m.scopes.frames, f.declared ⊆ names

/-- The bindings of all names but these. -/
def Bindings.outside (names : List String) (b : Bindings) : Bindings :=
  b.filter fun p => !names.contains p.1

/-- Inside of a call, all global names but these are bound to what they were. -/
def Scopes.SameOutside (names : List String) (s s₁ : Scopes) : Prop :=
  s.frames ≠ [] → s₁.globals.outside names = s.globals.outside names

/-! ## Scopes -/

theorem Scopes.SameOutside.trans {names : List String} {s s₁ s₂ : Scopes}
    (h : s.SameOutside names s₁) (calls : SameCalls s.frames s₁.frames)
    (h' : s₁.SameOutside names s₂) : s.SameOutside names s₂ := by
  intro inside
  have inside₁ : s₁.frames ≠ [] := by
    rw [← List.length_pos_iff, calls.length, List.length_pos_iff]
    exact inside
  exact (h' inside₁).trans (h inside)

section Scopes

variable {names : List String}

theorem Bindings.outside_insert {name : String} (h : name ∈ names) (v : Value) (b : Bindings) :
    (Bindings.insert name v b).outside names = b.outside names := by
  have dropped : (!names.contains name) = false := by simpa using h
  induction b with
  | nil => simp [insert, outside, h]
  | cons p rest ih =>
    simp only [outside] at ih ⊢
    rw [insert]
    split
    · rename_i hp
      rw [List.filter_cons, List.filter_cons, hp, dropped]
      rfl
    · rw [List.filter_cons, List.filter_cons, ih]

/-- Where nothing is declared global, all global names stay what they are. -/
theorem Bindings.outside_nil (b : Bindings) : b.outside [] = b :=
  List.filter_eq_self.mpr fun _ _ => rfl

/-- All frames declare only the names. -/
abbrev DeclareOnly (names : List String) (frames : List Frame) : Prop :=
  ∀ f ∈ frames, f.declared ⊆ names

variable {s : Scopes} (hs : DeclareOnly names s.frames)

include hs

theorem Scopes.assign_declareOnly (name : String) (v : Value) :
    DeclareOnly names (s.assign name v).frames := by
  obtain ⟨globals, frames⟩ := s
  cases frames with
  | nil => exact hs
  | cons f rest =>
    obtain ⟨hf, hrest⟩ := List.forall_mem_cons.mp hs
    simp only [Scopes.assign]
    split
    · exact hs
    · exact List.forall_mem_cons.mpr ⟨hf, hrest⟩

theorem Scopes.assign_sameOutside (name : String) (v : Value) :
    s.SameOutside names (s.assign name v) := by
  intro inside
  obtain ⟨globals, frames⟩ := s
  cases frames with
  | nil => exact absurd rfl inside
  | cons f rest =>
    obtain ⟨hf, -⟩ := List.forall_mem_cons.mp hs
    simp only [Scopes.assign]
    split
    · rename_i declares
      exact Bindings.outside_insert (hf (List.contains_iff_mem.mp declares)) v globals
    · rfl

theorem Scopes.declareGlobal_declareOnly {declared : List String} (h : declared ⊆ names) :
    DeclareOnly names (s.declareGlobal declared).frames := by
  have foldl (f : Frame) (hf : f.declared ⊆ names) :
      (declared.foldl Frame.declare f).declared ⊆ names := by
    induction declared generalizing f with
    | nil => exact hf
    | cons name declared ih =>
      obtain ⟨hname, hdeclared⟩ := List.cons_subset.mp h
      refine ih hdeclared (f.declare name) ?_
      rw [Frame.declare]
      split
      · exact hf
      · exact List.cons_subset.mpr ⟨hname, hf⟩
  obtain ⟨globals, frames⟩ := s
  cases frames with
  | nil => exact hs
  | cons f rest =>
    obtain ⟨hf, hrest⟩ := List.forall_mem_cons.mp hs
    exact List.forall_mem_cons.mpr ⟨foldl f hf, hrest⟩

theorem Scopes.pop_declareOnly : DeclareOnly names s.pop.2.frames := by
  rw [Scopes.frames_pop]
  exact fun f hf => hs f (List.mem_of_mem_tail hf)

end Scopes

theorem Scopes.declareGlobal_globals (s : Scopes) (names : List String) :
    (s.declareGlobal names).globals = s.globals := by
  obtain ⟨globals, frames⟩ := s
  cases frames <;> rfl

theorem Scopes.pop_globals (s : Scopes) : s.pop.2.globals = s.globals := by
  obtain ⟨globals, frames⟩ := s
  cases frames <;> rfl

/-! ## The course of a run -/

/-- Functions that declare other names than these stand for empty ones. -/
abbrev Recoding.declaring (names : List String) : Recoding :=
  .only fun d => (Stmt.globalNames d.body).all names.contains

theorem Script.FunctionDef.declaresOnly_iff {names : List String} {d : FunctionDef} :
    (Stmt.globalNames d.body).all names.contains = true ↔ Stmt.globalNames d.body ⊆ names := by
  simp [List.subset_def]

theorem Recoding.declaring_code (names : List String) (d : FunctionDef) :
    Stmt.globalNames ((declaring names).code d).body ⊆ names :=
  FunctionDef.declaresOnly_iff.mp
    (only_code (p := fun d => (Stmt.globalNames d.body).all names.contains) (fun _ => rfl) d)

theorem Machine.declaresOnly_iff {names : List String} {m : Machine} :
    m.DeclaresOnly names ↔ m.Recoded (.declaring names) ∧ DeclareOnly names m.scopes.frames := by
  rw [Machine.recoded_only_iff fun _ => rfl]
  simp only [FunctionDef.declaresOnly_iff]
  exact ⟨fun h => ⟨h.functions, h.frames⟩, fun h => ⟨h.1, h.2⟩⟩

/-- Inside of a call, all global names but these stay bound to what they are. -/
def globalsKept (names : List String) : Course (.declaring names) where
  Apt m := m.Recoded (.declaring names) ∧ DeclareOnly names m.scopes.frames
  Keeps m m₁ :=
    SameCalls m.scopes.frames m₁.scopes.frames ∧ m.scopes.SameOutside names m₁.scopes
  Leaves m m₁ :=
    (m₁.Recoded (.declaring names) ∧ DeclareOnly names m₁.scopes.frames) ∧
      m.scopes.SameOutside names m₁.scopes
  Declares name := name ∈ names
  line_eq := Recoding.line_only
  heap hm := hm.1.heap
  scopes hm := hm.1.scopes
  trans h h' := ⟨h.1.trans h'.1, h.2.trans h.1 h'.2⟩
  leaves h h' := ⟨h'.1, h.2.trans h.1 h'.2⟩
  change {m} hm m₁ hs hh := by
    have apt : m₁.Recoded (.declaring names) ∧ DeclareOnly names m₁.scopes.frames := by
      refine ⟨hm.1.change hs hh, ?_⟩
      rw [hs]
      exact hm.2
    have outside : m.scopes.SameOutside names m₁.scopes := fun _ => by rw [hs]
    have calls : SameCalls m.scopes.frames m₁.scopes.frames := by
      rw [hs]
      exact .refl _
    exact ⟨apt, ⟨calls, outside⟩, apt, outside⟩
  assign hm name v :=
    ⟨⟨hm.1.assign name v, Scopes.assign_declareOnly hm.2 name _⟩, SameCalls.assign _ name _,
      Scopes.assign_sameOutside hm.2 name _⟩
  declareGlobal {m} hm declared h := by
    refine ⟨⟨hm.1.declareGlobal declared, Scopes.declareGlobal_declareOnly hm.2 h⟩,
      SameCalls.declareGlobal _ declared, fun _ => ?_⟩
    exact congrArg _ (m.scopes.declareGlobal_globals declared)

theorem globalsKept_enters (names : List String) :
    (globalsKept names).Enters (globalsKept names) where
  enter hm function locals := by
    refine ⟨hm.1.enter Recoding.line_only function locals, ?_⟩
    exact List.forall_mem_cons.mpr ⟨List.nil_subset names, hm.2⟩
  leave {m m₁ function locals} _ hm₁ h := by
    obtain ⟨calls, outside⟩ := h
    refine ⟨⟨hm₁.1.leave m.line, Scopes.pop_declareOnly hm₁.2⟩, ?_, fun _ => ?_⟩
    · have popped : (m₁.leave m.line).scopes.frames = m.scopes.frames :=
        (Scopes.frames_pop _).trans calls.tail
      rw [popped]
      exact .refl _
    · exact (congrArg _ m₁.scopes.pop_globals).trans (outside (List.cons_ne_nil _ _))
  stop h hleaves := ⟨hleaves.1, fun _ => hleaves.2 (List.cons_ne_nil _ _)⟩

variable {names : List String} (timeout : Option Nat) (rounds : Nat)

/-- What a statement inside of a block declares, and a function that is defined there, the block
declares. -/
theorem Script.globalNames_inner {block : List Stmt} {s : Stmt} (hs : s ∈ Stmt.inBlock block)
    {name : String} (h : name ∈ s.declared ∨ name ∈ s.inner.flatMap Stmt.declared) :
    name ∈ Stmt.globalNames block := by
  rcases h with h | h
  · exact List.mem_flatMap.mpr ⟨s, hs, h⟩
  · obtain ⟨q, hq, hname⟩ := List.mem_flatMap.mp h
    exact List.mem_flatMap.mpr ⟨q, Script.inBlock_trans hq block hs, hname⟩

theorem globalsKept_admits {block : List Stmt} (h : Stmt.globalNames block ⊆ names) :
    ∀ s ∈ Stmt.inBlock block, ((globalsKept names).conduct timeout).Admits s := by
  intro s hs
  refine .whole (fun d hd => ?_) (.inl (Judgement.lenient _)) fun name hname => ?_
  · have body : Stmt.globalNames d.body ⊆ names := by
      rw [Stmt.globalNames, ← Script.inner_of_function? hd]
      exact fun name hname => h (Script.globalNames_inner hs (.inr hname))
    have fixed : (Recoding.declaring names).code d = d :=
      Recoding.code_of_only (FunctionDef.declaresOnly_iff.mpr body)
    exact ⟨fixed, fixed⟩
  · exact h (Script.globalNames_inner hs (.inl hname))

theorem globalsKept_calls {entered : Run Unit}
    (h : ∀ m, m.DeclaresOnly names → entered m = .ok () m) : ∀ room,
    (globalsKept names).judgement.Calls (userCall timeout rounds room)
      (watchedCall ⟨entered, fun _ => pure ()⟩ timeout rounds room)
  | 0 => fun _ _ _ _ => Course.Follows.fault .recursion
  | room + 1 => by
    exact Course.calls (globalsKept_enters names) (globalsKept_calls h room)
      (fun d => globalsKept_admits timeout (Recoding.declaring_code names d))
      (fun m hm => h m (Machine.declaresOnly_iff.mpr hm)) fun _ _ _ _ _ _ => rfl

/-! ## Programs -/

/-- The machine is what programs that were read from texts left, the last one first, whether they
ended or stopped. In between, the session may be told anything. -/
inductive AfterPrograms : List (List Stmt) → Machine → Prop
  | start (session : Session) : AfterPrograms [] (Machine.start session)
  | told {programs : List (List Stmt)} {m : Machine} (session : Session)
    (hm : AfterPrograms programs m) : AfterPrograms programs { m with session }
  | ran {programs : List (List Stmt)} {m : Machine} {text : String} {map : Array Nat}
    {program : List Stmt} (limits : Limits) (rounds : Nat) (hm : AfterPrograms programs m)
    (read : Script.parseProgram text map = .ok program) :
    AfterPrograms (program :: programs) (leftBy (runProgram limits rounds program m))

/-- The machine `m₁` declares only these names, as `m` does, and inside of a call all other global
names are bound to what they were. -/
structure KeepsGlobals (names : List String) (m m₁ : Machine) : Prop where
  declares : m₁.DeclaresOnly names
  outside : m.scopes.SameOutside names m₁.scopes

theorem keepsGlobals_of_ends {α γ : Type} {still : Bool} {f : γ → α} {m : Machine}
    {x y : EStateM.Result Stop Machine α} (h : (globalsKept names).Ends still f f m x y) :
    y = x ∧ KeepsGlobals names m (leftBy x) := by
  refine ⟨h.same, ?_⟩
  cases h with
  | ok c apt keeps => exact ⟨Machine.declaresOnly_iff.mpr apt, keeps.2⟩
  | error e leaves => exact ⟨Machine.declaresOnly_iff.mpr leaves.1, leaves.2⟩

/-- A block that declares only the names keeps all other globals, whether its calls are watched or
not. -/
theorem globalsKept_runBlock {block : List Stmt} {m : Machine} {entered : Run Unit}
    (hblock : Stmt.globalNames block ⊆ names) (hm : m.DeclaresOnly names)
    (h : ∀ m, m.DeclaresOnly names → entered m = .ok () m) (room : Nat) :
    let user := userCall timeout rounds room
    let watched := watchedCall ⟨entered, fun _ => pure ()⟩ timeout rounds room
    runBlock ⟨watched, timeout, rounds⟩ block m = runBlock ⟨user, timeout, rounds⟩ block m ∧
      KeepsGlobals names m (leftBy (runBlock ⟨user, timeout, rounds⟩ block m)) :=
  keepsGlobals_of_ends (((globalsKept names).conduct timeout).block
    (globalsKept_calls timeout rounds h room) block (globalsKept_admits timeout hblock) m
    (Machine.declaresOnly_iff.mp hm))

theorem AfterPrograms.declaresOnly {programs : List (List Stmt)} {m : Machine}
    (hm : AfterPrograms programs m) (h : programs.flatMap Stmt.globalNames ⊆ names) :
    m.DeclaresOnly names := by
  induction hm with
  | start session => exact Machine.declaresOnly_iff.mpr ⟨.start _ session, nofun⟩
  | told session _ ih => exact ⟨(ih h).functions, (ih h).frames⟩
  | @ran programs m text map program limits rounds _ _ ih =>
    rw [List.flatMap_cons, List.append_subset] at h
    rw [leftBy_runProgram]
    have unwatched (m : Machine) (_ : m.DeclaresOnly names) :
        (pure () : Run Unit) m = .ok () m := rfl
    exact (globalsKept_runBlock limits.timeout rounds h.1 (ih h.2) unwatched _).2.declares

/-- **Inside of calls, only globals that are declared change.** Between programs, the functions of a
machine and the calls under way declare only names that the programs declare. From there on this is
so whenever a call begins: what is done (`entered`) only where it is not, is never done. -/
theorem globals_kept_in_calls (names : List String) :
    (∀ programs m, AfterPrograms programs m → programs.flatMap Stmt.globalNames ⊆ names →
      m.DeclaresOnly names) ∧
    ∀ m : Machine, m.DeclaresOnly names →
      ∀ (timeout : Option Nat) (rounds room : Nat) (entered : Run Unit),
      (∀ m, m.DeclaresOnly names → entered m = .ok () m) →
      let user := userCall timeout rounds room
      let watched := watchedCall ⟨entered, fun _ => pure ()⟩ timeout rounds room
      (∀ e : Expr, eval watched e m = eval user e m ∧
        KeepsGlobals names m (leftBy (eval user e m))) ∧
      (∀ s : Stmt, Stmt.globalNames [s] ⊆ names →
        runStmt ⟨watched, timeout, rounds⟩ s m = runStmt ⟨user, timeout, rounds⟩ s m ∧
          KeepsGlobals names m (leftBy (runStmt ⟨user, timeout, rounds⟩ s m))) ∧
      ∀ block : List Stmt, Stmt.globalNames block ⊆ names →
        runBlock ⟨watched, timeout, rounds⟩ block m = runBlock ⟨user, timeout, rounds⟩ block m ∧
          KeepsGlobals names m (leftBy (runBlock ⟨user, timeout, rounds⟩ block m)) := by
  refine ⟨fun programs m hm h => hm.declaresOnly h, fun m hm timeout rounds room entered h => ?_⟩
  intro user watched
  have apt := Machine.declaresOnly_iff.mp hm
  have calls := globalsKept_calls timeout rounds h room
  refine ⟨fun e => ?_, fun s hs => ?_, fun block hblock => ?_⟩
  · exact keepsGlobals_of_ends ((globalsKept names).judgement.eval calls e m apt)
  · have admits := globalsKept_admits timeout hs
    have inner : ∀ p ∈ s.inner, ((globalsKept names).conduct timeout).Admits p := fun p hp =>
      admits p (.tail _ (List.mem_append_left _ hp))
    exact keepsGlobals_of_ends (((globalsKept names).conduct timeout).statement calls s
      (admits s List.mem_cons_self) inner m apt)
  · exact globalsKept_runBlock timeout rounds hblock hm h room

/-- A call that declares nothing binds a name of its own where a global one has the same name. -/
theorem globals_kept_in_calls_local :
    let start := Machine.start (Session.start .report [] none)
    let m : Machine := { start with scopes := ⟨[("x", .int 1)], [⟨"f", 1, [], []⟩]⟩ }
    let s : Stmt := .assign 2 [.name "x"] (.literal (.int 2))
    start.DeclaresOnly [] ∧ m.DeclaresOnly [] ∧
      (leftBy (runStmt ⟨userCall none 1 1, none, 1⟩ s m)).scopes.globals = [("x", .int 1)] := by
  intro start m s
  obtain ⟨between, inside⟩ := globals_kept_in_calls []
  have declares : m.DeclaresOnly [] := ⟨nofun, List.forall_mem_singleton.mpr (List.Subset.refl _)⟩
  obtain ⟨-, statements, -⟩ := inside m declares none 1 1 (pure ()) fun _ _ => rfl
  have kept := (statements s (List.Subset.refl _)).2.outside (List.cons_ne_nil _ _)
  rw [Bindings.outside_nil, Bindings.outside_nil] at kept
  exact ⟨between [] start (.start _) (List.Subset.refl _), declares, kept⟩

end SortTrace
