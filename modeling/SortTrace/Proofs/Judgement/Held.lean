import SortTrace.Proofs.Judgement.Call
import SortTrace.Script.Parsing.Program

/-!
# Machines that hold recoded values

Where a recoding replaces the functions that lack some property by empty ones (`Recoding.only`),
that all values of a machine are recoded (`Machine.Recoded`) says that the machine holds only
functions with the property (`Machine.recoded_only_iff`). Machines stay so while admitted statements
run, whether these end or stop (`Course.recoded`), and the faults that they stop at are recoded as
well. So a property of every function that a program can define is one of every function held by a
machine on which programs have run (`Reached.recoded`).
-/

namespace SortTrace

open Script (FunctionDef Stmt)

/-- Functions without the property stand for empty ones. -/
def Recoding.only (p : FunctionDef → Bool)
    (misplaced : String → Nat → Fault := Fault.syntaxError) : Recoding where
  code d := if p d then d else ⟨d.name, [], []⟩
  name_code d := by split <;> rfl
  line n := n
  misplaced := misplaced

namespace Recoding

variable {p : FunctionDef → Bool} {misplaced : String → Nat → Fault} {d : FunctionDef}

instance : (only p).KeepsErrors := ⟨fun _ _ => rfl⟩

instance : (only p misplaced).InPlace := ⟨rfl⟩

theorem line_only (n : Nat) : (only p misplaced).line n = n := rfl

theorem code_of_only (h : p d = true) : (only p misplaced).code d = d :=
  if_pos h

/-- If empty functions have the property, those that a machine holds have it. -/
theorem only_code (hempty : ∀ name, p ⟨name, [], []⟩ = true) (d : FunctionDef) :
    p ((only p misplaced).code d) = true := by
  simp only [only]
  split
  · assumption
  · exact hempty d.name

end Recoding

/-- All values that the machine holds, in lists or bound to names, are recoded. -/
structure Machine.Recoded (ρ : Recoding) (m : Machine) : Prop where
  heap : ∃ h, m.heap = ρ.heap h
  scopes : ∃ s, m.scopes = ρ.scopes s

namespace Machine.Recoded

variable {ρ : Recoding} {m m₁ : Machine}

theorem start (ρ : Recoding) [ρ.InPlace] (session : Session) :
    (Machine.start session).Recoded ρ where
  heap := ⟨.empty, ρ.heap_empty.symm⟩
  scopes := ⟨.empty, rfl⟩

theorem change (hm : m.Recoded ρ) (hs : m₁.scopes = m.scopes) (hh : ∃ h, m₁.heap = ρ.heap h) :
    m₁.Recoded ρ where
  heap := hh
  scopes := by
    rw [hs]
    exact hm.scopes

theorem assign (hm : m.Recoded ρ) (name : String) (v : Value) :
    Recoded ρ { m with scopes := m.scopes.assign name (ρ.value v) } where
  heap := hm.heap
  scopes := by
    obtain ⟨s, hs⟩ := hm.scopes
    exact ⟨s.assign name v, by rw [Recoding.scopes_assign, ← hs]⟩

theorem declareGlobal (hm : m.Recoded ρ) (names : List String) :
    Recoded ρ { m with scopes := m.scopes.declareGlobal names } where
  heap := hm.heap
  scopes := by
    obtain ⟨s, hs⟩ := hm.scopes
    exact ⟨s.declareGlobal names, by rw [Recoding.scopes_declareGlobal, ← hs]⟩

theorem enter (hm : m.Recoded ρ) (line_eq : ∀ n, ρ.line n = n) (function : String)
    (locals : Bindings) : (m.enter function (ρ.bindings locals)).Recoded ρ where
  heap := hm.heap
  scopes := by
    obtain ⟨s, hs⟩ := hm.scopes
    refine ⟨s.push ⟨function, m.line, locals, []⟩, ?_⟩
    rw [Recoding.scopes_push, ← hs, Recoding.frame, line_eq]
    rfl

theorem leave (hm : m.Recoded ρ) (line : Nat) : (m.leave line).Recoded ρ where
  heap := hm.heap
  scopes := by
    obtain ⟨s, hs⟩ := hm.scopes
    refine ⟨s.pop.2, ?_⟩
    rw [Recoding.scopes_pop, ← hs]
    rfl

end Machine.Recoded

/-! ## Functions that a machine holds -/

mutual

/-- The functions that a value holds. -/
def Value.functions : Value → List FunctionDef
  | .tuple _ items => Value.allFunctions items
  | .function _ d defaults => d :: Value.allFunctions defaults
  | _ => []

/-- The functions that values hold. -/
def Value.allFunctions : List Value → List FunctionDef
  | [] => []
  | v :: vs => v.functions ++ Value.allFunctions vs

end

/-- The functions that a machine holds, in its lists and bound to names. -/
def Machine.functions (m : Machine) : List FunctionDef :=
  (m.heap.lists.toList.flatMap fun items => Value.allFunctions items.toList)
    ++ Value.allFunctions (m.scopes.globals.map Prod.snd)
    ++ m.scopes.frames.flatMap fun f => Value.allFunctions (f.locals.map Prod.snd)

namespace Recoding

variable {p : FunctionDef → Bool} {misplaced : String → Nat → Fault}

mutual

theorem functions_only (hempty : ∀ name, p ⟨name, [], []⟩ = true) : ∀ v : Value,
    ∀ d ∈ ((only p misplaced).value v).functions, p d = true
  | .none, _, hd | .bool _, _, hd | .int _, _, hd | .float _, _, hd | .str _, _, hd
  | .list _, _, hd | .range _, _, hd | .builtin _, _, hd => nomatch hd
  | .tuple _ items, d, hd => allFunctions_only hempty items d hd
  | .function _ f defaults, d, hd => by
    rcases List.mem_cons.mp hd with rfl | hd
    · exact only_code hempty f
    · exact allFunctions_only hempty defaults d hd

theorem allFunctions_only (hempty : ∀ name, p ⟨name, [], []⟩ = true) : ∀ vs : List Value,
    ∀ d ∈ Value.allFunctions ((only p misplaced).values vs), p d = true
  | v :: vs, d, hd => by
    rcases List.mem_append.mp hd with hd | hd
    · exact functions_only hempty v d hd
    · exact allFunctions_only hempty vs d hd

end

mutual

theorem value_of_functions : ∀ v : Value, (∀ d ∈ v.functions, p d = true) →
    (only p misplaced).value v = v
  | .none, _ | .bool _, _ | .int _, _ | .float _, _ | .str _, _ | .list _, _ | .range _, _
  | .builtin _, _ => rfl
  | .tuple id items, h => congrArg (Value.tuple id) (values_of_functions items h)
  | .function id f defaults, h => by
    obtain ⟨hf, hdefaults⟩ := List.forall_mem_cons.mp h
    rw [value, values_of_functions defaults hdefaults, code_of_only hf]

theorem values_of_functions : ∀ vs : List Value, (∀ d ∈ Value.allFunctions vs, p d = true) →
    (only p misplaced).values vs = vs
  | [], _ => rfl
  | v :: vs, h => by
    obtain ⟨hv, hvs⟩ := List.forall_mem_append.mp h
    rw [values, value_of_functions v hv, values_of_functions vs hvs]

end

theorem bindings_of_functions (b : Bindings)
    (h : ∀ d ∈ Value.allFunctions (b.map Prod.snd), p d = true) :
    (only p misplaced).bindings b = b := by
  induction b with
  | nil => rfl
  | cons entry rest ih =>
    obtain ⟨name, v⟩ := entry
    obtain ⟨hv, hrest⟩ := List.forall_mem_append.mp h
    change (name, _) :: bindings _ rest = _
    rw [value_of_functions v hv, ih hrest]

end Recoding

theorem Recoding.snd_bindings (ρ : Recoding) (b : Bindings) :
    (ρ.bindings b).map Prod.snd = ρ.values (b.map Prod.snd) := by
  rw [Recoding.values_eq_map, Recoding.bindings, List.map_map, List.map_map]
  rfl

/-- That a machine's values are recoded says that it holds only functions with the property. -/
theorem Machine.recoded_only_iff {p : FunctionDef → Bool} {misplaced : String → Nat → Fault}
    (hempty : ∀ name, p ⟨name, [], []⟩ = true) (m : Machine) :
    m.Recoded (.only p misplaced) ↔ ∀ d ∈ m.functions, p d = true := by
  rw [Machine.functions, List.forall_mem_append, List.forall_mem_append]
  simp only [List.forall_mem_flatMap]
  constructor
  · rintro ⟨⟨h, hh⟩, s, hs⟩
    rw [hh, hs]
    refine ⟨⟨?_, ?_⟩, ?_⟩
    · intro items hitems
      obtain ⟨items, -, rfl⟩ := Array.mem_map.mp (Array.mem_def.mpr hitems)
      rw [Array.toList_map, ← Recoding.values_eq_map]
      exact Recoding.allFunctions_only hempty _
    · rw [Recoding.scopes, Recoding.snd_bindings]
      exact Recoding.allFunctions_only hempty _
    · intro f hf
      obtain ⟨f, -, rfl⟩ := List.mem_map.mp hf
      rw [Recoding.locals_frame, Recoding.snd_bindings]
      exact Recoding.allFunctions_only hempty _
  · rintro ⟨⟨hlists, hglobals⟩, hframes⟩
    refine ⟨⟨m.heap, ?_⟩, m.scopes, ?_⟩
    · have lists :
          m.heap.lists.map (Array.map (Recoding.only p misplaced).value) = m.heap.lists := by
        refine (Array.map_congr_left fun items hitems => ?_).trans (Array.map_id _)
        apply Array.ext'
        rw [Array.toList_map, ← Recoding.values_eq_map]
        exact Recoding.values_of_functions _ (hlists items (Array.mem_def.mp hitems))
      rw [Recoding.heap_inPlace, lists]
    · have frames : m.scopes.frames.map (Recoding.only p misplaced).frame = m.scopes.frames := by
        refine (List.map_congr_left fun f hf => ?_).trans (List.map_id _)
        rw [Recoding.frame, Recoding.bindings_of_functions f.locals (hframes f hf)]
        rfl
      rw [Recoding.scopes, Recoding.bindings_of_functions _ hglobals, frames]

/-! ## Runs -/

namespace Course

variable {ρ : Recoding} [ρ.InPlace] (line_eq : ∀ n, ρ.line n = n)

/-- The values that machines hold stay recoded. -/
def recoded : Course ρ where
  Apt m := m.Recoded ρ
  Keeps _ _ := True
  Leaves _ m₁ := m₁.Recoded ρ
  line_eq := line_eq
  heap hm := hm.heap
  scopes hm := hm.scopes
  trans _ _ := trivial
  leaves _ h := h
  change hm _ hs hh := ⟨hm.change hs hh, trivial, hm.change hs hh⟩
  assign hm name v := ⟨hm.assign name v, trivial⟩
  declareGlobal hm names _ := ⟨hm.declareGlobal names, trivial⟩

instance : (recoded line_eq).DeclaresAll := ⟨fun _ => trivial⟩

theorem recoded_enters : (recoded line_eq).Enters (recoded line_eq) where
  enter hm := hm.enter line_eq
  leave {m _ _ _} _ hm₁ _ := ⟨hm₁.leave m.line, trivial⟩
  stop _ h := h

variable {line_eq}

/-- Calls of functions keep values recoded, whether they are watched or not. -/
theorem recoded_calls {watch : Watch} {timeout : Option Nat} {rounds : Nat}
    (admits : ∀ d, ∀ p ∈ Stmt.inBlock (ρ.code d).body, ((recoded line_eq).conduct timeout).Admits p)
    (entered : ∀ m, watch.entered m = .ok () m)
    (ended : ∀ c d flow m m₁, runBlock c (ρ.code d).body m = .ok flow m₁ →
      watch.ended flow m₁ = .ok () m₁) : ∀ room,
    (recoded line_eq).judgement.Calls (userCall timeout rounds room)
      (watchedCall watch timeout rounds room)
  | 0 => fun _ _ _ _ => Follows.fault .recursion
  | room + 1 =>
    calls (recoded_enters line_eq) (recoded_calls admits entered ended room) admits
      (fun m _ => entered m) fun d flow m m₁ _ => ended _ d flow m m₁

end Course

/-! ## Programs one after the other -/

theorem leftBy_runProgram (limits : Limits) (rounds : Nat) (program : List Stmt) (m : Machine) :
    leftBy (runProgram limits rounds program m)
      = leftBy (runBlock ⟨userCall limits.timeout rounds (limits.recursion - m.scopes.depth),
          limits.timeout, rounds⟩ program m) := by
  change leftBy ((runBlock _ program >>= fun _ => pure ()) m) = _
  cases h : runBlock ⟨userCall limits.timeout rounds (limits.recursion - m.scopes.depth),
      limits.timeout, rounds⟩ program m with
  | ok flow m₁ =>
    rw [Run.bind_ok h]
    rfl
  | error e m₁ =>
    rw [Run.bind_error h]
    rfl

theorem runBlock_of_runProgram_error {limits : Limits} {rounds : Nat} {program : List Stmt}
    {m m₁ : Machine} {e : Stop} (h : runProgram limits rounds program m = .error e m₁) :
    runBlock ⟨userCall limits.timeout rounds (limits.recursion - m.scopes.depth), limits.timeout,
      rounds⟩ program m = .error e m₁ := by
  change (runBlock _ program >>= fun _ => pure ()) m = _ at h
  cases hblock : runBlock ⟨userCall limits.timeout rounds (limits.recursion - m.scopes.depth),
      limits.timeout, rounds⟩ program m with
  | ok flow m₂ =>
    rw [Run.bind_ok hblock] at h
    cases h
  | error e' m₂ =>
    rw [Run.bind_error hblock] at h
    cases h
    rfl

/-- The machine can be reached by running programs that were read from texts, one after the other.
In between, the session may be told anything. -/
inductive Reached : Machine → Prop
  | start (session : Session) : Reached (Machine.start session)
  | told {m : Machine} (session : Session) (hm : Reached m) : Reached { m with session }
  | ran {m : Machine} {text : String} {map : Array Nat} {program : List Stmt} (limits : Limits)
    (rounds : Nat) (hm : Reached m) (read : Script.parseProgram text map = .ok program) :
    Reached (leftBy (runProgram limits rounds program m))

section Reached

variable {ρ : Recoding} [ρ.InPlace] {line_eq : ∀ n, ρ.line n = n}

/-- Admitted statements keep values recoded. -/
theorem Course.recoded_runBlock {block : List Stmt} {m : Machine} {timeout : Option Nat}
    (bodies : ∀ d, ∀ p ∈ Stmt.inBlock (ρ.code d).body, ((recoded line_eq).conduct timeout).Admits p)
    (hblock : ∀ p ∈ Stmt.inBlock block, ((recoded line_eq).conduct timeout).Admits p)
    (hm : m.Recoded ρ) (rounds room : Nat) :
    let user := watchedCall ⟨pure (), fun _ => pure ()⟩ timeout rounds room
    (recoded line_eq).Ends false ρ.flow ρ.flow m
      (runBlock ⟨userCall timeout rounds room, timeout, rounds⟩ block m)
      (runBlock ⟨user, timeout, rounds⟩ block m) :=
  ((recoded line_eq).conduct timeout).block
    (recoded_calls bodies (fun _ => rfl) (fun _ _ _ _ _ _ => rfl) room) block hblock m hm

theorem Course.recoded_left {α γ : Type} {still : Bool} {f : γ → α} {m : Machine}
    {x y : EStateM.Result Stop Machine α} (h : (recoded line_eq).Ends still f f m x y) :
    (leftBy x).Recoded ρ := by
  cases h with
  | ok c apt => exact apt
  | error e leaves => exact leaves

/-- What is so of the functions that programs define is so of all that a machine holds. -/
theorem Reached.recoded {m : Machine} (hm : Reached m)
    (bodies : ∀ timeout d, ∀ p ∈ Stmt.inBlock (ρ.code d).body,
      ((Course.recoded line_eq).conduct timeout).Admits p)
    (programs : ∀ timeout text map program, Script.parseProgram text map = .ok program →
      ∀ p ∈ Stmt.inBlock program, ((Course.recoded line_eq).conduct timeout).Admits p) :
    m.Recoded ρ := by
  induction hm with
  | start session => exact .start ρ session
  | told session _ ih => exact ih.change rfl ih.heap
  | @ran m text map program limits rounds _ read ih =>
    rw [leftBy_runProgram]
    exact Course.recoded_left (Course.recoded_runBlock (bodies limits.timeout)
      (programs limits.timeout text map program read) ih rounds _)

end Reached

end SortTrace
