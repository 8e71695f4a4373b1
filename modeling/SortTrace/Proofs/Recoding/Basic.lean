import SortTrace.Machine.Basic

/-!
# Recodings

A recoding replaces the definition of every function that a value carries by another one of the same
name, and the number of every line by another number. It may also make room for one more list among
the lists of a heap, a guest, which no recoded value leads to. It acts on values, on the lists of a
heap, on scopes and on faults.

No operation of the script language looks inside a definition or at the number of a list, and only
syntax errors mention a line. So every operation commutes with every recoding: `outcome` says it of
an operation that reads a heap, `Computes` of one that changes it. Two runs whose states are
recodings of one and the same state can therefore be followed side by side, whatever the operations
do.

No operation ends with a syntax error either, so they commute also with a recoding that makes
something else of a syntax error. Where a syntax error may arise, it has to keep them
(`Recoding.KeepsErrors`).
-/

namespace SortTrace

open Script (FunctionDef)

/-- A change of function definitions that keeps their names, of line numbers, and of the places of
lists. -/
structure Recoding where
  code : FunctionDef → FunctionDef
  name_code : ∀ d, (code d).name = d.name
  line : Nat → Nat
  /-- What becomes of a syntax error with a message at a line. -/
  misplaced : String → Nat → Fault := fun message n => .syntaxError message (line n)
  /-- The place and the items of a list that stands among the recoded ones, if there is one. -/
  guest : Option (Nat × Array Value) := none

/-- Syntax errors stay syntax errors, at the recoded line. -/
class Recoding.KeepsErrors (ρ : Recoding) : Prop where
  misplaced_eq (message : String) (n : Nat) :
    ρ.misplaced message n = .syntaxError message (ρ.line n)

/-- Every list stays at its place. -/
class Recoding.InPlace (ρ : Recoding) : Prop where
  guest_eq : ρ.guest = none

namespace Recoding

attribute [simp] name_code

variable (ρ : Recoding) {α β γ δ : Type}

/-! ## What a recoding acts on -/

/-- Where a list is now: those from the place of the guest on have moved by one. -/
def place (n : Nat) : Nat :=
  match ρ.guest with
  | none => n
  | some (p, _) => if n < p then n else n + 1

mutual

/-- A value with its functions and its lists recoded. -/
@[simp] def value : Value → Value
  | .none => .none
  | .bool b => .bool b
  | .int n => .int n
  | .float x => .float x
  | .str s => .str s
  | .list n => .list (ρ.place n)
  | .tuple id items => .tuple id (values items)
  | .range s => .range s
  | .function id d defaults => .function id (ρ.code d) (values defaults)
  | .builtin b => .builtin b

/-- Values with their functions and their lists recoded. -/
def values : List Value → List Value
  | [] => []
  | v :: vs => value v :: values vs

end

@[simp] theorem values_eq_map (vs : List Value) : ρ.values vs = vs.map ρ.value := by
  induction vs with
  | nil => rfl
  | cons v vs ih => rw [values, ih, List.map_cons]

/-- The lists with the guest among them. -/
def seat (lists : Array (Array Value)) : Array (Array Value) :=
  match ρ.guest with
  | none => lists
  | some (p, items) => lists.insertIdxIfInBounds p items

/-- The lists of a heap and the guest among them, with their items recoded. -/
def heap (h : Heap) : Heap :=
  { h with lists := (ρ.seat h.lists).map fun items => items.map ρ.value }

/-- The guest has its place among the lists of the heap. -/
def Fits (h : Heap) : Prop :=
  ∀ guest ∈ ρ.guest, guest.1 ≤ h.size

/-- Names with their values recoded. -/
def bindings (b : Bindings) : Bindings :=
  b.map fun p => (p.1, ρ.value p.2)

/-- A call with its local names and its line recoded. -/
def frame (f : Frame) : Frame :=
  { f with callLine := ρ.line f.callLine, locals := ρ.bindings f.locals }

/-- All bound names with their values recoded. -/
def scopes (s : Scopes) : Scopes :=
  ⟨ρ.bindings s.globals, s.frames.map ρ.frame⟩

/-- A fault recoded: only a syntax error, which has a line, can become another one. -/
def fault : Fault → Fault
  | .syntaxError message n => ρ.misplaced message n
  | f => f

/-- What stops a run, with its fault recoded. -/
def stop : Stop → Stop
  | .fault f => .fault (ρ.fault f)
  | .outOfRounds => .outOfRounds

/-- The outcome of an operation, recoded by `f` where it is a result. -/
def outcome (f : α → β) : Except Fault α → Except Fault β
  | .ok a => .ok (f a)
  | .error e => .error (ρ.fault e)

/-- The heap that a computation leaves, whether it ends or fails. -/
def leftOf : EStateM.Result Fault Heap α → Heap
  | .ok _ h => h
  | .error _ h => h

/-- The outcome of a computation with lists, recoded by `f` where it is a result. -/
def result (f : α → β) : EStateM.Result Fault Heap α → EStateM.Result Fault Heap β
  | .ok a h => .ok (f a) (ρ.heap h)
  | .error e h => .error (ρ.fault e) (ρ.heap h)

/-- From a recoded heap, `d` does what `c` does from the heap itself, and the guest keeps its
place. -/
def Computes (f : α → β) (c : Compute α) (d : Compute β) : Prop :=
  ∀ h, ρ.Fits h → d (ρ.heap h) = ρ.result f (c h) ∧ ρ.Fits (leftOf (c h))

/-! ## Values -/

section Values

variable (v : Value)

@[simp] theorem typeName_value : (ρ.value v).typeName = v.typeName := by
  cases v <;> simp [Value.typeName]

@[simp] theorem asInt?_value : (ρ.value v).asInt? = v.asInt? := by
  cases v <;> simp [Value.asInt?]

@[simp] theorem asFloat?_value : (ρ.value v).asFloat? = v.asFloat? := by
  cases v <;> simp [Value.asFloat?, Value.asInt?]

@[simp] theorem isNumeric_value : (ρ.value v).isNumeric = v.isNumeric := by
  cases v <;> simp [Value.isNumeric]

@[simp] theorem value_ofLiteral (l : Script.Literal) :
    ρ.value (.ofLiteral l) = .ofLiteral l := by
  cases l <;> simp [Value.ofLiteral]

@[simp] theorem value_ofChar (c : Char) : ρ.value (.ofChar c) = .ofChar c := by
  simp [Value.ofChar]

@[simp] theorem value_comp_ofChar : ρ.value ∘ Value.ofChar = Value.ofChar :=
  funext fun c => ρ.value_ofChar c

@[simp] theorem value_comp_int : ρ.value ∘ Value.int = Value.int := by
  funext n
  simp

end Values

/-! ## Places -/

section Places

theorem place_injective : Function.Injective ρ.place := by
  intro m n h
  unfold place at h
  split at h
  · exact h
  · split at h <;> split at h <;> omega

@[simp] theorem place_inj {m n : Nat} : ρ.place m = ρ.place n ↔ m = n :=
  ρ.place_injective.eq_iff

@[simp] theorem place_beq (m n : Nat) : (ρ.place m == ρ.place n) = (m == n) := by
  rw [Bool.eq_iff_iff, beq_iff_eq, beq_iff_eq, place_inj]

@[simp] theorem contains_map_place (places : List Nat) (n : Nat) :
    (places.map ρ.place).contains (ρ.place n) = places.contains n := by
  rw [Bool.eq_iff_iff, List.contains_iff_mem, List.contains_iff_mem,
    List.mem_map]
  simp only [place_inj, exists_eq_right]

/-- No list moves to the place of the guest. -/
theorem place_ne_guest {p : Nat} {items : Array Value} (hg : ρ.guest = some (p, items)) (n : Nat) :
    ρ.place n ≠ p := by
  simp only [place, hg]
  split <;> omega

variable (lists : Array (Array Value))

theorem seat_inPlace [ρ.InPlace] : ρ.seat lists = lists := by
  rw [seat, InPlace.guest_eq]

@[simp] theorem getElem?_seat (n : Nat) : (ρ.seat lists)[ρ.place n]? = lists[n]? := by
  rcases hg : ρ.guest with _ | ⟨p, items⟩
  · simp only [seat, place, hg]
  · simp only [seat, place, hg, Array.insertIdxIfInBounds]
    grind

theorem size_seat : lists.size ≤ (ρ.seat lists).size := by
  rcases hg : ρ.guest with _ | ⟨p, items⟩
  · simp only [seat, hg, Nat.le_refl]
  · simp only [seat, hg, Array.insertIdxIfInBounds]
    grind [Array.size_insertIdx]

/-- The guest is where it has its place. -/
theorem getElem?_seat_guest {p : Nat} {items : Array Value} (hg : ρ.guest = some (p, items))
    (hp : p ≤ lists.size) : (ρ.seat lists)[p]? = some items := by
  simp only [seat, hg, Array.insertIdxIfInBounds, hp, dite_true]
  grind

theorem seat_push (fits : ∀ guest ∈ ρ.guest, guest.1 ≤ lists.size) (items : Array Value) :
    (ρ.seat lists).size = ρ.place lists.size
      ∧ (ρ.seat lists).push items = ρ.seat (lists.push items) := by
  rcases hg : ρ.guest with _ | ⟨p, guest⟩
  · simp only [seat, place, hg, and_self]
  · have hp : p ≤ lists.size := fits (p, guest) hg
    have hp' : p ≤ (lists.push items).size := by grind
    simp only [seat, place, hg, Array.insertIdxIfInBounds, hp, hp', dite_true]
    refine ⟨by grind [Array.size_insertIdx], Array.ext_getElem? fun i => ?_⟩
    grind [Array.size_insertIdx]

theorem modify_seat (n : Nat) (f : Array Value → Array Value) :
    (ρ.seat lists).modify (ρ.place n) f = ρ.seat (lists.modify n f) := by
  rcases hg : ρ.guest with _ | ⟨p, guest⟩
  · simp only [seat, place, hg]
  · simp only [seat, place, hg, Array.insertIdxIfInBounds, Array.size_modify]
    refine Array.ext_getElem? fun i => ?_
    rw [Array.getElem?_modify]
    split
    · grind
    · grind

end Places

/-! ## Heaps -/

section Heaps

variable (h : Heap)

theorem size_heap : h.size ≤ (ρ.heap h).size := by
  rw [Heap.size, Heap.size, heap, Array.size_map]
  exact ρ.size_seat h.lists

@[simp] theorem marks_heap : (ρ.heap h).marks = h.marks := rfl

theorem heap_inPlace [ρ.InPlace] :
    ρ.heap h = { h with lists := h.lists.map fun items => items.map ρ.value } := by
  rw [heap, seat_inPlace]

@[simp] theorem heap_empty [ρ.InPlace] : ρ.heap .empty = .empty := by
  simp [heap_inPlace, Heap.empty]

theorem fits_inPlace [ρ.InPlace] : ρ.Fits h := by
  intro guest hg
  rw [InPlace.guest_eq] at hg
  cases hg

variable {ρ h} in
theorem Fits.mono {h' : Heap} (hf : ρ.Fits h) (hs : h.size ≤ h'.size) : ρ.Fits h' :=
  fun guest hg => Nat.le_trans (hf guest hg) hs

@[simp] theorem items_heap (n : Nat) :
    (ρ.heap h).items (ρ.place n) = (h.items n).map ρ.value := by
  simp only [Heap.items, heap, getElem?_seat, Array.getElem?_map]
  cases h.lists[n]? <;> simp

/-- The guest has its items, recoded as those of the other lists. -/
theorem items_heap_guest (fits : ρ.Fits h) {p : Nat} {items : Array Value}
    (hg : ρ.guest = some (p, items)) : (ρ.heap h).items p = items.map ρ.value := by
  rw [Heap.items, heap, Array.getElem?_map, ρ.getElem?_seat_guest h.lists hg (fits (p, items) hg)]
  rfl

theorem heap_insert (fits : ρ.Fits h) (items : Array Value) :
    (ρ.heap h).insert (items.map ρ.value)
      = (ρ.value (h.insert items).1, ρ.heap (h.insert items).2) := by
  obtain ⟨size, push⟩ := ρ.seat_push h.lists fits items
  simp [Heap.insert, heap, size, ← push]

theorem heap_mark : (ρ.heap h).mark = (h.mark.1, ρ.heap h.mark.2) := by
  simp [Heap.mark, heap]

/-- A change of one list commutes with a recoding if it does so on the items. -/
theorem heap_modify (n : Nat) {f g : Array Value → Array Value}
    (hfg : ∀ items : Array Value, g (items.map ρ.value) = (f items).map ρ.value) :
    (ρ.heap h).modify (ρ.place n) g = ρ.heap (h.modify n f) := by
  simp only [Heap.modify, heap, ← modify_seat, Heap.mk.injEq, and_true]
  apply Array.ext
  · simp
  · intro i h₁ h₂
    simp only [Array.getElem_modify, Array.getElem_map]
    split
    · exact hfg _
    · rfl

@[simp] theorem isTrue_value (v : Value) : (ρ.value v).isTrue (ρ.heap h) = v.isTrue h := by
  cases v <;> simp [Value.isTrue, Array.isEmpty]

end Heaps

/-! ## Scopes -/

section Scopes

@[simp] theorem find?_bindings (b : Bindings) (name : String) :
    (ρ.bindings b).find? name = (b.find? name).map ρ.value := by
  induction b with
  | nil => rfl
  | cons p rest ih =>
    simp only [bindings, List.map_cons, Bindings.find?] at ih ⊢
    split
    · rfl
    · exact ih

theorem bindings_insert (b : Bindings) (name : String) (v : Value) :
    ρ.bindings (b.insert name v) = (ρ.bindings b).insert name (ρ.value v) := by
  induction b with
  | nil => rfl
  | cons p rest ih =>
    simp only [bindings, List.map_cons, Bindings.insert] at ih ⊢
    split
    · simp
    · simp [ih]

theorem bindings_erase (b : Bindings) (name : String) :
    ρ.bindings (b.erase name) = (ρ.bindings b).erase name := by
  simp [bindings, Bindings.erase, List.filter_map, Function.comp_def]

@[simp] theorem declares_frame (f : Frame) (name : String) :
    (ρ.frame f).declares name = f.declares name := rfl

@[simp] theorem locals_frame (f : Frame) : (ρ.frame f).locals = ρ.bindings f.locals := rfl

theorem frame_declare (f : Frame) (name : String) :
    ρ.frame (f.declare name) = (ρ.frame f).declare name := by
  simp [frame, Frame.declare, bindings_erase, Frame.declares]

theorem frame_foldl_declare (names : List String) (f : Frame) :
    ρ.frame (names.foldl Frame.declare f) = names.foldl Frame.declare (ρ.frame f) := by
  induction names generalizing f with
  | nil => rfl
  | cons name names ih => rw [List.foldl_cons, ih, frame_declare, List.foldl_cons]

@[simp] theorem lookup_scopes (s : Scopes) (name : String) :
    (ρ.scopes s).lookup name = (s.lookup name).map ρ.value := by
  obtain ⟨globals, frames⟩ := s
  cases frames with
  | nil => simp [scopes, Scopes.lookup]
  | cons f rest =>
    by_cases hd : f.declares name = true
    · simp [scopes, Scopes.lookup, hd]
    · cases hf : f.locals.find? name <;> simp [scopes, Scopes.lookup, hd, hf]

theorem scopes_assign (s : Scopes) (name : String) (v : Value) :
    ρ.scopes (s.assign name v) = (ρ.scopes s).assign name (ρ.value v) := by
  obtain ⟨globals, frames⟩ := s
  cases frames with
  | nil => simp [scopes, Scopes.assign, bindings_insert]
  | cons f rest =>
    simp only [scopes, Scopes.assign, List.map_cons, declares_frame]
    split
    · simp [bindings_insert]
    · simp [frame, bindings_insert]

theorem scopes_declareGlobal (s : Scopes) (names : List String) :
    ρ.scopes (s.declareGlobal names) = (ρ.scopes s).declareGlobal names := by
  obtain ⟨globals, frames⟩ := s
  cases frames with
  | nil => rfl
  | cons f rest => simp [scopes, Scopes.declareGlobal, frame_foldl_declare]

theorem scopes_push (s : Scopes) (f : Frame) :
    ρ.scopes (s.push f) = (ρ.scopes s).push (ρ.frame f) := rfl

theorem scopes_pop (s : Scopes) : ρ.scopes s.pop.2 = (ρ.scopes s).pop.2 := by
  obtain ⟨globals, frames⟩ := s
  cases frames <;> rfl

@[simp] theorem depth_scopes (s : Scopes) : (ρ.scopes s).depth = s.depth := by
  simp [Scopes.depth, scopes]

end Scopes

/-! ## Outcomes -/

section Outcomes

variable (f : α → β)

@[simp] theorem outcome_ok (a : α) : ρ.outcome f (.ok a) = .ok (f a) := rfl

@[simp] theorem outcome_pure (a : α) : ρ.outcome f (pure a) = .ok (f a) := rfl

theorem outcome_error (e : Fault) : ρ.outcome f (.error e) = .error (ρ.fault e) := rfl

/-- Something done with a result. -/
theorem outcome_bind {f : α → β} {g : γ → δ} {x : Except Fault α} {y : Except Fault β}
    {p : α → Except Fault γ} {q : β → Except Fault δ} (hx : y = ρ.outcome f x)
    (hp : ∀ a, q (f a) = ρ.outcome g (p a)) : (y >>= q) = ρ.outcome g (x >>= p) := by
  subst hx
  cases x with
  | error e => rfl
  | ok a => exact hp a

/-- A result made into another one. -/
theorem outcome_map {f : α → β} {g : γ → δ} {x : Except Fault α} {y : Except Fault β}
    {p : α → γ} {q : β → δ} (hx : y = ρ.outcome f x) (hp : ∀ a, q (f a) = g (p a)) :
    (q <$> y) = ρ.outcome g (p <$> x) := by
  subst hx
  cases x with
  | error e => rfl
  | ok a => exact congrArg Except.ok (hp a)

/-- Things done for every item of a list. -/
theorem outcome_mapM {f : α → β} {g : γ → δ} {p : α → Except Fault γ} {q : β → Except Fault δ}
    (hp : ∀ a, q (f a) = ρ.outcome g (p a)) (items : List α) :
    (items.map f).mapM q = ρ.outcome (List.map g) (items.mapM p) := by
  induction items with
  | nil => rfl
  | cons a items ih =>
    simp only [List.map_cons, List.mapM_cons]
    refine ρ.outcome_bind (hp a) fun c => ρ.outcome_bind ih fun cs => rfl

end Outcomes

/-! ## Computations -/

namespace Computes

variable {ρ} {f : α → β} {g : γ → δ}

/-- Without a guest, nothing has to fit. -/
theorem apply [ρ.InPlace] {c : Compute α} {d : Compute β} (hc : ρ.Computes f c d) (h : Heap) :
    d (ρ.heap h) = ρ.result f (c h) :=
  (hc h (ρ.fits_inPlace h)).1

theorem pure {a : α} {b : β} (h : b = f a) : ρ.Computes f (Pure.pure a) (Pure.pure b) := by
  subst h
  exact fun _ fits => ⟨rfl, fits⟩

theorem bind {c : Compute α} {d : Compute β} {p : α → Compute γ} {q : β → Compute δ}
    (hc : ρ.Computes f c d) (hp : ∀ a, ρ.Computes g (p a) (q (f a))) :
    ρ.Computes g (c >>= p) (d >>= q) := by
  intro h fits
  obtain ⟨first, kept⟩ := hc h fits
  change EStateM.bind d q (ρ.heap h) = ρ.result g (EStateM.bind c p h)
    ∧ ρ.Fits (leftOf (EStateM.bind c p h))
  rw [EStateM.bind, EStateM.bind, first]
  generalize c h = x at kept ⊢
  cases x with
  | ok a h' => exact hp a h' kept
  | error e h' => exact ⟨rfl, kept⟩

theorem map {c : Compute α} {d : Compute β} {p : α → γ} {q : β → δ} (hc : ρ.Computes f c d)
    (hp : ∀ a, q (f a) = g (p a)) : ρ.Computes g (p <$> c) (q <$> d) := by
  rw [map_eq_pure_bind, map_eq_pure_bind]
  exact bind hc fun a => pure (hp a)

theorem throw {e e' : Fault} (h : e' = ρ.fault e) :
    ρ.Computes f (MonadExcept.throw e) (MonadExcept.throw e') := by
  subst h
  exact fun _ fits => ⟨rfl, fits⟩

theorem of {x : Except Fault α} {y : Except Fault β} (h : y = ρ.outcome f x) :
    ρ.Computes f (Compute.of x) (Compute.of y) := by
  subst h
  cases x <;> exact fun _ fits => ⟨rfl, fits⟩

theorem get : ρ.Computes ρ.heap (MonadState.get : Compute Heap) MonadState.get :=
  fun _ fits => ⟨rfl, fits⟩

theorem read {p : Heap → Except Fault α} {q : Heap → Except Fault β}
    (h : ∀ k, q (ρ.heap k) = ρ.outcome f (p k)) :
    ρ.Computes f (Compute.read p) (Compute.read q) :=
  bind get fun k => of (h k)

/-- A change after which there are as many lists. -/
theorem change {p q : Heap → Heap} (h : ∀ k, q (ρ.heap k) = ρ.heap (p k))
    (size : ∀ k, k.size ≤ (p k).size) :
    ρ.Computes id (modify p : Compute Unit) (modify q) :=
  fun k fits => ⟨congrArg (EStateM.Result.ok PUnit.unit) (h k), fits.mono (size k)⟩

end Computes

end Recoding

end SortTrace
