import SortTrace.Proofs.Judgement.Held

/-!
# A list that nothing leads to

Let a machine have one more list, at whatever place among the others, that none of its values is or
holds (`Recoding.not_mem_places_beside`). It runs as the machine without that list, on values in
which the lists from the place on have moved by one (`RunsBeside.block`, `RunsBeside.userCall`), and
the list stays where it is and keeps its items (`Recoding.items_machine_beside`). At the end of the
lists, where no other one has to move, it is the list that a machine makes of the items
(`Recoding.machine_beside_size`).
-/

namespace SortTrace

open Script (FunctionDef Stmt)

/-! ## The lists that a machine leads to -/

mutual

/-- The places of the lists that a value is or holds. -/
def Value.places : Value → List Nat
  | .list n => [n]
  | .tuple _ items => Value.allPlaces items
  | .function _ _ defaults => Value.allPlaces defaults
  | _ => []

/-- The places of the lists that values are or hold. -/
def Value.allPlaces : List Value → List Nat
  | [] => []
  | v :: vs => v.places ++ Value.allPlaces vs

end

theorem Value.mem_allPlaces {n : Nat} {vs : List Value} :
    n ∈ Value.allPlaces vs ↔ ∃ v ∈ vs, n ∈ v.places := by
  induction vs with
  | nil => simp [Value.allPlaces]
  | cons v vs ih => simp [Value.allPlaces, ih]

/-- All values of a machine, in its lists and bound to names. -/
def Machine.values (m : Machine) : List Value :=
  m.heap.lists.toList.flatMap Array.toList ++ m.scopes.globals.map Prod.snd
    ++ m.scopes.frames.flatMap fun f => f.locals.map Prod.snd

/-- The places of the lists that a machine leads to. -/
def Machine.places (m : Machine) : List Nat :=
  Value.allPlaces m.values

namespace Recoding

section Places

variable (ρ : Recoding)

mutual

theorem places_value : ∀ v : Value, (ρ.value v).places = v.places.map ρ.place
  | .list _ => rfl
  | .tuple _ items => allPlaces_values items
  | .function _ _ defaults => allPlaces_values defaults
  | .none | .bool _ | .int _ | .float _ | .str _ | .range _ | .builtin _ => rfl

theorem allPlaces_values : ∀ vs : List Value,
    Value.allPlaces (ρ.values vs) = (Value.allPlaces vs).map ρ.place
  | [] => rfl
  | v :: vs => by
    rw [values, Value.allPlaces, Value.allPlaces, places_value v, allPlaces_values vs,
      List.map_append]

end

/-- A machine with its values recoded. -/
def machine (m : Machine) : Machine :=
  { m with scopes := ρ.scopes m.scopes, heap := ρ.heap m.heap }

theorem values_machine (m : Machine) : ∃ vs : List Value, (ρ.machine m).values = ρ.values vs := by
  refine ⟨(ρ.seat m.heap.lists).toList.flatMap Array.toList ++ m.scopes.globals.map Prod.snd
    ++ m.scopes.frames.flatMap fun f => f.locals.map Prod.snd, ?_⟩
  simp [Machine.values, machine, heap, scopes, snd_bindings, List.map_flatMap, List.flatMap_map]

/-- A machine leads to the lists at recoded places only. -/
theorem places_machine (m : Machine) : ∀ n ∈ (ρ.machine m).places, ∃ k, n = ρ.place k := by
  obtain ⟨vs, hvs⟩ := ρ.values_machine m
  intro n hn
  rw [Machine.places, hvs, allPlaces_values] at hn
  obtain ⟨k, -, rfl⟩ := List.mem_map.mp hn
  exact ⟨k, rfl⟩

end Places

/-- A list with these items joins the others at place `p`, and nothing else changes. -/
def beside (p : Nat) (items : Array Value) : Recoding :=
  { same with guest := some (p, items) }

/-- The end of a run with its values recoded, its result by `f`. -/
def ending {α β : Type} (ρ : Recoding) (f : α → β) :
    EStateM.Result Stop Machine α → EStateM.Result Stop Machine β
  | .ok a m => .ok (f a) (ρ.machine m)
  | .error e m => .error (ρ.stop e) (ρ.machine m)

theorem leftBy_ending {α β : Type} (ρ : Recoding) (f : α → β)
    (x : EStateM.Result Stop Machine α) : leftBy (ρ.ending f x) = ρ.machine (leftBy x) := by
  cases x <;> rfl

variable {p : Nat} {items : Array Value}

instance : (beside p items).KeepsErrors := ⟨fun _ _ => rfl⟩

theorem fault_beside (f : Fault) : (beside p items).fault f = f := by
  cases f <;> rfl

theorem stop_beside (e : Stop) : (beside p items).stop e = e := by
  cases e with
  | fault f => exact congrArg Stop.fault (fault_beside f)
  | outOfRounds => rfl

theorem fits_beside {h : Heap} : (beside p items).Fits h ↔ p ≤ h.size := by
  simp [Fits, beside]

/-- The list that was put beside the others has its items. -/
theorem items_machine_beside {m : Machine} (fits : p ≤ m.heap.size) :
    ((beside p items).machine m).heap.items p = items.map (beside p items).value :=
  items_heap_guest _ m.heap (fits_beside.mpr fits) rfl

/-- Nothing leads to the list. -/
theorem not_mem_places_beside (m : Machine) : p ∉ ((beside p items).machine m).places := by
  intro hp
  obtain ⟨k, hk⟩ := places_machine _ m p hp
  exact place_ne_guest (beside p items) rfl k hk.symm

/-! ### The list at the end -/

mutual

theorem value_beside : ∀ v : Value, (∀ n ∈ v.places, n < p) → (beside p items).value v = v
  | .none, _ | .bool _, _ | .int _, _ | .float _, _ | .str _, _ | .range _, _
  | .builtin _, _ => rfl
  | .list n, hv => congrArg Value.list (if_pos (hv n List.mem_cons_self))
  | .tuple id vs, hv => congrArg (Value.tuple id) (values_beside vs hv)
  | .function id d defaults, hv => congrArg (Value.function id d) (values_beside defaults hv)

theorem values_beside : ∀ vs : List Value, (∀ n ∈ Value.allPlaces vs, n < p) →
    (beside p items).values vs = vs
  | [], _ => rfl
  | v :: vs, hvs => by
    obtain ⟨first, others⟩ := List.forall_mem_append.mp hvs
    rw [values, value_beside v first, values_beside vs others]

end

theorem bindings_beside (b : Bindings) (hb : ∀ n ∈ Value.allPlaces (b.map Prod.snd), n < p) :
    (beside p items).bindings b = b := by
  induction b with
  | nil => rfl
  | cons entry rest ih =>
    obtain ⟨name, v⟩ := entry
    obtain ⟨first, others⟩ := List.forall_mem_append.mp hb
    change (name, _) :: bindings _ rest = _
    rw [value_beside v first, ih others]

/-- Where a machine leads only to lists that there are, the list stands at the end as a new one
does, and the others are where they were. -/
theorem machine_beside_size {m : Machine} (hm : ∀ n ∈ m.places, n < m.heap.size)
    (hitems : ∀ n ∈ Value.allPlaces items.toList, n < m.heap.size) :
    (beside m.heap.size items).machine m = { m with heap := (m.heap.insert items).2 } := by
  have part {vs : List Value} (hvs : ∀ v ∈ vs, v ∈ m.values) :
      ∀ n ∈ Value.allPlaces vs, n < m.heap.size := fun n hn => by
    obtain ⟨v, hv, hn⟩ := Value.mem_allPlaces.mp hn
    exact hm n (Value.mem_allPlaces.mpr ⟨v, hvs v hv, hn⟩)
  have scopes : (beside m.heap.size items).scopes m.scopes = m.scopes := by
    have frames : m.scopes.frames.map (beside m.heap.size items).frame = m.scopes.frames := by
      refine (List.map_congr_left fun f hf => ?_).trans (List.map_id _)
      rw [frame, bindings_beside f.locals (part fun v hv => ?_)]
      · rfl
      · exact List.mem_append_right _ (List.mem_flatMap.mpr ⟨f, hf, hv⟩)
    rw [Recoding.scopes, frames, bindings_beside _ (part fun v hv => ?_)]
    exact List.mem_append_left _ (List.mem_append_right _ hv)
  have lists : ((m.heap.lists.push items).map fun list =>
      list.map (beside m.heap.size items).value) = m.heap.lists.push items := by
    refine (Array.map_congr_left fun list hlist => ?_).trans (Array.map_id _)
    apply Array.ext'
    rw [Array.toList_map, ← values_eq_map]
    rcases Array.mem_push.mp hlist with hlist | rfl
    · exact values_beside _ (part fun v hv => List.mem_append_left _
        (List.mem_append_left _ (List.mem_flatMap.mpr ⟨list, hlist.val, hv⟩)))
    · exact values_beside _ hitems
  have seat : (beside m.heap.size items).seat m.heap.lists = m.heap.lists.push items := by
    change m.heap.lists.insertIdxIfInBounds m.heap.lists.size items = _
    simp [Array.insertIdxIfInBounds]
  rw [machine, scopes, heap, seat, lists]
  rfl

end Recoding

/-! ## Runs with and without the list -/

section

variable (p : Nat) (items : Array Value) {α β γ δ ε ζ : Type}

/-- The ends of two runs, whose results are `f c` and `g c` for the same `c`, the second one with
the list at place `p`. -/
inductive EndsBeside (f : γ → α) (g : γ → β) :
    EStateM.Result Stop Machine α → EStateM.Result Stop Machine β → Prop
  | ok {m : Machine} (c : γ) (fits : p ≤ m.heap.size) :
    EndsBeside f g (.ok (f c) m) (.ok (g c) ((Recoding.beside p items).machine m))
  | error {m : Machine} (e : Stop) (fits : p ≤ m.heap.size) :
    EndsBeside f g (.error e m) (.error e ((Recoding.beside p items).machine m))

/-- The second run does with the list at place `p` what the first one does without it. -/
def RunsBeside (f : γ → α) (g : γ → β) (r : Run α) (r' : Run β) : Prop :=
  ∀ m : Machine, p ≤ m.heap.size →
    EndsBeside p items f g (r m) (r' ((Recoding.beside p items).machine m))

variable {p items} {f : γ → α} {g : γ → β} {f' : δ → ε} {g' : δ → ζ} {r : Run α} {r' : Run β}

namespace RunsBeside

theorem pure (c : γ) : RunsBeside p items f g (Pure.pure (f c)) (Pure.pure (g c)) :=
  fun _ fits => .ok c fits

theorem error (e : Stop) : RunsBeside p items f g (throw e) (throw e) :=
  fun _ fits => .error e fits

theorem fault (e : Fault) : RunsBeside p items f g (Run.fault (Recoding.same.fault e))
    (Run.fault ((Recoding.beside p items).fault e)) := by
  rw [Recoding.fault_same, Recoding.fault_beside]
  exact error (.fault e)

theorem bind {t : α → Run ε} {t' : β → Run ζ} (hr : RunsBeside p items f g r r')
    (ht : ∀ c, RunsBeside p items f' g' (t (f c)) (t' (g c))) :
    RunsBeside p items f' g' (r >>= t) (r' >>= t') := by
  intro m fits
  have first := hr m fits
  change EndsBeside p items f' g' (EStateM.bind r t m) (EStateM.bind r' t' _)
  rw [EStateM.bind, EStateM.bind]
  generalize r m = x, r' ((Recoding.beside p items).machine m) = y at first ⊢
  cases first with
  | ok c fits' => exact ht c _ fits'
  | error e fits' => exact .error e fits'

theorem of {x : Except Fault γ} {y : Except Fault α} {y' : Except Fault β}
    (h : y = Recoding.same.outcome f x) (h' : y' = (Recoding.beside p items).outcome g x) :
    RunsBeside p items f g (Run.of y) (Run.of y') := by
  subst h h'
  cases x with
  | ok c => exact pure c
  | error e => exact fault e

theorem read {x : Heap → Except Fault γ} {y : Heap → Except Fault α} {y' : Heap → Except Fault β}
    (h : ∀ i, y (Recoding.same.heap i) = Recoding.same.outcome f (x i))
    (h' : ∀ i, y' ((Recoding.beside p items).heap i)
      = (Recoding.beside p items).outcome g (x i)) :
    RunsBeside p items f g (Run.read y) (Run.read y') := by
  intro m fits
  have outcome := h m.heap
  rw [Recoding.heap_same] at outcome
  exact of outcome (h' m.heap) m fits

theorem compute {x : Compute γ} {y : Compute α} {y' : Compute β}
    (h : Recoding.same.Computes f x y) (h' : (Recoding.beside p items).Computes g x y') :
    RunsBeside p items f g (Run.compute y) (Run.compute y') := by
  intro m fits
  have result := h.apply m.heap
  obtain ⟨result', kept⟩ := h' m.heap (Recoding.fits_beside.mpr fits)
  rw [Recoding.heap_same] at result
  simp only [Run.compute, Recoding.machine, result, result']
  cases hx : x m.heap with
  | ok c i =>
    rw [hx] at kept
    simp only [Recoding.result, Recoding.heap_same]
    exact .ok (m := { m with heap := i }) c (Recoding.fits_beside.mp kept)
  | error e i =>
    rw [hx] at kept
    simp only [Recoding.result, Recoding.heap_same, Recoding.fault_same, Recoding.fault_beside]
    exact .error (m := { m with heap := i }) (.fault e) (Recoding.fits_beside.mp kept)

/-- A change of scopes that commutes with the recoding. -/
theorem modifyScopes {x x' : Scopes → Scopes}
    (h : ∀ s, x' ((Recoding.beside p items).scopes s) = (Recoding.beside p items).scopes (x s)) :
    RunsBeside p items id id (Run.modifyScopes x) (Run.modifyScopes x') := by
  intro m fits
  let m₁ : Machine := { m with scopes := x m.scopes }
  have ends : EndsBeside p items id id (.ok () m₁)
      (.ok () ((Recoding.beside p items).machine m₁)) := .ok () fits
  rwa [Recoding.machine, ← h] at ends

theorem lookup (name : String) : RunsBeside p items Recoding.same.value
    (Recoding.beside p items).value (Run.lookup name) (Run.lookup name) := by
  intro m fits
  have found := (Recoding.beside p items).lookup_scopes m.scopes name
  cases hv : m.scopes.lookup name with
  | some v =>
    rw [hv] at found
    rw [Run.lookup_bound hv, Run.lookup_bound (v := (Recoding.beside p items).value v) found]
    have ends : EndsBeside p items Recoding.same.value (Recoding.beside p items).value
        (.ok (Recoding.same.value v) m) (.ok _ ((Recoding.beside p items).machine m)) := .ok v fits
    rwa [Recoding.value_same] at ends
  | none =>
    rw [hv] at found
    cases hb : Builtin.ofName? name with
    | some b =>
      rw [Run.lookup_builtin hv hb, Run.lookup_builtin found hb]
      exact .ok (Value.builtin b) fits
    | none =>
      rw [Run.lookup_unbound hv hb, Run.lookup_unbound found hb]
      exact .error _ fits

theorem line : RunsBeside p items Recoding.same.line (Recoding.beside p items).line Run.line
    Run.line :=
  fun m fits => .ok m.line fits

theorem setLine (n : Nat) : RunsBeside p items id id (Run.setLine n) (Run.setLine n) :=
  fun m fits => .ok (m := { m with line := n }) () fits

theorem tick (timeout : Option Nat) :
    RunsBeside p items id id (Run.tick timeout) (Run.tick timeout) := by
  intro m fits
  have same : ((Recoding.beside p items).machine m).ticks = m.ticks := rfl
  rw [Run.tick_apply, Run.tick_apply, same]
  split
  · exact .error (m := { m with ticks := m.ticks + 1 }) (.fault (.timeout 0)) fits
  · exact .ok (m := { m with ticks := m.ticks + 1 }) () fits

theorem trace (t : EStateM Fault Session Unit) :
    RunsBeside p items id id (Run.trace t) (Run.trace t) := by
  intro m fits
  simp only [Run.trace, Recoding.machine]
  cases t m.session with
  | ok u s => exact .ok (m := { m with session := s }) u fits
  | error e s => exact .error (m := { m with session := s }) (.fault e) fits

variable (p items)

/-- Running alike with and without the list, as a judgement about expressions. -/
def judgement : Judgement .same (.beside p items) where
  Holds f g r r' := RunsBeside p items f g r r'
  Free _ := True
  pure := pure
  bind := bind
  fault := fault
  read := read
  compute := compute
  lookup := lookup
  bindName {name} _ v := modifyScopes (x := fun s => s.assign name (Recoding.same.value v))
    fun s => by rw [Recoding.value_same, Recoding.scopes_assign]
  line := line
  print _ := trace _
  log _ _ := trace _

/-- Running alike with and without the list, as a judgement about statements. -/
def conduct (timeout : Option Nat) : Conduct .same (.beside p items) timeout where
  expr := judgement p items
  Holds f g r r' := RunsBeside p items f g r r'
  Declares _ := True
  lift h := h
  bind := bind
  setLine := setLine
  tick := tick timeout
  declareGlobal names _ :=
    modifyScopes fun s => ((Recoding.beside p items).scopes_declareGlobal s names).symm
  outOfRounds := error .outOfRounds
  skip h := absurd h Bool.false_ne_true

instance (timeout : Option Nat) : (conduct p items timeout).Whole where
  out_eq _ := rfl
  free _ := trivial

instance (timeout : Option Nat) : (conduct p items timeout).DeclaresAll :=
  ⟨fun _ => trivial⟩

variable {p items} {user user' : UserCall} {timeout : Option Nat} {rounds : Nat}

/-- A block runs with the list as it does without it, if calls do. -/
theorem block (hu : (judgement p items).Calls user user') (block : List Stmt) :
    RunsBeside p items Recoding.same.flow (Recoding.beside p items).flow
      (runBlock ⟨user, timeout, rounds⟩ block) (runBlock ⟨user', timeout, rounds⟩ block) :=
  (conduct p items timeout).runBlock hu block fun _ _ => ⟨rfl, rfl⟩

theorem callIn (hu : (judgement p items).Calls user user') :
    (judgement p items).Calls (callIn ⟨user, timeout, rounds⟩)
      (callIn ⟨user', timeout, rounds⟩) := by
  intro d defaults args keywords
  have bound := Recoding.same.bindArguments_value (f := d) rfl rfl defaults args keywords
  have bound' := (Recoding.beside p items).bindArguments_value (f := d) rfl rfl defaults args
    keywords
  refine bind line fun n => bind (of bound bound') fun locals => ?_
  refine bind (modifyScopes fun s => ?_) fun _ => bind (block hu d.body) fun flow => ?_
  · rw [Recoding.bindings_same, Recoding.scopes_push]
    rfl
  refine bind (modifyScopes fun s => ((Recoding.beside p items).scopes_pop s).symm) fun _ =>
    bind (setLine _) fun _ => ?_
  rw [Recoding.result_flow, Recoding.result_flow]
  exact pure flow.result

/-- Functions of a script do alike, to any depth of calls. -/
theorem userCall : ∀ depth : Nat,
    (judgement p items).Calls (userCall timeout rounds depth) (userCall timeout rounds depth)
  | 0 => fun _ _ _ _ => fault .recursion
  | depth + 1 => callIn (userCall depth)

/-- A statement ends with the list as it does without it, and the list keeps its place. -/
theorem ends {r r' : Run Flow}
    (h : RunsBeside p items Recoding.same.flow (Recoding.beside p items).flow r r') {m : Machine}
    (hp : p ≤ m.heap.size) :
    r' ((Recoding.beside p items).machine m)
        = (Recoding.beside p items).ending (Recoding.beside p items).flow (r m)
      ∧ p ≤ (leftBy (r m)).heap.size := by
  have ends := h m hp
  generalize r m = x, r' ((Recoding.beside p items).machine m) = y at ends ⊢
  cases ends with
  | ok flow fits =>
    rw [Recoding.flow_same]
    exact ⟨rfl, fits⟩
  | error e fits => exact ⟨by rw [Recoding.ending, Recoding.stop_beside], fits⟩

end RunsBeside

end

end SortTrace
