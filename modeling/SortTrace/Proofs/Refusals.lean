import SortTrace.Machine.ListMethod

/-!
# Refused operations

An operation on a list that stops at a fault has changed nothing: neither that list nor any other
one (`failed_operation_changes_nothing`). A computation fails first (`FailsFirst`) if it leaves what
it works on as it was whenever it fails. Such computations are closed under sequences in two ways,
by a first part that only looks (`OnlyLooks`) and by a second part that never fails (`NeverFails`),
and every operation on lists is put together in these ways: it checks its arguments, and changes the
list when nothing can go wrong any more.
-/

namespace SortTrace

open Script (BinOp)

/-! ## Computations that fail first -/

section Classes

variable {ε σ α β : Type}

/-- A computation that fails leaves everything as it was. -/
class FailsFirst (c : EStateM ε σ α) : Prop where
  kept : ∀ {s : σ} {e : ε} {s' : σ}, c s = .error e s' → s' = s

/-- A computation that does not fail leaves everything as it was. -/
class OnlyLooks (c : EStateM ε σ α) : Prop where
  kept : ∀ {s : σ} {a : α} {s' : σ}, c s = .ok a s' → s' = s

/-- The computation does not fail. -/
class NeverFails (c : EStateM ε σ α) : Prop where
  ends : ∀ s : σ, ∃ a s', c s = .ok a s'

variable {c : EStateM ε σ α} {t : α → EStateM ε σ β}

theorem estate_bind (c : EStateM ε σ α) (t : α → EStateM ε σ β) (s : σ) :
    (c >>= t) s = match c s with
      | .ok a s' => t a s'
      | .error e s' => .error e s' := rfl

instance (a : α) : OnlyLooks (pure a : EStateM ε σ α) :=
  ⟨fun h => by cases h; rfl⟩

instance (a : α) : NeverFails (pure a : EStateM ε σ α) :=
  ⟨fun s => ⟨a, s, rfl⟩⟩

instance (e : ε) : OnlyLooks (throw e : EStateM ε σ α) :=
  ⟨nofun⟩

instance (e : ε) : FailsFirst (throw e : EStateM ε σ α) :=
  ⟨fun h => by cases h; rfl⟩

instance : OnlyLooks (get : EStateM ε σ σ) :=
  ⟨fun h => by cases h; rfl⟩

instance : NeverFails (get : EStateM ε σ σ) :=
  ⟨fun s => ⟨s, s, rfl⟩⟩

instance (f : σ → α × σ) : NeverFails (modifyGet f : EStateM ε σ α) :=
  ⟨fun s => ⟨(f s).1, (f s).2, rfl⟩⟩

instance (f : σ → σ) : NeverFails (modify f : EStateM ε σ Unit) :=
  ⟨fun s => ⟨(), f s, rfl⟩⟩

instance [h : NeverFails c] : FailsFirst c := by
  refine ⟨fun {s e s'} hc => ?_⟩
  obtain ⟨a, s₁, ends⟩ := h.ends s
  rw [hc] at ends
  cases ends

instance NeverFails.bind [h : NeverFails c] [ht : ∀ a, NeverFails (t a)] :
    NeverFails (c >>= t) := by
  refine ⟨fun s => ?_⟩
  obtain ⟨a, s₁, hc⟩ := h.ends s
  obtain ⟨b, s₂, hb⟩ := (ht a).ends s₁
  exact ⟨b, s₂, by rw [estate_bind, hc]; exact hb⟩

instance OnlyLooks.bind [h : OnlyLooks c] [ht : ∀ a, OnlyLooks (t a)] : OnlyLooks (c >>= t) := by
  refine ⟨fun {s b s'} hb => ?_⟩
  rw [estate_bind] at hb
  split at hb
  · next a s₁ hc => rw [(ht a).kept hb, h.kept hc]
  · cases hb

/-- What comes after a look may fail as long as it fails first. -/
theorem FailsFirst.look [h : FailsFirst c] [hl : OnlyLooks c] (ht : ∀ a, FailsFirst (t a)) :
    FailsFirst (c >>= t) := by
  refine ⟨fun {s e s'} he => ?_⟩
  rw [estate_bind] at he
  split at he
  · next a s₁ hc => rw [(ht a).kept he, hl.kept hc]
  · next e' s₁ hc =>
    cases he
    exact h.kept hc

instance FailsFirst.afterLook [FailsFirst c] [OnlyLooks c] [ht : ∀ a, FailsFirst (t a)] :
    FailsFirst (c >>= t) :=
  .look ht

/-- What comes after a change must not fail. -/
instance FailsFirst.beforeSure [h : FailsFirst c] [ht : ∀ a, NeverFails (t a)] :
    FailsFirst (c >>= t) := by
  refine ⟨fun {s e s'} he => ?_⟩
  rw [estate_bind] at he
  split at he
  · next a s₁ hc =>
    obtain ⟨b, s₂, hb⟩ := (ht a).ends s₁
    rw [hb] at he
    cases he
  · next e' s₁ hc =>
    cases he
    exact h.kept hc

instance (f : α → β) [FailsFirst c] : FailsFirst (f <$> c) := by
  rw [map_eq_pure_bind]
  infer_instance

end Classes

/-! ## Operations on lists -/

namespace Compute

variable {α : Type}

instance (x : Except Fault α) : FailsFirst (of x) := by
  cases x with
  | ok a => exact inferInstanceAs (FailsFirst (pure a))
  | error f => exact inferInstanceAs (FailsFirst (throw f))

instance (x : Except Fault α) : OnlyLooks (of x) := by
  cases x with
  | ok a => exact inferInstanceAs (OnlyLooks (pure a))
  | error f => exact inferInstanceAs (OnlyLooks (throw f))

instance (f : Heap → Except Fault α) : FailsFirst (read f) := by
  unfold read
  infer_instance

instance (f : Heap → Except Fault α) : OnlyLooks (read f) := by
  unfold read
  infer_instance

instance (items : Array Value) : NeverFails (newList items) := by
  unfold newList
  infer_instance

instance (items : List Value) : NeverFails (newTuple items) := by
  unfold newTuple
  infer_instance

instance (place : Nat) (items : Array Value) : NeverFails (setItems place items) := by
  unfold setItems
  infer_instance

end Compute

namespace Value

variable (v w object subscript : Value) (place : Nat)

/-! ### Operators -/

instance (unsupported : Fault) (n : Int64) : FailsFirst (repeated unsupported v n) := by
  unfold repeated
  split <;> infer_instance

instance : FailsFirst (joined v w) := by
  unfold joined
  split <;> infer_instance

instance (op : BinOp) : FailsFirst (sequences op v w) := by
  unfold sequences
  split
  · infer_instance
  · split <;> infer_instance
  · infer_instance

instance (op : BinOp) : FailsFirst (binary op v w) := by
  unfold binary
  split
  · infer_instance
  · split <;> infer_instance

instance (op : BinOp) : FailsFirst (updated op v w) := by
  unfold updated
  split
  · infer_instance
  · split <;> infer_instance
  · infer_instance

/-! ### Items and slices -/

instance : FailsFirst (setItem object subscript v) := by
  unfold setItem
  split
  · split
    · infer_instance
    · refine .look fun h => ?_
      split <;> infer_instance
  · infer_instance

instance (s : Slice) : FailsFirst (setSlice object s v) := by
  unfold setSlice
  split <;> infer_instance

/-! ### Methods -/

instance : FailsFirst (insertItem place subscript v) := by
  unfold insertItem
  infer_instance

instance (at_ : Option Value) : FailsFirst (popItem place at_) := by
  unfold popItem
  infer_instance

instance : FailsFirst (extendItems place v) := by
  unfold extendItems
  infer_instance

end Value

namespace ListMethod

instance (c : Compute Unit) [FailsFirst c] : FailsFirst (silently c) := by
  unfold silently
  infer_instance

instance (m : ListMethod) (place : Nat) (args : List Value) :
    FailsFirst (m.runPlain place args) := by
  unfold runPlain
  split <;> infer_instance

end ListMethod

/-! ## Runs -/

namespace Run

variable {α : Type}

instance (f : Fault) : FailsFirst (fault f : Run α) := by
  unfold fault
  infer_instance

instance (f : Fault) : OnlyLooks (fault f : Run α) := by
  unfold fault
  infer_instance

instance (x : Except Fault α) : FailsFirst (of x) := by
  cases x with
  | ok a => exact inferInstanceAs (FailsFirst (pure a))
  | error f => exact inferInstanceAs (FailsFirst (fault f))

instance (x : Except Fault α) : OnlyLooks (of x) := by
  cases x with
  | ok a => exact inferInstanceAs (OnlyLooks (pure a))
  | error f => exact inferInstanceAs (OnlyLooks (fault f))

instance (f : Heap → Except Fault α) : FailsFirst (read f) := by
  unfold read
  infer_instance

instance (f : Heap → Except Fault α) : OnlyLooks (read f) := by
  unfold read
  infer_instance

instance (c : Compute α) [h : FailsFirst c] : FailsFirst (compute c) := by
  refine ⟨fun {m e m'} he => ?_⟩
  unfold compute at he
  dsimp only at he
  cases hc : c m.heap with
  | ok a heap =>
    rw [hc] at he
    cases he
  | error f heap =>
    rw [hc] at he
    cases he
    rw [h.kept hc]

instance (c : Compute α) [h : NeverFails c] : NeverFails (compute c) := by
  refine ⟨fun m => ?_⟩
  obtain ⟨a, heap, hc⟩ := h.ends m.heap
  exact ⟨a, { m with heap }, by unfold compute; dsimp only; rw [hc]⟩

end Run

/-! ## Sorting without a key -/

section Keyless

variable {apply : Apply} {key : Option Value} (hkey : key = none ∨ key = some .none)

include hkey in
/-- Without a key nothing is called, and the items are their own keys. -/
theorem keysOf_keyless (items : List Value) : keysOf apply key items = pure items := by
  rcases hkey with rfl | rfl <;> rfl

include hkey in
theorem sortItems_keyless (reverse : Bool) (items : Array Value) :
    sortItems apply key reverse items =
      (do
        let sorted ← Run.read fun h => sortByKeys h reverse items.toList items.toList
        pure sorted.toArray) := by
  rw [sortItems, keysOf_keyless hkey]
  rfl

end Keyless

theorem ListMethod.runSort_failsFirst {apply : Apply} {keywords : Keywords}
    (hkey : keywords.get? "key" = none ∨ keywords.get? "key" = some .none) (place : Nat)
    (args : List Value) : FailsFirst (runSort apply place args keywords) := by
  unfold runSort
  simp only [sortItems_keyless hkey]
  split <;> infer_instance

/-! ## All operations -/

/-- An operation on an object, with what it is given. -/
inductive ListOperation where
  | setItem (subscript v : Value)
  | setSlice (s : Slice) (v : Value)
  /-- An update in place. -/
  | update (op : BinOp) (v : Value)
  | method (name : String) (args : List Value) (keywords : Keywords)

namespace ListOperation

/-- Do the operation. -/
def run (apply : Apply) (object : Value) : ListOperation → Run Value
  | setItem subscript v => Run.compute (ListMethod.silently (object.setItem subscript v))
  | setSlice s v => Run.compute (ListMethod.silently (object.setSlice s v))
  | update op v => Run.compute (object.updated op v)
  | method name args keywords => ListMethod.run apply object name args keywords

/-- If the operation sorts, it is given no key, or `None` for one. -/
def Keyless : ListOperation → Prop
  | method name _ keywords => ListMethod.ofName? name = some .sort →
    keywords.get? "key" = none ∨ keywords.get? "key" = some .none
  | _ => True

theorem run_failsFirst {apply : Apply} {object : Value} {op : ListOperation} (h : op.Keyless) :
    FailsFirst (op.run apply object) := by
  cases op with
  | setItem | setSlice | update => unfold run; infer_instance
  | method name args keywords =>
    change FailsFirst (ListMethod.run apply object name args keywords)
    unfold ListMethod.run
    split
    · split
      · next hsort => exact ListMethod.runSort_failsFirst (h hsort) _ _
      · infer_instance
      · infer_instance
    · infer_instance

end ListOperation

/-- **An operation on a list that fails changes nothing.** Items and slices that are assigned,
updates in place and the methods of lists, except for sorting by a key that is asked for, leave all
lists as they were when they fail, whatever they are given, the list itself included. -/
theorem failed_operation_changes_nothing (apply : Apply) (object : Value) {op : ListOperation}
    (h : op.Keyless) {m m' : Machine} {e : Stop} (he : op.run apply object m = .error e m') :
    m' = m :=
  (op.run_failsFirst h).kept he

/-- A machine that holds one list and has done nothing yet. -/
def Machine.holding (items : Array Value) : Machine :=
  { Machine.start (Session.start .report [] none) with heap := ⟨#[items], 0⟩ }

/-- Every second item of a list of three, replaced by the items of the list itself. -/
theorem failed_operation_changes_nothing_slots :
    let m := Machine.holding #[.int 1, .int 2, .int 3]
    let op : ListOperation := .setSlice ⟨none, none, some 2⟩ (.list 0)
    op.Keyless ∧ op.run (fun _ v => pure v) (.list 0) m = .error (.fault (.slotMismatch 3 2)) m ∧
      ∀ m' e, op.run (fun _ v => pure v) (.list 0) m = .error e m' → m' = m := by
  refine ⟨trivial, rfl, fun m' e he => ?_⟩
  have keyless : (ListOperation.setSlice ⟨none, none, some 2⟩ (.list 0)).Keyless := trivial
  exact failed_operation_changes_nothing _ _ keyless he

end SortTrace
