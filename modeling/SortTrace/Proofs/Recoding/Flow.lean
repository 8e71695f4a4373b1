import SortTrace.Machine.Block
import SortTrace.Proofs.Recoding.Basic

/-!
# Recodings of what statements pass on

The end of a statement and the items that a loop has yet to go through are recoded by their values.
With these, all that a run deals in has its recoding, and `Recoding.same` is the one that changes
none of it.
-/

namespace SortTrace

namespace Recoding

variable (ρ : Recoding)

/-- The end of a statement with its value recoded. -/
def flow : Flow → Flow
  | .giveBack v => .giveBack (ρ.value v)
  | f => f

/-- The items that a loop has yet to go through, recoded. -/
def cursor : Cursor → Cursor
  | .list n position => .list (ρ.place n) position
  | .range s position => .range s position
  | .tuple items position => .tuple (items.map ρ.value) position
  | .str s position => .str s position

theorem result_flow (f : Flow) : (ρ.flow f).result = ρ.value f.result := by
  cases f <;> rfl

theorem start_value (v : Value) :
    Cursor.start (ρ.value v) = ρ.outcome ρ.cursor (Cursor.start v) := by
  cases v with
  | tuple id items => simp [Cursor.start, cursor]
  | _ => rfl

theorem next?_cursor (h : Heap) (c : Cursor) :
    (ρ.cursor c).next? (ρ.heap h) = (c.next? h).map (Prod.map ρ.value ρ.cursor) := by
  cases c with
  | list place position =>
    simp only [cursor, Cursor.next?, items_heap, Array.getElem?_map]
    cases (h.items place)[position]? <;> rfl
  | range s position =>
    simp only [cursor, Cursor.next?]
    split <;> rfl
  | tuple items position =>
    simp only [cursor, Cursor.next?, List.getElem?_map]
    cases items[position]? <;> rfl
  | str s position =>
    simp only [cursor, Cursor.next?]
    cases s.toList[position]? <;> rfl

/-! ## The recoding that changes nothing -/

/-- Every function and every line stays what it is. -/
def same : Recoding where
  code d := d
  name_code _ := rfl
  line n := n

theorem line_same (n : Nat) : same.line n = n := rfl

instance : same.KeepsErrors := ⟨fun _ _ => rfl⟩

instance : same.InPlace := ⟨rfl⟩

mutual

@[simp] theorem value_same : ∀ v : Value, same.value v = v
  | .none | .bool _ | .int _ | .float _ | .str _ | .list _ | .range _ | .builtin _ => rfl
  | .tuple id items => congrArg (Value.tuple id) (values_same items)
  | .function id d defaults => congrArg (Value.function id d) (values_same defaults)

theorem values_same : ∀ vs : List Value, same.values vs = vs
  | [] => rfl
  | v :: vs => by rw [values, value_same v, values_same vs]

end

@[simp] theorem heap_same (h : Heap) : same.heap h = h := by
  have items : same.value = id := funext value_same
  simp [heap_inPlace, items]

@[simp] theorem bindings_same (b : Bindings) : same.bindings b = b := by
  simp [bindings]

@[simp] theorem scopes_same (s : Scopes) : same.scopes s = s := by
  have frames : same.frame = id := by
    funext f
    rw [frame, bindings_same]
    rfl
  rw [scopes, bindings_same, frames, List.map_id]

@[simp] theorem fault_same (f : Fault) : same.fault f = f := by
  cases f <;> rfl

theorem outcome_same {α : Type} (x : Except Fault α) : same.outcome id x = x := by
  cases x with
  | ok => rfl
  | error f => exact congrArg Except.error (fault_same f)

@[simp] theorem flow_same (f : Flow) : same.flow f = f := by
  cases f with
  | giveBack v => exact congrArg Flow.giveBack (value_same v)
  | _ => rfl

@[simp] theorem stop_same (e : Stop) : same.stop e = e := by
  cases e with
  | fault f => exact congrArg Stop.fault (fault_same f)
  | outOfRounds => rfl

end Recoding

end SortTrace
