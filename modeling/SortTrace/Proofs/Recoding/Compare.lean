import SortTrace.Proofs.Levels
import SortTrace.Proofs.Recoding.Basic

/-!
# Comparing and writing recoded values

Equality and identity go by the numbers of functions and the order knows none of them, so they do
not tell a recoded value from the value itself (`equal_value`, `identical_value`, `order_value`,
`contains_value`). The written form of a function shows its name only, so the texts and the JSON
documents of recoded values are those of the values (`written_value`, `toJson_value`). All of them
go down into lists, and where there is a guest they are given more levels to do so, which makes no
difference.
-/

namespace SortTrace.Recoding

variable (ρ : Recoding) (h : Heap)

/-! ## Equality -/

mutual

theorem equalWith_value {lists lists' : Nat → Nat → Bool}
    (hl : ∀ i j, lists' (ρ.place i) (ρ.place j) = lists i j) :
    ∀ v w : Value, Value.equalWith lists' (ρ.value v) (ρ.value w) = Value.equalWith lists v w
  | .tuple _ vs, w => by
    cases w with
    | tuple _ ws => simpa [Value.equalWith] using allEqualWith_values hl vs ws
    | _ => simp [Value.equalWith, Value.equalNumbers, Value.asInt?, Value.asFloat?]
  | .none, w | .bool _, w | .int _, w | .float _, w | .str _, w | .list _, w | .range _, w
  | .function .., w | .builtin _, w => by
    cases w <;> simp [Value.equalWith, Value.equalNumbers, Value.asInt?, Value.asFloat?, hl]

theorem allEqualWith_values {lists lists' : Nat → Nat → Bool}
    (hl : ∀ i j, lists' (ρ.place i) (ρ.place j) = lists i j) :
    ∀ vs ws : List Value, Value.allEqualWith lists' (vs.map ρ.value) (ws.map ρ.value)
      = Value.allEqualWith lists vs ws
  | [], ws => by cases ws <;> simp [Value.allEqualWith]
  | v :: vs, [] => by simp [Value.allEqualWith]
  | v :: vs, w :: ws => by
    simp [Value.allEqualWith, equalWith_value hl v w, allEqualWith_values hl vs ws]

end

theorem equalLists_heap (fuel i j : Nat) :
    Value.equalLists (ρ.heap h) fuel (ρ.place i) (ρ.place j) = Value.equalLists h fuel i j := by
  induction fuel generalizing i j with
  | zero => exact ρ.place_beq i j
  | succ fuel ih =>
    simp [Value.equalLists, List.zip_map, Function.comp_def, equalWith_value ρ ih]

theorem depthBound_heap : Value.depthBound h ≤ Value.depthBound (ρ.heap h) :=
  Nat.succ_le_succ (Nat.mul_le_mul (ρ.size_heap h) (ρ.size_heap h))

@[simp] theorem equal_value (v w : Value) :
    Value.equal (ρ.heap h) (ρ.value v) (ρ.value w) = Value.equal h v w := by
  rw [Value.equal, ρ.equalWith_value (ρ.equalLists_heap h _),
    Value.equalLists_levels h (ρ.depthBound_heap h), Value.equal]

@[simp] theorem identical_value (v w : Value) :
    Value.identical (ρ.heap h) (ρ.value v) (ρ.value w) = Value.identical h v w := by
  cases v with
  | list i =>
    cases w with
    | list j => exact ρ.place_beq i j
    | _ => rfl
  | _ => cases w <;> rfl

/-! ## Order -/

mutual

theorem orderWith_value {same same' : Value → Value → Bool}
    {lists lists' : Nat → Nat → Except Fault Ordering} (op : String)
    (hs : ∀ v w, same' (ρ.value v) (ρ.value w) = same v w)
    (hl : ∀ i j, lists' (ρ.place i) (ρ.place j) = ρ.outcome id (lists i j)) :
    ∀ v w : Value, Value.orderWith same' lists' op (ρ.value v) (ρ.value w)
      = ρ.outcome id (Value.orderWith same lists op v w)
  | .tuple _ vs, w => by
    cases w with
    | tuple _ ws => simpa [Value.orderWith] using orderAllWith_values op hs hl vs ws
    | _ => rfl
  | .list i, w => by
    cases w with
    | list j => simpa [Value.orderWith] using hl i j
    | _ => rfl
  | .none, w | .bool _, w | .int _, w | .float _, w | .str _, w | .range _, w
  | .function .., w | .builtin _, w => by
    cases w <;> rfl

theorem orderAllWith_values {same same' : Value → Value → Bool}
    {lists lists' : Nat → Nat → Except Fault Ordering} (op : String)
    (hs : ∀ v w, same' (ρ.value v) (ρ.value w) = same v w)
    (hl : ∀ i j, lists' (ρ.place i) (ρ.place j) = ρ.outcome id (lists i j)) :
    ∀ vs ws : List Value, Value.orderAllWith same' lists' op (vs.map ρ.value) (ws.map ρ.value)
      = ρ.outcome id (Value.orderAllWith same lists op vs ws)
  | [], ws => by cases ws <;> simp [Value.orderAllWith]
  | v :: vs, [] => by simp [Value.orderAllWith]
  | v :: vs, w :: ws => by
    simp only [List.map_cons, Value.orderAllWith, hs]
    split
    · exact orderAllWith_values op hs hl vs ws
    · exact orderWith_value op hs hl v w

end

theorem orderLists_heap (op : String) (fuel i j : Nat) :
    Value.orderLists (ρ.heap h) op fuel (ρ.place i) (ρ.place j)
      = ρ.outcome id (Value.orderLists h op fuel i j) := by
  induction fuel generalizing i j with
  | zero => rfl
  | succ fuel ih =>
    simp only [Value.orderLists, items_heap, Array.toList_map]
    exact ρ.orderAllWith_values op (ρ.equal_value h) ih _ _

@[simp] theorem order_value (op : String) (v w : Value) :
    Value.order (ρ.heap h) op (ρ.value v) (ρ.value w)
      = ρ.outcome id (Value.order h op v w) := by
  rw [Value.order, Value.order, ← Value.orderLists_levels (ρ.depthBound_heap h)]
  exact ρ.orderWith_value op (ρ.equal_value h) (ρ.orderLists_heap h op _) v w

/-! ## Membership -/

@[simp] theorem isNaN_value (v : Value) : (ρ.value v).isNaN = v.isNaN := by
  cases v <;> simp [Value.isNaN]

@[simp] theorem wholeNumber?_value (v : Value) :
    (ρ.value v).wholeNumber? = v.wholeNumber? := by
  cases v <;> simp [Value.wholeNumber?, Value.asInt?]

@[simp] theorem contains_value (container v : Value) :
    Value.contains (ρ.heap h) (ρ.value container) (ρ.value v)
      = ρ.outcome id (Value.contains h container v) := by
  cases container with
  | str text => cases v <;> rfl
  | list place => simp [Value.contains]
  | tuple _ items => simp [Value.contains, List.any_map, Function.comp_def]
  | range s => simp [Value.contains]
  | _ => rfl

/-! ## Written forms -/

mutual

theorem textWith_value {lists lists' : Nat → String}
    (hl : ∀ n, lists' (ρ.place n) = lists n) :
    ∀ v : Value, Value.textWith lists' (ρ.value v) = Value.textWith lists v
  | .tuple _ items => by
    rw [value, values_eq_map, Value.textWith_tuple, Value.textWith_tuple,
      textsWith_values hl items]
  | .function _ d _ => by
    rw [value, Value.textWith_function, Value.textWith_function, ρ.name_code d]
  | .list n => hl n
  | .none | .bool _ | .int _ | .float _ | .str _ | .range _ | .builtin _ => rfl

theorem textsWith_values {lists lists' : Nat → String}
    (hl : ∀ n, lists' (ρ.place n) = lists n) :
    ∀ vs : List Value, Value.textsWith lists' (vs.map ρ.value) = Value.textsWith lists vs
  | [] => rfl
  | v :: vs => by
    rw [List.map_cons, Value.textsWith_cons, Value.textsWith_cons, textWith_value hl v,
      textsWith_values hl vs]

end

theorem listText_heap (fuel : Nat) (outer : List Nat) (n : Nat) :
    Value.listText (ρ.heap h) fuel (outer.map ρ.place) (ρ.place n)
      = Value.listText h fuel outer n := by
  induction fuel generalizing outer n with
  | zero => rfl
  | succ fuel ih =>
    have items : Value.textWith
          (Value.listText (ρ.heap h) fuel (ρ.place n :: outer.map ρ.place)) ∘ ρ.value
        = Value.textWith (Value.listText h fuel (n :: outer)) :=
      funext (ρ.textWith_value (ih (n :: outer)))
    simp only [Value.listText, contains_map_place, items_heap, Array.toList_map, List.map_map,
      items]

@[simp] theorem written_value (v : Value) :
    (ρ.value v).written (ρ.heap h) = v.written h :=
  (ρ.textWith_value (ρ.listText_heap h _ []) v).trans
    (Value.written_levels (Nat.lt_succ_of_le (ρ.size_heap h))).1

@[simp] theorem printed_value (v : Value) :
    (ρ.value v).printed (ρ.heap h) = v.printed h := by
  cases v with
  | str s => rfl
  | _ => exact ρ.written_value h _

/-! ## Documents -/

mutual

theorem jsonWith_value {lists lists' : Nat → Except Fault Report.Json}
    (hl : ∀ n, lists' (ρ.place n) = ρ.outcome id (lists n)) :
    ∀ v : Value, Value.jsonWith lists' (ρ.value v) = ρ.outcome id (Value.jsonWith lists v)
  | .tuple _ items => by
    simp only [value, values_eq_map, Value.jsonWith]
    exact ρ.outcome_map (jsonsWith_values hl items) fun _ => rfl
  | .list n => hl n
  | .none | .bool _ | .int _ | .float _ | .str _ | .range _ | .function .. | .builtin _ => rfl

theorem jsonsWith_values {lists lists' : Nat → Except Fault Report.Json}
    (hl : ∀ n, lists' (ρ.place n) = ρ.outcome id (lists n)) :
    ∀ vs : List Value, Value.jsonsWith lists' (vs.map ρ.value)
      = ρ.outcome id (Value.jsonsWith lists vs)
  | [] => rfl
  | v :: vs => by
    simp only [List.map_cons, Value.jsonsWith]
    exact ρ.outcome_bind (jsonWith_value hl v) fun _ =>
      ρ.outcome_bind (jsonsWith_values hl vs) fun _ => rfl

end

theorem listJson_heap (fuel : Nat) (outer : List Nat) (n : Nat) :
    Value.listJson (ρ.heap h) fuel (outer.map ρ.place) (ρ.place n)
      = ρ.outcome id (Value.listJson h fuel outer n) := by
  induction fuel generalizing outer n with
  | zero => rfl
  | succ fuel ih =>
    have inside := ih (n :: outer)
    rw [List.map_cons] at inside
    simp only [Value.listJson, items_heap, Array.toList_map, contains_map_place]
    split
    · rfl
    · refine ρ.outcome_map (f := List.map id) ?_ fun _ => by simp
      exact ρ.outcome_mapM (ρ.jsonWith_value inside) _

@[simp] theorem toJson_value (v : Value) :
    (ρ.value v).toJson (ρ.heap h) = ρ.outcome id (v.toJson h) := by
  rw [← (Value.written_levels (Nat.lt_succ_of_le (ρ.size_heap h))).2]
  exact ρ.jsonWith_value (ρ.listJson_heap h _ []) v

end SortTrace.Recoding
