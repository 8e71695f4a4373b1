import SortTrace.Proofs.Recoding.Compare
import SortTrace.Value.Operator
import SortTrace.Value.Subscript

/-!
# Operators and subscripts on recoded values

Every operator commutes with every recoding: `unary_value`, `binary_computes`, `updated_computes`
and `compare_value`. So do the subscripts and the slices, read (`item_value`, `slice_computes`) and
written (`setItem_computes`, `setSlice_computes`).
-/

namespace SortTrace.Recoding

open Script (BinOp UnaryOp CompareOp)

variable (ρ : Recoding) (h : Heap)

/-! ## Arithmetic -/

section Arithmetic

open Arithmetic

@[simp] theorem outcome_narrow (n : Int) : ρ.outcome id (narrow n) = narrow n := by
  simp only [narrow]
  split <;> rfl

@[simp] theorem outcome_divided (a b result : Int64) :
    ρ.outcome id (divided a b result) = divided a b result := by
  unfold divided
  split <;> rfl

@[simp] theorem outcome_floorQuotient (a b : Int64) :
    ρ.outcome id (floorQuotient a b) = floorQuotient a b := by
  unfold floorQuotient
  split
  · rfl
  · exact (ρ.outcome_bind (ρ.outcome_divided a b _).symm fun _ => rfl).symm

@[simp] theorem outcome_floorRemainder (a b : Int64) :
    ρ.outcome id (floorRemainder a b) = floorRemainder a b := by
  unfold floorRemainder
  split
  · rfl
  · exact (ρ.outcome_bind (ρ.outcome_divided a b _).symm fun _ => rfl).symm

@[simp] theorem outcome_power (a b : Int64) : ρ.outcome id (power a b) = power a b := by
  simp only [power]
  split
  · rfl
  split
  · exact ρ.outcome_narrow _
  split
  · rfl
  · exact ρ.outcome_narrow _

@[simp] theorem outcome_shiftLeft (a b : Int64) :
    ρ.outcome id (shiftLeft a b) = shiftLeft a b := by
  unfold shiftLeft
  split
  · rfl
  split
  · rfl
  split
  · rfl
  · exact ρ.outcome_narrow _

@[simp] theorem outcome_shiftRight (a b : Int64) :
    ρ.outcome id (shiftRight a b) = shiftRight a b := by
  unfold shiftRight
  split
  · rfl
  split <;> rfl

@[simp] theorem outcome_absolute (a : Int64) : ρ.outcome id (absolute a) = absolute a :=
  ρ.outcome_narrow _

@[simp] theorem outcome_truncate (x : Float) : ρ.outcome id (truncate x) = truncate x := by
  unfold truncate
  split
  · rfl
  split <;> rfl

/-- An integer has nothing to recode. -/
theorem int_outcome {x : Except Fault Int64} (hx : ρ.outcome id x = x) :
    Value.int <$> x = ρ.outcome ρ.value (Value.int <$> x) :=
  ρ.outcome_map hx.symm fun _ => rfl

theorem integers_outcome (op : BinOp) (a b : Int64) :
    integers op a b = ρ.outcome ρ.value (integers op a b) := by
  cases op with
  | add | sub | mul => exact ρ.int_outcome (ρ.outcome_narrow _)
  | div =>
    simp only [integers]
    split <;> rfl
  | floorDiv => exact ρ.int_outcome (ρ.outcome_floorQuotient a b)
  | mod => exact ρ.int_outcome (ρ.outcome_floorRemainder a b)
  | pow =>
    simp only [integers, negativePower]
    split
    · split <;> rfl
    · exact ρ.int_outcome (ρ.outcome_power a b)
  | bitAnd | bitOr | bitXor => rfl
  | shiftLeft => exact ρ.int_outcome (ρ.outcome_shiftLeft a b)
  | shiftRight => exact ρ.int_outcome (ρ.outcome_shiftRight a b)

theorem reals_outcome {unsupported : Fault} (hu : ρ.fault unsupported = unsupported) (op : BinOp)
    (x y : Float) : reals unsupported op x y = ρ.outcome id (reals unsupported op x y) := by
  cases op with
  | add | sub | mul => rfl
  | div | floorDiv | mod | pow =>
    simp only [reals]
    split <;> rfl
  | bitAnd | bitOr | bitXor | shiftLeft | shiftRight =>
    exact congrArg Except.error hu.symm

end Arithmetic

/-! ## One operand -/

@[simp] theorem unary_value (op : UnaryOp) (v : Value) :
    (ρ.value v).unary (ρ.heap h) op = ρ.outcome ρ.value (v.unary h op) := by
  cases op with
  | negate =>
    simp only [Value.unary]
    cases v with
    | int n => exact ρ.int_outcome (ρ.outcome_narrow _)
    | bool b => exact ρ.int_outcome (ρ.outcome_narrow _)
    | _ => rfl
  | keep | invert => cases v <;> rfl
  | not => simp [Value.unary]

/-! ## Two operands -/

@[simp] theorem unsupported_value (op : BinOp) (v w : Value) :
    Value.unsupported op (ρ.value v) (ρ.value w) = Value.unsupported op v w := by
  simp [Value.unsupported]

theorem fits_outcome (n : Nat) : Compute.fits n = ρ.outcome id (Compute.fits n) := by
  unfold Compute.fits
  split <;> rfl

theorem repeatFits_outcome (length : Nat) (n : Int64) :
    Value.repeatFits length n = ρ.outcome id (Value.repeatFits length n) := by
  unfold Value.repeatFits
  split
  · rfl
  · exact ρ.fits_outcome _

theorem repeatItems_value (items : Array Value) (n : Int64) :
    Value.repeatItems (items.map ρ.value) n
      = ρ.outcome (Array.map ρ.value) (Value.repeatItems items n) := by
  simp only [Value.repeatItems, Array.size_map]
  refine ρ.outcome_bind (ρ.repeatFits_outcome _ _) fun _ => ?_
  by_cases hi : items = #[]
  · simp only [hi, Array.map_empty, Array.isEmpty_empty, if_true, outcome_pure]
    rfl
  · have flat : ∀ k : Nat, (Array.replicate k (items.map ρ.value)).flatten
        = ((Array.replicate k items).flatten).map ρ.value := by
      intro k
      simp [Array.map_flatten]
    simp only [Array.isEmpty_iff, Array.map_eq_empty_iff, hi, if_false, flat]
    rfl

theorem repeatText_outcome (s : String) (n : Int64) :
    Value.repeatText s n = ρ.outcome id (Value.repeatText s n) := by
  unfold Value.repeatText
  exact ρ.outcome_bind (ρ.repeatFits_outcome _ _) fun _ => rfl

variable {ρ}

namespace Computes

theorem newList {items items' : Array Value} (hi : items' = items.map ρ.value) :
    ρ.Computes ρ.value (Compute.newList items) (Compute.newList items') := by
  intro h fits
  subst hi
  refine ⟨congrArg (fun p : Value × Heap => EStateM.Result.ok p.1 p.2)
    (ρ.heap_insert h fits items), fits.mono ?_⟩
  change h.lists.size ≤ (h.lists.push items).size
  rw [Array.size_push]
  exact Nat.le_succ _

theorem mark : ρ.Computes id (modifyGet Heap.mark : Compute Nat) (modifyGet Heap.mark) :=
  fun h fits =>
    ⟨congrArg (fun p : Nat × Heap => EStateM.Result.ok p.1 p.2) (ρ.heap_mark h), fits⟩

theorem newTuple {items items' : List Value} (hi : items' = items.map ρ.value) :
    ρ.Computes ρ.value (Compute.newTuple items) (Compute.newTuple items') := by
  refine bind mark fun id => pure ?_
  rw [hi, value, values_eq_map]
  rfl

theorem modifyList (n : Nat) {f g : Array Value → Array Value}
    (hfg : ∀ items : Array Value, g (items.map ρ.value) = (f items).map ρ.value) :
    ρ.Computes id (modify fun h => h.modify n f : Compute Unit)
      (modify fun h => h.modify (ρ.place n) g) :=
  change (fun h => ρ.heap_modify h n hfg) fun h => by simp [Heap.size, Heap.modify]

theorem setItems (n : Nat) {items items' : Array Value} (hi : items' = items.map ρ.value) :
    ρ.Computes id (Compute.setItems n items) (Compute.setItems (ρ.place n) items') :=
  modifyList n fun _ => hi

end Computes

theorem repeated_computes {unsupported : Fault} (hu : ρ.fault unsupported = unsupported)
    (v : Value) (n : Int64) :
    ρ.Computes ρ.value (v.repeated unsupported n) ((ρ.value v).repeated unsupported n) := by
  cases v with
  | list place =>
    refine .bind (f := Array.map ρ.value) (.read fun h => ?_) fun items => .newList rfl
    rw [items_heap, repeatItems_value]
  | tuple id items =>
    simp only [value, values_eq_map, Value.repeated]
    refine .bind (f := Array.map ρ.value) (.of ?_) fun items => .newTuple (by simp)
    rw [← ρ.repeatItems_value, List.map_toArray]
  | str s => exact .map (.of (ρ.repeatText_outcome s n)) fun _ => rfl
  | _ => exact .throw hu.symm

theorem joined_computes (v w : Value) :
    ρ.Computes ρ.value (v.joined w) ((ρ.value v).joined (ρ.value w)) := by
  cases v with
  | str s =>
    cases w with
    | str t => exact .pure rfl
    | _ => exact .throw rfl
  | list i =>
    cases w with
    | list j => exact .bind .get fun h => .newList (by simp)
    | _ => exact .throw rfl
  | tuple _ vs =>
    cases w with
    | tuple _ ws => exact .newTuple (by simp)
    | _ => exact .throw rfl
  | _ => exact .throw (ρ.unsupported_value .add _ w)

theorem sequences_computes (op : BinOp) (v w : Value) :
    ρ.Computes ρ.value (v.sequences op w) ((ρ.value v).sequences op (ρ.value w)) := by
  cases op with
  | add => exact joined_computes v w
  | mul =>
    simp only [Value.sequences, asInt?_value, unsupported_value]
    split
    · exact repeated_computes rfl v _
    · exact repeated_computes rfl w _
    · exact .throw rfl
  | _ => exact .throw (ρ.unsupported_value _ v w)

/-- An operator applied to recoded operands. -/
theorem binary_computes (op : BinOp) (v w : Value) :
    ρ.Computes ρ.value (v.binary op w) ((ρ.value v).binary op (ρ.value w)) := by
  simp only [Value.binary, asInt?_value, asFloat?_value, unsupported_value]
  split
  · exact .of (ρ.integers_outcome op _ _)
  split
  · exact .map (.of (ρ.reals_outcome rfl op _ _)) fun _ => rfl
  · exact sequences_computes op v w

/-! ## Items in a row -/

theorem iterate_value (h : Heap) (v : Value) :
    (ρ.heap h).iterate (ρ.value v) = ρ.outcome (Array.map ρ.value) (h.iterate v) := by
  cases v with
  | list place => simp [Heap.iterate]
  | tuple id items => simp [Heap.iterate]
  | str s => simp [Heap.iterate]
  | range s =>
    refine ρ.outcome_bind (ρ.fits_outcome _) fun _ => ?_
    rw [outcome_pure, List.map_toArray, List.map_map, value_comp_int]
    rfl
  | _ => rfl

/-- An update with recoded operands. -/
theorem updated_computes (op : BinOp) (v w : Value) :
    ρ.Computes ρ.value (v.updated op w) ((ρ.value v).updated op (ρ.value w)) := by
  have binary : ρ.Computes ρ.value (v.binary op w) ((ρ.value v).binary op (ρ.value w)) :=
    binary_computes op v w
  cases v with
  | list place =>
    cases op with
    | add =>
      refine .bind (.read fun h => iterate_value h w) fun more => ?_
      exact .bind (.modifyList place fun items => by simp) fun _ => .pure rfl
    | mul =>
      simp only [value, Value.updated, asInt?_value]
      split
      · refine .bind (f := Array.map ρ.value) (.read fun h => ?_) fun items => ?_
        · rw [items_heap, repeatItems_value]
        · exact .bind (.setItems place rfl) fun _ => .pure rfl
      · exact binary
    | _ => exact binary
  | _ => cases op <;> exact binary

/-! ## Comparisons -/

variable (ρ)

@[simp] theorem unordered_value (v w : Value) :
    Value.unordered (ρ.value v) (ρ.value w) = Value.unordered v w := by
  simp [Value.unordered]

theorem ordered_value (op : CompareOp) (wanted : Ordering → Bool) (v w : Value) :
    Value.ordered (ρ.heap h) op wanted (ρ.value v) (ρ.value w)
      = ρ.outcome id (Value.ordered h op wanted v w) := by
  simp only [Value.ordered, unordered_value]
  split
  · rfl
  · exact ρ.outcome_map (ρ.order_value h _ v w) fun _ => rfl

@[simp] theorem compare_value (op : CompareOp) (v w : Value) :
    (ρ.value v).compare (ρ.heap h) op (ρ.value w) = ρ.outcome id (v.compare h op w) := by
  cases op with
  | lt | le | gt | ge => exact ρ.ordered_value h _ _ v w
  | eq | ne => simp [Value.compare]
  | member => exact ρ.contains_value h w v
  | notMember => exact ρ.outcome_map (ρ.contains_value h w v) fun _ => rfl
  | same | notSame => simp [Value.compare]

/-! ## Subscripts -/

@[simp] theorem item?_map {α β : Type} (f : α → β) (items : Array α) (i : Int64) :
    Value.item? (items.map f) i = (Value.item? items i).map f := by
  simp only [Value.item?, Array.size_map]
  cases position? i items.size <;> simp

@[simp] theorem item_value (object subscript : Value) :
    (ρ.value object).item (ρ.heap h) (ρ.value subscript)
      = ρ.outcome ρ.value (object.item h subscript) := by
  cases object with
  | list place =>
    simp only [value, Value.item, asInt?_value, typeName_value, items_heap, item?_map]
    cases subscript.asInt? with
    | none => rfl
    | some i => cases hv : Value.item? (h.items place) i <;> simp [hv, outcome]; rfl
  | tuple id items =>
    simp only [value, values_eq_map, Value.item, asInt?_value, typeName_value, List.length_map]
    cases subscript.asInt? with
    | none => rfl
    | some i =>
      have picks : ((position? i items.length).bind fun n => (items.map ρ.value)[n]?)
          = ((position? i items.length).bind fun n => items[n]?).map ρ.value := by
        cases position? i items.length <;> simp
      simp only [picks]
      cases (position? i items.length).bind fun n => items[n]? <;> rfl
  | str s =>
    simp only [value, Value.item, asInt?_value, typeName_value]
    cases subscript.asInt? with
    | none => rfl
    | some i =>
      cases hv : (position? i s.length).bind fun n => s.toList[n]? <;> simp [hv, outcome]; rfl
  | range s =>
    simp only [value, Value.item, asInt?_value, typeName_value]
    cases subscript.asInt? with
    | none => rfl
    | some i => cases hv : position? i s.length <;> simp [hv, outcome]; rfl
  | _ => rfl

@[simp] theorem picked_map {α β : Type} (f : α → β) (items : Array α) (s : Slice) :
    Value.picked (items.map f) s = (Value.picked items s).map f := by
  simp [Value.picked, List.map_filterMap]

variable {ρ}

/-- A slice of a recoded value. -/
theorem slice_computes (object : Value) (s : Slice) :
    ρ.Computes ρ.value (object.slice s) ((ρ.value object).slice s) := by
  simp only [Value.slice]
  split
  · exact .throw rfl
  cases object with
  | list place => exact .bind .get fun h => .newList (by simp)
  | tuple id items => exact .newTuple (by simp [← List.map_toArray])
  | str text => exact .pure rfl
  | range span =>
    exact .bind (.read fun h => iterate_value h (.range span)) fun items => .newList (by simp)
  | _ => exact .throw rfl

/-- An item written to a recoded list. -/
theorem setItem_computes (object subscript v : Value) :
    ρ.Computes id (object.setItem subscript v)
      ((ρ.value object).setItem (ρ.value subscript) (ρ.value v)) := by
  cases object with
  | list place =>
    simp only [value, Value.setItem, asInt?_value, typeName_value]
    split
    · exact .throw rfl
    · refine .bind .get fun h => ?_
      simp only [items_heap, Array.size_map]
      split
      · exact .modifyList place fun items => by simp [Array.map_setIfInBounds]
      · exact .throw rfl
  | _ => exact .throw rfl

@[simp] theorem splice_map (ρ : Recoding) (items replacement : Array Value) (low high : Nat) :
    Value.splice (items.map ρ.value) low high (replacement.map ρ.value)
      = (Value.splice items low high replacement).map ρ.value := by
  simp [Value.splice, Array.map_extract]

@[simp] theorem replaceEach_map (ρ : Recoding) (items replacement : Array Value)
    (positions : List Nat) :
    Value.replaceEach (items.map ρ.value) positions (replacement.map ρ.value)
      = (Value.replaceEach items positions replacement).map ρ.value := by
  simp only [Value.replaceEach, Array.toList_map, List.zip_map_right]
  generalize positions.zip replacement.toList = pairs
  induction pairs generalizing items with
  | nil => rfl
  | cons p pairs ih =>
    simp only [List.map_cons, List.foldl_cons]
    rw [← ih, Array.map_setIfInBounds]
    rfl

theorem spliced_value (items replacement : Array Value) (s : Slice) :
    Value.spliced (items.map ρ.value) s (replacement.map ρ.value)
      = ρ.outcome (Array.map ρ.value) (Value.spliced items s replacement) := by
  simp only [Value.spliced, Array.size_map]
  split
  · rfl
  split
  · simp
  split
  · simp
  · rfl

/-- A slice of a recoded list replaced. -/
theorem setSlice_computes (object : Value) (s : Slice) (v : Value) :
    ρ.Computes id (object.setSlice s v) ((ρ.value object).setSlice s (ρ.value v)) := by
  cases object with
  | list place =>
    refine .bind (.read fun h => iterate_value h v) fun replacement => ?_
    refine .bind (f := Array.map ρ.value) (.read fun h => ?_) fun items => .setItems place rfl
    rw [items_heap, spliced_value]
  | _ => exact .throw rfl

end SortTrace.Recoding
