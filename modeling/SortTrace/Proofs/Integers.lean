import SortTrace.Proofs.Slices.Positions
import SortTrace.Value.Operator
import SortTrace.Value.Subscript
import SortTrace.Value.Written

/-!
# Integers as values

The values of integers whose absolute value is below `2 ^ 63`, and lists of them: how they are
written, recorded, compared and computed with.
-/

namespace SortTrace

/-- The absolute value of the number is below `2 ^ 63`. -/
def Small (x : Int) : Prop :=
  x.natAbs < 2 ^ 63

instance : DecidablePred Small := fun x =>
  inferInstanceAs (Decidable (x.natAbs < 2 ^ 63))

theorem Small.of_bounds {x : Int} (low : -2 ^ 63 < x) (high : x < 2 ^ 63) : Small x := by
  rw [Small]
  omega

theorem Small.toInt {x : Int} (h : Small x) : (Int64.ofInt x).toInt = x := by
  rw [Small] at h
  exact Int64.toInt_ofInt_of_le (by omega) (by omega)

theorem small_toInt {n : Int64} (hn : n ≠ Int64.minValue) : Small n.toInt := by
  have low := Int64.le_toInt n
  refine .of_bounds (lt_of_le_of_ne low fun least => hn ?_) (Int64.toInt_lt n)
  exact Int64.toInt_inj.mp least.symm

/-- The value of an integer. -/
def Value.ofInt (x : Int) : Value :=
  .int (Int64.ofInt x)

/-- The items of a list of integers. -/
def Value.ofInts (xs : List Int) : Array Value :=
  (xs.map Value.ofInt).toArray

/-- The literal of an integer. -/
def Script.Expr.ofInt (x : Int) : Expr :=
  .literal (.int (Int64.ofInt x))

/-- The expression that makes a list of integers. -/
def Script.Expr.ofInts (xs : List Int) : Expr :=
  .list (xs.map Expr.ofInt)

namespace Arithmetic

theorem narrow_small {x : Int} (h : Small x) : narrow x = .ok (Int64.ofInt x) :=
  if_pos h.toInt

end Arithmetic

namespace Span

/-- The numbers from zero to `n`, without `n`. -/
def upTo (n : Nat) : Span :=
  ⟨0, Int64.ofInt n, 1⟩

theorem length_upTo {n : Nat} (h : n < 2 ^ 63) : (upTo n).length = n := by
  have stop : (Int64.ofInt n).toInt = n := Small.toInt (.of_bounds (by omega) (by omega))
  have start : (0 : Int64).toInt = 0 := rfl
  have step : (1 : Int64).toInt = 1 := rfl
  rw [length, progression, Progression.length, upTo, stop, start, step]
  simp

theorem item_upTo (n i : Nat) : (upTo n).item i = Int64.ofInt i := by
  have start : (0 : Int64).toInt = 0 := rfl
  have step : (1 : Int64).toInt = 1 := rfl
  rw [item, progression, Progression.term, upTo, start, step, zero_add, one_mul]

end Span

namespace Value

variable {xs : List Int} {x y : Int} {h : Heap}

@[simp] theorem size_ofInts : (ofInts xs).size = xs.length := by
  simp [ofInts]

/-! ## Operators -/

theorem add_ofInt (hx : Small x) (hy : Small y) (hxy : Small (x + y)) :
    binary .add (ofInt x) (ofInt y) h = .ok (ofInt (x + y)) h := by
  change Compute.of (Arithmetic.integers .add (Int64.ofInt x) (Int64.ofInt y)) h = _
  rw [Arithmetic.integers, hx.toInt, hy.toInt, Arithmetic.narrow_small hxy]
  rfl

theorem sub_ofInt (hx : Small x) (hy : Small y) (hxy : Small (x - y)) :
    binary .sub (ofInt x) (ofInt y) h = .ok (ofInt (x - y)) h := by
  change Compute.of (Arithmetic.integers .sub (Int64.ofInt x) (Int64.ofInt y)) h = _
  rw [Arithmetic.integers, hx.toInt, hy.toInt, Arithmetic.narrow_small hxy]
  rfl

theorem gt_ofInt (hx : Small x) (hy : Small y) :
    compare h .gt (ofInt x) (ofInt y) = .ok (decide (y < x)) := by
  change Except.ok (Ord.compare (Int64.ofInt x).toInt (Int64.ofInt y).toInt == .gt) = _
  rw [hx.toInt, hy.toInt]
  congr 1
  rw [Bool.eq_iff_iff, beq_iff_eq, decide_eq_true_iff]
  exact Std.compare_eq_gt

/-! ## Items -/

theorem position?_small {i n : Nat} (hi : i < n) (hn : n < 2 ^ 63) :
    position? (Int64.ofInt i) n = some i :=
  have small : Small (i : Int) := .of_bounds (by omega) (by omega)
  (position?_eq_some_iff hn).mpr ⟨hi, .inl small.toInt⟩

theorem getElem?_ofInts {i : Nat} (hi : i < xs.length) : (ofInts xs)[i]? = some (ofInt xs[i]) := by
  simp [ofInts, List.getElem?_eq_getElem hi]

theorem position?_ofInts {i : Nat} (hi : i < xs.length) (hn : xs.length < 2 ^ 63) :
    position? (Int64.ofInt i) (ofInts xs).size = some i := by
  rw [size_ofInts]
  exact position?_small hi hn

/-! ## Written forms -/

/-- The text of a list of integers. -/
def intsText (xs : List Int) : String :=
  "[" ++ ", ".intercalate (xs.map toString) ++ "]"

theorem written_ofInts (hlists : h.lists = #[ofInts xs]) (hxs : ∀ x ∈ xs, Small x) :
    written h (.list 0) = intsText xs := by
  have items : h.items 0 = ofInts xs := by
    rw [Heap.items, hlists]
    rfl
  have texts (lists : Nat → String) :
      (ofInts xs).toList.map (textWith lists) = xs.map toString := by
    rw [ofInts, List.map_map]
    refine List.map_congr_left fun x hx => ?_
    change toString (Int64.ofInt x).toInt = toString x
    rw [(hxs x hx).toInt]
  change listText h (h.size + 1) [] 0 = _
  rw [listText, items, texts]
  rfl

/-- The document of a list of integers. -/
def intsJson (xs : List Int) : Report.Json :=
  .array (xs.map .int)

theorem documents_ofInts {lists : Nat → Except Fault Report.Json} (hxs : ∀ x ∈ xs, Small x) :
    (xs.map ofInt).mapM (jsonWith lists) = .ok (xs.map Report.Json.int) := by
  induction xs with
  | nil => rfl
  | cons x xs ih =>
    obtain ⟨hx, hxs⟩ := List.forall_mem_cons.mp hxs
    have first : jsonWith lists (ofInt x) = .ok (.int x) :=
      congrArg (fun n => Except.ok (Report.Json.int n)) hx.toInt
    rw [List.map_cons, List.mapM_cons, first, ih hxs]
    rfl

theorem toJson_ofInts (hlists : h.lists = #[ofInts xs]) (hxs : ∀ x ∈ xs, Small x) :
    toJson h (.list 0) = .ok (intsJson xs) := by
  have items : h.items 0 = ofInts xs := by
    rw [Heap.items, hlists]
    rfl
  change listJson h (h.size + 1) [] 0 = _
  rw [listJson, items, ofInts, documents_ofInts hxs]
  rfl

end Value

end SortTrace
