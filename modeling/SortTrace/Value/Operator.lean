import SortTrace.Script.Tree
import SortTrace.Value.Arithmetic
import SortTrace.Value.Compare
import SortTrace.Value.Store

/-!
# Operators

What the operators of the script language do with values. Truth values count as integers. Texts,
lists and tuples can be joined and repeated; joining and repeating make a new sequence, except that
an update in place of a list changes that list.
-/

namespace SortTrace

open Script (BinOp UnaryOp CompareOp)

namespace Value

/-! ## One operand -/

/-- The sign changed. -/
def negate (v : Value) : Except Fault Value :=
  match v with
  | float x => .ok (.float (-x))
  | v => match v.asInt? with
    | some n => .int <$> Arithmetic.narrow (-n.toInt)
    | .none => .error (.badUnary "-" v.typeName)

/-- A number as it is, a truth value as an integer. -/
def keep (v : Value) : Except Fault Value :=
  match v with
  | float x => .ok (.float x)
  | v => match v.asInt? with
    | some n => .ok (.int n)
    | .none => .error (.badUnary "+" v.typeName)

/-- All bits of an integer changed. -/
def invert (v : Value) : Except Fault Value :=
  match v.asInt? with
  | some n => .ok (.int (~~~n))
  | .none => .error (.badUnary "~" v.typeName)

/-- An operator applied to one operand. -/
def unary (h : Heap) (op : UnaryOp) (v : Value) : Except Fault Value :=
  match op with
  | .negate => v.negate
  | .keep => v.keep
  | .invert => v.invert
  | .not => .ok (.bool (!v.isTrue h))

/-! ## Two operands -/

/-- The fault of an operator that does not apply. -/
def unsupported (op : BinOp) (v w : Value) : Fault :=
  .badOperands op.symbol v.typeName w.typeName

/-- How often a sequence is repeated: a negative number counts as zero. -/
def repeatCount (n : Int64) : Nat :=
  n.toInt.toNat

/-- The first length beyond 64 bits, `2 ^ 64`. -/
def lengthLimit : Nat := 0x10000000000000000

/-- Refuse to repeat a sequence when the result is too long, or its length beyond 64 bits. -/
def repeatFits (length : Nat) (n : Int64) : Except Fault Unit :=
  if lengthLimit ≤ length * repeatCount n then .error .overflow
  else Compute.fits (length * repeatCount n)

/-- The items over and over. -/
def repeatItems (items : Array Value) (n : Int64) : Except Fault (Array Value) := do
  repeatFits items.size n
  pure (if items.isEmpty then #[] else (Array.replicate (repeatCount n) items).flatten)

/-- The text over and over. -/
def repeatText (s : String) (n : Int64) : Except Fault String := do
  repeatFits s.utf8ByteSize n
  pure (if s.isEmpty then "" else String.join (List.replicate (repeatCount n) s))

/-- A sequence repeated. -/
def repeated (unsupported : Fault) (sequence : Value) (n : Int64) : Compute Value :=
  match sequence with
  | list place => do
    Compute.newList (← Compute.read fun h => repeatItems (h.items place) n)
  | tuple _ items => do
    let items ← Compute.of (repeatItems items.toArray n)
    Compute.newTuple items.toList
  | str s => .str <$> Compute.of (repeatText s n)
  | _ => throw unsupported

/-- Two sequences joined. -/
def joined (v w : Value) : Compute Value :=
  match v, w with
  | str s, str t => pure (.str (s ++ t))
  | str _, w => throw (.badConcatenation "str" w.typeName)
  | list i, list j => do
    let h ← get
    Compute.newList (h.items i ++ h.items j)
  | list _, w => throw (.badConcatenation "list" w.typeName)
  | tuple _ vs, tuple _ ws => Compute.newTuple (vs ++ ws)
  | v, w => throw (unsupported .add v w)

/-- An operator on two values that are not both numbers. -/
def sequences (op : BinOp) (v w : Value) : Compute Value :=
  match op with
  | .add => joined v w
  | .mul => match w.asInt?, v.asInt? with
    | some n, _ => repeated (unsupported op v w) v n
    | .none, some n => repeated (unsupported op v w) w n
    | .none, .none => throw (unsupported op v w)
  | op => throw (unsupported op v w)

/-- An operator applied to two operands. -/
def binary (op : BinOp) (v w : Value) : Compute Value :=
  match v.asInt?, w.asInt? with
  | some a, some b => Compute.of (Arithmetic.integers op a b)
  | _, _ => match v.asFloat?, w.asFloat? with
    | some x, some y => .float <$> Compute.of (Arithmetic.reals (unsupported op v w) op x y)
    | _, _ => sequences op v w

/-- The value to store when `v` is updated by an operator: a list that is added to or multiplied is
changed itself. -/
def updated (op : BinOp) (v w : Value) : Compute Value :=
  match op, v with
  | .add, list place => do
    let more ← Compute.read fun h => h.iterate w
    modify fun h => h.modify place (· ++ more)
    pure v
  | .mul, list place => match w.asInt? with
    | some n => do
      let items ← Compute.read fun h => repeatItems (h.items place) n
      Compute.setItems place items
      pure v
    | .none => binary op v w
  | op, v => binary op v w

/-! ## Comparisons -/

/-- Is one of two numbers not-a-number? -/
def unordered (v w : Value) : Bool :=
  (v.isNaN && w.isNumeric) || (w.isNaN && v.isNumeric)

/-- Is the order of two values one of the wanted ones? Not-a-number is in no order to a number. -/
def ordered (h : Heap) (op : CompareOp) (wanted : Ordering → Bool) (v w : Value) :
    Except Fault Bool :=
  if unordered v w then .ok false else wanted <$> order h op.symbol v w

/-- A comparison of two values. -/
def compare (h : Heap) (op : CompareOp) (v w : Value) : Except Fault Bool :=
  match op with
  | .eq => .ok (equal h v w)
  | .ne => .ok !(equal h v w)
  | .lt => ordered h op (· == .lt) v w
  | .le => ordered h op (· != .gt) v w
  | .gt => ordered h op (· == .gt) v w
  | .ge => ordered h op (· != .lt) v w
  | .member => contains h w v
  | .notMember => (!·) <$> contains h w v
  | .same => .ok (identical h v w)
  | .notSame => .ok !(identical h v w)

end Value

end SortTrace
