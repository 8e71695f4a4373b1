import SortTrace.Machine.Builtin
import SortTrace.Proofs.Arithmetic.Words

/-!
# Integer arithmetic

An operation on integers has an exact result among the integers of any size. The operators give this
result where 64 bits hold it and refuse the operation where they do not (`Arithmetic.checked`); none
of them wraps (`Value.integer_arithmetic_exact`).

A remainder is smaller than its divisor and always has 64 bits. The operator for it still refuses
one pair of integers, the one whose quotient is too large (`Value.remainder_exact`).
-/

namespace SortTrace

namespace Arithmetic

/-! ## Results in 64 bits -/

/-- What 64 bits make of an integer: the integer if they hold it, and an overflow if not. -/
def checked (n : Int) : Except Fault Value :=
  if -2 ^ 63 ≤ n ∧ n < 2 ^ 63 then .ok (.int (Int64.ofInt n)) else .error .overflow

theorem map_narrow (n : Int) : .int <$> narrow n = checked n := by
  have holds_iff : (Int64.ofInt n).toInt = n ↔ -2 ^ 63 ≤ n ∧ n < 2 ^ 63 := by
    constructor
    · intro same
      rw [← same]
      exact ⟨Int64.le_toInt _, Int64.toInt_lt _⟩
    · rintro ⟨low, high⟩
      exact Int64.toInt_ofInt_of_le low high
  rw [narrow, checked]
  simp only [holds_iff]
  split <;> rfl

@[simp] theorem checked_toInt (n : Int64) : checked n.toInt = .ok (.int n) := by
  rw [checked, if_pos ⟨n.le_toInt, n.toInt_lt⟩, Int64.ofInt_toInt]

variable (a b : Int64)

theorem integers_floorDiv :
    integers .floorDiv a b = if b = 0 then .error .floorDivideByZero
      else checked ⌊(a.toInt : ℚ) / b.toInt⌋ := by
  rw [integers, floor_div_eq_fdiv]
  split
  · next zero =>
    rw [floorQuotient, if_pos zero]
    rfl
  · next hb => rw [floorQuotient_eq hb, map_narrow]

theorem integers_bitAnd : integers .bitAnd a b = checked (Int.land a.toInt b.toInt) := by
  rw [integers, ← Bits.toInt_and, checked_toInt]

theorem integers_bitOr : integers .bitOr a b = checked (Int.lor a.toInt b.toInt) := by
  rw [integers, ← Bits.toInt_or, checked_toInt]

theorem integers_bitXor : integers .bitXor a b = checked (Int.xor a.toInt b.toInt) := by
  rw [integers, ← Bits.toInt_xor, checked_toInt]

/-- A number other than zero leaves 64 bits when it is moved by 64 places or more. -/
theorem checked_mul_two_pow {a : Int} {n : Nat} (ha : a ≠ 0) (hn : 64 ≤ n) :
    checked (a * 2 ^ n) = .error .overflow := by
  have wide : (2 : Int) ^ 64 ≤ 2 ^ n := pow_le_pow_right₀ (by decide) hn
  refine if_neg fun ⟨low, high⟩ => ?_
  obtain negative | positive := Int.lt_or_gt_of_ne ha
  · nlinarith
  · nlinarith

theorem integers_shiftLeft :
    integers .shiftLeft a b = if b < 0 then .error .negativeShift
      else checked (a.toInt * 2 ^ b.toInt.toNat) := by
  rw [integers, shiftLeft]
  simp only [neg_iff]
  split
  · rfl
  · next positive =>
    split
    · next zero =>
      rw [zero, Int64.toInt_zero, Int.zero_mul]
      rfl
    · next some =>
      split
      · next far =>
        rw [checked_mul_two_pow (fun zero => some (Int64.toInt_inj.mp zero)) (by omega)]
        rfl
      · rw [map_narrow, Nat.one_shiftLeft, Nat.cast_pow, Nat.cast_ofNat]

theorem integers_shiftRight :
    integers .shiftRight a b = if b < 0 then .error .negativeShift
      else checked ⌊(a.toInt : ℚ) / 2 ^ b.toInt.toNat⌋ := by
  have low := a.le_toInt
  have high := a.toInt_lt
  rw [integers, shiftRight, floor_div_pow]
  simp only [neg_iff]
  split
  · rfl
  · next places =>
    split
    · next far =>
      have wide : 2 ^ 64 ≤ 2 ^ b.toInt.toNat := Nat.pow_le_pow_right (by decide) (by omega)
      rw [ediv_of_lt (by omega) (by omega)]
      split <;> rfl
    · next near =>
      rw [← toInt_shiftRight (by omega) (by omega), checked_toInt]
      rfl

end Arithmetic

namespace Value

open Arithmetic

variable {v w : Value} {a b : Int64}

theorem binary_integers (op : Script.BinOp) (hv : v.asInt? = some a) (hw : w.asInt? = some b) :
    v.binary op w = Compute.of (integers op a b) := by
  simp only [binary, hv, hw]

theorem ne_float (hv : v.asInt? = some a) (x : Float) : v ≠ float x := by
  rintro rfl
  cases hv

theorem negate_integer (hv : v.asInt? = some a) : v.negate = checked (-a.toInt) := by
  rw [← map_narrow, negate, hv]
  exact ne_float hv

theorem keep_integer (hv : v.asInt? = some a) : v.keep = checked a.toInt := by
  rw [checked_toInt, keep, hv]
  exact ne_float hv

theorem invert_integer (hv : v.asInt? = some a) : v.invert = checked (Int.lnot a.toInt) := by
  rw [← Bits.toInt_not, checked_toInt, invert, hv]

theorem absolute_integer (hv : v.asInt? = some a) : v.absolute = checked |a.toInt| := by
  rw [← map_narrow, Int.abs_eq_natAbs, absolute, hv]
  · rfl
  · exact ne_float hv

/-- An operator on integers and truth values gives the exact integer if 64 bits hold it, and an
overflow if not. Bits are those of two's complement, quotients and shifts to the right are rounded
down, and a shift may be of any length. Besides, floor division refuses the divisor zero, and the
shifts refuse to move bits by a negative number of places. -/
theorem integer_arithmetic_exact (apply : Apply) (h : Heap) (hv : v.asInt? = some a)
    (hw : w.asInt? = some b) :
    v.binary .add w = Compute.of (checked (a.toInt + b.toInt)) ∧
    v.binary .sub w = Compute.of (checked (a.toInt - b.toInt)) ∧
    v.binary .mul w = Compute.of (checked (a.toInt * b.toInt)) ∧
    v.binary .bitAnd w = Compute.of (checked (Int.land a.toInt b.toInt)) ∧
    v.binary .bitOr w = Compute.of (checked (Int.lor a.toInt b.toInt)) ∧
    v.binary .bitXor w = Compute.of (checked (Int.xor a.toInt b.toInt)) ∧
    v.binary .floorDiv w = Compute.of (if b = 0 then .error .floorDivideByZero
      else checked ⌊(a.toInt : ℚ) / b.toInt⌋) ∧
    v.binary .shiftLeft w = Compute.of (if b < 0 then .error .negativeShift
      else checked (a.toInt * 2 ^ b.toInt.toNat)) ∧
    v.binary .shiftRight w = Compute.of (if b < 0 then .error .negativeShift
      else checked ⌊(a.toInt : ℚ) / 2 ^ b.toInt.toNat⌋) ∧
    v.unary h .negate = checked (-a.toInt) ∧
    v.unary h .keep = checked a.toInt ∧
    v.unary h .invert = checked (Int.lnot a.toInt) ∧
    Builtin.run apply .abs [v] [] = Run.of (checked |a.toInt|) := by
  simp only [binary_integers _ hv hw, integers_bitAnd, integers_bitOr, integers_bitXor,
    integers_floorDiv, integers_shiftLeft, integers_shiftRight, true_and]
  refine ⟨congrArg _ (map_narrow _), congrArg _ (map_narrow _), congrArg _ (map_narrow _),
    negate_integer hv, keep_integer hv, invert_integer hv, ?_⟩
  rw [← absolute_integer hv]
  rfl

/-- A shift just reaches the smallest integer from -1, and division by a greater number ends in -1.
-/
theorem integer_arithmetic_exact_edge :
    let v := int (-1)
    let w := int 63
    v.asInt? = some (-1) ∧ w.asInt? = some 63 ∧
      v.binary .shiftLeft w = Compute.of (.ok (.int Int64.minValue)) ∧
      v.binary .floorDiv w = Compute.of (.ok v) ∧ v.binary .shiftRight w = Compute.of (.ok v) := by
  intro v w
  have hv : v.asInt? = some (-1) := rfl
  have hw : w.asInt? = some 63 := rfl
  obtain ⟨-, -, -, -, -, -, quotient, left, right, -⟩ :=
    integer_arithmetic_exact (fun _ _ => pure .none) .empty hv hw
  rw [floor_div_eq_fdiv] at quotient
  rw [floor_div_pow] at right
  exact ⟨hv, hw, left, quotient, right⟩

/-- The remainder of the quotient rounded down is a 64-bit integer: it lies between zero and the
divisor. It is what the operator gives, except that the smallest integer is not divided by -1, as
that quotient is too large. -/
theorem remainder_exact (hv : v.asInt? = some a) (hw : w.asInt? = some b) (hb : b ≠ 0) :
    ∃ r : Int64, r.toInt = a.toInt - b.toInt * ⌊(a.toInt : ℚ) / b.toInt⌋ ∧
      (r = 0 ∨ (r < 0 ↔ b < 0)) ∧ |r.toInt| < |b.toInt| ∧
      v.binary .mod w = Compute.of (if a = Int64.minValue ∧ b = -1 then .error .overflow
        else .ok (.int r)) := by
  have divisor : b.toInt ≠ 0 := fun zero => hb (Int64.toInt_inj.mp zero)
  have between := fmod_between a.toInt divisor
  have low := b.le_toInt
  have high := b.toInt_lt
  have value : (Int64.ofInt (Int.fmod a.toInt b.toInt)).toInt = Int.fmod a.toInt b.toInt :=
    Int64.toInt_ofInt_of_le (by omega) (by omega)
  generalize Int64.ofInt (Int.fmod a.toInt b.toInt) = r at value
  refine ⟨r, ?_, ?_, ?_, ?_⟩
  · rw [value, floor_div_eq_fdiv, Int.fmod_def]
  · rw [← Int64.toInt_inj, Int64.lt_iff_toInt_lt, Int64.lt_iff_toInt_lt, value, Int64.toInt_zero]
    omega
  · rw [value, Int.abs_eq_natAbs, Int.abs_eq_natAbs]
    omega
  · rw [binary_integers _ hv hw, integers, floorRemainder_eq hb, ← value, narrow_toInt]
    split <;> rfl

/-- The remainder of the smallest integer by ten has the sign of ten. -/
theorem remainder_exact_ten :
    let v := int Int64.minValue
    let w := int 10
    v.asInt? = some Int64.minValue ∧ w.asInt? = some 10 ∧ (10 : Int64) ≠ 0 ∧
      v.binary .mod w = Compute.of (.ok (.int 2)) := by
  intro v w
  have hv : v.asInt? = some Int64.minValue := rfl
  have hw : w.asInt? = some 10 := rfl
  have hb : (10 : Int64) ≠ 0 := by decide
  obtain ⟨r, value, -, -, remainder⟩ := remainder_exact hv hw hb
  rw [floor_div_eq_fdiv] at value
  obtain rfl : r = 2 := Int64.toInt_inj.mp (value.trans (by decide))
  exact ⟨hv, hw, hb, remainder⟩

/-- The smallest integer divided by -1 leaves the remainder zero, and the operator refuses it. -/
theorem least_remainder_refused :
    let a := Int64.minValue
    let b : Int64 := -1
    a.toInt - b.toInt * ⌊(a.toInt : ℚ) / b.toInt⌋ = 0 ∧
      binary .mod (int a) (int b) = Compute.of (.error .overflow) := by
  intro a b
  rw [floor_div_eq_fdiv]
  exact ⟨by decide, rfl⟩

end Value

end SortTrace
