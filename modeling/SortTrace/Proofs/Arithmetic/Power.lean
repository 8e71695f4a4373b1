import Mathlib.Algebra.Order.Ring.Abs
import SortTrace.Proofs.Arithmetic.Exact

/-!
# Powers of integers

A power with an exponent that is not negative is exact or refused, as every other operation on
integers is (`Value.power_exact`). The powers of -1, 0 and 1 have 64 bits whatever the exponent; the
operator refuses them all the same from the first exponent of 33 bits on
(`Value.power_of_one_refused`).
-/

namespace SortTrace

namespace Arithmetic

/-- The powers of -1, 0 and 1 repeat from the second on. -/
theorem pow_min {a : Int} (ha : a.natAbs ≤ 1) (n : Nat) : a ^ min n (2 + n % 2) = a ^ n := by
  obtain rfl | rfl | rfl : a = 0 ∨ a = 1 ∨ a = -1 := by omega
  · have zero_iff : min n (2 + n % 2) = 0 ↔ n = 0 := by omega
    rw [zero_pow_eq, zero_pow_eq]
    simp only [zero_iff]
  · rw [one_pow, one_pow]
  · have parity : min n (2 + n % 2) % 2 = n % 2 := by omega
    rw [neg_one_pow_eq_pow_mod_two, parity, ← neg_one_pow_eq_pow_mod_two]

/-- All other numbers leave 64 bits when they are multiplied with themselves often enough. -/
theorem checked_pow {a : Int} {n : Nat} (ha : ¬ a.natAbs ≤ 1) (hn : 64 ≤ n) :
    checked (a ^ n) = .error .overflow := by
  have large : 2 ^ 64 ≤ (a ^ n).natAbs := by
    rw [Int.natAbs_pow]
    calc 2 ^ 64 ≤ 2 ^ n := Nat.pow_le_pow_right (by decide) hn
      _ ≤ a.natAbs ^ n := Nat.pow_le_pow_left (by omega) n
  refine if_neg fun ⟨low, high⟩ => ?_
  omega

theorem integers_pow (a : Int64) {b : Int64} (hb : 0 ≤ b) :
    integers .pow a b = if a.toInt.natAbs ≤ 1 ∧ exponentLimit ≤ b.toInt.toNat then .error .overflow
      else checked (a.toInt ^ b.toInt.toNat) := by
  have sign : ¬ b.toInt < 0 := Int.not_lt.mpr (Int64.le_iff_toInt_le.mp hb)
  generalize exponent : b.toInt.toNat = n
  rw [integers, if_neg sign, power, exponent]
  by_cases unit : a.toInt.natAbs ≤ 1
  · simp only [unit, true_and, if_true]
    split
    · rfl
    · exact (map_narrow _).trans (congrArg checked (pow_min unit n))
  · simp only [unit, false_and, if_false]
    have far (hn : 64 ≤ n) : checked (a.toInt ^ n) = .error .overflow := checked_pow unit hn
    split
    · next limit => exact (far (Nat.le_trans (by decide) limit)).symm
    · split
      · next large => exact (far large).symm
      · exact map_narrow _

end Arithmetic

namespace Value

open Arithmetic

variable {v w : Value} {a b : Int64}

/-- A power with an exponent that is not negative is the exact integer if 64 bits hold it, and an
overflow if not, with one exception: -1, 0 and 1 are not raised to a power of 33 bits or more. -/
theorem power_exact (hv : v.asInt? = some a) (hw : w.asInt? = some b) (hb : 0 ≤ b) :
    v.binary .pow w = Compute.of (if |a.toInt| ≤ 1 ∧ 2 ^ 32 ≤ b.toInt then .error .overflow
      else checked (a.toInt ^ b.toInt.toNat)) := by
  have limit : exponentLimit ≤ b.toInt.toNat ↔ 2 ^ 32 ≤ b.toInt := by
    have value : exponentLimit = 2 ^ 32 := rfl
    omega
  have unit : a.toInt.natAbs ≤ 1 ↔ |a.toInt| ≤ 1 := by
    rw [Int.abs_eq_natAbs]
    omega
  rw [binary_integers _ hv hw, integers_pow a hb]
  simp only [limit, unit]

/-- The smallest integer is a power of -2, and zero to the power of zero is one. -/
theorem power_exact_edge :
    let v := int (-2)
    let w := int 63
    let zero := bool false
    v.asInt? = some (-2) ∧ w.asInt? = some 63 ∧ (0 : Int64) ≤ 63 ∧
      v.binary .pow w = Compute.of (.ok (.int Int64.minValue)) ∧
      zero.asInt? = some 0 ∧ (0 : Int64) ≤ 0 ∧
      zero.binary .pow zero = Compute.of (.ok (.int 1)) := by
  intro v w zero
  have hv : v.asInt? = some (-2) := rfl
  have hw : w.asInt? = some 63 := rfl
  have hz : zero.asInt? = some 0 := rfl
  have long : (0 : Int64) ≤ 63 := by decide
  exact ⟨hv, hw, long, power_exact hv hw long,
    hz, Int64.le_refl 0, power_exact hz hz (Int64.le_refl 0)⟩

/-- Every power of one is one, and the first with an exponent of 33 bits is refused. -/
theorem power_of_one_refused :
    let a : Int64 := 1
    let b : Int64 := 4294967296
    a.toInt ^ b.toInt.toNat = 1 ∧ binary .pow (int a) (int b) = Compute.of (.error .overflow) := by
  intro a b
  exact ⟨one_pow _, rfl⟩

end Value

end SortTrace
