import Mathlib.Data.Int.Bitwise
import Mathlib.Data.Rat.Floor
import SortTrace.Proofs.Slices.Positions

/-!
# Words and the integers they stand for

In two's complement an integer of any size has infinitely many bits, which repeat the sign from some
place on; the bits of a 64-bit integer are those of its word, and then its sign (`testBit_toInt`).
So an operation that goes through the bits of words gives the integer that has the bits it computes
(`toInt_bitwise`).

Words are divided towards zero, and their remainder has the sign of the dividend. Where there is a
remainder and the signs of both operands differ, the quotient rounded down is one less and its
remainder is moved by the divisor. With these corrections, which never leave 64 bits,
`floorQuotient` and `floorRemainder` are the quotient rounded down and its remainder of the integers
that the words stand for (`floorQuotient_eq`, `floorRemainder_eq`).
-/

namespace SortTrace

/-! ## Bits -/

namespace Bits

/-- Integers with the same bits are the same: beyond all bits of both, two signs show. -/
theorem eq_of_testBit {m n : Int} (h : ∀ k, m.testBit k = n.testBit k) : m = n := by
  have differ (m n : Nat) : ∃ k, (Int.ofNat m).testBit k ≠ (Int.negSucc n).testBit k := by
    refine ⟨m + n, ?_⟩
    have sign (x : Nat) (hx : x ≤ m + n) : x.testBit (m + n) = false :=
      Nat.testBit_lt_two_pow (hx.trans_lt Nat.lt_two_pow_self)
    simp [Int.testBit, sign m (by omega), sign n (by omega)]
  cases m with
  | ofNat m => cases n with
    | ofNat n => exact congrArg Int.ofNat (Nat.eq_of_testBit_eq h)
    | negSucc n =>
      obtain ⟨k, hk⟩ := differ m n
      exact absurd (h k) hk
  | negSucc m => cases n with
    | ofNat n =>
      obtain ⟨k, hk⟩ := differ n m
      exact absurd (h k).symm hk
    | negSucc n =>
      exact congrArg Int.negSucc (Nat.eq_of_testBit_eq fun k => Bool.not_inj (h k))

/-- Behind the bits of a word come copies of its sign. -/
theorem testBit_toInt {w : Nat} (x : BitVec w) (k : Nat) :
    x.toInt.testBit k = if k < w then x.getLsbD k else x.msb := by
  rw [BitVec.toInt_eq_msb_cond]
  split
  · next negative =>
    have complement : (x.toNat : Int) - (2 ^ w : Nat) = Int.negSucc (~~~x).toNat := by
      rw [BitVec.toNat_not, Int.negSucc_eq]
      have := x.isLt
      omega
    rw [complement, Int.testBit, BitVec.testBit_toNat, BitVec.getLsbD_not, negative]
    split <;> simp [*]
  · next positive =>
    change x.toNat.testBit k = _
    rw [BitVec.testBit_toNat]
    split
    · rfl
    · next beyond =>
      rw [BitVec.getLsbD_of_ge x k (Nat.le_of_not_lt beyond)]
      simpa using positive

variable {f : Bool → Bool → Bool}

/-- A word computed bit by bit stands for the integer with these bits. -/
theorem toInt_bitwise {w : Nat} {x y z : BitVec w}
    (bits : ∀ k < w, z.getLsbD k = f (x.getLsbD k) (y.getLsbD k)) (sign : z.msb = f x.msb y.msb) :
    z.toInt = Int.bitwise f x.toInt y.toInt := by
  refine eq_of_testBit fun k => ?_
  rw [Int.testBit_bitwise, testBit_toInt, testBit_toInt, testBit_toInt]
  split
  · next inside => exact bits k inside
  · exact sign

theorem toInt_and (a b : Int64) : (a &&& b).toInt = Int.land a.toInt b.toInt := by
  rw [← Int.bitwise_and]
  exact toInt_bitwise (fun k _ => BitVec.getLsbD_and) BitVec.msb_and

theorem toInt_or (a b : Int64) : (a ||| b).toInt = Int.lor a.toInt b.toInt := by
  rw [← Int.bitwise_or]
  exact toInt_bitwise (fun k _ => BitVec.getLsbD_or) BitVec.msb_or

theorem toInt_xor (a b : Int64) : (a ^^^ b).toInt = Int.xor a.toInt b.toInt := by
  rw [← Int.bitwise_xor]
  exact toInt_bitwise (fun k _ => BitVec.getLsbD_xor) BitVec.msb_xor

theorem toInt_not (a : Int64) : (~~~a).toInt = Int.lnot a.toInt := by
  refine eq_of_testBit fun k => ?_
  change (~~~a.toBitVec).toInt.testBit k = (Int.lnot a.toBitVec.toInt).testBit k
  rw [Int.testBit_lnot, testBit_toInt, testBit_toInt]
  split <;> simp [*]

end Bits

namespace Arithmetic

/-! ## Quotients rounded down and their remainders -/

theorem floor_div_eq_fdiv (a b : Int) : ⌊(a : ℚ) / b⌋ = Int.fdiv a b := by
  have upward (a : Int) (n : Nat) : ⌊(a : ℚ) / (n : Int)⌋ = Int.fdiv a n := by
    rw [Int.cast_natCast, Rat.floor_intCast_div_natCast,
      Int.fdiv_eq_ediv_of_nonneg a (Int.natCast_nonneg n)]
  obtain ⟨n, rfl | rfl⟩ := Int.eq_nat_or_neg b
  · exact upward a n
  · rw [← Int.neg_fdiv_neg, neg_neg, ← upward, Int.cast_neg, Int.cast_neg, div_neg, neg_div]

theorem floor_div_pow (a : Int) (n : Nat) : ⌊(a : ℚ) / 2 ^ n⌋ = a / (2 ^ n : Nat) := by
  rw [← Rat.floor_intCast_div_natCast]
  push_cast
  rfl

/-- Beyond its bits a number has only its sign left. -/
theorem ediv_of_lt {a m : Int} (low : -m ≤ a) (high : a < m) : a / m = if a < 0 then -1 else 0 := by
  split
  · next negative => exact ((Int.ediv_emod_unique (r := a + m) (by omega)).mpr (by omega)).1
  · next positive => exact Int.ediv_eq_zero_of_lt (by omega) high

/-- A remainder lies between zero and the divisor. -/
theorem fmod_between (a : Int) {b : Int} (hb : b ≠ 0) :
    (0 ≤ a.fmod b ∧ a.fmod b < b) ∨ (b < a.fmod b ∧ a.fmod b ≤ 0) := by
  obtain negative | positive := Int.lt_or_gt_of_ne hb
  · have mirrored := Int.neg_fmod_neg a b
    have := Int.fmod_nonneg_of_pos (-a) (b := -b) (by omega)
    have := Int.fmod_lt_of_pos (-a) (b := -b) (by omega)
    omega
  · exact .inl ⟨Int.fmod_nonneg_of_pos a positive, Int.fmod_lt_of_pos a positive⟩

/-! ## Quotients and remainders of words -/

/-- The remainder of a quotient cut off towards zero has the sign of the dividend. -/
theorem tmod_neg_iff {a b : Int} (rest : a.tmod b ≠ 0) : a.tmod b < 0 ↔ a < 0 := by
  have positive : 0 ≤ a → 0 ≤ a.tmod b := Int.tmod_nonneg b
  have negative : 0 ≤ -a → 0 ≤ -a.tmod b := fun h => by
    rw [← Int.neg_tmod]
    exact Int.tmod_nonneg b h
  omega

/-- Where there is a remainder and the signs differ, rounding down is one below cutting off. -/
theorem fdiv_eq_tdiv_sub_one {a b : Int} (hb : b ≠ 0) (rest : a.tmod b ≠ 0)
    (differ : ¬ (a < 0 ↔ b < 0)) : a.fdiv b = a.tdiv b - 1 := by
  rw [Int.fdiv_eq_tdiv, if_neg (mt Int.tmod_eq_zero_of_dvd rest)]
  obtain below | above := Int.lt_or_gt_of_ne hb
  · rw [if_pos (by omega), if_neg (by omega)]
  · rw [if_neg (by omega), if_pos (by omega), Int.sign_eq_one_of_pos above]

/-- Everywhere else rounding down is cutting off. -/
theorem fdiv_eq_tdiv_of {a b : Int} (same : a.tmod b ≠ 0 → (a < 0 ↔ b < 0)) :
    a.fdiv b = a.tdiv b := by
  rw [Int.fdiv_eq_tdiv]
  split
  · rw [Int.sub_zero]
  · next rest =>
    have same := same (mt Int.dvd_of_tmod_eq_zero rest)
    split
    · rw [if_pos (by omega), Int.sub_zero]
    · rw [if_neg (by omega), Int.sign_eq_neg_one_of_neg (by omega)]
      omega

section Words

variable {a b : Int64}

theorem neg_iff (n : Int64) : n < 0 ↔ n.toInt < 0 :=
  Int64.lt_iff_toInt_lt

theorem mod_eq_zero_iff : a % b = 0 ↔ a.toInt.tmod b.toInt = 0 := by
  rw [← Int64.toInt_mod, ← Int64.toInt_inj, Int64.toInt_zero]

/-- All quotients of words but one have 64 bits. -/
theorem toInt_div_of_ne (fits : ¬ (a = Int64.minValue ∧ b = -1)) :
    (a / b).toInt = a.toInt.tdiv b.toInt := by
  obtain ha | hb := not_and_or.mp fits
  · exact Int64.toInt_div_of_ne_left a b ha
  · exact Int64.toInt_div_of_ne_right a b hb

theorem divided_of_ne (hb : b ≠ 0) (r : Int64) :
    divided a b r = if a = Int64.minValue ∧ b = -1 then .error .overflow else .ok r := by
  simp only [divided, hb, false_or]

/-- A quotient with a remainder has a divisor of two or more, so there are numbers below it. -/
theorem toInt_div_sub_one (fits : ¬ (a = Int64.minValue ∧ b = -1)) (rest : a % b ≠ 0) :
    (a / b - 1).toInt = a.toInt.tdiv b.toInt - 1 := by
  have rest : a.toInt.tmod b.toInt ≠ 0 := mt mod_eq_zero_iff.mpr rest
  have size : (a.toInt.tdiv b.toInt).natAbs = a.toInt.natAbs / b.toInt.natAbs :=
    Int.natAbs_tdiv ..
  have half : a.toInt.natAbs / b.toInt.natAbs ≤ a.toInt.natAbs / 2 := by
    obtain small | large := Nat.lt_or_ge b.toInt.natAbs 2
    · obtain zero | one : b.toInt.natAbs = 0 ∨ b.toInt.natAbs = 1 := by omega
      · rw [zero, Nat.div_zero]
        exact Nat.zero_le _
      · refine absurd ?_ rest
        rw [← Int.natAbs_eq_zero, Int.natAbs_tmod, one, Nat.mod_one]
    · exact Nat.div_le_div_left large (by decide)
  have low := a.le_toInt
  have high := a.toInt_lt
  rw [Int64.toInt_sub, toInt_div_of_ne fits, Int64.toInt_one]
  exact Int.bmod_eq_of_le (by omega) (by omega)

/-- The quotient rounded down is exact where it has 64 bits. -/
theorem floorQuotient_eq (hb : b ≠ 0) : floorQuotient a b = narrow (a.toInt.fdiv b.toInt) := by
  have divisor : b.toInt ≠ 0 := fun zero => hb (Int64.toInt_inj.mp zero)
  by_cases least : a = Int64.minValue ∧ b = -1
  · obtain ⟨rfl, rfl⟩ := least
    rfl
  · rw [floorQuotient, if_neg hb, divided_of_ne hb, if_neg least]
    change Except.ok _ = _
    simp only [ne_eq, decide_eq_decide, neg_iff]
    split
    · next corrected =>
      rw [fdiv_eq_tdiv_sub_one divisor (mt mod_eq_zero_iff.mpr corrected.1) corrected.2,
        ← toInt_div_sub_one least corrected.1, narrow_toInt]
    · next exact =>
      rw [fdiv_eq_tdiv_of fun rest => not_not.mp fun differ =>
        exact ⟨mt mod_eq_zero_iff.mp rest, differ⟩, ← toInt_div_of_ne least, narrow_toInt]

/-- Numbers with different signs have a sum of 64 bits. -/
theorem toInt_mod_add (differ : ¬ ((a % b).toInt < 0 ↔ b.toInt < 0)) :
    (a % b + b).toInt = a.toInt.tmod b.toInt + b.toInt := by
  have low := b.le_toInt
  have high := b.toInt_lt
  have low' := (a % b).le_toInt
  have high' := (a % b).toInt_lt
  rw [Int64.toInt_add, ← Int64.toInt_mod]
  exact Int.bmod_eq_of_le (by omega) (by omega)

/-- The remainder of the quotient rounded down is exact, except that one quotient is refused. -/
theorem floorRemainder_eq (hb : b ≠ 0) :
    floorRemainder a b = if a = Int64.minValue ∧ b = -1 then .error .overflow
      else narrow (a.toInt.fmod b.toInt) := by
  have divisor : b.toInt ≠ 0 := fun zero => hb (Int64.toInt_inj.mp zero)
  rw [floorRemainder, if_neg hb, divided_of_ne hb]
  split
  · rfl
  · change Except.ok _ = _
    simp only [ne_eq, decide_eq_decide, neg_iff]
    split
    · next corrected =>
      obtain ⟨rest, differ⟩ := corrected
      have moved := toInt_mod_add differ
      rw [Int64.toInt_mod, tmod_neg_iff (mt mod_eq_zero_iff.mpr rest)] at differ
      rw [Int.fmod_def, fdiv_eq_tdiv_sub_one divisor (mt mod_eq_zero_iff.mpr rest) differ,
        Int.mul_sub, Int.mul_one, ← sub_add, ← Int.tmod_def, ← moved, narrow_toInt]
    · next exact =>
      rw [Int.fmod_def, fdiv_eq_tdiv_of fun rest => ?_, ← Int.tmod_def, ← Int64.toInt_mod,
        narrow_toInt]
      rw [← tmod_neg_iff rest, ← Int64.toInt_mod]
      exact not_not.mp fun differ => exact ⟨mt mod_eq_zero_iff.mp rest, differ⟩

/-- By fewer places than it has bits, a word is moved to the right as its integer is. -/
theorem toInt_shiftRight (low : 0 ≤ b.toInt) (high : b.toInt < 64) :
    (a >>> b).toInt = a.toInt / (2 ^ b.toInt.toNat : Nat) := by
  have places : b.toBitVec.smod 64 = b.toBitVec := by
    refine BitVec.eq_of_toInt_eq (BitVec.toInt_smod.trans ?_)
    rw [Int.fmod_eq_emod_of_nonneg _ (by decide)]
    exact Int.emod_eq_of_lt low high
  have number : b.toBitVec.toNat = b.toInt.toNat := by
    have := BitVec.toInt_eq_toNat_cond b.toBitVec
    have := b.toBitVec.isLt
    change 0 ≤ b.toBitVec.toInt at low
    change _ = b.toBitVec.toInt.toNat
    omega
  change ((a >>> b).toBitVec).toInt = _
  rw [Int64.toBitVec_shiftRight, places, BitVec.sshiftRight', number, BitVec.toInt_sshiftRight,
    Int.shiftRight_eq_div_pow]
  rfl

end Words

end Arithmetic

end SortTrace
