import Mathlib.Algebra.Order.Ring.Int
import Mathlib.Data.List.Nodup
import SortTrace.Value.Arithmetic
import SortTrace.Value.Progression

/-!
# The positions of a slice

A slice selects the terms of a progression that lie before its stop, or after it if the step is
negative (`Progression.lt_length_iff`). The bounds of the progression are those of the slice,
counted from the start of the sequence and clamped to it (`Slice.Resolves`), so all of its terms are
positions in the sequence, each of them once. A subscript denotes one position, counted from the
start or from the end (`position?_eq_some_iff`).

A loop over 64-bit integers that stops where an addition would overflow finds the same positions
(`Slice.map_walk`): an addition that overflows would have led behind the stop.
-/

namespace SortTrace

/-! ## Terms of a progression -/

namespace Progression

variable {p : Progression}

/-- A number that lies before the stop, or after it if the step is negative. -/
def Before (p : Progression) (x : Int) : Prop :=
  (0 < p.step ∧ x < p.stop) ∨ (p.step < 0 ∧ p.stop < x)

/-- A quotient rounded up counts the multiples below a distance. -/
theorem lt_ceilQuotient_iff {d step : Int} (hs : 0 < step) (k : Nat) :
    k < (Int.fdiv (d + step - 1) step).toNat ↔ step * k < d := by
  rw [Int.fdiv_eq_ediv_of_nonneg _ hs.le, Int.lt_toNat, ← Int.add_one_le_iff,
    Int.le_ediv_iff_mul_le hs, add_one_mul, Int.mul_comm]
  omega

/-- Exactly the terms before the stop count. -/
theorem lt_length_iff (hs : p.step ≠ 0) (k : Nat) : k < p.length ↔ p.Before (p.term k) := by
  rw [length, Before, term]
  split
  · next up =>
    rw [lt_ceilQuotient_iff (d := p.stop - p.start) up k]
    omega
  · next up =>
    have down : p.step < 0 := by omega
    have distance : p.start - p.stop - p.step - 1 = (p.start - p.stop) + -p.step - 1 := by omega
    rw [if_pos down, distance, lt_ceilQuotient_iff (by omega) k, Int.neg_mul]
    omega

theorem term_succ (p : Progression) (k : Nat) : p.term (k + 1) = p.term k + p.step := by
  rw [term, term, Int.natCast_add, Int.mul_add, Int.natCast_one, Int.mul_one, Int.add_assoc]

/-- The terms go from the start towards the stop and do not reach it. -/
theorem term_bounds {k : Nat} (hs : p.step ≠ 0) (hk : k < p.length) :
    (p.start ≤ p.term k ∧ p.term k < p.stop) ∨ (p.stop < p.term k ∧ p.term k ≤ p.start) := by
  obtain ⟨up, before⟩ | ⟨down, after⟩ := (lt_length_iff hs k).mp hk
  · have ahead : 0 ≤ p.step * k := Int.mul_nonneg up.le (Int.natCast_nonneg k)
    rw [term] at before ⊢
    omega
  · have behind : p.step * k ≤ 0 :=
      Int.mul_nonpos_of_nonpos_of_nonneg down.le (Int.natCast_nonneg k)
    rw [term] at after ⊢
    omega

theorem term_injective (hs : p.step ≠ 0) : Function.Injective p.term := by
  intro i j same
  have same := Int.add_left_cancel same
  exact Int.ofNat_inj.mp (Int.eq_of_mul_eq_mul_left hs same)

end Progression

/-! ## Subscripts -/

/-- In a sequence that 64-bit integers can index, a subscript denotes the position it counts to from
the start or, if it is negative, from the end. -/
theorem position?_eq_some_iff {i : Int64} {length k : Nat} (hl : length < positionLimit) :
    position? i length = some k ↔ k < length ∧ (i.toInt = k ∨ i.toInt = k - length) := by
  rw [position?, if_neg (Nat.not_le.mpr hl)]
  dsimp only
  rw [Option.ite_none_right_eq_some, Option.some_inj]
  split <;> omega

theorem position?_eq_none_iff {i : Int64} {length : Nat} (hl : length < positionLimit) :
    position? i length = none ↔ i.toInt < -length ∨ length ≤ i.toInt := by
  rw [position?, if_neg (Nat.not_le.mpr hl)]
  dsimp only
  rw [ite_eq_right_iff, imp_iff_not (Option.some_ne_none _)]
  split <;> omega

/-! ## Bounds of a slice -/

namespace Slice

variable {s : Slice} {length : Nat}

/-- What a bound of a slice stands for: the given number if it is absent, else the number that is
counted from the start of the sequence, or from its end if it is negative, and then clamped. -/
def Resolves (length : Nat) (low high standard : Int) : Option Int64 → Int → Prop
  | none, x => x = standard
  | some i, x =>
    let counted := if i.toInt < 0 then i.toInt + length else i.toInt
    (low ≤ counted ∧ counted ≤ high ∧ x = counted) ∨ (counted < low ∧ x = low) ∨
      (high < counted ∧ x = high)

theorem resolves_clamp {low high standard : Int} (h : low ≤ high) (bound : Option Int64) :
    Resolves length low high standard bound
      ((bound.map (clamp length low high)).getD standard) := by
  cases bound with
  | none => rfl
  | some i =>
    simp only [Resolves, Option.map_some, Option.getD_some, clamp]
    omega

theorem Resolves.bounds {low high standard x : Int} {bound : Option Int64}
    (hx : Resolves length low high standard bound x) (hl : low ≤ standard) (hh : standard ≤ high) :
    low ≤ x ∧ x ≤ high := by
  cases bound with
  | none =>
    cases hx
    exact ⟨hl, hh⟩
  | some i =>
    simp only [Resolves] at hx
    omega

theorem progression_of_pos (hs : 0 < s.stride) (length : Nat) :
    Resolves length 0 length 0 s.lower (s.progression length).start ∧
      Resolves length 0 length length s.upper (s.progression length).stop := by
  rw [progression, if_pos hs]
  exact ⟨resolves_clamp (Int.natCast_nonneg length) _, resolves_clamp (Int.natCast_nonneg length) _⟩

theorem progression_of_neg (hs : s.stride < 0) (length : Nat) :
    Resolves length (-1) (length - 1) (length - 1) s.lower (s.progression length).start ∧
      Resolves length (-1) (length - 1) (-1) s.upper (s.progression length).stop := by
  rw [progression, if_neg (by omega)]
  exact ⟨resolves_clamp (by omega) _, resolves_clamp (by omega) _⟩

@[simp] theorem step_progression (s : Slice) (length : Nat) :
    (s.progression length).step = s.stride := by
  rw [progression]
  split <;> rfl

/-! ## Positions -/

/-- The selected terms are positions in the sequence. -/
theorem term_mem (hs : s.stride ≠ 0) {k : Nat} (hk : k < (s.progression length).length) :
    0 ≤ (s.progression length).term k ∧ (s.progression length).term k < length := by
  have between := Progression.term_bounds (by rwa [step_progression]) hk
  have before := (Progression.lt_length_iff (by rwa [step_progression]) k).mp hk
  rw [Progression.Before, step_progression] at before
  obtain up | down := Int.lt_or_gt_of_ne hs.symm
  · obtain ⟨start, stop⟩ := progression_of_pos up length
    have := start.bounds le_rfl (Int.natCast_nonneg length)
    have := stop.bounds (Int.natCast_nonneg length) le_rfl
    omega
  · obtain ⟨start, stop⟩ := progression_of_neg down length
    have := start.bounds (by omega) le_rfl
    have := stop.bounds le_rfl (by omega)
    omega

theorem positions_eq (s : Slice) (length : Nat) :
    s.positions length
      = (List.range (s.progression length).length).map fun k =>
          ((s.progression length).term k).toNat := by
  rw [positions, Progression.terms, List.map_map]
  rfl

theorem lt_of_mem_positions (hs : s.stride ≠ 0) {n : Nat} (hn : n ∈ s.positions length) :
    n < length := by
  rw [positions_eq, List.mem_map] at hn
  obtain ⟨k, hk, rfl⟩ := hn
  have := term_mem hs (List.mem_range.mp hk)
  omega

theorem nodup_positions (hs : s.stride ≠ 0) (length : Nat) : (s.positions length).Nodup := by
  rw [positions_eq]
  refine List.Nodup.map_on (fun i hi j hj same => ?_) List.nodup_range
  have := term_mem hs (List.mem_range.mp hi)
  have := term_mem hs (List.mem_range.mp hj)
  refine Progression.term_injective (p := s.progression length) (by rwa [step_progression]) ?_
  omega

theorem positions_cast (hs : s.stride ≠ 0) (length : Nat) :
    (s.positions length).map Int.ofNat = (s.progression length).terms := by
  rw [positions, List.map_map]
  refine (List.map_congr_left fun x hx => ?_).trans (List.map_id _)
  obtain ⟨k, hk, rfl⟩ := List.mem_map.mp hx
  exact Int.toNat_of_nonneg (term_mem hs (List.mem_range.mp hk)).1

end Slice

/-! ## Steps in 64 bits -/

namespace Arithmetic

theorem toInt_of_narrow {n : Int} {m : Int64} (h : narrow n = .ok m) : m.toInt = n := by
  rw [narrow] at h
  split at h
  · next same => rwa [← Except.ok.inj h]
  · cases h

theorem narrow_toInt (m : Int64) : narrow m.toInt = .ok m := by
  rw [narrow, Int64.ofInt_toInt, if_pos rfl]

end Arithmetic

namespace Span

variable {s : Span}

/-- Step from a number towards the stop, as long as the next number has 64 bits. -/
def walk (s : Span) (i : Int64) : List Int64 :=
  if (0 < s.step ∧ i < s.stop) ∨ (s.step < 0 ∧ s.stop < i) then
    i :: match _h : Arithmetic.narrow (i.toInt + s.step.toInt) with
      | .ok next => walk s next
      | .error _ => []
  else []
termination_by (if 0 < s.step then s.stop.toInt - i.toInt else i.toInt - s.stop.toInt).toNat
decreasing_by
  have next := Arithmetic.toInt_of_narrow _h
  simp only [Int64.lt_iff_toInt_lt, Int64.toInt_zero] at *
  split <;> omega

theorem before_iff (i : Int64) :
    ((0 < s.step ∧ i < s.stop) ∨ (s.step < 0 ∧ s.stop < i)) ↔ s.progression.Before i.toInt := by
  rw [Progression.Before, progression, Int64.lt_iff_toInt_lt, Int64.lt_iff_toInt_lt,
    Int64.lt_iff_toInt_lt, Int64.lt_iff_toInt_lt, Int64.toInt_zero]

@[simp] theorem start_progression (s : Span) : s.progression.start = s.start.toInt := rfl

@[simp] theorem stop_progression (s : Span) : s.progression.stop = s.stop.toInt := rfl

@[simp] theorem step_progression (s : Span) : s.progression.step = s.step.toInt := rfl

theorem step_ne_zero (hs : s.step ≠ 0) : s.progression.step ≠ 0 :=
  fun zero => hs (Int64.toInt_inj.mp zero)

/-- The terms of a progression of 64-bit integers have 64 bits. -/
theorem toInt_item (hs : s.step ≠ 0) {k : Nat} (hk : k < s.length) :
    (s.item k).toInt = s.progression.term k := by
  have between := Progression.term_bounds (step_ne_zero hs) hk
  rw [start_progression, stop_progression] at between
  have := s.start.le_toInt
  have := s.start.toInt_lt
  have := s.stop.le_toInt
  have := s.stop.toInt_lt
  refine Int64.toInt_ofInt_of_le ?_ ?_ <;> omega

/-- From a term on, the walk goes through the terms that are left. -/
theorem walk_term (hs : s.step ≠ 0) {i : Int64} {k : Nat} (hi : i.toInt = s.progression.term k) :
    s.walk i = (List.range' k (s.length - k)).map s.item := by
  have inside_iff : k < s.length ↔ s.progression.Before i.toInt := by
    rw [hi]
    exact Progression.lt_length_iff (step_ne_zero hs) k
  induction left : s.length - k generalizing i k with
  | zero =>
    rw [walk, if_neg]
    · rfl
    · rw [before_iff, ← inside_iff]
      omega
  | succ rest ih =>
    have inside : k < s.length := by omega
    have item : s.item k = i := by rw [Span.item, ← hi, Int64.ofInt_toInt]
    have next := s.progression.term_succ k
    rw [← hi, step_progression] at next
    rw [walk, if_pos ((before_iff i).mpr (inside_iff.mp inside)), List.range'_succ, List.map_cons,
      item]
    congr 1
    split
    · next j fits =>
      have hj := (Arithmetic.toInt_of_narrow fits).trans next.symm
      refine ih hj ?_ (by omega)
      rw [hj]
      exact Progression.lt_length_iff (step_ne_zero hs) (k + 1)
    · next overflows =>
      -- a term that is left would have 64 bits
      have last : rest = 0 := by
        by_contra more
        have fits := toInt_item hs (k := k + 1) (by omega)
        rw [← next, ← fits, Arithmetic.narrow_toInt] at overflows
        cases overflows
      rw [last]
      rfl

/-- A walk goes through all terms. -/
theorem walk_start (hs : s.step ≠ 0) : s.walk s.start = s.items := by
  rw [walk_term hs (k := 0) (by simp [Progression.term]), items, List.range_eq_range',
    Nat.sub_zero]

end Span

namespace Slice

variable {s : Slice} {length : Nat}

/-- A bound counted from the start of a sequence and clamped, in 64 bits. -/
def adjust (length low high bound : Int64) : Int64 :=
  max low (min (if bound < 0 then bound + length else bound) high)

/-- The bounds of a slice and its step, in 64 bits. -/
def span (s : Slice) (length : Int64) : Span :=
  let step := s.step.getD 1
  if 0 < step then
    ⟨(s.lower.map (adjust length 0 length)).getD 0,
      (s.upper.map (adjust length 0 length)).getD length, step⟩
  else
    ⟨(s.lower.map (adjust length (-1) (length - 1))).getD (length - 1),
      (s.upper.map (adjust length (-1) (length - 1))).getD (-1), step⟩

theorem stride_eq (s : Slice) : s.stride = (s.step.getD 1).toInt := by
  rw [stride]
  cases s.step <;> rfl

/-- A negative bound to which a length is added keeps 64 bits. -/
theorem toInt_add_length (hl : length < positionLimit) {bound : Int64} (hb : bound < 0) :
    (bound + Int64.ofNat length).toInt = bound.toInt + length := by
  rw [positionLimit] at hl
  rw [Int64.lt_iff_toInt_lt, Int64.toInt_zero] at hb
  have := bound.le_toInt
  rw [Int64.toInt_add, Int64.toInt_ofNat_of_lt (by omega)]
  exact Int.bmod_eq_of_le (by omega) (by omega)

/-- So does the last position. -/
theorem toInt_length_sub_one (hl : length < positionLimit) :
    (Int64.ofNat length - 1).toInt = (length : Int) - 1 := by
  rw [positionLimit] at hl
  rw [Int64.toInt_sub, Int64.toInt_ofNat_of_lt (by omega), Int64.toInt_one]
  exact Int.bmod_eq_of_le (by omega) (by omega)

theorem toInt_max (a b : Int64) : (max a b).toInt = max a.toInt b.toInt := by
  change (if a ≤ b then b else a).toInt = _
  simp only [Int.max_def, apply_ite Int64.toInt, Int64.le_iff_toInt_le]

theorem toInt_min (a b : Int64) : (min a b).toInt = min a.toInt b.toInt := by
  change (if a ≤ b then a else b).toInt = _
  simp only [Int.min_def, apply_ite Int64.toInt, Int64.le_iff_toInt_le]

theorem toInt_adjust (hl : length < positionLimit) (low high bound : Int64) :
    (adjust (Int64.ofNat length) low high bound).toInt
      = clamp length low.toInt high.toInt bound := by
  have negative : bound < 0 ↔ bound.toInt < 0 := Int64.lt_iff_toInt_lt
  rw [adjust, clamp, toInt_max, toInt_min]
  split
  · next hb => rw [toInt_add_length hl hb, if_pos (negative.mp hb)]
  · next hb => rw [if_neg (hb ∘ negative.mpr)]

/-- The bounds are the same in 64 bits as in integers of any size. -/
theorem progression_span (hl : length < positionLimit) (s : Slice) :
    (s.span (Int64.ofNat length)).progression = s.progression length := by
  have all : (Int64.ofNat length).toInt = length := Int64.toInt_ofNat_of_lt hl
  have bound (low high standard : Int64) (b : Option Int64) :
      ((b.map (adjust (Int64.ofNat length) low high)).getD standard).toInt
        = (b.map (clamp length low.toInt high.toInt)).getD standard.toInt := by
    cases b with
    | none => rfl
    | some i => exact toInt_adjust hl low high i
  have up : 0 < s.step.getD 1 ↔ 0 < s.stride := by
    rw [stride_eq, Int64.lt_iff_toInt_lt, Int64.toInt_zero]
  have first : (-1 : Int64).toInt = -1 := rfl
  rw [span, progression, stride_eq] at *
  simp only [up]
  split
  · rw [Span.progression, bound, bound, all, Int64.toInt_zero]
  · rw [Span.progression, bound, bound, toInt_length_sub_one hl, first]

/-- In a sequence that 64-bit integers can index, the loop finds the positions. -/
theorem map_walk (hs : s.stride ≠ 0) (hl : length < positionLimit) :
    ((s.span (Int64.ofNat length)).walk (s.span (Int64.ofNat length)).start).map Int64.toInt
      = (s.positions length).map Int.ofNat := by
  have span := progression_span hl s
  have step : (s.span (Int64.ofNat length)).step ≠ 0 := fun zero => hs (by
    have := congrArg Progression.step span
    rw [Span.step_progression, zero, step_progression] at this
    exact this.symm)
  rw [Span.walk_start step, positions_cast hs, ← span, Span.items, List.map_map]
  exact List.map_congr_left fun k hk => Span.toInt_item step (List.mem_range.mp hk)

end Slice

end SortTrace
