import SortTrace.Proofs.Slices.Positions
import SortTrace.Value.Compare
import SortTrace.Value.Subscript

/-!
# Ranges

A range holds its first number, its limit and its step only, and computes from these what it is
asked for. It answers as the list of its terms would: the closed forms for its length, its items and
its members agree with the terms, and so do equality of two ranges and the truth of one
(`Span.range_exact`). Two 64-bit integers have fewer than `2 ^ 64` terms between them.

A subscript is itself a 64-bit integer, and the length it is measured against is one too. So a range
of fewer than `2 ^ 63` terms has each of them at the two subscripts that denote it, and a longer one
has no subscript at all (`Span.range_subscripts`).
-/

namespace SortTrace

/-! ## Closed forms -/

namespace Progression

variable {p : Progression}

@[simp] theorem term_zero (p : Progression) : p.term 0 = p.start := by
  simp [term]

/-- The remainder and the quotient of the distance from the start find the terms. -/
theorem contains_iff (hs : p.step ≠ 0) (x : Int) :
    p.contains x ↔ ∃ k < p.length, p.term k = x := by
  have term_iff (k : Nat) : p.term k = x ↔ x - p.start = p.step * k := by
    rw [term]
    omega
  have quotient {k : Int} (distance : x - p.start = p.step * k) :
      Int.tdiv (x - p.start) p.step = k := by
    rw [distance, Int.mul_tdiv_cancel_left k hs]
  simp only [contains, Bool.and_eq_true, bne_iff_ne, beq_iff_eq, decide_eq_true_iff]
  constructor
  · rintro ⟨⟨⟨-, whole⟩, ahead⟩, inside⟩
    obtain ⟨k, distance⟩ := Int.dvd_of_emod_eq_zero whole
    rw [quotient distance] at ahead inside
    obtain ⟨k, rfl⟩ := Int.eq_ofNat_of_zero_le ahead
    exact ⟨k, Int.ofNat_lt.mp inside, (term_iff k).mpr distance⟩
  · rintro ⟨k, inside, term⟩
    have distance := (term_iff k).mp term
    rw [quotient distance, distance]
    exact ⟨⟨⟨hs, Int.mul_emod_right ..⟩, Int.natCast_nonneg k⟩, Int.ofNat_lt.mpr inside⟩

@[simp] theorem length_terms (p : Progression) : p.terms.length = p.length := by
  simp [terms]

theorem getElem?_terms {k : Nat} (hk : k < p.length) : p.terms[k]? = some (p.term k) := by
  simp [terms, hk]

/-- Each step leads at least one number on. -/
theorem le_distance {k : Nat} (hs : p.step ≠ 0) (hk : k < p.length) :
    k < (p.stop - p.start).natAbs := by
  have between := term_bounds hs hk
  have steps : k ≤ (p.term k - p.start).natAbs := by
    rw [term, add_sub_cancel_left, Int.natAbs_mul, Int.natAbs_natCast]
    exact Nat.le_mul_of_pos_left k (Int.natAbs_pos.mpr hs)
  omega

end Progression

namespace Span

variable {s t : Span}

/-- A range has a 64-bit number of terms. -/
theorem length_lt (hs : s.step ≠ 0) : s.length < 2 ^ 64 := by
  by_contra long
  have inside : 2 ^ 64 - 1 < s.progression.length :=
    Nat.lt_of_lt_of_le (by omega) (Nat.le_of_not_lt long)
  have far := Progression.le_distance (step_ne_zero hs) inside
  rw [start_progression, stop_progression] at far
  have := s.start.le_toInt
  have := s.start.toInt_lt
  have := s.stop.le_toInt
  have := s.stop.toInt_lt
  omega

/-- Two ranges have the same terms if they agree in what counts of them: in their lengths, in the
first term if there is one and in the step if there is a second one. -/
theorem sameItems_iff_terms (s t : Span) :
    s.sameItems t ↔ s.progression.terms = t.progression.terms := by
  simp only [sameItems, Bool.and_eq_true, Bool.or_eq_true, beq_iff_eq]
  constructor
  · rintro ⟨length, rest⟩
    have length : s.progression.length = t.progression.length := length
    rw [Progression.terms, Progression.terms, ← length]
    refine List.map_congr_left fun k hk => ?_
    have inside : k < s.length := List.mem_range.mp hk
    obtain empty | ⟨start, one | step⟩ := rest
    · omega
    · obtain rfl : k = 0 := by omega
      simp [start]
    · simp [Progression.term, start, step]
  · intro same
    have length := congrArg List.length same
    rw [Progression.length_terms, Progression.length_terms] at length
    change s.length = t.length at length
    have term {k : Nat} (hk : k < s.length) : s.progression.term k = t.progression.term k := by
      have item := congrArg (·[k]?) same
      simpa only [Progression.getElem?_terms (p := s.progression) hk,
        Progression.getElem?_terms (p := t.progression) (length ▸ hk), Option.some_inj] using item
    refine ⟨length, or_iff_not_imp_left.mpr fun some => ?_⟩
    have first := term (k := 0) (by omega)
    rw [Progression.term_zero, Progression.term_zero] at first
    refine ⟨Int64.toInt_inj.mp first, or_iff_not_imp_left.mpr fun more => ?_⟩
    have second := term (k := 1) (by omega)
    rw [Progression.term_succ, Progression.term_succ, Progression.term_zero, Progression.term_zero,
      first] at second
    exact Int64.toInt_inj.mp (Int.add_left_cancel second)

end Span

/-! ## Ranges as values -/

namespace Value

variable {s : Span} {h : Heap} {v : Value}

theorem equal_int_iff (n : Int64) (hv : ∀ x, v ≠ float x) :
    equal h (int n) v ↔ v.asInt? = some n := by
  cases v with
  | float x => exact absurd rfl (hv x)
  | _ => simp [equal, equalWith, equalNumbers, asInt?, asFloat?, eq_comm (a := n)]

theorem wholeNumber?_eq_asInt? (hv : ∀ x, v ≠ float x) : v.wholeNumber? = v.asInt? := by
  cases v with
  | float x => exact absurd rfl (hv x)
  | _ => rfl

theorem contains_range (hs : s.step ≠ 0) (hv : ∀ x, v ≠ float x) :
    ∃ b, contains h (range s) v = .ok b ∧
      (b ↔ ∃ k < s.length, equal h (int (s.item k)) v) := by
  refine ⟨_, rfl, ?_⟩
  simp only [equal_int_iff _ hv, wholeNumber?_eq_asInt? hv, Option.any_eq_true, Span.contains,
    Progression.contains_iff (Span.step_ne_zero hs)]
  constructor
  · rintro ⟨n, number, k, inside, term⟩
    refine ⟨k, inside, number.trans (congrArg some ?_)⟩
    rw [← Int64.toInt_inj, Span.toInt_item hs inside, term]
  · rintro ⟨k, inside, number⟩
    exact ⟨s.item k, number, k, inside, (Span.toInt_item hs inside).symm⟩

theorem equal_range (s t : Span) : equal h (range s) (range t) = s.sameItems t := by
  simp [equal, equalWith]

theorem isTrue_range (hs : s.step ≠ 0) :
    (range s).isTrue h ↔ ∃ k, s.progression.Before (s.progression.term k) := by
  have counted : (range s).isTrue h ↔ s.length ≠ 0 := bne_iff_ne
  simp only [counted, ← Progression.lt_length_iff (Span.step_ne_zero hs)]
  exact ⟨fun some => ⟨0, Nat.pos_of_ne_zero some⟩, fun ⟨_, inside⟩ => Nat.ne_zero_of_lt inside⟩

theorem item_range {i : Int64} (hv : v.asInt? = some i) :
    item h (range s) v = match position? i s.length with
      | some k => .ok (.int (s.item k))
      | .none => .error (.indexOutOfRange "range object") := by
  cases found : position? i s.length <;> simp only [item, hv, found]

end Value

/-- A range answers as its terms do. Its length is the number of numbers from the start on, step by
step, that lie before the stop, or after it if the step is negative, and has 64 bits; the item at a
position is the term there, which has 64 bits too. A value that is not a double is a member if it
equals an item, two ranges are equal if they have the same terms, and a range counts as true if it
has a term. -/
theorem Span.range_exact (h : Heap) (s : Span) (hs : s.step ≠ 0) :
    (∀ k, k < s.length ↔ s.progression.Before (s.progression.term k)) ∧
    s.length < 2 ^ 64 ∧
    (∀ k < s.length, (s.item k).toInt = s.progression.term k) ∧
    (∀ v : Value, (∀ x, v ≠ .float x) → ∃ b, Value.contains h (.range s) v = .ok b ∧
      (b ↔ ∃ k < s.length, Value.equal h (.int (s.item k)) v)) ∧
    (∀ t : Span,
      Value.equal h (.range s) (.range t) ↔ s.progression.terms = t.progression.terms) ∧
    ((Value.range s).isTrue h ↔ ∃ k, s.progression.Before (s.progression.term k)) := by
  refine ⟨Progression.lt_length_iff (step_ne_zero hs), length_lt hs, fun k hk => toInt_item hs hk,
    fun v hv => Value.contains_range hs hv, fun t => ?_, Value.isTrue_range hs⟩
  rw [Value.equal_range, sameItems_iff_terms]

/-- The range down from the largest integer has `2 ^ 64 - 1` terms; the smallest integer, its limit,
is not one of them. -/
theorem Span.range_exact_down :
    let s : Span := ⟨Int64.maxValue, Int64.minValue, -1⟩
    s.step ≠ 0 ∧ s.length = 2 ^ 64 - 1 ∧ (s.item (2 ^ 64 - 2)).toInt = -2 ^ 63 + 1 ∧
      (¬ ∃ k < s.length, Value.equal .empty (.int (s.item k)) (.int Int64.minValue)) ∧
      (Value.range s).isTrue .empty := by
  intro s
  have hs : s.step ≠ 0 := by decide
  obtain ⟨-, -, items, members, -, truth⟩ := range_exact .empty s hs
  have length : s.length = 2 ^ 64 - 1 := by decide
  refine ⟨hs, length, ?_, ?_, truth.mpr ⟨0, .inr (by decide)⟩⟩
  · rw [items (2 ^ 64 - 2) (by rw [length]; decide)]
    decide
  · obtain ⟨b, contains, member⟩ := members (.int Int64.minValue) (fun _ => Value.noConfusion)
    obtain rfl := Except.ok.inj contains
    exact fun item => absurd (member.mpr item) (by decide)

/-- A range of fewer than `2 ^ 63` terms has at a subscript the term that the subscript counts to
from the start or, if it is negative, from the end, and refuses a subscript that counts to none. The
length of a longer range does not fit in a subscript, and it refuses every one: each that is not
negative, and each that a count from the end keeps in 64 bits. -/
theorem Span.range_subscripts (h : Heap) (s : Span) (hs : s.step ≠ 0) {v : Value} {i : Int64}
    (hv : v.asInt? = some i) :
    (∀ k, k < s.length ↔ s.progression.Before (s.progression.term k)) ∧
    (s.length < 2 ^ 63 →
      (∀ k < s.length, i.toInt = k ∨ i.toInt = k - s.length → ∃ n : Int64,
        n.toInt = s.progression.term k ∧ Value.item h (.range s) v = .ok (.int n)) ∧
      (i.toInt < -s.length ∨ s.length ≤ i.toInt →
        Value.item h (.range s) v = .error (.indexOutOfRange "range object"))) ∧
    (2 ^ 63 ≤ s.length → 0 ≤ i.toInt ∨ 2 ^ 63 ≤ i.toInt + s.length →
      Value.item h (.range s) v = .error (.indexOutOfRange "range object")) := by
  rw [Value.item_range hv]
  have length_iff := Progression.lt_length_iff (step_ne_zero hs)
  refine ⟨length_iff, fun hl => ⟨?_, ?_⟩, fun hl _ => ?_⟩
  · intro k inside counted
    rw [(position?_eq_some_iff hl).mpr ⟨inside, counted⟩]
    exact ⟨s.item k, toInt_item hs inside, rfl⟩
  · intro outside
    rw [(position?_eq_none_iff hl).mpr outside]
  · have long : positionLimit ≤ s.length := hl
    rw [position?, if_pos long]

/-- The last of `2 ^ 63 - 1` terms is found from the end. -/
theorem Span.range_subscripts_last :
    let s : Span := ⟨0, Int64.maxValue, 1⟩
    s.step ≠ 0 ∧ Value.asInt? (.int (-1)) = some (-1) ∧ s.length = 2 ^ 63 - 1 ∧
      ∃ n : Int64, n.toInt = 2 ^ 63 - 2 ∧
        Value.item .empty (.range s) (.int (-1)) = .ok (.int n) := by
  intro s
  have hs : s.step ≠ 0 := by decide
  have hv : Value.asInt? (.int (-1)) = some (-1) := rfl
  have length : s.length = 2 ^ 63 - 1 := by decide
  obtain ⟨-, short, -⟩ := range_subscripts .empty s hs hv
  have last := (short (by rw [length]; decide)).1 (2 ^ 63 - 2)
  rw [length] at last
  obtain ⟨n, term, item⟩ := last (by decide) (.inr (by decide))
  exact ⟨hs, hv, length, n, term.trans (by decide), item⟩

/-- A range of `2 ^ 64 - 1` terms has a first term, and refuses the subscript of it. -/
theorem Span.wide_range_refuses_zero :
    let s : Span := ⟨Int64.minValue, Int64.maxValue, 1⟩
    s.step ≠ 0 ∧ s.length = 2 ^ 64 - 1 ∧ s.item 0 = Int64.minValue ∧
      Value.item .empty (.range s) (.int 0) = .error (.indexOutOfRange "range object") := by
  intro s
  have long : positionLimit ≤ s.length := by decide
  refine ⟨by decide, by decide, by decide, ?_⟩
  rw [Value.item_range rfl, position?, if_pos long]

end SortTrace
