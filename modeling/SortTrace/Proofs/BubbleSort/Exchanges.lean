import Mathlib.Algebra.BigOperators.Fin
import Mathlib.Data.List.Chain
import Mathlib.Order.Fin.Basic

/-!
# Exchanges of neighbours

A list is sorted by exchanging neighbours that are out of order. Every such exchange takes away
exactly one inversion (`Exchange.inversions`), so a list that came to be sorted in this way
(`Came`) took as many exchanges as it had inversions. `Settled` and `Bubbled` say which items a
bubble sort has brought to their places after some passes, and after some steps of a pass.
-/

namespace SortTrace.BubbleSort

variable {xs ys : List Int} {states : List (List Int)} {k j : Nat}

/-! ## Inversions -/

/-- The number of pairs of positions whose items are out of order. -/
def inversions (xs : List Int) : Nat :=
  Finset.card {p : Fin xs.length × Fin xs.length | p.1 < p.2 ∧ xs[p.2] < xs[p.1]}

theorem countP_eq_sum (p : Int → Bool) (xs : List Int) :
    xs.countP p = ∑ i : Fin xs.length, if p xs[i] then 1 else 0 := by
  induction xs with
  | nil => rfl
  | cons x xs ih =>
    rw [List.countP_cons, ih]
    simp only [List.length_cons, Fin.sum_univ_succ]
    exact Nat.add_comm ..

/-- The first item is in an inversion with every smaller one behind it. -/
theorem inversions_cons (x : Int) (xs : List Int) :
    inversions (x :: xs) = xs.countP (· < x) + inversions xs := by
  simp only [inversions, Finset.card_filter, Fintype.sum_prod_type, countP_eq_sum,
    decide_eq_true_eq]
  simp [Fin.sum_univ_succ, -Finset.sum_boole]

theorem inversions_append_perm {front : List Int} (h : xs.Perm ys) {n : Nat}
    (hn : inversions xs = inversions ys + n) :
    inversions (front ++ xs) = inversions (front ++ ys) + n := by
  induction front with
  | nil => exact hn
  | cons x front ih =>
    have smaller : (front ++ xs).countP (· < x) = (front ++ ys).countP (· < x) :=
      (h.append_left front).countP_eq _
    rw [List.cons_append, List.cons_append, inversions_cons, inversions_cons, ih, smaller]
    omega

theorem inversions_of_pairwise (h : xs.Pairwise (· ≤ ·)) : inversions xs = 0 := by
  induction xs with
  | nil => rfl
  | cons x xs ih =>
    obtain ⟨first, rest⟩ := List.pairwise_cons.mp h
    rw [inversions_cons, ih rest, Nat.add_zero, List.countP_eq_zero]
    intro y hy
    simpa using first y hy

/-! ## Exchanges -/

/-- The second list is the first one with two neighbours, which were out of order, exchanged. -/
def Exchange (xs ys : List Int) : Prop :=
  ∃ front a b back, b < a ∧ xs = front ++ a :: b :: back ∧ ys = front ++ b :: a :: back

namespace Exchange

theorem perm (h : Exchange xs ys) : ys.Perm xs := by
  obtain ⟨front, a, b, back, -, rfl, rfl⟩ := h
  exact (List.Perm.swap a b back).append_left front

/-- An exchange takes away the inversion of the two neighbours and no other. -/
theorem inversions (h : Exchange xs ys) : inversions xs = BubbleSort.inversions ys + 1 := by
  obtain ⟨front, a, b, back, hab, rfl, rfl⟩ := h
  refine inversions_append_perm (List.Perm.swap b a back) ?_
  have first : (b :: back).countP (· < a) = back.countP (· < a) + 1 :=
    List.countP_cons_of_pos (by simpa using hab)
  have second : (a :: back).countP (· < b) = back.countP (· < b) :=
    List.countP_cons_of_neg (by simpa using Int.le_of_lt hab)
  simp only [inversions_cons, first, second]
  omega

end Exchange

/-- The items at a position and at the next one exchanged. -/
def exchangedAt (xs : List Int) (j : Nat) (h : j + 1 < xs.length) : List Int :=
  (xs.set j xs[j + 1]).set (j + 1) xs[j]

@[simp] theorem length_exchangedAt (h : j + 1 < xs.length) :
    (exchangedAt xs j h).length = xs.length := by
  simp [exchangedAt]

theorem exchange_exchangedAt (h : j + 1 < xs.length) (hlt : xs[j + 1] < xs[j]) :
    Exchange xs (exchangedAt xs j h) := by
  have parts : xs.take j ++ xs[j] :: xs[j + 1] :: xs.drop (j + 2) = xs := by
    rw [← List.drop_eq_getElem_cons, ← List.drop_eq_getElem_cons, List.take_append_drop]
  have size : (xs.take j).length = j := List.length_take_of_le (by omega)
  refine ⟨xs.take j, xs[j], xs[j + 1], xs.drop (j + 2), hlt, parts.symm, ?_⟩
  rw [exchangedAt]
  generalize xs[j] = a, xs[j + 1] = b at parts
  generalize xs.take j = front, xs.drop (j + 2) = back at parts size
  subst parts size
  simp

/-- The list `L` came to be `xs` by exchanges, after each of which it was one of `states`. -/
inductive Came (L : List Int) : List (List Int) → List Int → Prop
  | start : Came L [] L
  | exchange {states : List (List Int)} {xs ys : List Int} :
    Came L states xs → Exchange xs ys → Came L (states ++ [ys]) ys

namespace Came

variable {L : List Int}

theorem perm (h : Came L states xs) : xs.Perm L := by
  induction h with
  | start => exact .refl L
  | exchange _ hxs ih => exact hxs.perm.trans ih

theorem states_perm (h : Came L states xs) : ∀ ys ∈ states, ys.Perm L := by
  induction h with
  | start => nofun
  | exchange hcame hxs ih =>
    intro ys hys
    rcases List.mem_append.mp hys with hys | hys
    · exact ih ys hys
    · rw [List.mem_singleton.mp hys]
      exact hxs.perm.trans hcame.perm

theorem inversions (h : Came L states xs) :
    BubbleSort.inversions L = states.length + BubbleSort.inversions xs := by
  induction h with
  | start => simp
  | exchange _ hxs ih =>
    rw [ih, hxs.inversions, List.length_append, List.length_singleton]
    omega

theorem getLast? (h : Came L states xs) : (L :: states).getLast? = some xs := by
  cases h with
  | start => rfl
  | exchange => rw [← List.cons_append, List.getLast?_concat]

theorem chain (h : Came L states xs) : (L :: states).IsChain Exchange := by
  induction h with
  | start => exact .singleton L
  | exchange hcame hxs ih =>
    rw [← List.cons_append, List.isChain_append]
    refine ⟨ih, .singleton _, fun x hx y hy => ?_⟩
    rw [hcame.getLast?] at hx
    cases hx
    cases hy
    exact hxs

end Came

/-! ## Passes -/

/-- From the position `k` on, every item is at least as great as all those before it. -/
def Settled (k : Nat) (xs : List Int) : Prop :=
  ∀ p q (_ : p < q) (_ : q < xs.length), k ≤ q → xs[p] ≤ xs[q]

theorem settled_length (xs : List Int) : Settled xs.length xs :=
  fun _ _ _ hq hk => absurd hq (Nat.not_lt.mpr hk)

theorem Settled.pairwise (h : Settled 0 xs) : xs.Pairwise (· ≤ ·) :=
  List.pairwise_iff_getElem.mpr fun p q _ hq hpq => h p q hpq hq (Nat.zero_le q)

/-- A pass over the items up to position `k` has come to position `j`: no item before it is
greater than the one there. -/
structure Bubbled (k j : Nat) (xs : List Int) : Prop where
  settled : Settled (k + 1) xs
  greatest : ∀ p (_ : p < j) (_ : j < xs.length), xs[p] ≤ xs[j]

namespace Bubbled

theorem start (h : Settled (k + 1) xs) : Bubbled k 0 xs :=
  ⟨h, fun _ hp => absurd hp (Nat.not_lt_zero _)⟩

/-- Neighbours in order are left as they are. -/
theorem keep (h : Bubbled k j xs) (hj : j + 1 < xs.length) (hle : xs[j] ≤ xs[j + 1]) :
    Bubbled k (j + 1) xs := by
  refine ⟨h.settled, fun p hp _ => ?_⟩
  rcases Nat.lt_succ_iff_lt_or_eq.mp hp with hp | rfl
  · exact (h.greatest p hp (by omega)).trans hle
  · exact hle

/-- Neighbours out of order are exchanged. -/
theorem exchanged (h : Bubbled k j xs) (hj : j + 1 < xs.length) (hjk : j < k)
    (hlt : xs[j + 1] < xs[j]) : Bubbled k (j + 1) (exchangedAt xs j hj) := by
  constructor
  · intro p q hpq hq hk
    have size : q < xs.length := by simpa using hq
    have behind (p : Nat) (hp : p < q) : xs[p] ≤ xs[q] := h.settled p q hp size hk
    have first := behind j (by omega)
    have second := behind (j + 1) (by omega)
    have other := behind p hpq
    simp only [exchangedAt, List.getElem_set]
    grind
  · intro p hp _
    have before (p : Nat) (hp : p < j) : xs[p] ≤ xs[j] := h.greatest p hp (by omega)
    simp only [exchangedAt, List.getElem_set]
    grind

/-- The pass has brought one more item to its place. -/
theorem finish (h : Bubbled k k xs) : Settled k xs := by
  intro p q hpq hq hk
  rcases Nat.eq_or_lt_of_le hk with rfl | hk
  · exact h.greatest p hpq hq
  · exact h.settled p q hpq hq hk

end Bubbled

end SortTrace.BubbleSort
