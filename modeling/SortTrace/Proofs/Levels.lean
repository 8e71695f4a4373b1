import Mathlib.Data.Finset.Prod
import Mathlib.Order.Monotone.Basic
import SortTrace.Proofs.Levels.Unfolding
import SortTrace.Value.Compare

/-!
# Levels of lists

Comparing and writing lists goes down into lists, by a number of levels that depends on how many
lists there are. With more levels than that the answers stay what they are: two lists compare alike
(`equalLists_levels`, `orderLists_levels`), and a value is written and recorded alike
(`written_levels`). So the answers do not tell how many other lists there are.

A comparison takes two lists to two other ones. Which pairs it has settled within a number of levels
is a set that grows with the levels until it stays, and of `n` lists there are `n * n` pairs
(`levels_stable`).
-/

namespace SortTrace

namespace Value

/-! ## Pairs that are settled level by level -/

/-- Pairs of places are settled level by level, and those of a level tell those of the next. If
beyond the first level there are only pairs of the first `n` places, then `n * n` levels settle all
pairs that are ever settled. -/
theorem levels_stable {n : Nat} {settled : Nat → Nat → Nat → Prop}
    (grows : ∀ k i j, settled k i j → settled (k + 1) i j)
    (next : ∀ k, settled k = settled (k + 1) → settled (k + 1) = settled (k + 2))
    (within : ∀ k i j, settled k i j → settled 0 i j ∨ i < n ∧ j < n) {k : Nat}
    (hk : n * n ≤ k) : settled k = settled (n * n) := by
  classical
  let pairs (k : Nat) : Finset (Nat × Nat) :=
    (Finset.range n ×ˢ Finset.range n).filter fun p => settled k p.1 p.2
  have later {k l : Nat} (hkl : k ≤ l) (i j : Nat) (h : settled k i j) : settled l i j := by
    induction l, hkl using Nat.le_induction with
    | base => exact h
    | succ l _ ih => exact grows l i j ih
  have more {k l : Nat} (hkl : k ≤ l) : pairs k ⊆ pairs l := fun p hp => by
    obtain ⟨inside, hp⟩ := Finset.mem_filter.mp hp
    exact Finset.mem_filter.mpr ⟨inside, later hkl _ _ hp⟩
  -- as many pairs are the same pairs, and those are all that matters
  have same {k l : Nat} (hkl : k ≤ l) (card : (pairs k).card = (pairs l).card) :
      settled k = settled l := by
    have pairs_eq : pairs k = pairs l := Finset.eq_of_subset_of_card_le (more hkl) card.ge
    funext i j
    refine propext ⟨later hkl i j, fun h => ?_⟩
    rcases within l i j h with first | ⟨hi, hj⟩
    · exact later (Nat.zero_le k) i j first
    · have mem : (i, j) ∈ pairs k := by
        rw [pairs_eq]
        exact Finset.mem_filter.mpr
          ⟨Finset.mk_mem_product (Finset.mem_range.mpr hi) (Finset.mem_range.mpr hj), h⟩
      exact (Finset.mem_filter.mp mem).2
  have few (k : Nat) : (pairs k).card ≤ n * n :=
    (Finset.card_filter_le _ _).trans_eq (by rw [Finset.card_product, Finset.card_range])
  refine (same hk (Nat.stabilises_of_monotone (fun k l hkl => Finset.card_le_card (more hkl)) few
    (fun m card => ?_) hk).symm).symm
  have eq := next m (same (Nat.le_succ m) card)
  simp only [pairs, eq]

/-! ## Equality -/

section Equality

mutual

theorem equalWith_mono {lists lists' : Nat → Nat → Bool} (hl : ∀ i j, lists i j → lists' i j) :
    ∀ v w : Value, equalWith lists v w → equalWith lists' v w
  | list i, w, h => by
    cases w with
    | list j => exact hl i j h
    | _ => exact h
  | tuple _ vs, w, h => by
    cases w with
    | tuple _ ws => exact allEqualWith_mono hl vs ws h
    | _ => exact h
  | none, w, h | bool _, w, h | int _, w, h | float _, w, h | str _, w, h | range _, w, h
  | function .., w, h | builtin _, w, h => by
    cases w <;> exact h

theorem allEqualWith_mono {lists lists' : Nat → Nat → Bool} (hl : ∀ i j, lists i j → lists' i j) :
    ∀ vs ws : List Value, allEqualWith lists vs ws → allEqualWith lists' vs ws
  | [], ws, h => by cases ws <;> exact h
  | v :: vs, [], h => h
  | v :: vs, w :: ws, h => by
    simp only [allEqualWith, Bool.and_eq_true] at h ⊢
    exact ⟨equalWith_mono hl v w h.1, allEqualWith_mono hl vs ws h.2⟩

end

variable (h : Heap)

theorem equalLists_grows (fuel i j : Nat) (he : equalLists h fuel i j) :
    equalLists h (fuel + 1) i j := by
  induction fuel generalizing i j with
  | zero =>
    have same : (i == j) = true := he
    simp [equalLists, same]
  | succ fuel ih =>
    rw [equalLists, Bool.or_eq_true, Bool.and_eq_true, List.all_eq_true] at he ⊢
    exact he.imp_right fun ⟨size, items⟩ =>
      ⟨size, fun p hp => equalWith_mono ih p.1 p.2 (items p hp)⟩

/-- Two lists compare alike with any number of levels that are enough. -/
theorem equalLists_levels {fuel : Nat} (hf : depthBound h ≤ fuel) :
    equalLists h fuel = equalLists h (depthBound h) := by
  obtain ⟨fuel, rfl⟩ : ∃ k, fuel = k + 1 := ⟨fuel - 1, by rw [depthBound] at hf; omega⟩
  let settled (k i j : Nat) : Prop := equalLists h (k + 1) i j = true
  have tells {k l : Nat} (hkl : settled k = settled l) :
      equalLists h (k + 1) = equalLists h (l + 1) := by
    funext i j
    exact Bool.eq_iff_iff.mpr (Eq.to_iff (congrFun (congrFun hkl i) j))
  refine tells (levels_stable (n := h.size) (fun k => equalLists_grows h (k + 1))
    (fun k hk => ?_) (fun k i j he => ?_) (Nat.le_of_succ_le_succ hf))
  · funext i j
    rw [equalLists, equalLists, tells hk]
  · by_cases inside : i < h.size ∧ j < h.size
    · exact .inr inside
    -- one of the two lists has no items, so there is nothing to go down into
    · have none : (h.items i).toList.zip (h.items j).toList = [] := by
        by_cases hi : i < h.size
        · rw [Heap.items_beyond (Nat.le_of_not_lt fun hj => inside ⟨hi, hj⟩)]
          exact List.zip_nil_right
        · rw [Heap.items_beyond (Nat.le_of_not_lt hi)]
          exact List.zip_nil_left
      change equalLists h (k + 1) i j = true at he
      change equalLists h 1 i j = true ∨ _
      rw [equalLists, none] at he ⊢
      exact .inl he

end Equality

/-! ## Order -/

section Order

variable {same : Value → Value → Bool} (op : String)

mutual

/-- The order of two values is that of two lists, or it does not depend on the order of lists. -/
theorem orderWith_lists : ∀ v w : Value,
    (∃ o, ∀ lists, orderWith same lists op v w = o) ∨
      ∃ i j, ∀ lists, orderWith same lists op v w = lists i j
  | list i, w => by
    cases w with
    | list j => exact .inr ⟨i, j, fun _ => rfl⟩
    | _ => exact .inl ⟨_, fun _ => rfl⟩
  | tuple _ vs, w => by
    cases w with
    | tuple _ ws => exact orderAllWith_lists vs ws
    | _ => exact .inl ⟨_, fun _ => rfl⟩
  | none, w | bool _, w | int _, w | float _, w | str _, w | range _, w | function .., w
  | builtin _, w => by
    cases w <;> exact .inl ⟨_, fun _ => rfl⟩

theorem orderAllWith_lists : ∀ vs ws : List Value,
    (∃ o, ∀ lists, orderAllWith same lists op vs ws = o) ∨
      ∃ i j, ∀ lists, orderAllWith same lists op vs ws = lists i j
  | [], ws => by cases ws <;> exact .inl ⟨_, fun _ => rfl⟩
  | v :: vs, [] => .inl ⟨_, fun _ => rfl⟩
  | v :: vs, w :: ws => by
    simp only [orderAllWith]
    split
    · exact orderAllWith_lists vs ws
    · exact orderWith_lists v w

end

variable (h : Heap)

/-- The order of two lists, given the order of the lists in them. -/
def orderInside (lists : Nat → Nat → Except Fault Ordering) (i j : Nat) :
    Except Fault Ordering :=
  orderAllWith (equal h) lists op (h.items i).toList (h.items j).toList

theorem orderInside_lists (i j : Nat) :
    (∃ o, ∀ lists, orderInside op h lists i j = o) ∨
      ∃ i' j', ∀ lists, orderInside op h lists i j = lists i' j' :=
  orderAllWith_lists op _ _

/-- The order of lists, down to a level where the order of lists is given. -/
def orderDown (lists : Nat → Nat → Except Fault Ordering) :
    Nat → Nat → Nat → Except Fault Ordering
  | 0 => lists
  | fuel + 1 => orderInside op h (orderDown lists fuel)

theorem orderLists_eq (fuel : Nat) :
    orderLists h op fuel = orderDown op h (fun _ _ => .ok .eq) fuel := by
  induction fuel with
  | zero => rfl
  | succ fuel ih =>
    funext i j
    rw [orderLists, ih]
    rfl

theorem orderDown_add (lists : Nat → Nat → Except Fault Ordering) (k l : Nat) :
    orderDown op h lists (k + l) = orderDown op h (orderDown op h lists k) l := by
  induction l with
  | zero => rfl
  | succ l ih => exact congrArg (orderInside op h) ih

/-- The order of two lists is settled above a level: it does not depend on what is below. -/
def OrderSettled (k i j : Nat) : Prop :=
  ∀ lists lists', orderDown op h lists (k + 1) i j = orderDown op h lists' (k + 1) i j

variable {op h}

theorem OrderSettled.succ {k i j : Nat} (hs : OrderSettled op h k i j) :
    OrderSettled op h (k + 1) i j := by
  intro lists lists'
  rw [Nat.add_comm k 1, Nat.add_assoc, orderDown_add, orderDown_add op h lists']
  exact hs _ _

theorem OrderSettled.of_const {i j : Nat} {o : Except Fault Ordering}
    (ho : ∀ lists, orderInside op h lists i j = o) (k : Nat) : OrderSettled op h k i j :=
  fun _ _ => (ho _).trans (ho _).symm

/-- Where two lists go down to two others, they are settled one level above these. -/
theorem OrderSettled.of_lists {i j i' j' : Nat}
    (hl : ∀ lists, orderInside op h lists i j = lists i' j') (k : Nat) :
    OrderSettled op h (k + 1) i j ↔ OrderSettled op h k i' j' := by
  have down (lists : Nat → Nat → Except Fault Ordering) :
      orderDown op h lists (k + 1 + 1) i j = orderDown op h lists (k + 1) i' j' := hl _
  simp only [OrderSettled, down]

/-- What is never settled goes on for ever, and counts as equal. -/
theorem orderDown_unsettled {i j : Nat} (hs : ∀ k, ¬ OrderSettled op h k i j)
    (o : Except Fault Ordering) (fuel : Nat) : orderDown op h (fun _ _ => o) fuel i j = o := by
  induction fuel generalizing i j with
  | zero => rfl
  | succ fuel ih =>
    rcases orderInside_lists op h i j with ⟨_, ho⟩ | ⟨i', j', hl⟩
    · exact absurd (.of_const ho 0) (hs 0)
    · refine (hl _).trans (ih fun k settled => ?_)
      exact hs (k + 1) ((OrderSettled.of_lists hl k).mpr settled)

/-- No order is settled later than after as many levels as there are pairs of lists. -/
theorem orderSettled_stable {k : Nat} (hk : h.size * h.size ≤ k) :
    OrderSettled op h k = OrderSettled op h (h.size * h.size) := by
  refine levels_stable (fun _ _ _ hs => hs.succ) (fun k hk => ?_) (fun k i j hs => ?_) hk
  · funext i j
    rcases orderInside_lists op h i j with ⟨_, ho⟩ | ⟨i', j', hl⟩
    · exact propext (iff_of_true (.of_const ho _) (.of_const ho _))
    · rw [eq_iff_iff, OrderSettled.of_lists hl, OrderSettled.of_lists hl, hk]
  · by_cases inside : i < h.size ∧ j < h.size
    · exact .inr inside
    · refine .inl fun lists lists' => ?_
      simp only [orderDown, orderInside]
      by_cases hi : i < h.size
      · rw [Heap.items_beyond (Nat.le_of_not_lt fun hj => inside ⟨hi, hj⟩)]
        cases (h.items i).toList <;> rfl
      · rw [Heap.items_beyond (Nat.le_of_not_lt hi)]
        cases (h.items j).toList <;> rfl

/-- Two lists have the same order with any number of levels that are enough. -/
theorem orderLists_levels {fuel : Nat} (hf : depthBound h ≤ fuel) :
    orderLists h op fuel = orderLists h op (depthBound h) := by
  funext i j
  rw [orderLists_eq, orderLists_eq]
  by_cases hs : OrderSettled op h (h.size * h.size) i j
  · obtain ⟨more, rfl⟩ := Nat.exists_eq_add_of_le' hf
    rw [orderDown_add]
    exact hs _ _
  · have never (k : Nat) : ¬ OrderSettled op h k i j := fun settled => hs <| by
      rw [← orderSettled_stable (Nat.le_add_left _ k)]
      induction h.size * h.size with
      | zero => exact settled
      | succ m ih => exact ih.succ
    rw [orderDown_unsettled never, orderDown_unsettled never]

end Order

/-! ## Written forms and documents -/

section Written

variable {h : Heap} {v : Value} {levels : Nat}

/-- A value is written and recorded alike with any number of levels that are enough. -/
theorem written_levels (hl : h.size < levels) :
    v.textWith (listText h levels []) = v.written h
      ∧ v.jsonWith (listJson h levels []) = v.toJson h := by
  obtain ⟨u, hu⟩ := exists_unfolding v (.nil h v)
  have follows (k : Nat) (hk : h.size < k) :
      v.textWith (listText h k []) = u.text ∧ v.jsonWith (listJson h k []) = u.json :=
    hu.follows (.nil h v) hk
  obtain ⟨text, doc⟩ := follows levels hl
  obtain ⟨text', doc'⟩ := follows (h.size + 1) (Nat.lt_succ_self _)
  exact ⟨text.trans text'.symm, doc.trans doc'.symm⟩

end Written

end Value

end SortTrace
