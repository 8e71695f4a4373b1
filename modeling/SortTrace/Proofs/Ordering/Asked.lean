import SortTrace.Proofs.Ordering.Buffers
import SortTrace.Proofs.Ordering.Merging

/-!
# Merging with any comparison

Merge sort on lists, as in `merge` and `mergePairs`, with a comparison that remembers something from
one call to the next. Whatever it answers, the items of two runs that are merged are those of both
(`merging_perm`), and it is asked about these items only, one call after the other until a call
fails (`Asked`). Where the answers do not depend on what it remembers, merging is `merge`
(`merge_eq_outcome`).
-/

namespace SortTrace.MergeSort

variable {α β ε σ : Type} (cmp : Comparison ε σ α)

/-- Two runs merged behind the items `done`, which are given last first. -/
def merging (done : List α) : List α → List α → σ → EStateM.Result ε σ (List α)
  | [], ys, s => .ok (done.reverse ++ ys) s
  | x :: xs, [], s => .ok (done.reverse ++ x :: xs) s
  | x :: xs, y :: ys, s =>
    match cmp y x s with
    | .error e s => .error e s
    | .ok .lt s => merging (y :: done) (x :: xs) ys s
    | .ok _ s => merging (x :: done) xs (y :: ys) s
termination_by xs ys => xs.length + ys.length

/-- One pass: each run merged with its neighbour, behind the runs `done`, which are given last
first. -/
def mergingPairs (done : List (List α)) : List (List α) → σ → EStateM.Result ε σ (List (List α))
  | [], s => .ok done.reverse s
  | [run], s => .ok (done.reverse ++ [run]) s
  | run :: next :: runs, s =>
    match merging cmp [] run next s with
    | .error e s => .error e s
    | .ok merged s => mergingPairs (merged :: done) runs s

variable {cmp} {done xs ys zs : List α} {runs out : List (List α)} {s s₁ s₂ : σ} {width : Nat}

theorem merging_nil_right (done xs : List α) (s : σ) :
    merging cmp done xs [] s = .ok (done.reverse ++ xs) s := by
  cases xs <;> simp [merging]

/-! ## Items -/

theorem merging_perm (h : merging cmp done xs ys s = .ok zs s₁) :
    zs.Perm (done.reverse ++ (xs ++ ys)) := by
  fun_induction merging cmp done xs ys s with
  | case1 | case2 =>
    cases h
    simp
  | case3 => cases h
  | case4 done x xs y ys s s' _ ih =>
    have moved : (y :: (x :: xs ++ ys)).Perm (x :: xs ++ y :: ys) := List.perm_middle.symm
    refine (ih h).trans ?_
    rw [List.reverse_cons, List.append_assoc]
    exact moved.append_left done.reverse
  | case5 done x xs y ys s o s' _ _ ih =>
    refine (ih h).trans ?_
    simp

theorem mergingPairs_perm {done : List (List α)}
    (h : mergingPairs cmp done runs s = .ok out s₁) :
    out.flatten.Perm (done.reverse ++ runs).flatten := by
  fun_induction mergingPairs cmp done runs s with
  | case1 | case2 =>
    cases h
    simp
  | case3 => cases h
  | case4 done run next runs s merged s' hm ih =>
    have both : merged.Perm (run ++ next) := merging_perm hm
    refine (ih h).trans ?_
    simpa using (both.append_right runs.flatten).append_left done.reverse.flatten

/-! ## Calls of the comparison -/

/-- The comparison is asked about items, one call after the other. Either all calls are answered, or
the last one fails. -/
inductive Asked (cmp : Comparison ε σ α) (items : List α) : σ → Option ε → σ → Prop
  | nil (s : σ) : Asked cmp items s none s
  | answered {a b : α} {o : Ordering} {s s₁ s₂ : σ} {failure : Option ε} (ha : a ∈ items)
    (hb : b ∈ items) (answer : cmp a b s = .ok o s₁) (rest : Asked cmp items s₁ failure s₂) :
    Asked cmp items s failure s₂
  | failed {a b : α} {e : ε} {s s₁ : σ} (ha : a ∈ items) (hb : b ∈ items)
    (fails : cmp a b s = .error e s₁) : Asked cmp items s (some e) s₁

namespace Asked

variable {items items' : List α} {failure : Option ε}

theorem trans (h : Asked cmp items s none s₁) (h' : Asked cmp items s₁ failure s₂) :
    Asked cmp items s failure s₂ := by
  generalize hf : (none : Option ε) = f at h
  induction h with
  | nil => exact h'
  | answered ha hb answer _ ih => exact .answered ha hb answer (ih h' hf)
  | failed => cases hf

theorem mono (h : Asked cmp items s failure s₁) (sub : items ⊆ items') :
    Asked cmp items' s failure s₁ := by
  induction h with
  | nil => exact .nil _
  | answered ha hb answer _ ih => exact .answered (sub ha) (sub hb) answer ih
  | failed ha hb fails => exact .failed (sub ha) (sub hb) fails

end Asked

/-- All that a computation does with the memory of a comparison is to ask about items. -/
def Asks (cmp : Comparison ε σ α) (items : List α) (s : σ) : EStateM.Result ε σ β → Prop
  | .ok _ s₁ => Asked cmp items s none s₁
  | .error e s₁ => Asked cmp items s (some e) s₁

theorem Asks.after {items : List α} {r : EStateM.Result ε σ β} (h : Asked cmp items s none s₁)
    (hr : Asks cmp items s₁ r) : Asks cmp items s r := by
  cases r with
  | ok | error => exact h.trans hr

theorem merging_asks {items : List α} (hx : xs ⊆ items) (hy : ys ⊆ items) :
    Asks cmp items s (merging cmp done xs ys s) := by
  fun_induction merging cmp done xs ys s with
  | case1 | case2 => exact .nil _
  | case3 done x xs y ys s e s' fails => exact .failed (hy (.head _)) (hx (.head _)) fails
  | case4 done x xs y ys s s' answer ih =>
    exact (ih hx fun _ h => hy (.tail _ h)).after
      (.answered (hy (.head _)) (hx (.head _)) answer (.nil _))
  | case5 done x xs y ys s o s' _ answer ih =>
    exact (ih (fun _ h => hx (.tail _ h)) hy).after
      (.answered (hy (.head _)) (hx (.head _)) answer (.nil _))

theorem mergingPairs_asks {done : List (List α)} {items : List α} (h : runs.flatten ⊆ items) :
    Asks cmp items s (mergingPairs cmp done runs s) := by
  fun_induction mergingPairs cmp done runs s with
  | case1 | case2 => exact .nil _
  | case3 done run next runs s e s' hm =>
    simp only [List.flatten_cons, List.append_subset] at h
    have asked : Asks cmp items s (merging cmp [] run next s) := merging_asks h.1 h.2.1
    rwa [hm] at asked
  | case4 done run next runs s merged s' hm ih =>
    simp only [List.flatten_cons, List.append_subset] at h
    have asked : Asks cmp items s (merging cmp [] run next s) := merging_asks h.1 h.2.1
    rw [hm] at asked
    exact (ih h.2.2).after asked

/-! ## Comparisons whose answers are always the same -/

/-- What a computation ends with, without what it leaves behind. -/
def outcome : EStateM.Result ε σ β → Except ε β
  | .ok b _ => .ok b
  | .error e _ => .error e

/-- Whatever it remembers, the comparison says whether an item is less than another one. -/
def Comparison.Says (cmp : Comparison ε σ α) (less : α → α → Except ε Bool) : Prop :=
  ∀ a b s, less a b = (· == .lt) <$> outcome (cmp a b s)

theorem merge_eq_outcome {less : α → α → Except ε Bool} (hc : cmp.Says less) :
    merge less done xs ys = outcome (merging cmp done xs ys s) := by
  fun_induction merging cmp done xs ys s with
  | case1 | case2 => simp [merge, outcome]
  | case3 done x xs y ys s e s' fails => simp [merge, hc y x s, fails, outcome]
  | case4 done x xs y ys s s' answer ih => simp [merge, hc y x s, answer, outcome, ih]
  | case5 done x xs y ys s o s' ne answer ih =>
    have notLess : (o == .lt) = false := by simpa using ne
    simp [merge, hc y x s, answer, outcome, notLess, ih]

theorem mergePairs_eq_outcome {less : α → α → Except ε Bool} (hc : cmp.Says less)
    {done : List (List α)} :
    mergePairs less done runs = outcome (mergingPairs cmp done runs s) := by
  fun_induction mergingPairs cmp done runs s with
  | case1 | case2 => simp [mergePairs, outcome]
  | case3 done run next runs s e s' hm =>
    simp [mergePairs, merge_eq_outcome (s := s) hc, hm, outcome]
  | case4 done run next runs s merged s' hm ih =>
    simp [mergePairs, merge_eq_outcome (s := s) hc, hm, outcome, ih]

/-! ## Runs of one width -/

/-- The runs have the given width, all but the last one, which may be shorter. -/
inductive CutBy (width : Nat) : List (List α) → Prop
  | nil : CutBy width []
  | last {run : List α} (pos : 0 < run.length) (le : run.length ≤ width) : CutBy width [run]
  | cons {run next : List α} {runs : List (List α)} (full : run.length = width)
    (rest : CutBy width (next :: runs)) : CutBy width (run :: next :: runs)

namespace CutBy

variable {run next : List α}

theorem singletons (items : List α) : CutBy 1 (items.map ([·])) := by
  induction items with
  | nil => exact .nil
  | cons a items ih =>
    cases items with
    | nil => exact .last Nat.one_pos (Nat.le_refl 1)
    | cons b items => exact .cons rfl ih

theorem tail (h : CutBy width (run :: runs)) : CutBy width runs := by
  cases h with
  | last => exact .nil
  | cons _ rest => exact rest

theorem head_pos (hw : 0 < width) (h : CutBy width (run :: runs)) : 0 < run.length := by
  cases h with
  | last pos _ => exact pos
  | cons full _ => exact full ▸ hw

theorem head_le (h : CutBy width (run :: runs)) : run.length ≤ width := by
  cases h with
  | last _ le => exact le
  | cons full _ => exact Nat.le_of_eq full

/-- Full runs may stand before a last one that is shorter. -/
theorem snoc {front : List (List α)} (full : ∀ run ∈ front, run.length = width)
    (pos : 0 < run.length) (le : run.length ≤ width) : CutBy width (front ++ [run]) := by
  induction front with
  | nil => exact .last pos le
  | cons first front ih =>
    obtain ⟨hfirst, hfront⟩ := List.forall_mem_cons.mp full
    have rest := ih hfront
    cases front with
    | nil | cons => exact .cons hfirst rest

theorem of_full (hw : 0 < width) (full : ∀ run ∈ runs, run.length = width) :
    CutBy width runs := by
  induction runs with
  | nil => exact .nil
  | cons first runs ih =>
    obtain ⟨hfirst, hruns⟩ := List.forall_mem_cons.mp full
    have rest := ih hruns
    cases runs with
    | nil => exact .last (hfirst ▸ hw) (Nat.le_of_eq hfirst)
    | cons => exact .cons hfirst rest

end CutBy

/-- A pass makes the runs twice as wide. -/
theorem mergingPairs_cut {done : List (List α)} (hw : 0 < width) (cut : CutBy width runs)
    (full : ∀ run ∈ done.reverse, run.length = 2 * width)
    (h : mergingPairs cmp done runs s = .ok out s₁) : CutBy (2 * width) out := by
  fun_induction mergingPairs cmp done runs s with
  | case1 done s =>
    cases h
    exact .of_full (by omega) full
  | case2 done run s =>
    cases h
    exact .snoc full (cut.head_pos hw) (by have := cut.head_le; omega)
  | case3 => cases h
  | case4 done run next runs s merged s' hm ih =>
    have hrun : run.length = width := by cases cut; assumption
    have length : merged.length = width + next.length := by
      simpa [hrun] using (merging_perm hm).length_eq
    have hnext := cut.tail.head_le
    cases runs with
    | nil =>
      -- the last two runs may make one that is not full
      cases h
      rw [List.reverse_cons]
      exact .snoc full (by omega) (by omega)
    | cons third runs =>
      have hfull : next.length = width := by cases cut.tail; assumption
      refine ih cut.tail.tail ?_ h
      rw [List.reverse_cons, List.forall_mem_append, List.forall_mem_singleton]
      exact ⟨full, by omega⟩

end SortTrace.MergeSort
