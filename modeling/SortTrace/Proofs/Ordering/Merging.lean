import Mathlib.Data.List.Basic
import SortTrace.Value.MergeSort

/-!
# What merge sort does to its items

A sort whose comparison never fails returns its items, each of them before all those behind it
(`sort_sorted`). The relation "before" can depend on where the items stood at first, so a stable
order is one of these relations: in every pass the items of a run stood before those of the runs
behind it (`Runs`). A sort that fails has compared two of its items in vain (`sort_error`).
-/

namespace SortTrace.MergeSort

variable {α ε : Type} {less : α → α → Except ε Bool} {earlier before : α → α → Prop}

/-- A comparison sorts by a transitive relation: of two items that stand as they stood at first,
the second one goes before the first if it is less, and else it stays behind. -/
structure SortsBy (less : α → α → Except ε Bool) (earlier before : α → α → Prop) : Prop where
  trans : ∀ {a b c}, before a b → before b c → before a c
  of_less : ∀ {a b}, earlier a b → less b a = .ok true → before b a
  of_not_less : ∀ {a b}, earlier a b → less b a = .ok false → before a b

/-- Sorted runs, the items of each of them earlier than those of the runs behind it. -/
structure Runs (earlier before : α → α → Prop) (runs : List (List α)) : Prop where
  sorted : ∀ run ∈ runs, run.Pairwise before
  earlier : runs.Pairwise fun run next => ∀ a ∈ run, ∀ b ∈ next, earlier a b

theorem merge_sorted (hs : SortsBy less earlier before) (done xs ys : List α) {out : List α}
    (hx : xs.Pairwise before) (hy : ys.Pairwise before) (he : ∀ a ∈ xs, ∀ b ∈ ys, earlier a b)
    (h : merge less done xs ys = .ok out) :
    ∃ zs, out = done.reverse ++ zs ∧ zs.Perm (xs ++ ys) ∧ zs.Pairwise before := by
  fun_induction merge less done xs ys with
  | case1 done ys => exact ⟨ys, (Except.ok.inj h).symm, .refl _, hy⟩
  | case2 done x xs => exact ⟨x :: xs, (Except.ok.inj h).symm, by simp, hx⟩
  | case3 => cases h
  | case4 done x xs y ys less ih =>
    obtain ⟨hy', hys⟩ := List.pairwise_cons.mp hy
    obtain ⟨zs, rfl, perm, sorted⟩ := ih hx hys (fun a ha b hb => he a ha b (.tail _ hb)) h
    refine ⟨y :: zs, by simp, ((perm.cons y).trans List.perm_middle.symm), ?_⟩
    have first := hs.of_less (he x (.head _) y (.head _)) less
    refine List.pairwise_cons.mpr ⟨fun z hz => ?_, sorted⟩
    rcases List.mem_append.mp (perm.mem_iff.mp hz) with hz | hz
    · rcases List.mem_cons.mp hz with rfl | hz
      · exact first
      · exact hs.trans first ((List.pairwise_cons.mp hx).1 z hz)
    · exact hy' z hz
  | case5 done x xs y ys less ih =>
    obtain ⟨hx', hxs⟩ := List.pairwise_cons.mp hx
    obtain ⟨zs, rfl, perm, sorted⟩ := ih hxs hy (fun a ha b hb => he a (.tail _ ha) b hb) h
    refine ⟨x :: zs, by simp, perm.cons x, ?_⟩
    have first := hs.of_not_less (he x (.head _) y (.head _)) less
    refine List.pairwise_cons.mpr ⟨fun z hz => ?_, sorted⟩
    rcases List.mem_append.mp (perm.mem_iff.mp hz) with hz | hz
    · exact hx' z hz
    · rcases List.mem_cons.mp hz with rfl | hz
      · exact first
      · exact hs.trans first ((List.pairwise_cons.mp hy).1 z hz)

theorem Runs.merged {front back : List (List α)} {run next merged : List α}
    (hr : Runs earlier before (front ++ run :: next :: back)) (perm : merged.Perm (run ++ next))
    (sorted : merged.Pairwise before) : Runs earlier before (front ++ merged :: back) where
  sorted := by
    have := hr.sorted
    simp only [List.forall_mem_append, List.forall_mem_cons] at this ⊢
    exact ⟨this.1, sorted, this.2.2.2⟩
  earlier := by
    have := hr.earlier
    simp only [List.pairwise_append, List.pairwise_cons, List.forall_mem_cons, perm.mem_iff,
      List.mem_append, or_imp, forall_and] at this ⊢
    obtain ⟨fronts, ⟨⟨-, run_back⟩, next_back, backs⟩, front_run, front_next, front_back⟩ := this
    exact ⟨fronts, ⟨⟨run_back, next_back⟩, backs⟩, ⟨front_run, front_next⟩, front_back⟩

theorem Runs.earlier_next {front back : List (List α)} {run next : List α}
    (hr : Runs earlier before (front ++ run :: next :: back)) :
    ∀ a ∈ run, ∀ b ∈ next, earlier a b := by
  have := hr.earlier
  rw [List.pairwise_append, List.pairwise_cons] at this
  exact this.2.1.1 next (.head _)

theorem mergePairs_sorted (hs : SortsBy less earlier before) (done runs : List (List α))
    {out : List (List α)} (hr : Runs earlier before (done.reverse ++ runs))
    (h : mergePairs less done runs = .ok out) :
    Runs earlier before out ∧ out.flatten.Perm (done.reverse ++ runs).flatten := by
  fun_induction mergePairs less done runs with
  | case1 done =>
    obtain rfl := Except.ok.inj h
    simpa using hr
  | case2 done run =>
    obtain rfl := Except.ok.inj h
    exact ⟨hr, .refl _⟩
  | case3 => cases h
  | case4 done run next runs merged hm ih =>
    obtain ⟨zs, rfl, perm, sorted⟩ := merge_sorted hs [] run next (hr.sorted _ (by simp))
      (hr.sorted _ (by simp)) hr.earlier_next hm
    have step := ih (by simpa using hr.merged perm sorted) h
    refine ⟨step.1, step.2.trans ?_⟩
    simpa using (perm.append_right runs.flatten).append_left done.reverse.flatten

theorem sortRuns_sorted (hs : SortsBy less earlier before) (runs : List (List α)) {out : List α}
    (hr : Runs earlier before runs) (h : sortRuns less runs = (out, none)) :
    out.Perm runs.flatten ∧ out.Pairwise before := by
  fun_induction sortRuns less runs with
  | case1 =>
    cases h
    exact ⟨.refl _, .nil⟩
  | case2 run =>
    cases h
    exact ⟨by simp, hr.sorted _ (by simp)⟩
  | case3 => cases h
  | case4 run next runs merged hm ih =>
    obtain ⟨hr', perm⟩ := mergePairs_sorted hs [] _ (by simpa using hr) hm
    obtain ⟨perm', sorted⟩ := ih hr' h
    exact ⟨perm'.trans perm, sorted⟩

theorem sortRuns_of_mergePairs {run next : List α} {runs merged : List (List α)}
    (h : mergePairs less [] (run :: next :: runs) = .ok merged) :
    sortRuns less (run :: next :: runs) = sortRuns less merged := by
  simp only [sortRuns]
  rw [h]

theorem sortRuns_of_mergePairs_error {run next : List α} {runs : List (List α)} {e : ε}
    (h : mergePairs less [] (run :: next :: runs) = .error e) :
    sortRuns less (run :: next :: runs) = ((run :: next :: runs).flatten, some e) := by
  simp only [sortRuns]
  rw [h]

theorem flatten_singletons (items : List α) : (items.map ([·])).flatten = items := by
  rw [← List.flatMap_def, List.flatMap_singleton']

/-- The items in order: those there were, each before all those behind it. -/
theorem sort_sorted (hs : SortsBy less earlier before) {items out : List α}
    (he : items.Pairwise earlier) (h : sort less items = (out, none)) :
    out.Perm items ∧ out.Pairwise before := by
  have runs : Runs earlier before (items.map ([·])) :=
    ⟨by simp, by simpa [List.pairwise_map] using he⟩
  have sorted := sortRuns_sorted hs _ runs h
  rwa [flatten_singletons] at sorted

/-! ## Failure -/

theorem merge_error (done xs ys : List α) {e : ε} (h : merge less done xs ys = .error e) :
    ∃ x ∈ xs, ∃ y ∈ ys, less y x = .error e := by
  fun_induction merge less done xs ys with
  | case1 | case2 => cases h
  | case3 done x xs y ys e' he =>
    obtain rfl := Except.error.inj h
    exact ⟨x, .head _, y, .head _, he⟩
  | case4 done x xs y ys less ih =>
    obtain ⟨a, ha, b, hb, hab⟩ := ih h
    exact ⟨a, ha, b, .tail _ hb, hab⟩
  | case5 done x xs y ys less ih =>
    obtain ⟨a, ha, b, hb, hab⟩ := ih h
    exact ⟨a, .tail _ ha, b, hb, hab⟩

/-- Any comparison sorts by the relation that says nothing. -/
theorem sortsBy_true (less : α → α → Except ε Bool) :
    SortsBy less (fun _ _ => True) fun _ _ => True :=
  ⟨fun _ _ => trivial, fun _ _ => trivial, fun _ _ => trivial⟩

theorem runs_true (runs : List (List α)) : Runs (fun _ _ => True) (fun _ _ => True) runs :=
  ⟨fun _ _ => List.pairwise_of_forall fun _ _ => trivial,
    List.pairwise_of_forall fun _ _ _ _ _ _ => trivial⟩

theorem mergePairs_error (done runs : List (List α)) {e : ε}
    (h : mergePairs less done runs = .error e) :
    ∃ x ∈ runs.flatten, ∃ y ∈ runs.flatten, less y x = .error e := by
  fun_induction mergePairs less done runs with
  | case1 | case2 => cases h
  | case3 done run next runs e' he =>
    obtain rfl := Except.error.inj h
    obtain ⟨x, hx, y, hy, hxy⟩ := merge_error [] run next he
    exact ⟨x, by simp [hx], y, by simp [hy], hxy⟩
  | case4 done run next runs merged hm ih =>
    obtain ⟨x, hx, y, hy, hxy⟩ := ih h
    exact ⟨x, by simp [hx], y, by simp [hy], hxy⟩

theorem sortRuns_error (runs : List (List α)) {out : List α} {e : ε}
    (h : sortRuns less runs = (out, some e)) :
    ∃ x ∈ runs.flatten, ∃ y ∈ runs.flatten, less y x = .error e := by
  fun_induction sortRuns less runs with
  | case1 | case2 => cases h
  | case3 run next runs e' he =>
    cases h
    exact mergePairs_error [] _ he
  | case4 run next runs merged hm ih =>
    have perm := (mergePairs_sorted (sortsBy_true less) [] _ (runs_true _) hm).2
    obtain ⟨x, hx, y, hy, hxy⟩ := ih h
    exact ⟨x, perm.mem_iff.mp hx, y, perm.mem_iff.mp hy, hxy⟩

/-- A sort that fails has compared two of the items in vain. -/
theorem sort_error {items out : List α} {e : ε} (h : sort less items = (out, some e)) :
    ∃ x ∈ items, ∃ y ∈ items, less y x = .error e := by
  have failed := sortRuns_error _ h
  rwa [flatten_singletons] at failed

end SortTrace.MergeSort

