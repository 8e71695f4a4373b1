import SortTrace.Proofs.Ordering.Asked

/-!
# Sorting in place is safe

Merge sort in two buffers does what it does on lists, whatever the comparison answers. The positions
that it computes are those of the runs: while two runs are merged, the cursors stay inside of them
and what has been written is what has been merged so far (`Underway`), and a pass goes on at the
position behind the runs that it has merged. So no position is outside a buffer, and every loop ends
after as many rounds as there are items.

* `sort_in_place` — the sort ends, or stops at the first failure of the comparison, and in either
  case it leaves the items in some order.
-/

namespace SortTrace.MergeSort

variable {α β γ ε σ : Type}

/-! ## Segments of buffers -/

/-- The items from position `i` to position `j`, without that at `j`. -/
def segment (a : Array α) (i j : Nat) : List α :=
  (a.extract i j).toList

theorem segment_eq (a : Array α) (i j : Nat) : segment a i j = (a.toList.drop i).take (j - i) := by
  rw [segment, Array.toList_extract, List.extract]

theorem segment_nil {a : Array α} {i j : Nat} (h : j ≤ i) : segment a i j = [] := by
  rw [segment_eq, Nat.sub_eq_zero_of_le h, List.take_zero]

theorem segment_cons {a : Array α} {i j : Nat} (hi : i < j) (hj : j ≤ a.size) :
    segment a i j = a[i] :: segment a (i + 1) j := by
  have inside : i < a.toList.length := Nat.lt_of_lt_of_le hi hj
  rw [segment_eq, segment_eq, List.drop_eq_getElem_cons inside,
    show j - i = j - (i + 1) + 1 by omega, List.take_succ_cons, Array.getElem_toList]

theorem length_segment {a : Array α} {i j : Nat} (hj : j ≤ a.size) :
    (segment a i j).length = j - i := by
  rw [segment_eq, List.length_take, List.length_drop, Array.length_toList]
  omega

/-- A segment is what stands there. -/
theorem segment_of_drop {a : Array α} {i j : Nat} {xs rest : List α}
    (h : a.toList.drop i = xs ++ rest) (hj : i + xs.length = j) : segment a i j = xs := by
  rw [segment_eq, h, ← hj, Nat.add_sub_cancel_left, List.take_left]

theorem toList_copied (spare items : Array α) (i j : Nat) :
    (spare.extract 0 i ++ items ++ spare.extract j spare.size).toList
      = spare.toList.take i ++ items.toList ++ spare.toList.drop j := by
  have rest : (spare.toList.drop j).take (spare.size - j) = spare.toList.drop j :=
    List.take_of_length_le (by simp)
  simp [rest]

theorem size_copied {spare items : Array α} {i j : Nat} (hi : i + items.size = j)
    (hj : j ≤ spare.size) :
    (spare.extract 0 i ++ items ++ spare.extract j spare.size).size = spare.size := by
  simp only [Array.size_append, Array.size_extract]
  omega

/-! ## Computations in buffers and on lists -/

/-- A computation that writes to the spare buffer of given items ends as one on lists does. It fails
where that one fails, and else `Q` holds of both results and of the spare buffer. -/
def Ends (order : Array α) (Q : γ → β → Array α → Prop) (r : EStateM.Result ε σ γ)
    (result : EStateM.Result (Halt ε) (Buffers α σ) β) : Prop :=
  match r with
  | .ok c s => ∃ x spare, result = .ok x ⟨order, spare, s⟩ ∧ spare.size = order.size ∧ Q c x spare
  | .error e s => ∃ spare, result = .error (.failed e) ⟨order, spare, s⟩ ∧ spare.size = order.size

/-! ## Merging two runs -/

/-- Two runs, up to `mid` and up to `stop`, are being merged between `front` and `back`: `done` is
what has been written so far, last first. -/
structure Underway (order spare : Array α) (mid stop : Nat) (front back done : List α)
    (c : Cursors) : Prop where
  left : c.left ≤ mid
  between : mid ≤ c.right
  right : c.right ≤ stop
  inside : stop ≤ order.size
  size : spare.size = order.size
  out : c.out + mid = c.left + c.right
  written : spare.toList.take c.out = front ++ done.reverse
  behind : spare.toList.drop stop = back

namespace Underway

variable {order spare : Array α} {mid stop : Nat} {front back done : List α} {c : Cursors}

theorem out_lt (h : Underway order spare mid stop front back done c) (hl : c.left < mid) :
    c.out < stop := by
  have := h.out
  have := h.right
  omega

theorem put (h : Underway order spare mid stop front back done c) (hl : c.left < mid) (a : α) :
    (spare.setIfInBounds c.out a).toList.take (c.out + 1) = front ++ (a :: done).reverse := by
  have room : c.out < spare.toList.length := by
    have := h.out_lt hl
    have := h.inside
    have := h.size
    simpa using by omega
  rw [Array.toList_setIfInBounds, List.take_succ_eq_append_getElem (by simpa using room),
    List.take_set_of_le (Nat.le_refl _), h.written, List.getElem_set_self, List.append_assoc,
    List.reverse_cons]

theorem kept_behind (h : Underway order spare mid stop front back done c) (hl : c.left < mid)
    (a : α) : (spare.setIfInBounds c.out a).toList.drop stop = back := by
  rw [Array.toList_setIfInBounds, List.drop_set_of_lt (h.out_lt hl), h.behind]

theorem takeLeft (h : Underway order spare mid stop front back done c) (hl : c.left < mid) (x : α) :
    Underway order (spare.setIfInBounds c.out x) mid stop front back (x :: done)
      { c with left := c.left + 1, out := c.out + 1 } where
  left := hl
  between := h.between
  right := h.right
  inside := h.inside
  size := by rw [Array.size_setIfInBounds, h.size]
  out := by have := h.out; dsimp only; omega
  written := h.put hl x
  behind := h.kept_behind hl x

theorem takeRight (h : Underway order spare mid stop front back done c) (hl : c.left < mid)
    (hr : c.right < stop) (y : α) :
    Underway order (spare.setIfInBounds c.out y) mid stop front back (y :: done)
      { c with right := c.right + 1, out := c.out + 1 } where
  left := h.left
  between := Nat.le_succ_of_le h.between
  right := hr
  inside := h.inside
  size := by rw [Array.size_setIfInBounds, h.size]
  out := by have := h.out; dsimp only; omega
  written := h.put hl y
  behind := h.kept_behind hl y

/-- The rest of both runs is copied behind what has been merged. -/
theorem copyRest (h : Underway order spare mid stop front back done c) (s : σ) :
    ∃ spare', (InBuffers.copyRest mid stop c : InBuffers ε σ α Unit) ⟨order, spare, s⟩
        = .ok () ⟨order, spare', s⟩ ∧ spare'.size = order.size ∧
      spare'.toList = front ++ (done.reverse
        ++ (segment order c.left mid ++ segment order c.right stop)) ++ back := by
  obtain ⟨left, between, right, inside, size, out, written, behind⟩ := h
  -- copied, what is left of the first run ends at the next item of the second one
  have meets : c.out + (mid - c.left) = c.right := by omega
  have stops : c.right + (stop - c.right) = stop := by omega
  let spare₁ := spare.extract 0 c.out ++ order.extract c.left mid
    ++ spare.extract c.right spare.size
  let spare₂ := spare₁.extract 0 c.right ++ order.extract c.right stop
    ++ spare₁.extract stop spare₁.size
  have size₁ : spare₁.size = spare.size :=
    size_copied (by rw [Array.size_extract]; omega) (by omega)
  have size₂ : spare₂.size = spare₁.size :=
    size_copied (by rw [Array.size_extract]; omega) (by omega)
  have copied : (InBuffers.copyRest mid stop c : InBuffers ε σ α Unit) ⟨order, spare, s⟩
      = .ok () ⟨order, spare₂, s⟩ := by
    rw [InBuffers.copyRest, InBuffers.bind_ok (InBuffers.copy_apply left (by omega) (by omega)),
      meets, InBuffers.copy_apply right inside (by change _ ≤ spare₁.size; omega), stops]
  have length : (front ++ done.reverse ++ segment order c.left mid).length = c.right := by
    rw [List.length_append, length_segment (by omega), ← written, List.length_take,
      Array.length_toList]
    omega
  refine ⟨spare₂, copied, size₂.trans (size₁.trans size), ?_⟩
  have first : spare₁.toList
      = front ++ done.reverse ++ segment order c.left mid ++ spare.toList.drop c.right := by
    rw [toList_copied, written, segment]
  rw [toList_copied, first, List.take_left' length, List.drop_append, length,
    List.drop_eq_nil_of_le (by omega), List.drop_drop, stops, behind]
  simp [segment]

end Underway

variable (cmp : Comparison ε σ α) {order spare : Array α} {mid stop : Nat}
  {front back done : List α} {c : Cursors} {s : σ}

/-- A step of the merge: the comparison is asked about the next items of both runs. -/
theorem advance_apply {x y : α} (hy : order[c.right]? = some y) (hx : order[c.left]? = some x)
    (hout : c.out < spare.size) :
    InBuffers.advance cmp c ⟨order, spare, s⟩ = match cmp y x s with
      | .error e s => .error (.failed e) ⟨order, spare, s⟩
      | .ok .lt s => .ok { c with right := c.right + 1, out := c.out + 1 }
          ⟨order, spare.setIfInBounds c.out y, s⟩
      | .ok _ s => .ok { c with left := c.left + 1, out := c.out + 1 }
          ⟨order, spare.setIfInBounds c.out x, s⟩ := by
  rw [InBuffers.advance, InBuffers.bind_ok (InBuffers.read_apply hy),
    InBuffers.bind_ok (InBuffers.read_apply hx)]
  cases answer : cmp y x s with
  | error e s₁ => exact InBuffers.bind_error (InBuffers.ask_error answer)
  | ok o s₁ =>
    rw [InBuffers.bind_ok (InBuffers.ask_ok answer)]
    cases o with
    | lt => exact InBuffers.bind_ok (InBuffers.write_apply hout y)
    | eq | gt => exact InBuffers.bind_ok (InBuffers.write_apply hout x)

/-- Where one run has come to its end, the rest of the other one is merged as it is. -/
theorem merging_done (hc : c.left < mid → stop ≤ c.right) :
    merging cmp done (segment order c.left mid) (segment order c.right stop) s
      = .ok (done.reverse ++ (segment order c.left mid ++ segment order c.right stop)) s := by
  by_cases hl : c.left < mid
  · rw [segment_nil (hc hl), merging_nil_right, List.append_nil]
  · rw [segment_nil (Nat.le_of_not_lt hl), merging, List.nil_append]

theorem mergeFrom_done (h : Underway order spare mid stop front back done c)
    (hc : c.left < mid → stop ≤ c.right) (rounds : Nat) :
    Ends order (fun zs _ spare' => spare'.toList = front ++ zs ++ back)
      (merging cmp done (segment order c.left mid) (segment order c.right stop) s)
      (InBuffers.mergeFrom cmp rounds mid stop c ⟨order, spare, s⟩) := by
  rw [merging_done cmp hc, InBuffers.mergeFrom_done hc]
  obtain ⟨spare', copied, size, merged⟩ := h.copyRest (ε := ε) s
  exact ⟨(), spare', copied, size, merged⟩

/-- From anywhere in a merge, what is left of the runs is merged. -/
theorem mergeFrom_ends (s : σ) {rounds : Nat} (h : Underway order spare mid stop front back done c)
    (hrounds : (mid - c.left) + (stop - c.right) ≤ rounds) :
    Ends order (fun zs _ spare' => spare'.toList = front ++ zs ++ back)
      (merging cmp done (segment order c.left mid) (segment order c.right stop) s)
      (InBuffers.mergeFrom cmp rounds mid stop c ⟨order, spare, s⟩) := by
  induction rounds generalizing spare done c s with
  | zero => exact mergeFrom_done cmp h (by omega) 0
  | succ rounds ih =>
    by_cases both : c.left < mid ∧ c.right < stop
    · obtain ⟨hl, hr⟩ := both
      have inside := h.inside
      have hmid : mid ≤ order.size := Nat.le_trans h.between (Nat.le_trans h.right inside)
      have hout : c.out < spare.size := h.size ▸ Nat.lt_of_lt_of_le (h.out_lt hl) inside
      have step := advance_apply cmp (s := s)
        (Array.getElem?_eq_getElem (Nat.lt_of_lt_of_le hr inside))
        (Array.getElem?_eq_getElem (Nat.lt_of_lt_of_le hl hmid)) hout
      rw [segment_cons hl hmid, segment_cons hr inside, InBuffers.mergeFrom_next hl hr, merging]
      cases answer : cmp order[c.right] order[c.left] s with
      | error e s₁ =>
        rw [answer] at step
        rw [InBuffers.bind_error step]
        exact ⟨spare, rfl, h.size⟩
      | ok o s₁ =>
        rw [answer] at step
        cases o with
        | lt =>
          rw [InBuffers.bind_ok step]
          dsimp only
          rw [← segment_cons hl hmid]
          exact ih s₁ (h.takeRight hl hr _) (by dsimp only; omega)
        | eq | gt =>
          rw [InBuffers.bind_ok step]
          dsimp only
          rw [← segment_cons hr inside]
          exact ih s₁ (h.takeLeft hl _) (by dsimp only; omega)
    · exact mergeFrom_done cmp h (by omega) (rounds + 1)

/-! ## One pass -/

variable {run next rest : List α} {runs : List (List α)} {start width rounds : Nat}

theorem CutBy.head_length (h : CutBy width (run :: runs)) :
    run.length = min width (run :: runs).flatten.length := by
  cases h with
  | last _ le => simpa using (Nat.min_eq_right le).symm
  | cons full rest =>
    rw [List.flatten_cons, List.length_append]
    omega

/-- Where there is a run, the pass goes on, and the end of its width is that of the run. -/
theorem CutBy.run_stops (hw : 0 < width) (cut : CutBy width (run :: runs)) {size : Nat}
    (length : start + (run :: runs).flatten.length = size) :
    start < size ∧ min (start + width) size = start + run.length := by
  have hrun := cut.head_length
  have pos := cut.head_pos hw
  omega

theorem CutBy.next_stops (cut : CutBy width (run :: next :: runs)) {size : Nat}
    (length : start + (run :: next :: runs).flatten.length = size) :
    min (start + 2 * width) size = start + run.length + next.length := by
  have hrun := cut.head_length
  have hnext := cut.tail.head_length
  rw [List.flatten_cons, List.length_append] at hrun length
  omega

/-- The runs at a position are merged, behind what has been written up to there. -/
theorem mergeAt_ends (s : σ) (size : spare.size = order.size)
    (drop : order.toList.drop start = run ++ (next ++ rest))
    (hmid : min (start + width) order.size = start + run.length)
    (hstop : min (start + 2 * width) order.size = start + run.length + next.length)
    (hrounds : order.size ≤ rounds) :
    Ends order (fun zs stop spare' => stop = start + run.length + next.length ∧
        spare'.toList.take stop = spare.toList.take start ++ zs)
      (merging cmp [] run next s)
      (InBuffers.mergeAt cmp rounds order.size width start ⟨order, spare, s⟩) := by
  have first : segment order start (start + run.length) = run := segment_of_drop drop rfl
  have second : segment order (start + run.length) (start + run.length + next.length) = next := by
    have behind : order.toList.drop (start + run.length) = next ++ rest := by
      rw [← List.drop_drop, drop, List.drop_left]
    exact segment_of_drop behind rfl
  have underway : Underway order spare (start + run.length) (start + run.length + next.length)
      (spare.toList.take start) (spare.toList.drop (start + run.length + next.length)) []
      ⟨start, start + run.length, start⟩ :=
    ⟨by simp, by simp, by simp, by omega, size, rfl, by simp, rfl⟩
  have room : (start + run.length - start) + (start + run.length + next.length
    - (start + run.length)) ≤ rounds := by omega
  have merged := mergeFrom_ends cmp s underway room
  rw [first, second] at merged
  rw [InBuffers.mergeAt, hmid, hstop]
  cases hr : merging cmp [] run next s with
  | error e s₁ =>
    rw [hr] at merged
    obtain ⟨spare', failed, size'⟩ := merged
    exact ⟨spare', InBuffers.bind_error failed, size'⟩
  | ok zs s₁ =>
    rw [hr] at merged
    obtain ⟨⟨⟩, spare', ended, size', written⟩ := merged
    refine ⟨_, spare', InBuffers.bind_ok ended, size', rfl, ?_⟩
    have length : (spare.toList.take start ++ zs).length = start + run.length + next.length := by
      have := (merging_perm hr).length_eq
      simp at this ⊢
      omega
    rw [written, List.take_left' length]

/-- From any position on, a pass merges the runs that stand there. -/
theorem loop_passes (s : σ) {done : List (List α)} {inner : Nat} (hw : 0 < width)
    (cut : CutBy width runs) (size : spare.size = order.size)
    (drop : order.toList.drop start = runs.flatten) (hstart : start ≤ order.size)
    (written : spare.toList.take start = done.reverse.flatten)
    (hrounds : order.size ≤ start + rounds) (hinner : order.size ≤ inner) :
    Ends order (fun out _ spare' => spare'.toList = out.flatten) (mergingPairs cmp done runs s)
      (InBuffers.loop (· < order.size) (InBuffers.mergeAt cmp inner order.size width) rounds start
        ⟨order, spare, s⟩) := by
  have length : start + runs.flatten.length = order.size := by
    rw [← drop, List.length_drop, Array.length_toList]
    omega
  fun_induction mergingPairs cmp done runs s generalizing start spare rounds with
  | case1 done s =>
    have stops : start = order.size := length
    rw [InBuffers.loop_done (by simp [stops])]
    refine ⟨_, spare, rfl, size, ?_⟩
    change spare.toList = done.reverse.flatten
    rw [← written, stops, ← size, ← Array.length_toList, List.take_length]
  | case2 done run s =>
    obtain ⟨goesOn, hmid⟩ := cut.run_stops hw length
    have head := cut.head_le
    simp only [List.flatten_cons, List.flatten_nil, List.append_nil] at drop length
    obtain ⟨rounds, rfl⟩ : ∃ r, rounds = r + 1 := ⟨rounds - 1, by omega⟩
    -- the last run has none to be merged with
    have alone : order.toList.drop start = run ++ ([] ++ []) := by simpa using drop
    have merged := mergeAt_ends cmp s size alone hmid (by simp; omega) hinner
    rw [merging_nil_right] at merged
    obtain ⟨_, spare', ended, size', rfl, written'⟩ := merged
    rw [InBuffers.loop_next (by simpa using goesOn), InBuffers.bind_ok ended,
      InBuffers.loop_done (by simp [length])]
    refine ⟨_, spare', rfl, size', ?_⟩
    change spare'.toList = (done.reverse ++ [run]).flatten
    rw [List.take_of_length_le (by simp; omega)] at written'
    simp [written', written]
  | case3 done run next runs s e s' hm =>
    obtain ⟨goesOn, hmid⟩ := cut.run_stops hw length
    obtain ⟨rounds, rfl⟩ : ∃ r, rounds = r + 1 := ⟨rounds - 1, by omega⟩
    have merged := mergeAt_ends cmp s size drop hmid (cut.next_stops length) hinner
    rw [hm] at merged
    obtain ⟨spare', failed, size'⟩ := merged
    rw [InBuffers.loop_next (by simpa using goesOn), InBuffers.bind_error failed]
    exact ⟨spare', rfl, size'⟩
  | case4 done run next runs s merged s' hm ih =>
    obtain ⟨goesOn, hmid⟩ := cut.run_stops hw length
    obtain ⟨rounds, rfl⟩ : ∃ r, rounds = r + 1 := ⟨rounds - 1, by omega⟩
    have ended := mergeAt_ends cmp s size drop hmid (cut.next_stops length) hinner
    rw [hm] at ended
    obtain ⟨_, spare', ended, size', rfl, written'⟩ := ended
    rw [InBuffers.loop_next (by simpa using goesOn), InBuffers.bind_ok ended]
    have pos := cut.head_pos hw
    simp only [List.flatten_cons, List.length_append] at drop length
    refine ih cut.tail.tail size' ?_ (by omega) ?_ (by omega) (by omega)
    · rw [Nat.add_assoc, ← List.drop_drop, drop, ← List.append_assoc, List.drop_left' (by simp)]
    · simp [written', written]

/-- A pass merges all runs, and then the buffers change places. -/
theorem pass_ends (s : σ) {inner : Nat} (hw : 0 < width) (cut : CutBy width runs)
    (size : spare.size = order.size) (items : order.toList = runs.flatten)
    (hinner : order.size ≤ inner) :
    match mergingPairs cmp [] runs s with
    | .ok out s₁ => ∃ merged, InBuffers.pass cmp inner order.size width ⟨order, spare, s⟩
        = .ok (2 * width) ⟨merged, order, s₁⟩ ∧ merged.size = order.size ∧
        merged.toList = out.flatten
    | .error e s₁ => ∃ spare', InBuffers.pass cmp inner order.size width ⟨order, spare, s⟩
        = .error (.failed e) ⟨order, spare', s₁⟩ := by
  have all : order.toList.drop 0 = runs.flatten := items
  have nothing : spare.toList.take 0 = ([] : List (List α)).reverse.flatten := rfl
  have passed := loop_passes cmp s hw cut size all (Nat.zero_le _) nothing
    (Nat.le_add_left_of_le hinner) hinner
  cases hr : mergingPairs cmp [] runs s with
  | ok out s₁ =>
    rw [hr] at passed
    obtain ⟨_, spare', ended, size', written⟩ := passed
    exact ⟨spare', InBuffers.bind_ok ended, size', written⟩
  | error e s₁ =>
    rw [hr] at passed
    obtain ⟨spare', failed, -⟩ := passed
    exact ⟨spare', InBuffers.bind_error failed⟩

/-! ## All passes -/

/-- A computation that either goes through or stops where the comparison fails. -/
def ended (x : β) (b : Buffers α σ) : Option ε → EStateM.Result (Halt ε) (Buffers α σ) β
  | none => .ok x b
  | some e => .error (.failed e) b

theorem CutBy.one_run (hw : 0 < width) (cut : CutBy width runs)
    (narrow : runs.flatten.length ≤ width) (less : α → α → Except ε Bool) :
    sortRuns less runs = (runs.flatten, none) := by
  cases cut with
  | nil => simp [sortRuns]
  | last => simp [sortRuns]
  | cons full rest =>
    have := rest.head_pos hw
    simp only [List.flatten_cons, List.length_append] at narrow
    omega

theorem CutBy.two_runs (cut : CutBy width runs) (wide : width < runs.flatten.length) :
    ∃ run next rest, runs = run :: next :: rest := by
  cases cut with
  | nil => exact absurd wide (Nat.not_lt_zero _)
  | last _ le => exact absurd wide (by simpa using le)
  | cons => exact ⟨_, _, _, rfl⟩

/-- A computation sorts the items of runs as far as the comparison lets it: it ends, or stops where
the comparison fails, with these items in the first buffer, and it has asked about no others. -/
def Sorts (cmp : Comparison ε σ α) (runs : List (List α)) (s : σ)
    (result : EStateM.Result (Halt ε) (Buffers α σ) β) : Prop :=
  ∃ x b failure, result = ended x b failure ∧
    b.order.toList.Perm runs.flatten ∧ Asked cmp runs.flatten s failure b.memory ∧
    ∀ less, cmp.Says less → sortRuns less runs = (b.order.toList, failure)

theorem loop_sorted {length : Nat} (hw : 0 < width) (cut : CutBy width runs)
    (count : runs.flatten.length = length) (items : order.toList = runs.flatten)
    (narrow : length ≤ width) (outer inner : Nat) :
    Sorts cmp runs s (InBuffers.loop (· < length) (InBuffers.pass cmp inner length) outer width
      ⟨order, spare, s⟩) := by
  rw [InBuffers.loop_done (by simpa using narrow)]
  refine ⟨width, _, none, rfl, .of_eq items, .nil s, fun less _ => ?_⟩
  rw [cut.one_run hw (by omega), items]

/-- From runs of one width on, passes sort the items. They end because the width doubles. -/
theorem loop_sorts (s : σ) {length outer inner : Nat} (hw : 0 < width) (cut : CutBy width runs)
    (horder : order.size = length) (hspare : spare.size = length)
    (items : order.toList = runs.flatten) (hinner : length ≤ inner)
    (houter : length ≤ width + outer) :
    Sorts cmp runs s (InBuffers.loop (· < length) (InBuffers.pass cmp inner length) outer width
      ⟨order, spare, s⟩) := by
  have count : runs.flatten.length = length := by rw [← items, Array.length_toList, horder]
  induction outer generalizing width runs order spare s with
  | zero => exact loop_sorted cmp hw cut count items houter 0 inner
  | succ outer ih =>
    by_cases goesOn : width < length
    · obtain ⟨run, next, rest, rfl⟩ := cut.two_runs (by omega)
      have fits : order.size ≤ inner := by omega
      have passed := pass_ends cmp s hw cut (hspare.trans horder.symm) items fits
      have asks : Asks cmp (run :: next :: rest).flatten s
          (mergingPairs cmp [] (run :: next :: rest) s) := mergingPairs_asks (List.Subset.refl _)
      have agree (less : α → α → Except ε Bool) (hc : cmp.Says less) :
          mergePairs less [] (run :: next :: rest)
            = outcome (mergingPairs cmp [] (run :: next :: rest) s) := mergePairs_eq_outcome hc
      rw [horder] at passed
      rw [InBuffers.loop_next (by simpa using goesOn)]
      cases hr : mergingPairs cmp [] (run :: next :: rest) s with
      | error e s₁ =>
        rw [hr] at passed asks agree
        obtain ⟨spare', failed⟩ := passed
        refine ⟨width, ⟨order, spare', s₁⟩, some e, InBuffers.bind_error failed, .of_eq items, asks,
          fun less hc => ?_⟩
        rw [sortRuns_of_mergePairs_error (agree less hc), items]
      | ok out s₁ =>
        rw [hr] at passed asks agree
        obtain ⟨merged, passed, size, written⟩ := passed
        have perm : out.flatten.Perm (run :: next :: rest).flatten := mergingPairs_perm hr
        obtain ⟨x, b, failure, sorted, perm', asked, agree'⟩ := ih s₁ (by omega)
          (mergingPairs_cut hw cut (by simp) hr) size horder written (by omega)
          (perm.length_eq.trans count)
        refine ⟨x, b, failure, (InBuffers.bind_ok passed).trans sorted, perm'.trans perm,
          asks.trans (asked.mono perm.subset), fun less hc => ?_⟩
        rw [sortRuns_of_mergePairs (agree less hc), agree' less hc]
    · exact loop_sorted cmp hw cut count items (Nat.le_of_not_lt goesOn) _ inner

/-- Whatever the comparison answers, the sort in place ends after no more rounds of any loop than
there are items, or stops at the first failure of the comparison. It is never outside of its
buffers, and it asks about nothing but the items. In either case it leaves the items in some order.
If what is remembered has no part in the answers, these are the order and the failure of the sort
on lists. -/
theorem sort_in_place (cmp : Comparison ε σ α) (filler : α) (items : Array α) (memory : σ)
    {rounds : Nat} (hrounds : items.size ≤ rounds) :
    ∃ b failure, InBuffers.sort cmp rounds (.start filler items memory) = ended () b failure ∧
      b.order.toList.Perm items.toList ∧ Asked cmp items.toList memory failure b.memory ∧
      ∀ less, cmp.Says less → sort less items.toList = (b.order.toList, failure) := by
  have flat := flatten_singletons items.toList
  have spare : (Array.replicate items.size filler).size = items.size := Array.size_replicate
  obtain ⟨x, b, failure, sorted, perm, asked, agree⟩ := loop_sorts cmp memory Nat.one_pos
    (CutBy.singletons items.toList) rfl spare flat.symm hrounds (Nat.le_add_left_of_le hrounds)
  rw [flat] at perm asked
  refine ⟨b, failure, ?_, perm, asked, agree⟩
  rw [InBuffers.sort_apply]
  cases failure with
  | none => exact InBuffers.bind_ok sorted
  | some e => exact InBuffers.bind_error sorted

/-- A comparison that forgets the items: it calls the first one less at its first call and greater
at its second, and then it fails. -/
def fickle : Comparison String Nat Nat := fun _ _ calls =>
  match calls with
  | 0 => .ok .lt 1
  | 1 => .ok .gt 2
  | _ => .error "no" calls

/-- The failure comes while the second pass is merging. By then the spare buffer has lost an item,
but the other one has them all. -/
theorem sort_in_place_fickle :
    ∃ b, InBuffers.sort fickle 3 (.start 0 #[3, 1, 2] 0) = .error (.failed "no") b ∧
      b.order = #[1, 3, 2] ∧ b.spare = #[1, 1, 2] ∧ b.order.toList.Perm [3, 1, 2] ∧
      Asked fickle [3, 1, 2] 0 (some "no") b.memory := by
  have run : InBuffers.sort fickle 3 (.start 0 #[3, 1, 2] 0)
      = .error (.failed "no") ⟨#[1, 3, 2], #[1, 1, 2], 2⟩ := by rfl
  obtain ⟨b, failure, ends, perm, asked, -⟩ :=
    sort_in_place fickle 0 #[3, 1, 2] 0 (show #[3, 1, 2].size ≤ 3 by decide)
  rw [run] at ends
  cases failure with
  | none => cases ends
  | some e =>
    cases ends
    exact ⟨_, run, rfl, rfl, perm, asked⟩

end SortTrace.MergeSort
