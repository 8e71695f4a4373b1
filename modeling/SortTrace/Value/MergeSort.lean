/-!
# Merge sort with a comparison that can fail

Neighbouring runs are merged in passes until one run is left. Of two runs the later one gives an
item only when it is less than the first item of the earlier one, so equal items keep their order.
The comparison may fail; then `sortRuns` stops at its first failure and hands back, with the
failure, the items in the order that the last complete pass left them in.
-/

namespace SortTrace.MergeSort

variable {α ε : Type}

/-- Two runs merged behind the items `done`, which are given last first. -/
def merge (less : α → α → Except ε Bool) (done : List α) : List α → List α → Except ε (List α)
  | [], ys => .ok (done.reverse ++ ys)
  | x :: xs, [] => .ok (done.reverse ++ x :: xs)
  | x :: xs, y :: ys =>
    match less y x with
    | .error e => .error e
    | .ok true => merge less (y :: done) (x :: xs) ys
    | .ok false => merge less (x :: done) xs (y :: ys)
termination_by xs ys => xs.length + ys.length

/-- One pass: each run merged with its neighbour, behind the runs `done`, which are given last
first. -/
def mergePairs (less : α → α → Except ε Bool) (done : List (List α)) :
    List (List α) → Except ε (List (List α))
  | [] => .ok done.reverse
  | [run] => .ok (done.reverse ++ [run])
  | run :: next :: runs =>
    match merge less [] run next with
    | .error e => .error e
    | .ok merged => mergePairs less (merged :: done) runs

/-- A pass leaves half of the runs. -/
theorem length_of_mergePairs (less : α → α → Except ε Bool) (done runs : List (List α))
    {out : List (List α)} (h : mergePairs less done runs = .ok out) :
    out.length = done.length + (runs.length + 1) / 2 := by
  fun_induction mergePairs less done runs with
  | case1 done => cases h; simp
  | case2 done run => cases h; simp
  | case3 => simp at h
  | case4 done run next runs merged _ ih =>
    have := ih h
    simp only [List.length_cons] at this ⊢
    omega

/-- The runs merged into one. -/
def sortRuns (less : α → α → Except ε Bool) : List (List α) → List α × Option ε
  | [] => ([], none)
  | [run] => (run, none)
  | run :: next :: runs =>
    match _h : mergePairs less [] (run :: next :: runs) with
    | .error e => ((run :: next :: runs).flatten, some e)
    | .ok merged => sortRuns less merged
termination_by runs => runs.length
decreasing_by
  have := length_of_mergePairs less _ _ _h
  simp only [List.length_cons, List.length_nil] at this ⊢
  omega

/-- The items in order, or as far as the sort came and the failure that stopped it. -/
def sort (less : α → α → Except ε Bool) (items : List α) : List α × Option ε :=
  sortRuns less (items.map ([·]))

end SortTrace.MergeSort
