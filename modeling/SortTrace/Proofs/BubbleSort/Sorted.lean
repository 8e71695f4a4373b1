import Mathlib.Data.List.Sort
import SortTrace.Proofs.BubbleSort.Run

/-!
# A bubble sort, from its text to its output

Run on the text of the script, the program puts out a line for every exchange, of which there are as
many as the list has inversions, and then the list in order (`bubble_sort_sorts`).
-/

namespace SortTrace.BubbleSort

open Script

variable {L xs : List Int} {states : List (List Int)} {m : Machine} {c : Control} {n : Nat}

/-! ## Before and behind the loops -/

/-- The machine behind the second statement. -/
def sizeBound (L : List Int) : Machine :=
  { (listBound L).entered 2 with
    scopes := ⟨[("arr", .list 0), ("n", .ofInt L.length)], []⟩ }

theorem holds_sizeBound (hsmall : ∀ x ∈ L, Small x) (hlength : L.length < 2 ^ 63) :
    Holds L.length [] L (sizeBound L) := by
  refine ⟨rfl, rfl, rfl, fun b hb => ?_, rfl, rfl, hsmall, rfl, hlength⟩
  rcases List.mem_cons.mp hb with rfl | hb
  · rfl
  rcases List.mem_cons.mp hb with rfl | hb
  · rfl
  rw [List.mem_singleton.mp hb]
  rfl

theorem yields_length (hlength : L.length < 2 ^ 63) {user : UserCall} :
    Yields user ((listBound L).entered 2) (.call (.name "len") [.name "arr"] [])
      (.ofInt L.length) := by
  have name : Yields user ((listBound L).entered 2) (.name "len") (.builtin .len) :=
    .builtin rfl rfl
  have list : Yields user ((listBound L).entered 2) (.name "arr") (.list 0) :=
    .bound rfl
  have length : Value.length (listBound L).heap (.list 0) = .ok (Int64.ofInt L.length) := by
    change Arithmetic.narrow (Value.ofInts L).size = _
    rw [Value.size_ofInts]
    exact Arithmetic.narrow_small (small_position hlength)
  have read : Run.read (Value.length · (.list 0)) ((listBound L).entered 2)
      = .ok (Int64.ofInt L.length) ((listBound L).entered 2) := Run.read_ok length
  refine .call name (.cons list .nil) ?_
  change (Value.int <$> Run.read (Value.length · (.list 0))) _ = _
  rw [map_eq_pure_bind, Run.bind_ok read]
  rfl

/-- The list and its length are bound. -/
theorem runBlock_program (hc : c.timeout = none) (hlength : L.length < 2 ^ 63) :
    runBlock c (program L) (Machine.start (.start .stream [] none))
      = runBlock c loops (sizeBound L) := by
  have second : runStmt c (.assign 2 [.name "n"] (.call (.name "len") [.name "arr"] []))
      (listBound L) = .ok .normal (sizeBound L) :=
    runStmt_assign hc (yields_length hlength) (assignAll_name "n")
  rw [program, sortBlock, runBlock_cons (runStmt_bindList hc), runBlock_cons second]

/-- The text that the script puts out in all. -/
def outputText (states : List (List Int)) (xs : List Int) : String :=
  String.join (states.map stateLine) ++ (Value.intsText xs ++ "\n")

/-- The session after the given states were logged and the list was printed. -/
def printed (states : List (List Int)) (xs : List Int) : Session :=
  { logged states with sink := ⟨(outputText states xs).toUTF8, none⟩ }

theorem print_logged (states : List (List Int)) (xs : List Int) :
    Session.print (Value.intsText xs ++ "\n") (logged states) = .ok () (printed states xs) := by
  rw [Session.print_stream _ rfl rfl]
  simp [logged, printed, outputText]

/-- The list is printed. -/
theorem Holds.print (h : Holds n states xs m) (hc : c.timeout = none) :
    ∃ m', runStmt c (.expr 7 (.call (.name "print") [.name "arr"] [])) m = .ok .normal m' ∧
      m'.session = printed states xs := by
  have entered : Holds n states xs (m.entered 7) := h.of_scopes rfl rfl rfl
  have name : Yields c.user (m.entered 7) (.name "print") (.builtin .print) :=
    entered.yields_called (b := .print) (by decide)
  have keywords : Run.of (Keywords.only "print" ["sep", "end"] []) (m.entered 7)
      = .ok () (m.entered 7) := rfl
  have separator : Run.of (Value.printOption "sep" " " (Keywords.get? [] "sep")) (m.entered 7)
      = .ok " " (m.entered 7) := rfl
  have ending : Run.of (Value.printOption "end" "\n" (Keywords.get? [] "end")) (m.entered 7)
      = .ok "\n" (m.entered 7) := rfl
  have texts : Run.read (fun h => .ok ([Value.list 0].map (Value.printed h))) (m.entered 7)
      = .ok [Value.intsText xs] (m.entered 7) := by
    refine Run.read_ok ?_
    rw [List.map_singleton, ← Value.written_ofInts entered.lists entered.small]
    rfl
  have told : Run.trace (Session.print (Value.intsText xs ++ "\n")) (m.entered 7)
      = .ok () { m.entered 7 with session := printed states xs } := by
    rw [Run.trace, entered.session, print_logged]
  have prints : eval c.user (.call (.name "print") [.name "arr"] []) (m.entered 7)
      = .ok .none { m.entered 7 with session := printed states xs } := by
    rw [Yields.run_call name (.cons entered.yields_list .nil)]
    exact (Run.bind_ok keywords).trans ((Run.bind_ok separator).trans ((Run.bind_ok ending).trans
      ((Run.bind_ok texts).trans (Run.bind_ok told))))
  exact ⟨_, runStmt_expr hc prints, rfl⟩

/-! ## The whole script -/

/-- The script runs to its end. It puts out, for every inversion of the list, a line with the list
as it is after one more exchange of neighbours, and then the list in order. A list of `2 ^ 63` items
or more fits in no memory. -/
theorem bubble_sort_sorts (L : List Int) (hsmall : ∀ x ∈ L, Small x)
    (hlength : L.length < 2 ^ 63) (rounds : Nat) (hrounds : L.length < rounds) :
    ∃ states o, runSource (source L) .standard none rounds = .ok o ∧ o.fault = none ∧
      o.session.sink.bytes = (String.join (states.map stateLine)
        ++ (Value.intsText (L.mergeSort (· ≤ ·)) ++ "\n")).toUTF8 ∧
      states.length = inversions L ∧ o.session.states = inversions L ∧
      (∀ s ∈ states, s.Perm L) ∧ (L :: states).IsChain Exchange := by
  obtain ⟨c, hcontrol⟩ : ∃ c : Control, c = ⟨userCall none rounds 1000, none, rounds⟩ := ⟨_, rfl⟩
  have hc : c.timeout = none := by rw [hcontrol]
  have enough : L.length < c.rounds := by rwa [hcontrol]
  obtain ⟨m₁, passes, states, xs, came, holds, settled⟩ := runStmt_passes hc
    ⟨[], L, .start, holds_sizeBound hsmall hlength, settled_length L⟩ enough
  obtain ⟨m₂, prints, session⟩ := holds.print hc
  have ran : runBlock c (program L) (Machine.start (.start .stream [] none))
      = .ok .normal m₂ := by
    rw [runBlock_program hc hlength, loops, runBlock_cons passes, runBlock_cons prints]
    rfl
  have sorted : L.mergeSort (· ≤ ·) = xs :=
    List.Perm.eq_of_pairwise' (L.pairwise_mergeSort' (· ≤ ·)) settled.pairwise
      ((L.mergeSort_perm _).trans came.perm.symm)
  have count := came.inversions
  rw [inversions_of_pairwise settled.pairwise, Nat.add_zero] at count
  refine ⟨states, ⟨none, m₂.session⟩, ?_, rfl, ?_, count.symm, ?_, came.states_perm, came.chain⟩
  · rw [runSource_standard (programOf_source hsmall) (hcontrol ▸ ran)]
  · rw [sorted, session]
    rfl
  · rw [session, count]
    rfl

theorem bubble_sort_sorts_three : (∀ x ∈ [3, 1, 2], Small x) ∧ [(3 : Int), 1, 2].length < 2 ^ 63 ∧
    [(3 : Int), 1, 2].length < 4 ∧
    ∃ states o, runSource (source [3, 1, 2]) .standard none 4 = .ok o ∧ o.fault = none ∧
      o.session.sink.bytes = (String.join (states.map stateLine)
        ++ (Value.intsText ([3, 1, 2].mergeSort (· ≤ ·)) ++ "\n")).toUTF8 ∧
      states.length = inversions [3, 1, 2] ∧ o.session.states = inversions [3, 1, 2] ∧
      (∀ s ∈ states, s.Perm [3, 1, 2]) ∧ ([3, 1, 2] :: states).IsChain Exchange :=
  ⟨by decide, by decide, by decide,
    bubble_sort_sorts [3, 1, 2] (by decide) (by decide) 4 (by decide)⟩

end SortTrace.BubbleSort
