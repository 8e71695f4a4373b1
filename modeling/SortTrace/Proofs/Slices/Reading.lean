import SortTrace.Machine.Builtin
import SortTrace.Proofs.Evaluation
import SortTrace.Proofs.Slices.Positions

/-!
# What a slice reads

A slice of a sequence has the items at its positions, so it makes no difference whether a sequence
is sliced before or after its items are put into a list. The main statement is `slice_exact`.
-/

namespace SortTrace

namespace Heap

@[simp] theorem items_insert (h : Heap) (items : Array Value) :
    (h.insert items).2.items h.size = items := by
  simp [Heap.items, insert, size]

end Heap

namespace Value

variable {s : Slice}

theorem picked_map {α β : Type} (f : α → β) (items : Array α) (s : Slice) :
    picked (items.map f) s = (picked items s).map f := by
  simp [picked, List.map_filterMap]

/-- Every position of a slice has its item. -/
theorem map_some_picked {α : Type} (hs : s.stride ≠ 0) (items : Array α) :
    (picked items s).toList.map some = (s.positions items.size).map (items[·]?) := by
  have inside : ∀ n ∈ s.positions items.size, n < items.size :=
    fun n hn => Slice.lt_of_mem_positions hs hn
  rw [picked]
  generalize s.positions items.size = positions at inside
  induction positions with
  | nil => rfl
  | cons n positions ih =>
    have first := Array.getElem?_eq_getElem (inside n (.head _))
    have others := ih fun k hk => inside k (.tail _ hk)
    simpa [first] using others

theorem size_picked {α : Type} (hs : s.stride ≠ 0) (items : Array α) :
    (picked items s).size = (s.positions items.size).length := by
  simpa using congrArg List.length (map_some_picked hs items)

theorem slice_list (hs : s.stride ≠ 0) (h : Heap) (place : Nat) :
    slice (.list place) s h
      = .ok (.list h.size) (h.insert (picked (h.items place) s)).2 := by
  rw [slice, if_neg hs]
  rfl

/-- The items of a slice are those at its positions. -/
theorem iterate_slice (hs : s.stride ≠ 0) {h : Heap} {v : Value} {items : Array Value}
    (hv : h.iterate v = .ok items) :
    ∃ w h', v.slice s h = .ok w h' ∧ h'.iterate w = .ok (picked items s) := by
  cases v with
  | list place =>
    cases hv
    refine ⟨.list h.size, (h.insert (picked (h.items place) s)).2, slice_list hs h place, ?_⟩
    rw [Heap.iterate, Heap.items_insert]
  | tuple id vs =>
    cases hv
    refine ⟨.tuple h.mark.1 (picked vs.toArray s).toList, h.mark.2, ?_, rfl⟩
    rw [slice, if_neg hs]
    rfl
  | str text =>
    cases hv
    refine ⟨.str (String.ofList (picked text.toList.toArray s).toList), h, ?_, ?_⟩
    · rw [slice, if_neg hs]
      rfl
    · rw [Heap.iterate, String.toList_ofList, ← List.map_toArray, ← List.map_toArray, picked_map]
  | range span =>
    refine ⟨.list h.size, (h.insert (picked items s)).2, ?_, ?_⟩
    · rw [slice, if_neg hs]
      exact Compute.bind_ok (Compute.read_ok hv)
    · rw [Heap.iterate, Heap.items_insert]
  | _ => cases hv

/-- A list of the items of a value is a new list. -/
theorem run_list (apply : Apply) {m : Machine} {v : Value} {items : Array Value}
    (hv : m.heap.iterate v = .ok items) :
    Builtin.run apply .list [v] [] m
      = .ok (.list m.heap.size) { m with heap := (m.heap.insert items).2 } := by
  have listed : Builtin.optionalItems "list" [v] m = .ok items m := by
    change Run.read (fun h => h.iterate v) m = _
    exact Run.read_ok hv
  change (Builtin.optionalItems "list" [v] >>= fun items => Run.compute (Compute.newList items)) m
    = _
  exact Run.bind_ok listed

end Value

/-- A slice with a step has the positions from its lower to its upper bound, by its step, and no
others: each bound counts from the end if it is negative, is clamped to the sequence and stands for
an end of it where it is absent. So they lie in the sequence and differ from each other. Where the
length has 64 bits, no addition to a bound overflows, and a loop in 64 bits finds the positions
although it stops where the next number would overflow. Listing the items of a slice gives the slice
of the listed items. -/
theorem slice_exact (s : Slice) (hs : s.stride ≠ 0) :
    (∀ length : Nat, ∃ (start stop : Int) (n : Nat),
      (0 < s.stride → Slice.Resolves length 0 length 0 s.lower start ∧
        Slice.Resolves length 0 length length s.upper stop) ∧
      (s.stride < 0 → Slice.Resolves length (-1) (length - 1) (length - 1) s.lower start ∧
        Slice.Resolves length (-1) (length - 1) (-1) s.upper stop) ∧
      (s.positions length).map Int.ofNat
        = (List.range n).map (fun k : Nat => start + s.stride * k) ∧
      ∀ k : Nat, k < n ↔ (0 < s.stride ∧ start + s.stride * k < stop) ∨
        (s.stride < 0 ∧ stop < start + s.stride * k)) ∧
    (∀ length, (∀ n ∈ s.positions length, n < length) ∧ (s.positions length).Nodup) ∧
    (∀ length < positionLimit,
      (∀ bound : Int64, bound < 0 → (bound + Int64.ofNat length).toInt = bound.toInt + length) ∧
      (Int64.ofNat length - 1).toInt = (length : Int) - 1 ∧
      ((s.span (Int64.ofNat length)).walk (s.span (Int64.ofNat length)).start).map Int64.toInt
        = (s.positions length).map Int.ofNat) ∧
    ∀ (apply : Apply) (m : Machine) (v : Value) (items : Array Value),
      m.heap.iterate v = .ok items → ∃ first last m₁ m₂,
        (Run.compute (v.slice s) >>= fun w => Builtin.run apply .list [w] []) m
          = .ok (.list first) m₁ ∧
        (Builtin.run apply .list [v] [] >>= fun w => Run.compute (w.slice s)) m
          = .ok (.list last) m₂ ∧
        m₁.heap.items first = m₂.heap.items last ∧
        (m₁.heap.items first).toList.map some = (s.positions items.size).map (items[·]?) := by
  refine ⟨fun length => ?_, fun length => ?_, fun length hl => ?_, fun apply m v items hv => ?_⟩
  · refine ⟨_, _, (s.progression length).length, fun up => Slice.progression_of_pos up length,
      fun down => Slice.progression_of_neg down length, ?_, fun k => ?_⟩
    · rw [Slice.positions_cast hs, Progression.terms]
      refine List.map_congr_left fun k _ => ?_
      rw [Progression.term, Slice.step_progression]
    · have step : (s.progression length).step ≠ 0 := by rwa [Slice.step_progression]
      rw [Progression.lt_length_iff step, Progression.Before, Progression.term,
        Slice.step_progression]
  · exact ⟨fun n hn => Slice.lt_of_mem_positions hs hn, Slice.nodup_positions hs length⟩
  · exact ⟨fun bound hb => Slice.toInt_add_length hl hb, Slice.toInt_length_sub_one hl,
      Slice.map_walk hs hl⟩
  · obtain ⟨w, h', sliced, iterated⟩ := Value.iterate_slice hs hv
    have listed := Value.run_list apply hv
    have slicedLast := Value.slice_list hs (m.heap.insert items).2 m.heap.size
    rw [Heap.items_insert] at slicedLast
    refine ⟨_, _, _, _, (Run.bind_ok (Run.compute_ok sliced)).trans (Value.run_list apply iterated),
      (Run.bind_ok listed).trans (Run.compute_ok slicedLast), ?_, ?_⟩
    · exact (Heap.items_insert ..).trans (Heap.items_insert ..).symm
    · rw [← Value.map_some_picked hs]
      exact congrArg (fun xs => xs.toList.map some) (Heap.items_insert ..)

/-- Of three items the second one is taken and no other, as the step leads out of 64 bits. -/
theorem slice_exact_huge :
    let s : Slice := ⟨some 1, none, some Int64.maxValue⟩
    s.stride ≠ 0 ∧ s.positions 3 = [1] ∧ (s.span 3).walk (s.span 3).start = [1] ∧
      (s.positions 3).Nodup := by
  intro s
  have hs : s.stride ≠ 0 := by decide
  obtain ⟨-, within, steps, -⟩ := slice_exact s hs
  have positions : s.positions 3 = [1] := by decide
  refine ⟨hs, positions, ?_, (within 3).2⟩
  have walk := (steps 3 (by decide)).2.2
  rw [positions] at walk
  exact List.map_injective_iff.mpr (fun _ _ same => Int64.toInt_inj.mp same) walk

end SortTrace
