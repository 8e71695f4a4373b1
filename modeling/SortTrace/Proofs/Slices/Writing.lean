import SortTrace.Proofs.Slices.Reading

/-!
# What a slice writes

To write to a slice is to put items where reading finds them (`setSlice_writes`). A slice of step
one is a stretch of the list, which is found by a rule of its own (`Slice.edge`); it is the stretch
whose items are read, or an empty one at the lower bound where the bounds are crossed. Any other
slice is written position by position, each of them once.
-/

namespace SortTrace

/-! ## The stretch of a slice of step one -/

namespace Slice

variable {s : Slice} {length : Nat}

theorem resolves_edge {standard : Nat} (h : standard ≤ length) (bound : Option Int64) :
    Resolves length 0 length standard bound (edge length standard bound) := by
  cases bound with
  | none => rfl
  | some i =>
    simp only [Resolves, edge]
    split <;> omega

theorem Resolves.unique {low high standard x y : Int} {bound : Option Int64} (h : low ≤ high)
    (hx : Resolves length low high standard bound x)
    (hy : Resolves length low high standard bound y) : x = y := by
  cases bound with
  | none => exact Eq.trans hx (Eq.symm hy)
  | some i =>
    simp only [Resolves] at hx hy
    omega

theorem start_eq_edge (hs : s.stride = 1) (length : Nat) :
    (s.progression length).start = edge length 0 s.lower :=
  (progression_of_pos (by omega) length).1.unique (by omega) (resolves_edge (Nat.zero_le length) _)

theorem stop_eq_edge (hs : s.stride = 1) (length : Nat) :
    (s.progression length).stop = edge length length s.upper :=
  (progression_of_pos (by omega) length).2.unique (by omega) (resolves_edge le_rfl _)

theorem edge_le {standard : Nat} (h : standard ≤ length) (bound : Option Int64) :
    edge length standard bound ≤ length := by
  have := (resolves_edge h bound).bounds (by omega) (by omega)
  omega

theorem stretch_bounds (s : Slice) (length : Nat) :
    (s.stretch length).1 ≤ (s.stretch length).2 ∧ (s.stretch length).2 ≤ length := by
  have := edge_le (Nat.zero_le length) s.lower
  have := edge_le (le_refl length) s.upper
  simp only [stretch]
  omega

/-- The positions of a slice of step one are those of its stretch. -/
theorem positions_of_stretch (hs : s.stride = 1) (length : Nat) :
    s.positions length
      = List.range' (s.stretch length).1 ((s.stretch length).2 - (s.stretch length).1) := by
  have start := start_eq_edge hs length
  have stop := stop_eq_edge hs length
  have step : (s.progression length).step = 1 := (step_progression s length).trans hs
  have count : (s.progression length).length
      = (s.stretch length).2 - (s.stretch length).1 := by
    have inside := Progression.lt_length_iff (p := s.progression length) (by omega)
    simp only [Progression.Before, Progression.term, start, stop, step] at inside
    simp only [stretch]
    have := inside ((s.progression length).length)
    have := inside (max (edge length length s.upper) (edge length 0 s.lower)
      - edge length 0 s.lower)
    omega
  rw [positions_eq, count, List.range'_eq_map_range]
  refine List.map_congr_left fun k _ => ?_
  rw [Progression.term, start, step]
  simp only [stretch]
  omega

end Slice

namespace Value

variable {s : Slice} {h h' : Heap} {place : Nat}

theorem getElem?_picked {α : Type} (hs : s.stride ≠ 0) (items : Array α) (k : Nat) :
    (picked items s)[k]? = (s.positions items.size)[k]?.bind (items[·]?) := by
  have listed := congrArg (fun xs => xs[k]?) (map_some_picked hs items)
  simp only [List.getElem?_map, Array.getElem?_toList] at listed
  cases hk : (s.positions items.size)[k]? with
  | none =>
    rw [hk] at listed
    simpa using listed
  | some n =>
    rw [hk] at listed
    cases hp : (picked items s)[k]? <;> simp_all

/-- What is read from a slice of step one is its stretch. -/
theorem picked_of_stretch {α : Type} (hs : s.stride = 1) (items : Array α) :
    picked items s = items.extract (s.stretch items.size).1 (s.stretch items.size).2 := by
  have last := (s.stretch_bounds items.size).2
  refine Array.ext_getElem? fun k => ?_
  rw [getElem?_picked (by omega), Slice.positions_of_stretch hs, Array.getElem?_extract]
  by_cases hk : k < (s.stretch items.size).2 - (s.stretch items.size).1
  · rw [List.getElem?_range' hk, if_pos (by omega)]
    simp
  · rw [List.getElem?_eq_none (by simpa using hk), if_neg (by omega)]
    rfl

/-! ## Items replaced one by one -/

section Replacing

variable {pairs : List (Nat × Value)} {items replacement : Array Value} {positions : List Nat}
  {n : Nat}

theorem size_foldl_set (pairs : List (Nat × Value)) (items : Array Value) :
    (pairs.foldl (fun items p => items.setIfInBounds p.1 p.2) items).size = items.size := by
  induction pairs generalizing items with
  | nil => rfl
  | cons p pairs ih => rw [List.foldl_cons, ih, Array.size_setIfInBounds]

theorem getElem?_foldl_set_of_not_mem (hn : n ∉ pairs.map Prod.fst) (items : Array Value) :
    (pairs.foldl (fun items p => items.setIfInBounds p.1 p.2) items)[n]? = items[n]? := by
  induction pairs generalizing items with
  | nil => rfl
  | cons p pairs ih =>
    rw [List.map_cons, List.mem_cons, not_or] at hn
    rw [List.foldl_cons, ih hn.2, Array.getElem?_setIfInBounds_ne (Ne.symm hn.1)]

/-- Where each position occurs once, it has the item it was given. -/
theorem getElem?_foldl_set_of_mem {v : Value} (hnodup : (pairs.map Prod.fst).Nodup)
    (hn : (n, v) ∈ pairs) (items : Array Value) (inside : n < items.size) :
    (pairs.foldl (fun items p => items.setIfInBounds p.1 p.2) items)[n]? = some v := by
  induction pairs generalizing items with
  | nil => cases hn
  | cons p pairs ih =>
    rw [List.map_cons, List.nodup_cons] at hnodup
    rw [List.foldl_cons]
    rcases List.mem_cons.mp hn with rfl | hn
    · rw [getElem?_foldl_set_of_not_mem hnodup.1, Array.getElem?_setIfInBounds_self_of_lt inside]
    · exact ih hnodup.2 hn _ (by rwa [Array.size_setIfInBounds])

/-- Items that are there already change nothing. -/
theorem foldl_set_same (hp : ∀ p ∈ pairs, items[p.1]? = some p.2) :
    pairs.foldl (fun items p => items.setIfInBounds p.1 p.2) items = items := by
  induction pairs with
  | nil => rfl
  | cons p pairs ih =>
    obtain ⟨inside, item⟩ := Array.getElem?_eq_some_iff.mp (hp p (.head _))
    have same : items.setIfInBounds p.1 p.2 = items := by
      rw [← item, Array.setIfInBounds, dif_pos inside, Array.set_getElem_self]
    rw [List.foldl_cons, same]
    exact ih fun q hq => hp q (.tail _ hq)

theorem size_replaceEach (items : Array Value) (positions : List Nat)
    (replacement : Array Value) :
    (replaceEach items positions replacement).size = items.size :=
  size_foldl_set _ items

theorem getElem?_replaceEach_of_not_mem (hn : n ∉ positions) :
    (replaceEach items positions replacement)[n]? = items[n]? := by
  refine getElem?_foldl_set_of_not_mem (fun mem => hn ?_) items
  obtain ⟨p, hp, rfl⟩ := List.mem_map.mp mem
  exact (List.of_mem_zip hp).1

/-- What is read from a slice after it was replaced item by item is the replacement. -/
theorem picked_replaceEach (hs : s.stride ≠ 0)
    (hsize : (s.positions items.size).length = replacement.size) :
    picked (replaceEach items (s.positions items.size) replacement) s = replacement := by
  refine Array.ext_getElem? fun k => ?_
  rw [getElem?_picked hs, size_replaceEach]
  cases hk : (s.positions items.size)[k]? with
  | none =>
    rw [List.getElem?_eq_none_iff] at hk
    exact (Array.getElem?_eq_none (by omega)).symm
  | some n =>
    obtain ⟨hlt, -⟩ := List.getElem?_eq_some_iff.mp hk
    have item : replacement[k]? = some replacement[k] := Array.getElem?_eq_getElem _
    have paired : (n, replacement[k]) ∈ (s.positions items.size).zip replacement.toList := by
      refine List.mem_of_getElem? (i := k) ?_
      rw [List.getElem?_zip_eq_some]
      exact ⟨hk, by rw [Array.getElem?_toList, item]⟩
    rw [Option.bind_some, item]
    refine getElem?_foldl_set_of_mem ?_ paired items
      (Slice.lt_of_mem_positions hs (List.mem_of_getElem? hk))
    rw [List.map_fst_zip (by simp [hsize])]
    exact Slice.nodup_positions hs items.size

end Replacing

/-! ## Lists written to -/

theorem setSlice_eq_ok (h h' : Heap) (place : Nat) (s : Slice) (v : Value) :
    setSlice (.list place) s v h = .ok () h' ↔ ∃ replacement items,
      h.iterate v = .ok replacement ∧ spliced (h.items place) s replacement = .ok items ∧
        h' = h.modify place fun _ => items := by
  rw [setSlice]
  constructor
  · intro written
    obtain ⟨replacement, h₁, listing, computed⟩ := Compute.ok_of_bind written
    obtain ⟨listed, rfl⟩ := Compute.ok_of_read listing
    obtain ⟨items, h₂, putting, stored⟩ := Compute.ok_of_bind computed
    obtain ⟨put, rfl⟩ := Compute.ok_of_read putting
    cases stored
    exact ⟨replacement, items, listed, put, rfl⟩
  · rintro ⟨replacement, items, listed, put, rfl⟩
    rw [Compute.bind_ok (Compute.read_ok listed), Compute.bind_ok (Compute.read_ok put)]
    rfl

section Spliced

variable {items replacement : Array Value}

theorem spliced_of_one (hs : s.stride = 1) (items replacement : Array Value) :
    spliced items s replacement
      = .ok (splice items (s.stretch items.size).1 (s.stretch items.size).2 replacement) := by
  rw [spliced, if_neg (by omega), if_pos hs]

theorem spliced_of_ne_one (h₀ : s.stride ≠ 0) (h₁ : s.stride ≠ 1)
    (hsize : (s.positions items.size).length = replacement.size) :
    spliced items s replacement
      = .ok (replaceEach items (s.positions items.size) replacement) := by
  rw [spliced, if_neg h₀, if_neg h₁]
  exact if_pos hsize

/-- Items are put into a slice unless it takes them one by one and they are of another number. -/
theorem spliced_ok_iff :
    (∃ new, spliced items s replacement = .ok new) ↔ s.stride ≠ 0 ∧
      (s.stride = 1 ∨ replacement.size = (s.positions items.size).length) := by
  by_cases h₀ : s.stride = 0
  · rw [spliced, if_pos h₀]
    simp [h₀]
  by_cases h₁ : s.stride = 1
  · simp [spliced_of_one h₁, h₁]
  by_cases hsize : (s.positions items.size).length = replacement.size
  · simp [spliced_of_ne_one h₀ h₁ hsize, h₀, hsize]
  · rw [spliced, if_neg h₀, if_neg h₁]
    dsimp only
    rw [if_neg hsize]
    simp [h₁, Ne.symm hsize]

theorem splice_extract {low high : Nat} (hl : low ≤ high) (hh : high ≤ items.size) :
    splice items low high (items.extract low high) = items := by
  rw [splice, Array.extract_append_extract, Nat.max_eq_right hl, Array.extract_append_extract]
  simp [Nat.max_eq_right hh]

/-- To put into a slice what it has leaves all items as they are. -/
theorem spliced_picked (hs : s.stride ≠ 0) (items : Array Value) :
    spliced items s (picked items s) = .ok items := by
  by_cases h₁ : s.stride = 1
  · obtain ⟨hl, hh⟩ := s.stretch_bounds items.size
    rw [spliced_of_one h₁, picked_of_stretch h₁, splice_extract hl hh]
  · rw [spliced_of_ne_one hs h₁ (size_picked hs items).symm, replaceEach, foldl_set_same]
    intro p hp
    obtain ⟨k, hk⟩ := List.mem_iff_getElem?.mp hp
    obtain ⟨position, item⟩ := List.getElem?_zip_eq_some.mp hk
    rw [Array.getElem?_toList, getElem?_picked hs, position, Option.bind_some] at item
    exact item

end Spliced

/-- A slice of a list, when it is read, has the items. -/
def SliceReads (h : Heap) (place : Nat) (s : Slice) (items : Array Value) : Prop :=
  ∃ copy h', slice (.list place) s h = .ok (.list copy) h' ∧ h'.items copy = items

theorem sliceReads_iff (hs : s.stride ≠ 0) {items : Array Value} :
    SliceReads h place s items ↔ items = picked (h.items place) s := by
  rw [SliceReads, slice_list hs]
  constructor
  · rintro ⟨copy, h', eq, rfl⟩
    cases eq
    exact Heap.items_insert ..
  · rintro rfl
    exact ⟨h.size, _, rfl, Heap.items_insert ..⟩

/-- A list whose slice of step one is written has the new items between those before the lower
bound and those behind the slice. -/
theorem setSlice_of_one (hs : s.stride = 1) (items replacement : Array Value) :
    ∃ (low high : Int) (front back : Array Value),
      Slice.Resolves items.size 0 items.size 0 s.lower low ∧
      Slice.Resolves items.size 0 items.size items.size s.upper high ∧
      front.size = low ∧ spliced items s replacement = .ok (front ++ replacement ++ back) ∧
      (low ≤ high → items = front ++ picked items s ++ back) ∧
      (high < low → items = front ++ back) := by
  have first := Slice.edge_le (Nat.zero_le items.size) s.lower
  obtain ⟨hl, hh⟩ := s.stretch_bounds items.size
  refine ⟨_, _, items.extract 0 (s.stretch items.size).1,
    items.extract (s.stretch items.size).2 items.size,
    Slice.resolves_edge (Nat.zero_le items.size) s.lower, Slice.resolves_edge le_rfl s.upper, ?_,
    spliced_of_one hs items replacement, fun _ => ?_, fun crossed => ?_⟩
  · simp [Slice.stretch, first]
  · rw [picked_of_stretch hs]
    exact (splice_extract hl hh).symm
  · have empty : (s.stretch items.size).2 = (s.stretch items.size).1 := by
      simp only [Slice.stretch]
      omega
    rw [empty, Array.extract_append_extract]
    simp [Nat.max_eq_right (hl.trans hh)]

end Value

namespace Heap

variable {h : Heap} {place other : Nat}

theorem items_modify_self (hp : place < h.size) (f : Array Value → Array Value) :
    (h.modify place f).items place = f (h.items place) := by
  have found : h.lists[place]? = some h.lists[place] := Array.getElem?_eq_getElem hp
  simp [items, modify, Array.getElem?_modify, found]

theorem items_modify_ne (hne : other ≠ place) (f : Array Value → Array Value) :
    (h.modify place f).items other = h.items other := by
  simp [items, modify, Array.getElem?_modify, Ne.symm hne]

theorem items_insert_of_lt (hp : place < h.size) (items : Array Value) :
    (h.insert items).2.items place = h.items place := by
  rw [Heap.items, Heap.items, insert, Array.getElem?_push_lt hp, Array.getElem?_eq_getElem hp]

end Heap

open Value (setSlice slice SliceReads picked)

/-- To write to a slice what is read from it leaves all lists as they are. -/
theorem Value.setSlice_same {s : Slice} (hs : s.stride ≠ 0) {h : Heap} {place : Nat}
    (hp : place < h.size) {v : Value} {items : Array Value} (listed : h.iterate v = .ok items)
    (reads : SliceReads h place s items) :
    ∃ h', setSlice (.list place) s v h = .ok () h' ∧ ∀ other, h'.items other = h.items other := by
  rw [sliceReads_iff hs] at reads
  have put := spliced_picked hs (h.items place)
  rw [← reads] at put
  refine ⟨_, (setSlice_eq_ok ..).mpr ⟨items, _, listed, put, rfl⟩, fun other => ?_⟩
  by_cases hne : other = place
  · rw [hne, Heap.items_modify_self hp]
  · rw [Heap.items_modify_ne hne]

/-- So does the slice itself, which is a list of its own by then. -/
theorem Value.setSlice_slice {s : Slice} (hs : s.stride ≠ 0) {h : Heap} {place : Nat}
    (hp : place < h.size) :
    ∃ w h₁ h₂, slice (.list place) s h = .ok w h₁ ∧ setSlice (.list place) s w h₁ = .ok () h₂ ∧
      ∀ other < h.size, h₂.items other = h.items other := by
  let h₁ := (h.insert (picked (h.items place) s)).2
  have kept {other : Nat} (ho : other < h.size) : h₁.items other = h.items other :=
    Heap.items_insert_of_lt ho _
  have hp₁ : place < h₁.size := by
    change place < (h.lists.push _).size
    rw [Array.size_push]
    exact Nat.lt_succ_of_lt hp
  have listed : h₁.iterate (.list h.size) = .ok (picked (h.items place) s) :=
    congrArg Except.ok (Heap.items_insert ..)
  have reads : SliceReads h₁ place s (picked (h.items place) s) := by
    rw [sliceReads_iff hs, kept hp]
  obtain ⟨h₂, written, same⟩ := setSlice_same hs hp₁ listed reads
  exact ⟨_, h₁, h₂, slice_list hs h place, written, fun other ho =>
    (same other).trans (kept ho)⟩

/-- A slice of a list can be replaced by the items of a value unless its step is zero, and by any
number of them only if it is one. A slice of step one is then the new items; where its bounds are
crossed, it was empty and they stand at the lower one. Another slice is read as the new items, and
the positions that it leaves out keep theirs. The items that are read from a slice can be written to
it, whatever value lists them, and leave the list as it was. -/
theorem setSlice_writes (s : Slice) {h : Heap} {place : Nat} (hp : place < h.size) :
    (∀ v, (∃ h', setSlice (.list place) s v h = .ok () h') ↔
      ∃ items, h.iterate v = .ok items ∧ s.stride ≠ 0 ∧
        (s.stride = 1 ∨ items.size = (s.positions (h.items place).size).length)) ∧
    (∀ v items h', h.iterate v = .ok items → setSlice (.list place) s v h = .ok () h' →
      (s.stride = 1 → ∃ (low high : Int) (front back : Array Value),
        Slice.Resolves (h.items place).size 0 (h.items place).size 0 s.lower low ∧
        Slice.Resolves (h.items place).size 0 (h.items place).size (h.items place).size s.upper
          high ∧
        front.size = low ∧ h'.items place = front ++ items ++ back ∧
        (low ≤ high → ∃ old, SliceReads h place s old ∧ h.items place = front ++ old ++ back) ∧
        (high < low → h.items place = front ++ back)) ∧
      (s.stride ≠ 1 → (∃ old, SliceReads h place s old ∧ old.size = items.size) ∧
        SliceReads h' place s items ∧ (h'.items place).size = (h.items place).size ∧
        ∀ n ∉ s.positions (h.items place).size, (h'.items place)[n]? = (h.items place)[n]?) ∧
      ∀ other ≠ place, h'.items other = h.items other) ∧
    (s.stride ≠ 0 →
      (∀ v items, h.iterate v = .ok items → SliceReads h place s items →
        ∃ h', setSlice (.list place) s v h = .ok () h' ∧ ∀ other, h'.items other = h.items other) ∧
      ∃ w h₁ h₂, slice (.list place) s h = .ok w h₁ ∧ setSlice (.list place) s w h₁ = .ok () h₂ ∧
        ∀ other < h.size, h₂.items other = h.items other) := by
  refine ⟨fun v => ⟨?_, ?_⟩, fun v items h' listed written => ?_,
    fun hs => ⟨fun v items listed reads => ?_, ?_⟩⟩
  · rintro ⟨h', written⟩
    obtain ⟨items, new, listed, put, -⟩ := (Value.setSlice_eq_ok ..).mp written
    exact ⟨items, listed, Value.spliced_ok_iff.mp ⟨new, put⟩⟩
  · rintro ⟨items, listed, fits⟩
    obtain ⟨new, put⟩ := Value.spliced_ok_iff.mpr fits
    exact ⟨_, (Value.setSlice_eq_ok ..).mpr ⟨items, new, listed, put, rfl⟩⟩
  · obtain ⟨items', new, listed', put, rfl⟩ := (Value.setSlice_eq_ok ..).mp written
    obtain rfl := Except.ok.inj (listed.symm.trans listed')
    obtain ⟨hs, fits⟩ := Value.spliced_ok_iff.mp ⟨new, put⟩
    have changed : (h.modify place fun _ => new).items place = new := Heap.items_modify_self hp _
    refine ⟨fun one => ?_, fun notOne => ?_, fun other hne => Heap.items_modify_ne hne _⟩
    · obtain ⟨low, high, front, back, hlow, hhigh, first, placed, between, crossed⟩ :=
        Value.setSlice_of_one one (h.items place) items
      refine ⟨low, high, front, back, hlow, hhigh, first, ?_, fun le =>
        ⟨_, (Value.sliceReads_iff hs).mpr rfl, between le⟩, crossed⟩
      rw [changed]
      exact Except.ok.inj (put.symm.trans placed)
    · have hsize := (fits.resolve_left notOne).symm
      have replaced := Except.ok.inj (put.symm.trans (Value.spliced_of_ne_one hs notOne hsize))
      have kept := Value.size_replaceEach (h.items place) (s.positions (h.items place).size) items
      refine ⟨⟨_, (Value.sliceReads_iff hs).mpr rfl, ?_⟩, (Value.sliceReads_iff hs).mpr ?_, ?_,
        fun n hn => ?_⟩
      · rw [Value.size_picked hs, hsize]
      · rw [changed, replaced, Value.picked_replaceEach hs hsize]
      · rw [changed, replaced, kept]
      · rw [changed, replaced, Value.getElem?_replaceEach_of_not_mem hn]
  · exact Value.setSlice_same hs hp listed reads
  · exact Value.setSlice_slice hs hp

/-- Every second item is replaced by two others, which are then read, and three do not fit. -/
theorem setSlice_writes_second :
    let h : Heap := ⟨#[#[.int 0, .int 1, .int 2, .int 3]], 0⟩
    let second : Slice := ⟨none, none, some 2⟩
    0 < h.size ∧
      (∃ h', setSlice (.list 0) second (.tuple 0 [.int 7, .int 8]) h = .ok () h' ∧
        SliceReads h' 0 second #[.int 7, .int 8] ∧ (h'.items 0)[1]? = some (.int 1)) ∧
      ¬ ∃ h', setSlice (.list 0) second (.tuple 0 [.int 7, .int 8, .int 9]) h = .ok () h' := by
  intro h second
  have hp : 0 < h.size := by decide
  have positions : second.positions (h.items 0).size = [0, 2] := by decide
  obtain ⟨succeeds, writes, -⟩ := setSlice_writes second hp
  refine ⟨hp, ?_, ?_⟩
  · obtain ⟨h', written⟩ := (succeeds (.tuple 0 [.int 7, .int 8])).mpr
      ⟨_, rfl, by decide, .inr (by rw [positions]; rfl)⟩
    obtain ⟨-, each, -⟩ := writes _ _ h' rfl written
    obtain ⟨-, reads, -, others⟩ := each (by decide)
    exact ⟨h', written, reads, others 1 (by rw [positions]; decide)⟩
  · rw [succeeds]
    rintro ⟨items, listed, -, one | fits⟩
    · exact absurd one (by decide)
    · cases listed
      rw [positions] at fits
      cases fits

end SortTrace
