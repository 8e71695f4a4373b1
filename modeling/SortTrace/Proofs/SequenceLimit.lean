import Mathlib.Data.String.Basic
import SortTrace.Proofs.Refusals
import SortTrace.Proofs.Runs
import SortTrace.Proofs.Slices.Writing

/-!
# The limit on the length of sequences

Repeating a sequence and listing a range compare the length of the result with the limit before
anything is built. Joining two sequences and extending a list do not, so what they build keeps to
the limit only if the lengths of their operands add up to no more (`sequence_limit`), and two
sequences within the limit can be joined to one beyond it (`joined_passes_limit`).
-/

namespace SortTrace

open Compute (longest)
open Script (BinOp)

/-- The faults that refuse a sequence of the given length. -/
def Fault.IsLength (f : Fault) (length : Nat) : Prop :=
  f = .overflow ∨ f = .oversize length

/-- The length that the limit is about: the number of items, the number of bytes of a text, and
nothing for a value that is no list, tuple or text. -/
def Value.extent (h : Heap) : Value → Nat
  | list place => (h.items place).size
  | tuple _ items => items.length
  | str s => s.utf8ByteSize
  | _ => 0

namespace Compute

variable {length : Nat}

theorem fits_ok_iff : fits length = .ok () ↔ length ≤ longest := by
  unfold fits
  split <;> simp [*]

theorem fits_of_lt (h : longest < length) : fits length = .error (.oversize length) :=
  if_neg (Nat.not_le.mpr h)

/-- The computation refuses to build a sequence of the given length, and changes nothing. -/
def Refuses {α : Type} (c : Compute α) (h : Heap) (length : Nat) : Prop :=
  ∃ f, c h = .error f h ∧ f.IsLength length

/-- What the operation builds is within the limit, and if it fails it has changed nothing. -/
structure KeepsLimit (c : Compute Value) (h : Heap) : Prop where
  fits : ∀ {r : Value} {h' : Heap}, c h = .ok r h' → r.extent h' ≤ longest
  kept : ∀ {f : Fault} {h' : Heap}, c h = .error f h' → h' = h

end Compute

open Compute (Refuses KeepsLimit)

namespace Value

variable {h h' : Heap} {v w r : Value} {n : Int64}

/-! ## Repetition -/

section Repetition

variable {length : Nat} {items more : Array Value} {s t : String} {unsupported : Fault}

theorem le_of_repeatFits (hf : repeatFits length n = .ok ()) :
    length * repeatCount n ≤ longest := by
  unfold repeatFits at hf
  split at hf
  · cases hf
  · exact Compute.fits_ok_iff.mp hf

theorem repeatFits_of_lt (hl : longest < length * repeatCount n) :
    ∃ f, repeatFits length n = .error f ∧ f.IsLength (length * repeatCount n) := by
  unfold repeatFits
  split
  · exact ⟨_, rfl, .inl rfl⟩
  · exact ⟨_, Compute.fits_of_lt hl, .inr rfl⟩

theorem repeatItems_ok (hi : repeatItems items n = .ok more) :
    more.size = items.size * repeatCount n ∧ items.size * repeatCount n ≤ longest := by
  unfold repeatItems at hi
  cases hf : repeatFits items.size n with
  | error f =>
    rw [hf] at hi
    cases hi
  | ok =>
    rw [hf] at hi
    cases hi
    refine ⟨?_, le_of_repeatFits hf⟩
    split
    · next empty => simp_all
    · simp [Nat.mul_comm]

theorem repeatItems_of_lt (hl : longest < items.size * repeatCount n) :
    ∃ f, repeatItems items n = .error f ∧ f.IsLength (items.size * repeatCount n) := by
  obtain ⟨f, hf, refused⟩ := repeatFits_of_lt hl
  exact ⟨f, by rw [repeatItems, hf]; rfl, refused⟩

theorem utf8ByteSize_join_replicate (s : String) (k : Nat) :
    (String.join (List.replicate k s)).utf8ByteSize = s.utf8ByteSize * k := by
  induction k with
  | zero => rfl
  | succ k ih =>
    rw [List.replicate_succ, String.join_cons, String.utf8ByteSize_append, ih]
    lia

theorem repeatText_ok (ht : repeatText s n = .ok t) :
    t.utf8ByteSize = s.utf8ByteSize * repeatCount n ∧
      s.utf8ByteSize * repeatCount n ≤ longest := by
  unfold repeatText at ht
  cases hf : repeatFits s.utf8ByteSize n with
  | error f =>
    rw [hf] at ht
    cases ht
  | ok =>
    rw [hf] at ht
    cases ht
    refine ⟨?_, le_of_repeatFits hf⟩
    split
    · next empty => simp_all
    · exact utf8ByteSize_join_replicate ..

theorem repeatText_of_lt (hl : longest < s.utf8ByteSize * repeatCount n) :
    ∃ f, repeatText s n = .error f ∧ f.IsLength (s.utf8ByteSize * repeatCount n) := by
  obtain ⟨f, hf, refused⟩ := repeatFits_of_lt hl
  exact ⟨f, by rw [repeatText, hf]; rfl, refused⟩

theorem newList_ok (hr : Compute.newList items h = .ok r h') : r.extent h' = items.size := by
  cases hr
  exact congrArg Array.size (Heap.items_insert ..)

theorem newTuple_ok {items : List Value} (hr : Compute.newTuple items h = .ok r h') :
    r.extent h' = items.length := by
  cases hr
  rfl

theorem of_ok {α : Type} {x : Except Fault α} {a : α} (hc : Compute.of x h = .ok a h') :
    x = .ok a ∧ h' = h := by
  cases x <;> cases hc
  exact ⟨rfl, rfl⟩

theorem repeated_ok (hr : repeated unsupported v n h = .ok r h') : r.extent h' ≤ longest := by
  unfold repeated at hr
  split at hr
  · obtain ⟨items, h₁, hread, hnew⟩ := Compute.ok_of_bind hr
    obtain ⟨size, fits⟩ := repeatItems_ok (Compute.ok_of_read hread).1
    rw [newList_ok hnew, size]
    exact fits
  · obtain ⟨items, h₁, hof, hnew⟩ := Compute.ok_of_bind hr
    obtain ⟨size, fits⟩ := repeatItems_ok (of_ok hof).1
    rw [newTuple_ok hnew, Array.length_toList, size]
    exact fits
  · rw [map_eq_pure_bind] at hr
    obtain ⟨t, h₁, hof, hnew⟩ := Compute.ok_of_bind hr
    cases hnew
    obtain ⟨size, fits⟩ := repeatText_ok (of_ok hof).1
    exact size.trans_le fits
  · cases hr

theorem repeated_of_lt (hl : longest < v.extent h * repeatCount n) :
    Refuses (repeated unsupported v n) h (v.extent h * repeatCount n) := by
  cases v with
  | list place =>
    obtain ⟨f, hf, refused⟩ := repeatItems_of_lt hl
    exact ⟨f, Compute.bind_error (Compute.read_error hf), refused⟩
  | tuple id items =>
    have long : longest < items.toArray.size * repeatCount n := hl
    obtain ⟨f, hf, refused⟩ := repeatItems_of_lt long
    have stops : Compute.of (repeatItems items.toArray n) h = .error f h := by
      rw [hf]
      rfl
    exact ⟨f, Compute.bind_error stops, refused⟩
  | str s =>
    obtain ⟨f, hf, refused⟩ := repeatText_of_lt hl
    refine ⟨f, ?_, refused⟩
    rw [repeated, hf]
    rfl
  | _ => simp [extent] at hl

end Repetition

/-! ## Operators -/

section Operators

variable {op : BinOp}

theorem integers_ok (hop : op = .add ∨ op = .mul) {a b : Int64}
    (hr : Arithmetic.integers op a b = .ok r) : r.extent h = 0 := by
  have number : ∀ x : Except Fault Int64, Value.int <$> x = .ok r → r.extent h = 0 := by
    rintro (_ | k) hx <;> cases hx
    rfl
  rcases hop with rfl | rfl <;> exact number _ hr

/-- An operator works on integers, on doubles or on sequences. -/
theorem binary_cases (op : BinOp) (v w : Value) :
    (∃ a b, binary op v w = Compute.of (Arithmetic.integers op a b)) ∨
      (∃ x, binary op v w = float <$> Compute.of x) ∨ binary op v w = sequences op v w := by
  unfold binary
  split
  · exact .inl ⟨_, _, rfl⟩
  · split
    · exact .inr (.inl ⟨_, rfl⟩)
    · exact .inr (.inr rfl)

/-- Adding and multiplying numbers builds no sequence. -/
theorem binary_ok (hop : op = .add ∨ op = .mul)
    (hseq : ∀ {r h'}, sequences op v w h = .ok r h' → r.extent h' ≤ longest)
    (hr : binary op v w h = .ok r h') : r.extent h' ≤ longest := by
  obtain ⟨a, b, eq⟩ | ⟨x, eq⟩ | eq := binary_cases op v w <;> rw [eq] at hr
  · rw [integers_ok hop (of_ok hr).1]
    exact Nat.zero_le _
  · rw [map_eq_pure_bind] at hr
    obtain ⟨y, h₁, -, hnew⟩ := Compute.ok_of_bind hr
    cases hnew
    exact Nat.zero_le _
  · exact hseq hr

theorem sequences_mul_cases (v w : Value) :
    (∃ f s n, sequences .mul v w = repeated f s n) ∨ ∃ f, sequences .mul v w = throw f := by
  simp only [sequences]
  split
  · exact .inl ⟨_, _, _, rfl⟩
  · exact .inl ⟨_, _, _, rfl⟩
  · exact .inr ⟨_, rfl⟩

theorem multiplied_ok (hr : binary .mul v w h = .ok r h') : r.extent h' ≤ longest := by
  refine binary_ok (.inr rfl) (fun {r h'} hr => ?_) hr
  obtain ⟨f, s, n, eq⟩ | ⟨f, eq⟩ := sequences_mul_cases v w <;> rw [eq] at hr
  · exact repeated_ok hr
  · cases hr

/-- Two sequences that are joined give one as long as both. -/
theorem joined_ok (hr : joined v w h = .ok r h') : r.extent h' = v.extent h + w.extent h := by
  unfold joined at hr
  split at hr
  · cases hr
    exact String.utf8ByteSize_append
  · cases hr
  · obtain ⟨h₁, h₂, hget, hnew⟩ := Compute.ok_of_bind hr
    cases hget
    rw [newList_ok hnew, Array.size_append]
    rfl
  · cases hr
  · rw [newTuple_ok hr, List.length_append]
    rfl
  · cases hr

theorem added_ok (fits : v.extent h + w.extent h ≤ longest)
    (hr : binary .add v w h = .ok r h') : r.extent h' ≤ longest :=
  binary_ok (.inl rfl) (fun hj => (joined_ok hj).trans_le fits) hr

theorem extent_pos (hl : longest < v.extent h * repeatCount n) : 0 < v.extent h := by
  refine Nat.pos_of_ne_zero fun none => ?_
  simp [none] at hl

/-- Only numbers count as integers. -/
theorem no_number_of_extent (hv : 0 < v.extent h) : v.asInt? = .none ∧ v.asFloat? = .none := by
  cases v <;> simp_all [extent, asInt?, asFloat?]

theorem binary_mul_left (hv : 0 < v.extent h) (hw : w.asInt? = some n) :
    binary .mul v w = repeated (Value.unsupported .mul v w) v n := by
  obtain ⟨noInt, noFloat⟩ := no_number_of_extent hv
  simp [binary, sequences, noInt, noFloat, hw]

theorem binary_mul_right (hv : 0 < v.extent h) (hw : w.asInt? = some n) :
    binary .mul w v = repeated (Value.unsupported .mul w v) v n := by
  obtain ⟨noInt, noFloat⟩ := no_number_of_extent hv
  simp [binary, sequences, noInt, noFloat, hw]

end Operators

/-! ## Updates in place -/

section InPlace

variable {place : Nat}

/-- The number of items, or of bytes of a text, that an update by `+` makes of two values. -/
def grown (h : Heap) : Value → Value → Nat
  | list place, w => (h.items place).size + ((h.iterate w).toOption.map Array.size).getD 0
  | v, w => v.extent h + w.extent h

/-- A list that was changed has the new items. A place without a list still has none. -/
theorem extent_modify_le (f : Array Value → Array Value) :
    (list place).extent (h.modify place f) ≤ (f (h.items place)).size := by
  by_cases hp : place < h.size
  · rw [extent, Heap.items_modify_self hp]
  · have none : h.lists[place]? = .none := Array.getElem?_eq_none (Nat.not_lt.mp hp)
    simp [extent, Heap.items, Heap.modify, Array.getElem?_modify, none]

theorem updated_of_not_list (hv : ∀ place, v ≠ list place) (op : BinOp) :
    updated op v w = binary op v w := by
  unfold updated
  split
  · exact absurd rfl (hv _)
  · exact absurd rfl (hv _)
  · rfl

theorem addedInPlace_ok (fits : v.grown h w ≤ longest) (hr : updated .add v w h = .ok r h') :
    r.extent h' ≤ longest := by
  by_cases hv : ∃ place, v = list place
  · obtain ⟨place, rfl⟩ := hv
    obtain ⟨more, h₁, hread, hnew⟩ := Compute.ok_of_bind hr
    obtain ⟨listed, rfl⟩ := Compute.ok_of_read hread
    cases hnew
    refine (extent_modify_le _).trans ?_
    rw [Array.size_append]
    rw [grown, listed] at fits
    exact fits
  · have hv : ∀ place, v ≠ list place := fun place hp => hv ⟨place, hp⟩
    rw [updated_of_not_list hv] at hr
    refine added_ok ?_ hr
    rw [grown] at fits
    · exact fits
    · exact hv

theorem multipliedInPlace_ok (hr : updated .mul v w h = .ok r h') : r.extent h' ≤ longest := by
  by_cases hv : ∃ place, v = list place
  · obtain ⟨place, rfl⟩ := hv
    cases hw : w.asInt? with
    | none =>
      simp only [updated, hw] at hr
      exact multiplied_ok hr
    | some n =>
      simp only [updated, hw] at hr
      obtain ⟨items, h₁, hread, hnew⟩ := Compute.ok_of_bind hr
      obtain ⟨size, fits⟩ := repeatItems_ok (Compute.ok_of_read hread).1
      cases hnew
      exact (extent_modify_le _).trans (size.trans_le fits)
  · rw [updated_of_not_list fun place hp => hv ⟨place, hp⟩] at hr
    exact multiplied_ok hr

theorem updated_mul_of_lt (hw : w.asInt? = some n)
    (hl : longest < v.extent h * repeatCount n) :
    Refuses (updated .mul v w) h (v.extent h * repeatCount n) := by
  by_cases hv : ∃ place, v = list place
  · obtain ⟨place, rfl⟩ := hv
    obtain ⟨f, hf, refused⟩ := repeatItems_of_lt hl
    refine ⟨f, ?_, refused⟩
    simp only [updated, hw]
    exact Compute.bind_error (Compute.read_error hf)
  · rw [updated_of_not_list fun place hp => hv ⟨place, hp⟩, binary_mul_left (extent_pos hl) hw]
    exact repeated_of_lt hl

theorem updated_mul_right_of_lt (hw : w.asInt? = some n)
    (hl : longest < v.extent h * repeatCount n) :
    Refuses (updated .mul w v) h (v.extent h * repeatCount n) := by
  have number : ∀ place, w ≠ list place := by
    rintro place rfl
    cases hw
  rw [updated_of_not_list number, binary_mul_right (extent_pos hl) hw]
  exact repeated_of_lt hl

end InPlace

/-! ## Items -/

section Items

variable {items : Array Value} {s : Span} {place : Nat}

/-- Every character has a byte. -/
theorem length_le_utf8Len (cs : List Char) : cs.length ≤ String.utf8Len cs := by
  induction cs with
  | nil => exact Nat.le_refl _
  | cons c cs ih =>
    rw [List.length_cons, String.utf8Len_cons]
    exact Nat.add_le_add ih c.utf8Size_pos

/-- The items of a value are no more than its length, those of a range no more than the limit. -/
theorem iterate_ok (listed : h.iterate v = .ok items) (hv : v.extent h ≤ longest) :
    items.size ≤ longest := by
  cases v with
  | list | tuple =>
    cases listed
    exact hv
  | str s =>
    cases listed
    rw [extent, ← String.ofList_toList (s := s), String.utf8ByteSize_ofList] at hv
    simpa using (length_le_utf8Len s.toList).trans hv
  | range s =>
    cases hf : Compute.fits s.length with
    | error f =>
      rw [Heap.iterate, hf] at listed
      cases listed
    | ok =>
      rw [Heap.iterate, hf] at listed
      cases listed
      simpa [Span.items] using Compute.fits_ok_iff.mp hf
  | _ => cases listed

theorem iterate_range_of_lt (hs : longest < s.length) :
    h.iterate (range s) = .error (.oversize s.length) := by
  rw [Heap.iterate, Compute.fits_of_lt hs]
  rfl

theorem updated_add_range_of_lt (hs : longest < s.length) :
    Refuses (updated .add (list place) (range s)) h s.length :=
  ⟨_, Compute.bind_error (Compute.read_error (iterate_range_of_lt hs)), .inr rfl⟩

end Items

end Value

/-! ## The limit -/

open Value (binary updated repeatCount)

/-- What holds of two values and of the operations that build sequences of them. -/
structure SequenceLimit (h : Heap) (v w : Value) : Prop where
  multiplied : KeepsLimit (binary .mul v w) h
  multipliedInPlace : KeepsLimit (updated .mul v w) h
  /-- A sequence that would be too long if it were repeated is not, whichever side it is on. -/
  notRepeated : ∀ {n : Int64}, w.asInt? = some n → longest < v.extent h * repeatCount n →
    ∀ c ∈ [binary .mul v w, binary .mul w v, updated .mul v w, updated .mul w v],
      Refuses c h (v.extent h * repeatCount n)
  /-- Nothing is compared with the limit when two sequences are joined. -/
  added : v.extent h + w.extent h ≤ longest → KeepsLimit (binary .add v w) h
  addedInPlace : v.grown h w ≤ longest → KeepsLimit (updated .add v w) h
  /-- The items of a list, a tuple or a text are as many as there are. -/
  listed : ∀ {items}, h.iterate v = .ok items → v.extent h ≤ longest → items.size ≤ longest
  /-- A range that is too long is neither listed nor put at the end of a list. -/
  notListed : ∀ {s : Span}, w = .range s → longest < s.length →
    h.iterate w = .error (.oversize s.length) ∧
      ∀ place, v = .list place → Refuses (updated .add v w) h s.length

/-- **What one operation builds is within the limit**, unless it joins sequences that are too long
together. Repeating a sequence and listing a range build nothing that is longer, and refuse it
without a change to any list; joining sequences and extending a list keep to the limit if what they
are given adds up to no more. -/
theorem sequence_limit (h : Heap) (v w : Value) : SequenceLimit h v w where
  multiplied := ⟨Value.multiplied_ok, FailsFirst.kept⟩
  multipliedInPlace := ⟨Value.multipliedInPlace_ok, FailsFirst.kept⟩
  notRepeated := by
    intro n hw hl c hc
    have hv := Value.extent_pos hl
    simp only [List.mem_cons, List.not_mem_nil, or_false] at hc
    obtain rfl | rfl | rfl | rfl := hc
    · rw [Value.binary_mul_left hv hw]
      exact Value.repeated_of_lt hl
    · rw [Value.binary_mul_right hv hw]
      exact Value.repeated_of_lt hl
    · exact Value.updated_mul_of_lt hw hl
    · exact Value.updated_mul_right_of_lt hw hl
  added fits := ⟨Value.added_ok fits, FailsFirst.kept⟩
  addedInPlace fits := ⟨Value.addedInPlace_ok fits, FailsFirst.kept⟩
  listed := Value.iterate_ok
  notListed := by
    rintro s rfl hs
    refine ⟨Value.iterate_range_of_lt hs, ?_⟩
    rintro place rfl
    exact Value.updated_add_range_of_lt hs

/-- A text that would have 20000000000 bytes. -/
theorem sequence_limit_text :
    Refuses (binary .mul (.str "ab") (.int 10000000000)) .empty 20000000000 :=
  (sequence_limit .empty (.str "ab") (.int 10000000000)).notRepeated rfl (by decide) _ (.head _)

/-- Texts, and lists, that are within the limit can be joined, and a list within it extended, to one
that is not. -/
theorem joined_passes_limit :
    (¬ ∀ (h h' : Heap) (v w r : Value), v.extent h ≤ longest → w.extent h ≤ longest →
      binary .add v w h = .ok r h' → r.extent h' ≤ longest) ∧
    ¬ ∀ (h h' : Heap) (v w r : Value), v.extent h ≤ longest → w.extent h ≤ longest →
      updated .add v w h = .ok r h' → r.extent h' ≤ longest := by
  constructor
  · intro joins
    let s := String.join (List.replicate longest "a")
    have size : s.utf8ByteSize = longest :=
      (Value.utf8ByteSize_join_replicate "a" longest).trans (Nat.one_mul _)
    have long := joins .empty .empty (.str s) (.str "b") _ size.le (by decide) rfl
    rw [Value.extent, String.utf8ByteSize_append, size] at long
    exact absurd long (by decide)
  · intro grows
    let h : Heap := ⟨#[Array.replicate longest .none], 0⟩
    have size : (Value.list 0).extent h = longest := Array.size_replicate
    have long := grows h _ (.list 0) (.tuple 0 [.none]) _ size.le (by decide) rfl
    rw [Value.extent, Heap.items_modify_self (by exact Nat.one_pos), Array.size_append] at long
    change (Value.list 0).extent h + 1 ≤ longest at long
    rw [size] at long
    exact absurd long (by decide)

end SortTrace
