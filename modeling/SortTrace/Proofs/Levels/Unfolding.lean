import Mathlib.Data.List.Perm.Subperm
import Mathlib.Logic.Relation
import SortTrace.Value.Written

/-!
# What is followed of a value

A value is written, and recorded, by following its lists and tuples down to where a list comes up
inside itself. What is followed is a finite tree on every heap, since no list is entered twice on a
path (`exists_unfolding`). The tree says what is written and what is recorded, with any number of
levels that is enough for it (`Unfolding.Of.follows`).
-/

namespace SortTrace

open Report (Json)

namespace Value

/-- The items of a list or of a tuple. -/
def items? (h : Heap) : Value → Option (List Value)
  | list place => some (h.items place).toList
  | tuple _ vs => some vs
  | _ => .none

end Value

namespace Heap

variable {h : Heap} {v w : Value} {place : Nat}

/-- The list or the tuple has this item. -/
def Holds (h : Heap) (v w : Value) : Prop :=
  ∃ vs, v.items? h = some vs ∧ w ∈ vs

/-- There is a list wherever a list has an item. -/
theorem Holds.room (hw : h.Holds (.list place) w) : place < h.size := by
  obtain ⟨vs, hvs, mem⟩ := hw
  by_contra beyond
  rw [Value.items?, items_beyond (Nat.le_of_not_lt beyond)] at hvs
  cases hvs
  cases mem

/-! ## The lists around a value -/

/-- The lists at the places `outer` are different ones, and each leads to the value. -/
structure Around (h : Heap) (v : Value) (outer : List Nat) : Prop where
  nodup : outer.Nodup
  leads : ∀ place ∈ outer, Relation.TransGen h.Holds (.list place) v

namespace Around

variable {outer : List Nat} {id : Nat} {vs : List Value}

theorem nil (h : Heap) (v : Value) : h.Around v [] :=
  ⟨.nil, nofun⟩

/-- There are no more lists around a value than there are lists. -/
theorem length_le (ha : h.Around v outer) : outer.length ≤ h.size := by
  have within : outer ⊆ List.range h.size := fun place hp => by
    obtain ⟨w, first, -⟩ := Relation.TransGen.head'_iff.mp (ha.leads place hp)
    exact List.mem_range.mpr first.room
  simpa using (ha.nodup.subperm within).length_le

/-- What is around a tuple is around its items. -/
theorem tupleItem (ha : h.Around (.tuple id vs) outer) (hw : w ∈ vs) : h.Around w outer :=
  ⟨ha.nodup, fun place hp => (ha.leads place hp).tail ⟨vs, rfl, hw⟩⟩

/-- A list that is not around itself is around its items. -/
theorem listItem (ha : h.Around (.list place) outer) (fresh : place ∉ outer)
    (hw : w ∈ (h.items place).toList) : h.Around w (place :: outer) where
  nodup := List.nodup_cons.mpr ⟨fresh, ha.nodup⟩
  leads :=
    have item : h.Holds (.list place) w := ⟨_, rfl, hw⟩
    List.forall_mem_cons.mpr ⟨.single item, fun other hp => (ha.leads other hp).tail item⟩

end Around

end Heap

namespace Value

/-! ## Unfoldings -/

/-- What is followed of a value: its lists and tuples with their items, down to its atoms and to the
lists that come up inside themselves. -/
inductive Unfolding where
  | atom (v : Value)
  | list (items : List Unfolding)
  | tuple (items : List Unfolding)
  /-- The list at this place comes up again. -/
  | again (place : Nat)

namespace Unfolding

mutual

/-- This is followed of a value inside the lists at the places `outer`. -/
def Of (h : Heap) (outer : List Nat) : Unfolding → Value → Prop
  | atom a, v => v = a ∧ v.items? h = .none
  | list us, v =>
    ∃ place, v = .list place ∧ place ∉ outer ∧ AllOf h (place :: outer) us (h.items place).toList
  | tuple us, v => ∃ id vs, v = .tuple id vs ∧ AllOf h outer us vs
  | again place, v => v = .list place ∧ place ∈ outer

/-- This is followed of the values, one by one. -/
def AllOf (h : Heap) (outer : List Nat) : List Unfolding → List Value → Prop
  | [], vs => vs = []
  | u :: us, vs => ∃ v ws, vs = v :: ws ∧ Of h outer u v ∧ AllOf h outer us ws

end

mutual

/-- The text, with a mark for each list that comes up again. -/
def text : Unfolding → String
  | atom v => v.textWith fun _ => "[...]"
  | list us => "[" ++ ", ".intercalate (texts us) ++ "]"
  | tuple us => tupleText (texts us)
  | again _ => "[...]"

/-- The texts of the items. -/
def texts : List Unfolding → List String
  | [] => []
  | u :: us => text u :: texts us

end

mutual

/-- The document, if there is one. -/
def json : Unfolding → Except Fault Json
  | atom v => v.jsonWith fun _ => .error .circular
  | list us | tuple us => .array <$> jsons us
  | again _ => .error .circular

/-- The documents of the items. -/
def jsons : List Unfolding → Except Fault (List Json)
  | [] => .ok []
  | u :: us => do
    let d ← json u
    let ds ← jsons us
    pure (d :: ds)

end

end Unfolding

/-! ## Every value unfolds -/

section

variable {h : Heap}

mutual

/-- A value unfolds inside any lists around it. Each list that is entered leaves fewer to enter, and
of several tuples inside each other each is smaller than the one around it. -/
theorem exists_unfolding : ∀ (v : Value) {outer : List Nat}, h.Around v outer →
    ∃ u : Unfolding, u.Of h outer v
  | none, _, _ | bool _, _, _ | int _, _, _ | float _, _, _ | str _, _, _ | range _, _, _
  | function .., _, _ | builtin _, _, _ => ⟨.atom _, rfl, rfl⟩
  | list place, outer, ha => by
    by_cases hp : place ∈ outer
    · exact ⟨.again place, rfl, hp⟩
    · have room := ha.length_le
      obtain ⟨us, hus⟩ := exists_unfoldings (h.items place).toList fun w hw => ha.listItem hp hw
      exact ⟨.list us, place, rfl, hp, hus⟩
  | tuple id vs, outer, ha => by
    obtain ⟨us, hus⟩ := exists_unfoldings vs fun w hw => ha.tupleItem hw
    exact ⟨.tuple us, id, vs, rfl, hus⟩
termination_by v outer => (h.size + 1 - outer.length, sizeOf v)

theorem exists_unfoldings : ∀ (vs : List Value) {outer : List Nat},
    (∀ v ∈ vs, h.Around v outer) → ∃ us : List Unfolding, Unfolding.AllOf h outer us vs
  | [], _, _ => ⟨[], rfl⟩
  | v :: vs, outer, ha => by
    obtain ⟨first, others⟩ := List.forall_mem_cons.mp ha
    obtain ⟨u, hu⟩ := exists_unfolding v first
    obtain ⟨us, hus⟩ := exists_unfoldings vs others
    exact ⟨u :: us, v, vs, rfl, hu, hus⟩
termination_by vs outer => (h.size + 1 - outer.length, sizeOf vs)

end

end

/-! ## What the unfolding says -/

/-- The text and the document of an atom depend on no list. -/
theorem atom_with {h : Heap} {v : Value} (hv : v.items? h = .none) (texts texts' : Nat → String)
    (docs docs' : Nat → Except Fault Json) :
    v.textWith texts = v.textWith texts' ∧ v.jsonWith docs = v.jsonWith docs' := by
  cases v with
  | list => cases hv
  | tuple => cases hv
  | _ => exact ⟨rfl, rfl⟩

namespace Unfolding

variable {h : Heap}

mutual

/-- A value is written and recorded as it unfolds, with enough levels for the lists that are not
around it. -/
theorem Of.follows : ∀ {u : Unfolding} {v : Value} {outer : List Nat} {fuel : Nat}, u.Of h outer v →
    h.Around v outer → h.size < fuel + outer.length →
    v.textWith (listText h fuel outer) = u.text ∧ v.jsonWith (listJson h fuel outer) = u.json
  | atom a, v, outer, fuel, hu, ha, hf => by
    obtain ⟨rfl, hv⟩ := hu
    exact atom_with hv _ _ _ _
  | again place, v, outer, fuel, hu, ha, hf => by
    obtain ⟨rfl, hp⟩ := hu
    have length := ha.length_le
    obtain ⟨fuel, rfl⟩ := Nat.exists_eq_add_one_of_ne_zero (show fuel ≠ 0 by omega)
    have found : outer.contains place := by simpa using hp
    exact ⟨if_pos found, if_pos found⟩
  | list us, v, outer, fuel, hu, ha, hf => by
    obtain ⟨place, rfl, fresh, hus⟩ := hu
    have length := ha.length_le
    obtain ⟨fuel, rfl⟩ := Nat.exists_eq_add_one_of_ne_zero (show fuel ≠ 0 by omega)
    have fewer : h.size < fuel + (place :: outer).length := by
      rw [List.length_cons]
      omega
    obtain ⟨texts, docs⟩ := hus.follow (fun w hw => ha.listItem fresh hw) fewer
    have absent : ¬ outer.contains place := by simpa using fresh
    constructor
    · change listText h (fuel + 1) outer place = _
      rw [listText, if_neg absent, map_textWith, texts, text]
    · change listJson h (fuel + 1) outer place = _
      rw [listJson, if_neg absent, mapM_jsonWith, docs, json]
  | tuple us, v, outer, fuel, hu, ha, hf => by
    obtain ⟨id, vs, rfl, hus⟩ := hu
    obtain ⟨texts, docs⟩ := hus.follow (fun w hw => ha.tupleItem hw) hf
    exact ⟨congrArg tupleText texts, congrArg (Json.array <$> ·) docs⟩

theorem AllOf.follow : ∀ {us : List Unfolding} {vs : List Value} {outer : List Nat} {fuel : Nat},
    AllOf h outer us vs → (∀ v ∈ vs, h.Around v outer) → h.size < fuel + outer.length →
    textsWith (listText h fuel outer) vs = texts us ∧
      jsonsWith (listJson h fuel outer) vs = jsons us
  | [], vs, _, _, hus, _, _ => by
    obtain rfl : vs = [] := hus
    exact ⟨rfl, rfl⟩
  | u :: us, vs, outer, fuel, hus, ha, hf => by
    obtain ⟨v, ws, rfl, hu, hus⟩ := hus
    obtain ⟨first, others⟩ := List.forall_mem_cons.mp ha
    obtain ⟨text, doc⟩ := hu.follows first hf
    obtain ⟨texts, docs⟩ := hus.follow others hf
    exact ⟨congrArg₂ List.cons text texts, by rw [jsonsWith, doc, docs, jsons]⟩

end

end Unfolding

end Value

end SortTrace
