import Mathlib.Data.Fintype.Card
import SortTrace.Value.Compare

/-!
# What equality sees of a value

A value is plain if it holds no double at any depth and none of its lists contains itself
(`Value.Plain`). Such a value has a content, a finite tree in which a truth value is a number, a
range is what its items say of it, and a list or a tuple is the contents of its items
(`Content.IsOf`). A value has one content only, and the lists in it are nested no deeper than there
are lists (`Content.IsOf.depth_le`), so a comparison that is given a level for each pair of lists
has levels to spare.
-/

namespace SortTrace

/-- A value without doubles, at any depth, whose lists do not contain themselves. -/
inductive Value.Plain (h : Heap) : Value → Prop
  | none : Plain h .none
  | bool (b : Bool) : Plain h (.bool b)
  | int (n : Int64) : Plain h (.int n)
  | str (s : String) : Plain h (.str s)
  | list {place : Nat} (items : ∀ v ∈ (h.items place).toList, Plain h v) : Plain h (.list place)
  | tuple {id : Nat} {vs : List Value} (items : ∀ v ∈ vs, Plain h v) : Plain h (.tuple id vs)
  | range (s : Span) : Plain h (.range s)
  | function (id : Nat) (d : Script.FunctionDef) (defaults : List Value) :
    Plain h (.function id d defaults)
  | builtin (b : Builtin) : Plain h (.builtin b)

/-! ## Ranges -/

/-- What counts of a range: its length, where it starts unless it is empty, and its step if it has
two items or more. -/
def Span.outline (s : Span) : Nat × Option Int64 × Option Int64 :=
  (s.length, if s.length = 0 then none else some s.start,
    if s.length ≤ 1 then none else some s.step)

theorem Span.sameItems_iff (s t : Span) : s.sameItems t ↔ s.outline = t.outline := by
  simp only [sameItems, outline, Bool.and_eq_true, Bool.or_eq_true, beq_iff_eq, Prod.mk.injEq]
  constructor
  · rintro ⟨length, empty | ⟨start, one | step⟩⟩
    · simp [← length, empty]
    · simp [← length, one, start]
    · simp [← length, start, step]
  · rintro ⟨length, start, step⟩
    refine ⟨length, ?_⟩
    rw [← length] at start step
    by_cases empty : s.length = 0
    · exact .inl empty
    · rw [if_neg empty, if_neg empty] at start
      refine .inr ⟨Option.some.inj start, ?_⟩
      by_cases one : s.length ≤ 1
      · exact .inl (by omega)
      · rw [if_neg one, if_neg one] at step
        exact .inr (Option.some.inj step)

/-! ## Contents -/

/-- What equality sees of a value. -/
inductive Content where
  | nothing
  /-- An integer, or a truth value as one or zero. -/
  | number (n : Int64)
  | text (s : String)
  | list (items : List Content)
  | tuple (items : List Content)
  | range (outline : Nat × Option Int64 × Option Int64)
  | function (id : Nat)
  | builtin (b : Builtin)

namespace Content

mutual

/-- The value has the content, with the lists of the heap. -/
def IsOf (h : Heap) : Content → Value → Prop
  | nothing, v => v = .none
  | number n, v => v.asInt? = some n
  | text s, v => v = .str s
  | list cs, v => ∃ place, v = .list place ∧ AreOf h cs (h.items place).toList
  | tuple cs, v => ∃ id vs, v = .tuple id vs ∧ AreOf h cs vs
  | range o, v => ∃ s : Span, v = .range s ∧ s.outline = o
  | function id, v => ∃ d defaults, v = .function id d defaults
  | builtin b, v => v = .builtin b

/-- The values have the contents, one by one. -/
def AreOf (h : Heap) : List Content → List Value → Prop
  | [], vs => vs = []
  | c :: cs, vs => ∃ v ws, vs = v :: ws ∧ IsOf h c v ∧ AreOf h cs ws

end

mutual

/-- How deep lists are nested in a content. -/
def depth : Content → Nat
  | nothing | number _ | text _ | range _ | function _ | builtin _ => 0
  | list cs => depths cs + 1
  | tuple cs => depths cs

/-- How deep lists are nested in the deepest of some contents. -/
def depths : List Content → Nat
  | [] => 0
  | c :: cs => max (depth c) (depths cs)

end

variable {h : Heap} {c d : Content} {cs ds : List Content} {v : Value} {vs : List Value}

theorem AreOf.exists_of_forall (hvs : ∀ v ∈ vs, ∃ c, IsOf h c v) : ∃ cs, AreOf h cs vs := by
  induction vs with
  | nil => exact ⟨[], rfl⟩
  | cons v vs ih =>
    obtain ⟨first, others⟩ := List.forall_mem_cons.mp hvs
    obtain ⟨c, hc⟩ := first
    obtain ⟨cs, hcs⟩ := ih others
    exact ⟨c :: cs, v, vs, rfl, hc, hcs⟩

/-- Every plain value has a content. -/
theorem exists_of_plain (hv : v.Plain h) : ∃ c, IsOf h c v := by
  induction hv with
  | none => exact ⟨nothing, rfl⟩
  | bool b => exact ⟨number (if b then 1 else 0), rfl⟩
  | int n => exact ⟨number n, rfl⟩
  | str s => exact ⟨text s, rfl⟩
  | list _ ih =>
    obtain ⟨cs, hcs⟩ := AreOf.exists_of_forall ih
    exact ⟨list cs, _, rfl, hcs⟩
  | tuple _ ih =>
    obtain ⟨cs, hcs⟩ := AreOf.exists_of_forall ih
    exact ⟨tuple cs, _, _, rfl, hcs⟩
  | range s => exact ⟨range s.outline, s, rfl, rfl⟩
  | function id d defaults => exact ⟨function id, d, defaults, rfl⟩
  | builtin b => exact ⟨builtin b, rfl⟩

/-! ## One content only -/

mutual

theorem IsOf.unique : ∀ {c d : Content} {v : Value}, IsOf h c v → IsOf h d v → c = d
  | nothing, d, v, hc, hd | number _, d, v, hc, hd | text _, d, v, hc, hd
  | range _, d, v, hc, hd | function _, d, v, hc, hd | builtin _, d, v, hc, hd => by
    cases d <;> cases v <;> simp_all [IsOf, Value.asInt?]
  | list cs, d, v, hc, hd => by
    simp only [IsOf] at hc
    obtain ⟨place, rfl, items⟩ := hc
    cases d <;> simp only [IsOf, Value.asInt?, reduceCtorEq, false_and, exists_false] at hd
    obtain ⟨place', same, items'⟩ := hd
    obtain rfl := Value.list.inj same
    rw [AreOf.unique items items']
  | tuple cs, d, v, hc, hd => by
    simp only [IsOf] at hc
    obtain ⟨id, vs, rfl, items⟩ := hc
    cases d <;> simp only [IsOf, Value.asInt?, reduceCtorEq, false_and, exists_false] at hd
    obtain ⟨id', vs', same, items'⟩ := hd
    obtain ⟨-, rfl⟩ := Value.tuple.inj same
    rw [AreOf.unique items items']

theorem AreOf.unique : ∀ {cs ds : List Content} {vs : List Value}, AreOf h cs vs →
    AreOf h ds vs → cs = ds
  | [], ds, vs, hcs, hds => by
    simp only [AreOf] at hcs
    subst hcs
    cases ds <;> simp_all [AreOf]
  | c :: cs, ds, vs, hcs, hds => by
    simp only [AreOf] at hcs
    obtain ⟨v, ws, rfl, first, others⟩ := hcs
    cases ds with
    | nil => simp [AreOf] at hds
    | cons d ds =>
      simp only [AreOf] at hds
      obtain ⟨v', ws', same, first', others'⟩ := hds
      obtain ⟨rfl, rfl⟩ := List.cons.inj same
      rw [IsOf.unique first first', AreOf.unique others others']

end

/-! ## Depth -/

mutual

/-- Below a content there is a list of every smaller depth. -/
theorem IsOf.exists_nested {k : Nat} : ∀ {c : Content} {v : Value}, IsOf h c v → k < c.depth →
    ∃ cs place, depths cs = k ∧ AreOf h cs (h.items place).toList
  | nothing, _, _, hk | number _, _, _, hk | text _, _, _, hk | range _, _, _, hk
  | function _, _, _, hk | builtin _, _, _, hk => by
    simp [depth] at hk
  | list cs, _, hc, hk => by
    simp only [IsOf] at hc
    obtain ⟨place, rfl, items⟩ := hc
    rw [depth, Nat.lt_succ_iff_lt_or_eq] at hk
    rcases hk with deeper | rfl
    · exact AreOf.exists_nested items deeper
    · exact ⟨cs, place, rfl, items⟩
  | tuple cs, _, hc, hk => by
    simp only [IsOf] at hc
    obtain ⟨id, vs, rfl, items⟩ := hc
    exact AreOf.exists_nested items hk

theorem AreOf.exists_nested {k : Nat} : ∀ {cs : List Content} {vs : List Value}, AreOf h cs vs →
    k < depths cs → ∃ cs place, depths cs = k ∧ AreOf h cs (h.items place).toList
  | [], _, _, hk => by simp [depths] at hk
  | c :: cs, _, hcs, hk => by
    simp only [AreOf] at hcs
    obtain ⟨v, ws, rfl, first, others⟩ := hcs
    rw [depths, lt_max_iff] at hk
    rcases hk with hk | hk
    · exact IsOf.exists_nested first hk
    · exact AreOf.exists_nested others hk

end

/-- Lists are nested no deeper than there are lists, but for an empty one at a place of none. -/
theorem IsOf.depth_le (hc : IsOf h c v) : c.depth ≤ h.size + 1 := by
  by_contra deep
  have nested (k : Fin (h.size + 1)) :
      ∃ place : Fin h.size, ∃ cs, depths cs = k + 1 ∧ AreOf h cs (h.items place).toList := by
    obtain ⟨cs, place, depth, items⟩ := hc.exists_nested (k := k + 1) (by omega)
    refine ⟨⟨place, ?_⟩, cs, depth, items⟩
    by_contra nowhere
    have empty : h.items place = #[] := Heap.items_beyond (Nat.le_of_not_lt nowhere)
    cases cs with
    | nil => simp [depths] at depth
    | cons c cs => simp [AreOf, empty] at items
  choose place cs depth items using nested
  have injective : Function.Injective place := by
    intro k l same
    have contents := items k
    rw [same] at contents
    have depths := congrArg depths (contents.unique (items l))
    rw [depth, depth] at depths
    exact Fin.ext (by omega)
  have room := Fintype.card_le_of_injective place injective
  rw [Fintype.card_fin, Fintype.card_fin] at room
  omega

/-- A comparison is given more levels than a content is deep. -/
theorem IsOf.depth_le_depthBound (hc : IsOf h c v) : c.depth ≤ Value.depthBound h := by
  refine hc.depth_le.trans ?_
  rw [Value.depthBound]
  exact Nat.succ_le_succ (Nat.le_mul_self h.size)

end Content

end SortTrace
