import Mathlib.Data.List.Perm.Subperm
import SortTrace.Proofs.Evaluation
import SortTrace.Proofs.Runs

/-!
# Data

A datum is a finite tree of `None`, truth values, integers, strings, lists, tuples and ranges. A
value on a heap shows at most one datum (`Datum.Shows`); a list that contains itself shows none.
What a value shows says what its written form is, since no list is written inside itself then
(`Datum.Shows.written`), and a datum has an expression that makes a value showing it wherever
`range` is the builtin of that name (`Datum.eval_expr`).
-/

namespace SortTrace

open Script (Expr)

/-! ## Data -/

/-- A finite tree of immutable values, lists among them. -/
inductive Datum where
  | none
  | bool (b : Bool)
  | int (n : Int64)
  | str (s : String)
  | list (items : List Datum)
  | tuple (items : List Datum)
  | range (s : Span)

namespace Datum

mutual

/-- The value is the datum, with the lists of the heap. -/
def Shows (h : Heap) : Datum → Value → Prop
  | none, v => v = .none
  | bool b, v => v = .bool b
  | int n, v => v = .int n
  | str s, v => v = .str s
  | list ds, v => ∃ place, v = .list place ∧ place < h.size ∧ AllShow h ds (h.items place).toList
  | tuple ds, v => ∃ id vs, v = .tuple id vs ∧ AllShow h ds vs
  | range s, v => v = .range s

/-- The values are the data, one by one. -/
def AllShow (h : Heap) : List Datum → List Value → Prop
  | [], vs => vs = []
  | d :: ds, vs => ∃ v ws, vs = v :: ws ∧ Shows h d v ∧ AllShow h ds ws

end

variable {h h' : Heap} {d d' : Datum} {ds ds' : List Datum} {v : Value} {vs : List Value}

/-! ## A value shows one datum -/

mutual

/-- A value shows one datum only. -/
theorem Shows.unique : ∀ {d d' : Datum} {v : Value}, d.Shows h v → d'.Shows h v → d = d'
  | none, d', v, hd, hd' | bool _, d', v, hd, hd' | int _, d', v, hd, hd'
  | str _, d', v, hd, hd' | range _, d', v, hd, hd' => by
    simp only [Shows] at hd
    subst hd
    cases d' <;> simp_all [Shows]
  | list ds, d', v, hd, hd' => by
    simp only [Shows] at hd
    obtain ⟨place, rfl, _, items⟩ := hd
    cases d' <;> simp only [Shows, reduceCtorEq, false_and, exists_false] at hd'
    obtain ⟨place', same, _, items'⟩ := hd'
    obtain rfl := Value.list.inj same
    rw [AllShow.unique items items']
  | tuple ds, d', v, hd, hd' => by
    simp only [Shows] at hd
    obtain ⟨id, vs, rfl, items⟩ := hd
    cases d' <;> simp only [Shows, reduceCtorEq, false_and, exists_false] at hd'
    obtain ⟨id', vs', same, items'⟩ := hd'
    obtain ⟨-, rfl⟩ := Value.tuple.inj same
    rw [AllShow.unique items items']

theorem AllShow.unique : ∀ {ds ds' : List Datum} {vs : List Value}, AllShow h ds vs →
    AllShow h ds' vs → ds = ds'
  | [], ds', vs, hds, hds' => by
    simp only [AllShow] at hds
    subst hds
    cases ds' <;> simp_all [AllShow]
  | d :: ds, ds', vs, hds, hds' => by
    simp only [AllShow] at hds
    obtain ⟨v, ws, rfl, first, others⟩ := hds
    cases ds' with
    | nil => simp [AllShow] at hds'
    | cons d' ds' =>
      simp only [AllShow] at hds'
      obtain ⟨v', ws', same, first', others'⟩ := hds'
      obtain ⟨rfl, rfl⟩ := List.cons.inj same
      rw [Shows.unique first first', AllShow.unique others others']

end

/-! ## Written forms -/

mutual

/-- The written form. -/
def text : Datum → String
  | none => "None"
  | bool b => if b then "True" else "False"
  | int n => toString n.toInt
  | str s => Text.quote s
  | list ds => "[" ++ ", ".intercalate (texts ds) ++ "]"
  | tuple ds => Value.tupleText (texts ds)
  | range s => Value.rangeText s

/-- The written forms of several data. -/
def texts : List Datum → List String
  | [] => []
  | d :: ds => text d :: texts ds

end

/-- A datum of size `n` may be written inside the lists at the given places, which are different
lists and all show larger data. -/
structure Inside (h : Heap) (n : Nat) (outer : List Nat) : Prop where
  nodup : outer.Nodup
  larger : ∀ place ∈ outer, place < h.size ∧ ∃ d : Datum, d.Shows h (.list place) ∧ n < sizeOf d

theorem Inside.mono {n m : Nat} {outer : List Nat} (hi : Inside h n outer) (hm : m ≤ n) :
    Inside h m outer where
  nodup := hi.nodup
  larger place hp :=
    have ⟨room, d, shows, size⟩ := hi.larger place hp
    ⟨room, d, shows, by omega⟩

/-- There are no more lists around a datum than there are lists. -/
theorem Inside.length_le {n : Nat} {outer : List Nat} (hi : Inside h n outer) :
    outer.length ≤ h.size := by
  have within : outer ⊆ List.range h.size := fun place hp =>
    List.mem_range.mpr (hi.larger place hp).1
  simpa using (hi.nodup.subperm within).length_le

/-- A datum is not written inside itself. -/
theorem Inside.not_mem {outer : List Nat} {place : Nat} (hi : Inside h (sizeOf d) outer)
    (hd : d.Shows h (.list place)) : place ∉ outer := by
  intro hp
  obtain ⟨-, d', hd', size⟩ := hi.larger place hp
  rw [hd.unique hd'] at size
  exact Nat.lt_irrefl _ size

mutual

theorem Shows.textWith : ∀ {d : Datum} {v : Value} {fuel : Nat} {outer : List Nat}, d.Shows h v →
    Inside h (sizeOf d) outer → fuel + outer.length = h.size + 1 →
    v.textWith (Value.listText h fuel outer) = d.text
  | none, v, _, _, hd, _, _ | bool _, v, _, _, hd, _, _ | int _, v, _, _, hd, _, _
  | str _, v, _, _, hd, _, _ | range _, v, _, _, hd, _, _ => by
    simp only [Shows] at hd
    subst hd
    rfl
  | list ds, v, fuel, outer, hd, hi, hf => by
    have shows := hd
    simp only [Shows] at hd
    obtain ⟨place, rfl, room, items⟩ := hd
    have fresh := hi.not_mem shows
    have length := hi.length_le
    obtain ⟨fuel, rfl⟩ := Nat.exists_eq_add_one_of_ne_zero (show fuel ≠ 0 by omega)
    have within : Inside h (sizeOf ds) (place :: outer) := by
      refine ⟨List.nodup_cons.mpr ⟨fresh, hi.nodup⟩, List.forall_mem_cons.mpr ⟨?_, ?_⟩⟩
      · exact ⟨room, _, shows, by simp⟩
      · exact (hi.mono (by simp)).larger
    have texts : Value.textsWith (Value.listText h fuel (place :: outer)) (h.items place).toList
        = texts ds := items.textsWith within (by rw [List.length_cons]; omega)
    change Value.listText h (fuel + 1) outer place = _
    rw [Value.listText, if_neg (by simpa using fresh), Value.map_textWith, texts, text]
  | tuple ds, v, fuel, outer, hd, hi, hf => by
    simp only [Shows] at hd
    obtain ⟨id, vs, rfl, items⟩ := hd
    rw [Value.textWith_tuple, AllShow.textsWith items (hi.mono (by simp)) hf, text]

theorem AllShow.textsWith : ∀ {ds : List Datum} {vs : List Value} {fuel : Nat} {outer : List Nat},
    AllShow h ds vs → Inside h (sizeOf ds) outer → fuel + outer.length = h.size + 1 →
    Value.textsWith (Value.listText h fuel outer) vs = texts ds
  | [], vs, _, _, hds, _, _ => by
    simp only [AllShow] at hds
    subst hds
    rfl
  | d :: ds, vs, fuel, outer, hds, hi, hf => by
    simp only [AllShow] at hds
    obtain ⟨v, ws, rfl, first, others⟩ := hds
    have head : sizeOf d ≤ sizeOf (d :: ds) := by simp; omega
    have tail : sizeOf ds ≤ sizeOf (d :: ds) := by simp
    rw [Value.textsWith_cons, Shows.textWith first (hi.mono head) hf,
      AllShow.textsWith others (hi.mono tail) hf, texts]

end

/-- The written form of a value is that of the datum it shows. -/
theorem Shows.written (hd : d.Shows h v) : v.written h = d.text :=
  hd.textWith ⟨.nil, nofun⟩ (Nat.add_zero _)

mutual

/-- A value shows the same datum as long as its lists stay as they were. -/
theorem Shows.kept (hk : h.Kept h') : ∀ {d : Datum} {v : Value}, d.Shows h v → d.Shows h' v
  | none, _, hd | bool _, _, hd | int _, _, hd | str _, _, hd | range _, _, hd => by
    simpa only [Shows] using hd
  | list ds, v, hd => by
    simp only [Shows] at hd ⊢
    obtain ⟨place, rfl, room, items⟩ := hd
    refine ⟨place, rfl, Nat.lt_of_lt_of_le room hk.size, ?_⟩
    rw [hk.items place room]
    exact AllShow.kept hk items
  | tuple ds, v, hd => by
    simp only [Shows] at hd ⊢
    obtain ⟨id, vs, rfl, items⟩ := hd
    exact ⟨id, vs, rfl, AllShow.kept hk items⟩

theorem AllShow.kept (hk : h.Kept h') : ∀ {ds : List Datum} {vs : List Value}, AllShow h ds vs →
    AllShow h' ds vs
  | [], _, hds => by simpa only [AllShow] using hds
  | d :: ds, vs, hds => by
    simp only [AllShow] at hds ⊢
    obtain ⟨v, ws, rfl, first, others⟩ := hds
    exact ⟨v, ws, rfl, first.kept hk, AllShow.kept hk others⟩

end

/-! ## Expressions for data -/

/-- The arguments that make a range; a step of one is left out. -/
def bounds (s : Span) : List Int64 :=
  if s.step = 1 then [s.start, s.stop] else [s.start, s.stop, s.step]

mutual

/-- An expression that makes the datum. -/
def expr : Datum → Expr
  | none => .literal .none
  | bool b => .literal (.bool b)
  | int n => .literal (.int n)
  | str s => .literal (.str s)
  | list ds => .list (exprs ds)
  | tuple ds => .tuple (exprs ds)
  | range s => .call (.name Builtin.range.name) ((bounds s).map fun n => .literal (.int n)) []

/-- Expressions that make the data. -/
def exprs : List Datum → List Expr
  | [] => []
  | d :: ds => expr d :: exprs ds

end

mutual

/-- The ranges of the datum are such as a script can make. -/
def Made : Datum → Prop
  | list ds | tuple ds => AllMade ds
  | range s => ∃ ns, Value.rangeOf ns = .ok (.range s)
  | _ => True

/-- The ranges of the data are such as a script can make. -/
def AllMade : List Datum → Prop
  | [] => True
  | d :: ds => Made d ∧ AllMade ds

end

/-- No range has a step of zero. -/
theorem rangeOf_bounds {s : Span} {ns : List Int64} (hs : Value.rangeOf ns = .ok (.range s)) :
    Value.rangeOf (bounds s) = .ok (.range s) := by
  have step : s.step ≠ 0 := by
    unfold Value.rangeOf at hs
    have one : (1 : Int64) ≠ 0 := by decide
    split at hs
    · cases hs
      exact one
    · cases hs
      exact one
    · split at hs
      · cases hs
      · next step =>
        cases hs
        exact step
    · cases hs
  rw [bounds]
  split
  · next one =>
    rw [Value.rangeOf, ← one]
  · rw [Value.rangeOf, if_neg step]

variable {user : UserCall} {m : Machine}

/-- A range is made again by the call it is written as. -/
theorem eval_range {s : Span} {ns : List Int64} (hs : Value.rangeOf ns = .ok (.range s))
    (free : m.scopes.lookup Builtin.range.name = .none) :
    Yields user m (expr (range s)) (.range s) := by
  have arguments : List.Forall₂ (Yields user m) ((bounds s).map fun n => .literal (.int n))
      ((bounds s).map Value.int) := by
    rw [List.forall₂_map_left_iff, List.forall₂_map_right_iff, List.forall₂_same]
    exact fun _ _ => rfl
  have integers : ((bounds s).map Value.int).mapM integerArgument = .ok (bounds s) := by
    rw [bounds]
    split <;> rfl
  have count : countArguments "range" 1 3 ((bounds s).map Value.int) = .ok () := by
    rw [bounds]
    split <;> rfl
  have name : Builtin.ofName? Builtin.range.name = some .range := by decide
  refine Yields.call (Yields.builtin free name) arguments ?_
  change Builtin.runRange _ m = _
  rw [Builtin.runRange, count, integers]
  change Run.of (Value.rangeOf (bounds s)) m = _
  rw [rangeOf_bounds hs]
  rfl

mutual

/-- Where the name of `range` is free, the expression of a datum makes a value that shows it. -/
theorem eval_expr : ∀ {d : Datum} {m : Machine}, d.Made →
    m.scopes.lookup Builtin.range.name = .none →
    ∃ v m', eval user d.expr m = .ok v m' ∧ d.Shows m'.heap v ∧ m.heap.Kept m'.heap ∧
      m'.scopes = m.scopes
  | none, m, _, _ => ⟨_, m, rfl, rfl, .refl _, rfl⟩
  | bool b, m, _, _ => ⟨_, m, rfl, rfl, .refl _, rfl⟩
  | int n, m, _, _ => ⟨_, m, rfl, rfl, .refl _, rfl⟩
  | str s, m, _, _ => ⟨_, m, rfl, rfl, .refl _, rfl⟩
  | range s, m, hd, free => by
    simp only [Made] at hd
    obtain ⟨ns, hs⟩ := hd
    exact ⟨_, m, eval_range hs free, rfl, .refl _, rfl⟩
  | tuple ds, m, hd, free => by
    simp only [Made] at hd
    obtain ⟨vs, m₁, made, shows, kept, scopes⟩ := eval_exprs hd free
    refine ⟨.tuple m₁.heap.marks vs, { m₁ with heap := m₁.heap.mark.2 }, ?_, ?_, ?_, scopes⟩
    · rw [expr, eval, Run.bind_ok made]
      rfl
    · exact ⟨_, _, rfl, shows.kept (.mark _)⟩
    · exact kept.trans (.mark _)
  | list ds, m, hd, free => by
    simp only [Made] at hd
    obtain ⟨vs, m₁, made, shows, kept, scopes⟩ := eval_exprs hd free
    refine ⟨.list m₁.heap.size, { m₁ with heap := (m₁.heap.insert vs.toArray).2 }, ?_, ?_,
      kept.trans (.insert _ _), scopes⟩
    · rw [expr, eval, Run.bind_ok made]
      rfl
    · refine ⟨_, rfl, by simp [Heap.size, Heap.insert], ?_⟩
      have items : (m₁.heap.insert vs.toArray).2.items m₁.heap.size = vs.toArray := by
        simp [Heap.items, Heap.insert, Heap.size]
      rw [items]
      exact shows.kept (.insert _ _)

theorem eval_exprs : ∀ {ds : List Datum} {m : Machine}, AllMade ds →
    m.scopes.lookup Builtin.range.name = .none →
    ∃ vs m', evalAll user (exprs ds) m = .ok vs m' ∧ AllShow m'.heap ds vs ∧
      m.heap.Kept m'.heap ∧ m'.scopes = m.scopes
  | [], m, _, _ => ⟨[], m, rfl, rfl, .refl _, rfl⟩
  | d :: ds, m, hds, free => by
    simp only [AllMade] at hds
    obtain ⟨v, m₁, made, shows, kept, scopes⟩ := eval_expr hds.1 free
    obtain ⟨vs, m₂, allMade, allShow, kept', scopes'⟩ :=
      eval_exprs hds.2 (scopes ▸ free)
    refine ⟨v :: vs, m₂, ?_, ⟨v, vs, rfl, shows.kept kept', allShow⟩, kept.trans kept',
      scopes'.trans scopes⟩
    rw [exprs, evalAll, Run.bind_ok made, Run.bind_ok allMade]
    rfl

end

end Datum

end SortTrace
