import Mathlib.Data.String.Basic
import Mathlib.Order.Compare
import SortTrace.Proofs.Ordering.Content

/-!
# Equality and order of values

Plain values are equal if they have the same content (`Content.IsOf.equal_iff`), and they are in an
order if their contents are (`Content.IsOf.order_iff`). An order of contents is a relation with a
rule for each pair that has one: numbers, texts, two lists and two tuples. It is turned around with
its sides, leaves contents undecided only if they are one (`Content.Ordered.eq_iff`) and is
transitive (`Content.Ordered.then`), although not every two contents have an order: the first
difference decides, whatever stands behind it.

So equality and order of plain values agree (`Value.plain_order_laws`).
-/

namespace SortTrace

namespace Content

open Value (equalWith allEqualWith equalLists orderWith orderAllWith orderLists)

variable {h : Heap} {c d e : Content} {v w : Value} {o o' : Ordering}

/-! ## Equality -/

theorem allEqualWith_eq (lists : Nat → Nat → Bool) (vs ws : List Value) :
    allEqualWith lists vs ws
      = (vs.length == ws.length && (vs.zip ws).all fun p => equalWith lists p.1 p.2) := by
  induction vs generalizing ws with
  | nil => cases ws <;> simp [allEqualWith]
  | cons v vs ih =>
    cases ws with
    | nil => simp [allEqualWith]
    | cons w ws =>
      simp only [allEqualWith, ih, List.length_cons, List.zip_cons_cons, List.all_cons]
      rw [Bool.and_left_comm]
      simp

theorem equalLists_succ (fuel i j : Nat) :
    equalLists h (fuel + 1) i j
      = (i == j || allEqualWith (equalLists h fuel) (h.items i).toList (h.items j).toList) := by
  rw [equalLists, allEqualWith_eq, Array.length_toList, Array.length_toList]

mutual

theorem IsOf.equalWith_iff : ∀ {c d : Content} {v w : Value} {fuel : Nat}, IsOf h c v →
    IsOf h d w → c.depth ≤ fuel → (equalWith (equalLists h fuel) v w ↔ c = d)
  | nothing, d, v, w, _, hc, hd, _ | text _, d, v, w, _, hc, hd, _
  | builtin _, d, v, w, _, hc, hd, _ => by
    simp only [IsOf] at hc
    subst hc
    cases d <;> cases w <;>
      simp_all [IsOf, equalWith, Value.equalNumbers, Value.asInt?, Value.asFloat?]
  | function _, d, v, w, _, hc, hd, _ => by
    simp only [IsOf] at hc
    obtain ⟨_, _, rfl⟩ := hc
    cases d <;> cases w <;>
      simp_all [IsOf, equalWith, Value.equalNumbers, Value.asInt?, Value.asFloat?]
  | range _, d, v, w, _, hc, hd, _ => by
    simp only [IsOf] at hc
    obtain ⟨s, rfl, rfl⟩ := hc
    cases d <;> cases w <;>
      simp_all [IsOf, equalWith, Value.equalNumbers, Value.asInt?, Value.asFloat?,
        Span.sameItems_iff]
  | number _, d, v, w, _, hc, hd, _ => by
    cases v <;> simp only [IsOf, Value.asInt?, reduceCtorEq] at hc <;> cases d <;> cases w <;>
      simp_all [IsOf, equalWith, Value.equalNumbers, Value.asInt?, Value.asFloat?]
  | list cs, d, v, w, fuel, hc, hd, hf => by
    simp only [IsOf] at hc
    obtain ⟨i, rfl, items⟩ := hc
    cases d with
    | list ds =>
      simp only [IsOf] at hd
      obtain ⟨j, rfl, items'⟩ := hd
      obtain ⟨fuel, rfl⟩ := Nat.exists_eq_add_one_of_ne_zero (n := fuel)
        (by simp [depth] at hf; omega)
      have same := AreOf.allEqualWith_iff items items' (Nat.le_of_succ_le_succ hf)
      rw [equalWith, equalLists_succ, Bool.or_eq_true, same, beq_iff_eq, list.injEq]
      refine or_iff_right_of_imp ?_
      rintro rfl
      exact items.unique items'
    | _ =>
      cases w <;> simp_all [IsOf, equalWith, Value.equalNumbers, Value.asInt?, Value.asFloat?]
  | tuple cs, d, v, w, fuel, hc, hd, hf => by
    simp only [IsOf] at hc
    obtain ⟨i, vs, rfl, items⟩ := hc
    cases d with
    | tuple ds =>
      simp only [IsOf] at hd
      obtain ⟨j, ws, rfl, items'⟩ := hd
      rw [equalWith, AreOf.allEqualWith_iff items items' hf, tuple.injEq]
    | _ =>
      cases w <;> simp_all [IsOf, equalWith, Value.equalNumbers, Value.asInt?, Value.asFloat?]

theorem AreOf.allEqualWith_iff : ∀ {cs ds : List Content} {vs ws : List Value} {fuel : Nat},
    AreOf h cs vs → AreOf h ds ws → depths cs ≤ fuel →
    (allEqualWith (equalLists h fuel) vs ws ↔ cs = ds)
  | [], ds, vs, ws, _, hc, hd, _ => by
    simp only [AreOf] at hc
    subst hc
    cases ds <;> simp only [AreOf] at hd
    · simp [hd, allEqualWith]
    · obtain ⟨w, ws, rfl, -⟩ := hd
      simp [allEqualWith]
  | c :: cs, ds, vs, ws, _, hc, hd, hf => by
    simp only [AreOf] at hc
    obtain ⟨v, vs, rfl, first, others⟩ := hc
    rw [depths, max_le_iff] at hf
    cases ds <;> simp only [AreOf] at hd
    · simp [hd, allEqualWith]
    · obtain ⟨w, ws, rfl, first', others'⟩ := hd
      rw [allEqualWith, Bool.and_eq_true, first.equalWith_iff first' hf.1,
        AreOf.allEqualWith_iff others others' hf.2, List.cons.injEq]

end

/-- Values are equal if they have the same content. -/
theorem IsOf.equal_iff (hc : IsOf h c v) (hd : IsOf h d w) : Value.equal h v w ↔ c = d :=
  hc.equalWith_iff hd hc.depth_le_depthBound

/-! ## Order -/

mutual

/-- The order of two contents that have one. -/
inductive Ordered : Content → Content → Ordering → Prop
  | number (m n : Int64) : Ordered (number m) (number n) (compare m.toInt n.toInt)
  | text (s t : String) : Ordered (text s) (text t) (compare s t)
  | list {cs ds : List Content} {o : Ordering} (items : AllOrdered cs ds o) :
    Ordered (list cs) (list ds) o
  | tuple {cs ds : List Content} {o : Ordering} (items : AllOrdered cs ds o) :
    Ordered (tuple cs) (tuple ds) o

/-- The order of two sequences: that of the first contents that differ, else of the lengths. -/
inductive AllOrdered : List Content → List Content → Ordering → Prop
  | nil : AllOrdered [] [] .eq
  | shorter (d : Content) (ds : List Content) : AllOrdered [] (d :: ds) .lt
  | longer (c : Content) (cs : List Content) : AllOrdered (c :: cs) [] .gt
  | same (c : Content) {cs ds : List Content} {o : Ordering} (others : AllOrdered cs ds o) :
    AllOrdered (c :: cs) (c :: ds) o
  | differ {c d : Content} {o : Ordering} (first : Ordered c d o) (ne : c ≠ d)
    (cs ds : List Content) : AllOrdered (c :: cs) (d :: ds) o

end

theorem orderTexts_eq_compare (s t : String) : Value.orderTexts s t = compare s t := by
  exact (LinearOrder.compare_eq_compareOfLessAndEq s t).symm

theorem orderWith_number {same : Value → Value → Bool} {lists : Nat → Nat → Except Fault Ordering}
    {op : String} {m n : Int64} (hv : v.asInt? = some m) (hw : w.asInt? = some n) :
    orderWith same lists op v w = .ok (compare m.toInt n.toInt) := by
  cases v <;> cases w <;> simp_all [Value.asInt?, orderWith, Value.orderNumbers?]

mutual

theorem IsOf.orderWith_iff {op : String} : ∀ {c d : Content} {v w : Value} {fuel : Nat}
    {o : Ordering}, IsOf h c v → IsOf h d w → c.depth ≤ fuel →
    (orderWith (Value.equal h) (orderLists h op fuel) op v w = .ok o ↔ Ordered c d o)
  -- these are in no order to anything
  | nothing, _, v, w, _, _, hc, _, _ | range _, _, v, w, _, _, hc, _, _
  | function _, _, v, w, _, _, hc, _, _ | builtin _, _, v, w, _, _, hc, _, _ => by
    refine iff_of_false ?_ nofun
    cases v <;> simp only [IsOf, reduceCtorEq, false_and, exists_false] at hc
    cases w <;> simp [orderWith, Value.orderNumbers?, Value.asInt?, Value.asFloat?]
  | number m, d, v, w, _, o, hc, hd, _ => by
    cases d with
    | number n =>
      rw [orderWith_number hc hd, Except.ok.injEq]
      exact ⟨fun eq => eq ▸ .number m n, fun | .number .. => rfl⟩
    | _ =>
      refine iff_of_false ?_ nofun
      cases v <;> simp only [IsOf, Value.asInt?, reduceCtorEq] at hc <;> cases w <;>
        simp_all [IsOf, orderWith, Value.orderNumbers?, Value.asInt?, Value.asFloat?]
  | text s, d, v, w, _, o, hc, hd, _ => by
    simp only [IsOf] at hc
    subst hc
    cases d with
    | text t =>
      simp only [IsOf] at hd
      rw [hd, orderWith, orderTexts_eq_compare, Except.ok.injEq]
      exact ⟨fun eq => eq ▸ .text s t, fun | .text .. => rfl⟩
    | _ =>
      refine iff_of_false ?_ nofun
      cases w <;>
        simp_all [IsOf, orderWith, Value.orderNumbers?, Value.asInt?, Value.asFloat?]
  | list cs, d, v, w, fuel, o, hc, hd, hf => by
    simp only [IsOf] at hc
    obtain ⟨i, rfl, items⟩ := hc
    cases d with
    | list ds =>
      simp only [IsOf] at hd
      obtain ⟨j, rfl, items'⟩ := hd
      obtain ⟨fuel, rfl⟩ := Nat.exists_eq_add_one_of_ne_zero (n := fuel)
        (by simp [depth] at hf; omega)
      rw [orderWith, orderLists,
        AreOf.orderAllWith_iff items items' (Nat.le_of_succ_le_succ hf)]
      exact ⟨.list, fun | .list items => items⟩
    | _ =>
      refine iff_of_false ?_ nofun
      cases w <;>
        simp_all [IsOf, orderWith, Value.orderNumbers?, Value.asInt?, Value.asFloat?]
  | tuple cs, d, v, w, fuel, o, hc, hd, hf => by
    simp only [IsOf] at hc
    obtain ⟨i, vs, rfl, items⟩ := hc
    cases d with
    | tuple ds =>
      simp only [IsOf] at hd
      obtain ⟨j, ws, rfl, items'⟩ := hd
      rw [orderWith, AreOf.orderAllWith_iff items items' hf]
      exact ⟨.tuple, fun | .tuple items => items⟩
    | _ =>
      refine iff_of_false ?_ nofun
      cases w <;>
        simp_all [IsOf, orderWith, Value.orderNumbers?, Value.asInt?, Value.asFloat?]

theorem AreOf.orderAllWith_iff {op : String} : ∀ {cs ds : List Content} {vs ws : List Value}
    {fuel : Nat} {o : Ordering}, AreOf h cs vs → AreOf h ds ws → depths cs ≤ fuel →
    (orderAllWith (Value.equal h) (orderLists h op fuel) op vs ws = .ok o ↔ AllOrdered cs ds o)
  | [], [], vs, ws, _, o, hc, hd, _ => by
    simp only [AreOf] at hc hd
    subst hc hd
    rw [orderAllWith, Except.ok.injEq]
    exact ⟨fun eq => eq ▸ .nil, fun | .nil => rfl⟩
  | [], d :: ds, vs, ws, _, o, hc, hd, _ => by
    simp only [AreOf] at hc hd
    subst hc
    obtain ⟨w, ws, rfl, -⟩ := hd
    rw [orderAllWith, Except.ok.injEq]
    exact ⟨fun lt => lt ▸ .shorter d ds, fun | .shorter .. => rfl⟩
  | c :: cs, [], vs, ws, _, o, hc, hd, _ => by
    simp only [AreOf] at hc hd
    subst hd
    obtain ⟨v, vs, rfl, -⟩ := hc
    rw [orderAllWith, Except.ok.injEq]
    exact ⟨fun gt => gt ▸ .longer c cs, fun | .longer .. => rfl⟩
  | c :: cs, d :: ds, vs, ws, _, o, hc, hd, hf => by
    simp only [AreOf] at hc hd
    obtain ⟨v, vs, rfl, first, others⟩ := hc
    obtain ⟨w, ws, rfl, first', others'⟩ := hd
    rw [depths, max_le_iff] at hf
    rw [orderAllWith]
    split
    · next same =>
      obtain rfl := (first.equal_iff first').mp same
      rw [AreOf.orderAllWith_iff others others' hf.2]
      exact ⟨.same c, fun | .same _ others => others | .differ _ ne .. => absurd rfl ne⟩
    · next differ =>
      have ne : c ≠ d := fun eq => differ ((first.equal_iff first').mpr eq)
      rw [IsOf.orderWith_iff first first' hf.1]
      exact ⟨fun first => .differ first ne cs ds,
        fun | .same .. => absurd rfl ne | .differ first .. => first⟩

end

/-- Values are in an order if their contents are. -/
theorem IsOf.order_iff {op : String} (hc : IsOf h c v) (hd : IsOf h d w) :
    Value.order h op v w = .ok o ↔ Ordered c d o :=
  hc.orderWith_iff hd hc.depth_le_depthBound

/-! ## Laws of the order -/

theorem compare_then {α : Type} [LinearOrder α] {a b c : α} (hab : (compare a b).isLE)
    (hbc : (compare b c).isLE) : compare a c = (compare a b).then (compare b c) := by
  rcases hab' : compare a b with _ | _ | _
  · change compare a c = .lt
    rw [compare_lt_iff_lt]
    have hbc := compare_le_iff_le.mp (Ordering.isLE_iff_ne_gt.mp hbc)
    exact (compare_lt_iff_lt.mp hab').trans_le hbc
  · rw [compare_eq_iff_eq.mp hab', Ordering.then]
  · rw [hab'] at hab
    cases hab

mutual

theorem Ordered.swap : ∀ {c d : Content} {o : Ordering}, Ordered c d o → Ordered d c o.swap
  | _, _, _, .number m n => by
    rw [← Std.OrientedCmp.eq_swap]
    exact .number n m
  | _, _, _, .text s t => by
    rw [← Std.OrientedCmp.eq_swap]
    exact .text t s
  | _, _, _, .list items => .list items.swap
  | _, _, _, .tuple items => .tuple items.swap

theorem AllOrdered.swap : ∀ {cs ds : List Content} {o : Ordering}, AllOrdered cs ds o →
    AllOrdered ds cs o.swap
  | _, _, _, .nil => .nil
  | _, _, _, .shorter d ds => .longer d ds
  | _, _, _, .longer c cs => .shorter c cs
  | _, _, _, .same c others => .same c others.swap
  | _, _, _, .differ first ne cs ds => .differ first.swap ne.symm ds cs

end

mutual

theorem Ordered.eq_iff : ∀ {c d : Content} {o : Ordering}, Ordered c d o → (o = .eq ↔ c = d)
  | _, _, _, .number m n => by
    rw [compare_eq_iff_eq, Int64.toInt_inj, number.injEq]
  | _, _, _, .text s t => by
    rw [compare_eq_iff_eq, text.injEq]
  | _, _, _, .list items => by
    rw [items.eq_iff, list.injEq]
  | _, _, _, .tuple items => by
    rw [items.eq_iff, tuple.injEq]

theorem AllOrdered.eq_iff : ∀ {cs ds : List Content} {o : Ordering}, AllOrdered cs ds o →
    (o = .eq ↔ cs = ds)
  | _, _, _, .nil => by simp
  | _, _, _, .shorter d ds => by simp
  | _, _, _, .longer c cs => by simp
  | _, _, _, .same c others => by
    rw [others.eq_iff, List.cons_eq_cons, and_iff_right rfl]
  | _, _, _, .differ first ne cs ds => by
    rw [first.eq_iff, List.cons_eq_cons]
    exact iff_of_false ne fun eq => ne eq.1

end

theorem Ordered.eq_lt (first : Ordered c d o) (ne : c ≠ d) (ho : o.isLE) : o = .lt := by
  have differ := first.eq_iff.not.mpr ne
  cases o <;> simp_all

mutual

theorem Ordered.then : ∀ {c d e : Content} {o o' : Ordering}, Ordered c d o → Ordered d e o' →
    o.isLE → o'.isLE → Ordered c e (o.then o')
  | _, _, _, _, _, .number m n, .number _ k, ho, ho' => by
    rw [← compare_then ho ho']
    exact .number m k
  | _, _, _, _, _, .text s t, .text _ u, ho, ho' => by
    rw [← compare_then ho ho']
    exact .text s u
  | _, _, _, _, _, .list items, .list items', ho, ho' => .list (items.then items' ho ho')
  | _, _, _, _, _, .tuple items, .tuple items', ho, ho' => .tuple (items.then items' ho ho')

theorem AllOrdered.then : ∀ {cs ds es : List Content} {o o' : Ordering}, AllOrdered cs ds o →
    AllOrdered ds es o' → o.isLE → o'.isLE → AllOrdered cs es (o.then o')
  | _, _, _, _, _, .nil, items', _, _ => items'
  | _, _, _, _, _, .shorter d ds, .same _ _, _, _ => .shorter _ _
  | _, _, _, _, _, .shorter d ds, .differ _ _ _ _, _, _ => .shorter _ _
  | _, _, _, _, _, .same c others, .same _ others', ho, ho' => .same c (others.then others' ho ho')
  | _, _, _, o, _, .same _ _, .differ first ne _ _, ho, ho' => by
    obtain rfl := first.eq_lt ne ho'
    have lt : o.then .lt = .lt := by cases o <;> simp_all
    rw [lt]
    exact .differ first ne _ _
  | _, _, _, _, _, .differ first ne _ _, .same _ _, ho, _ => by
    obtain rfl := first.eq_lt ne ho
    exact .differ first ne _ _
  | _, _, _, _, _, .differ first ne _ _, .differ first' ne' _ _, ho, ho' => by
    obtain rfl := first.eq_lt ne ho
    obtain rfl := first'.eq_lt ne' ho'
    have both := first.then first' rfl rfl
    exact .differ both (fun eq => nomatch both.eq_iff.mpr eq) _ _

end

end Content

namespace Value

variable {h : Heap} {a b c : Value} {op : String} {o o' : Ordering}

theorem Plain.order_swap (ha : a.Plain h) (hb : b.Plain h) (hab : order h op a b = .ok o) :
    order h op b a = .ok o.swap := by
  obtain ⟨ca, hca⟩ := Content.exists_of_plain ha
  obtain ⟨cb, hcb⟩ := Content.exists_of_plain hb
  exact (hcb.order_iff hca).mpr ((hca.order_iff hcb).mp hab).swap

theorem Plain.order_then (ha : a.Plain h) (hb : b.Plain h) (hc : c.Plain h)
    (hab : order h op a b = .ok o) (hbc : order h op b c = .ok o') (ho : o.isLE) (ho' : o'.isLE) :
    order h op a c = .ok (o.then o') := by
  obtain ⟨ca, hca⟩ := Content.exists_of_plain ha
  obtain ⟨cb, hcb⟩ := Content.exists_of_plain hb
  obtain ⟨cc, hcc⟩ := Content.exists_of_plain hc
  exact (hca.order_iff hcc).mpr
    (((hca.order_iff hcb).mp hab).then ((hcb.order_iff hcc).mp hbc) ho ho')

/-- Order and equality of plain values agree: an order is turned around with its sides, it leaves
two values undecided if they are equal, equality is an equivalence, and the order is transitive,
also where not every two values have one. -/
theorem plain_order_laws (h : Heap) (op : String) {a b c : Value} (ha : a.Plain h)
    (hb : b.Plain h) (hc : c.Plain h) :
    (∀ o, order h op a b = .ok o ↔ order h op b a = .ok o.swap) ∧
      (∀ o, order h op a b = .ok o → (o = .eq ↔ equal h a b)) ∧
      (equal h a a ∧ (equal h a b → equal h b a) ∧ (equal h a b → equal h b c → equal h a c)) ∧
      ∀ o o', order h op a b = .ok o → order h op b c = .ok o' → o ≠ .gt → o' ≠ .gt →
        ∃ o'', order h op a c = .ok o'' ∧ o'' ≠ .gt ∧ (o = .lt ∨ o' = .lt → o'' = .lt) := by
  obtain ⟨ca, hca⟩ := Content.exists_of_plain ha
  obtain ⟨cb, hcb⟩ := Content.exists_of_plain hb
  obtain ⟨cc, hcc⟩ := Content.exists_of_plain hc
  refine ⟨fun o => ⟨ha.order_swap hb, fun hba => ?_⟩, fun o hab => ?_, ⟨?_, ?_, ?_⟩,
    fun o o' hab hbc ho ho' => ?_⟩
  · rw [← Ordering.swap_swap (o := o)]
    exact hb.order_swap ha hba
  · rw [hca.equal_iff hcb]
    exact ((hca.order_iff hcb).mp hab).eq_iff
  · rw [hca.equal_iff hca]
  · rw [hca.equal_iff hcb, hcb.equal_iff hca]
    exact Eq.symm
  · rw [hca.equal_iff hcb, hcb.equal_iff hcc, hca.equal_iff hcc]
    exact Eq.trans
  · have hac := ha.order_then hb hc hab hbc (Ordering.isLE_iff_ne_gt.mpr ho)
      (Ordering.isLE_iff_ne_gt.mpr ho')
    refine ⟨o.then o', hac, ?_, ?_⟩
    · cases o <;> cases o' <;> simp_all
    · cases o <;> cases o' <;> simp_all

/-- Two lists of equal items come before a third one, since their first items do, although the
second ones are in no order. -/
theorem plain_order_laws_lists :
    let h : Heap := ⟨#[#[.int 1, .none], #[.bool true, .none], #[.int 2, .str "x"]], 0⟩
    Plain h (.list 0) ∧ Plain h (.list 1) ∧ Plain h (.list 2) ∧
      order h "<" (.list 0) (.list 1) = .ok .eq ∧ order h "<" (.list 1) (.list 2) = .ok .lt ∧
      equal h (.list 0) (.list 1) ∧ order h "<" (.list 2) (.list 1) = .ok .gt ∧
      order h "<" (.list 0) (.list 2) = .ok .lt ∧ ∀ o, order h "<" .none (.str "x") ≠ .ok o := by
  intro h
  have pair {place : Nat} {v w : Value} (items : (h.items place).toList = [v, w])
      (hv : v.Plain h) (hw : w.Plain h) : Plain h (.list place) := by
    refine .list ?_
    rw [items]
    exact List.forall_mem_cons.mpr ⟨hv, List.forall_mem_cons.mpr ⟨hw, nofun⟩⟩
  have first : Plain h (.list 0) := pair rfl (.int 1) .none
  have second : Plain h (.list 1) := pair rfl (.bool true) .none
  have third : Plain h (.list 2) := pair rfl (.int 2) (.str "x")
  have same : order h "<" (.list 0) (.list 1) = .ok .eq := rfl
  have before : order h "<" (.list 1) (.list 2) = .ok .lt := rfl
  obtain ⟨-, eq_iff, -, trans⟩ := plain_order_laws h "<" first second third
  obtain ⟨swap, -⟩ := plain_order_laws h "<" second third third
  obtain ⟨o, order, -, lt⟩ := trans _ _ same before nofun nofun
  refine ⟨first, second, third, same, before, (eq_iff _ same).mp rfl, (swap _).mp before, ?_, nofun⟩
  rw [order, lt (.inr rfl)]

end Value

end SortTrace
