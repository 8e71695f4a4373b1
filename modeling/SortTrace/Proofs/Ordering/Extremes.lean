import Mathlib.Data.List.Pairwise
import SortTrace.Proofs.Ordering.StableSort
import SortTrace.Proofs.Runs
import SortTrace.Proofs.Slices.Writing

/-!
# Extremes and sorting

The least item is the first one of the sorted items, and the greatest one is the first of those
sorted the other way round. The scan for an extreme compares each item with the extreme one so far
and so other pairs than the merge sort does. But all items that could be sorted are in order with
each other, by what sorting says of any two of them (`StablySorted`), and the one that comes first
takes the place of every item before it, as it is before them and not equal to them, and loses it to
none behind it (`extremeFrom_first`).

What counts of a key is its content, so the keys may be made once more, on a machine with more
lists, by a function that always has the same content to return (`SteadyKeys`).

* `extremes_head_sorted` — `min` and `max` find the item that is first when sorted.
-/

namespace SortTrace

namespace Extreme

/-- Does sorting turn the order around for this extreme to come first? -/
def reversed : Extreme → Bool
  | least => false
  | greatest => true

/-- The builtin that finds the extreme item. -/
def builtin : Extreme → Builtin
  | least => .min
  | greatest => .max

theorem swap_wanted (e : Extreme) : e.wanted.swap = if e.reversed then .lt else .gt := by
  cases e <;> rfl

theorem run_builtin (e : Extreme) (apply : Apply) (args : List Value) (keywords : Keywords) :
    Builtin.run apply e.builtin args keywords
      = Builtin.runExtreme apply e e.builtin.name args keywords := by
  cases e <;> rfl

/-- An order to the extreme one so far that is not equality nor the wrong way is the wanted one. -/
theorem eq_wanted {e : Extreme} {o : Ordering} (ho : o ≠ e.wanted.swap) (ne : o ≠ .eq) :
    o = e.wanted := by
  cases e <;> cases o <;> simp_all [wanted]

end Extreme

/-! ## The scan -/

section Scan

variable {h : Heap} {e : Extreme} {best w : Value × Value} {front back rest : List (Value × Value)}

/-- The best item stays the best one among others that do not take its place. -/
theorem extremeFrom_keeps (hrest : ∀ q ∈ rest, ∃ o,
    Value.order h e.operator q.1 best.1 = .ok o ∧ o ≠ e.wanted) :
    extremeFrom h e best rest = .ok best.2 := by
  induction rest with
  | nil => rfl
  | cons q rest ih =>
    obtain ⟨⟨o, ho, unwanted⟩, others⟩ := List.forall_mem_cons.mp hrest
    rw [extremeFrom, ho]
    change extremeFrom h e (if o == e.wanted then q else best) rest = _
    rw [if_neg (by simpa using unwanted)]
    exact ih others

/-- An item that takes the place of all before it and loses it to none behind it is found. -/
theorem extremeFrom_reaches
    (pairs : (best :: front).Pairwise fun p q => ∃ o, Value.order h e.operator q.1 p.1 = .ok o)
    (hfront : ∀ p ∈ best :: front, Value.order h e.operator w.1 p.1 = .ok e.wanted)
    (hback : ∀ q ∈ back, ∃ o, Value.order h e.operator q.1 w.1 = .ok o ∧ o ≠ e.wanted) :
    extremeFrom h e best (front ++ w :: back) = .ok w.2 := by
  induction front generalizing best with
  | nil =>
    rw [List.nil_append, extremeFrom, hfront best (.head _)]
    change extremeFrom h e (if e.wanted == e.wanted then w else best) back = _
    rw [if_pos (by simp)]
    exact extremeFrom_keeps hback
  | cons p front ih =>
    obtain ⟨firsts, others⟩ := List.pairwise_cons.mp pairs
    obtain ⟨o, ho⟩ := firsts p (.head _)
    rw [List.cons_append, extremeFrom, ho]
    change extremeFrom h e (if o == e.wanted then p else best) _ = _
    -- the new best one is one of the two
    split
    · exact ih others fun q hq => hfront q (.tail _ hq)
    · refine ih (List.pairwise_cons.mpr ⟨fun q hq => firsts q (.tail _ hq),
        (List.pairwise_cons.mp others).2⟩) fun q hq => ?_
      rcases List.mem_cons.mp hq with rfl | hq
      · exact hfront _ (.head _)
      · exact hfront q (.tail _ (.tail _ hq))

end Scan

/-! ## The first extreme content -/

/-- Any two of `n` contents are in order, and the one at the position `i` is the first of the
extreme ones. -/
structure FirstExtreme (e : Extreme) (c : Nat → Content) (n i : Nat) : Prop where
  inside : i < n
  ordered : ∀ j j', j < j' → j' < n → ∃ o, Content.Ordered (c j) (c j') o
  first : ∀ j < n, j ≠ i →
    ∃ o, Content.Ordered (c i) (c j) o ∧ o ≠ e.wanted.swap ∧ (o = .eq → i < j)

/-- Ranked items stand at their positions, and their keys have the contents there. -/
structure RankedBy (h : Heap) (c : Nat → Content) (ranked : List Ranked) : Prop where
  increasing : ranked.Pairwise fun p q => p.2 < q.2
  has : ∀ p ∈ ranked, (c p.2).IsOf h p.1.1

section Ranked

variable {h : Heap} {e : Extreme} {c : Nat → Content} {n i : Nat} {keys items : List Value}

theorem rankedBy_zipIdx (has : ∀ j key, keys[j]? = some key → (c j).IsOf h key) :
    RankedBy h c (keys.zip items).zipIdx where
  increasing := by
    rw [← List.pairwise_map (f := Prod.snd), List.zipIdx_map_snd]
    exact List.pairwise_lt_range'
  has := fun p hp => by
    have here := List.mem_zipIdx_iff_getElem?.mp hp
    exact has _ _ (List.getElem?_zip_eq_some.mp here).1

/-- The scan finds the first extreme item. -/
theorem extremeFrom_first {ranked : List Ranked} (hr : RankedBy h c ranked)
    (hn : ∀ p ∈ ranked, p.2 < n) (he : FirstExtreme e c n i) {w : Ranked} (hw : w ∈ ranked)
    (hi : w.2 = i) {best : Value × Value} {rest : List (Value × Value)}
    (hrest : ranked.map Prod.fst = best :: rest) : extremeFrom h e best rest = .ok w.1.2 := by
  obtain ⟨front, back, rfl⟩ := List.append_of_mem hw
  obtain ⟨fronts, backs, apart⟩ := List.pairwise_append.mp hr.increasing
  have behind := (List.pairwise_cons.mp backs).1
  have order {p q : Ranked} (hp : p ∈ front ++ w :: back) (hq : q ∈ front ++ w :: back)
      {o : Ordering} (ho : Content.Ordered (c p.2) (c q.2) o) :
      Value.order h e.operator p.1.1 q.1.1 = .ok o :=
    ((hr.has p hp).order_iff (hr.has q hq)).mpr ho
  have takes : ∀ p ∈ front, Value.order h e.operator w.1.1 p.1.1 = .ok e.wanted := by
    intro p hp
    have all : p ∈ front ++ w :: back := List.mem_append_left _ hp
    have before : p.2 < w.2 := apart p hp w (.head _)
    obtain ⟨o, ho, wrong, eq⟩ := he.first p.2 (hn p all) (by omega)
    have wanted : o = e.wanted := e.eq_wanted wrong fun h => by have := eq h; omega
    rw [← hi, wanted] at ho
    exact order hw all ho
  have keeps : ∀ q ∈ back, ∃ o, Value.order h e.operator q.1.1 w.1.1 = .ok o ∧ o ≠ e.wanted := by
    intro q hq
    have all : q ∈ front ++ w :: back := List.mem_append_right _ (.tail _ hq)
    have after : w.2 < q.2 := behind q hq
    obtain ⟨o, ho, wrong, -⟩ := he.first q.2 (hn q all) (by omega)
    rw [← hi] at ho
    exact ⟨o.swap, order all hw ho.swap, fun same => wrong (by rw [← same, Ordering.swap_swap])⟩
  have pairs : front.Pairwise fun p q => ∃ o, Value.order h e.operator q.1.1 p.1.1 = .ok o := by
    refine fronts.imp_of_mem fun {p q} hp hq before => ?_
    have hp := List.mem_append_left (w :: back) hp
    have hq := List.mem_append_left (w :: back) hq
    obtain ⟨o, ho⟩ := he.ordered p.2 q.2 before (hn q hq)
    exact ⟨o.swap, order hq hp ho.swap⟩
  have keeps' : ∀ q ∈ back.map Prod.fst,
      ∃ o, Value.order h e.operator q.1 w.1.1 = .ok o ∧ o ≠ e.wanted :=
    List.forall_mem_map.mpr keeps
  cases front with
  | nil =>
    obtain ⟨rfl, rfl⟩ := List.cons.inj hrest
    exact extremeFrom_keeps keeps'
  | cons p front =>
    rw [List.cons_append, List.map_cons, List.map_append] at hrest
    obtain ⟨rfl, rfl⟩ := List.cons.inj hrest
    have takes' : ∀ q ∈ (p :: front).map Prod.fst,
        Value.order h e.operator w.1.1 q.1 = .ok e.wanted := List.forall_mem_map.mpr takes
    have pairs' : ((p :: front).map Prod.fst).Pairwise fun p q =>
        ∃ o, Value.order h e.operator q.1 p.1 = .ok o := List.pairwise_map.mpr pairs
    exact extremeFrom_reaches pairs' takes' keeps'

/-- The first of the sorted items is the first extreme one. -/
theorem firstExtreme_of_sorted {ranked : List Ranked} {first : Ranked} {others : List Ranked}
    (hr : RankedBy h c ranked) (hn : ranked.map Prod.snd = List.range n)
    (perm : (first :: others).Perm ranked)
    (sorted : (first :: others).Pairwise (InKeyOrder h e.reversed)) :
    FirstExtreme e c n first.2 := by
  have order {p q : Ranked} (hp : p ∈ ranked) (hq : q ∈ ranked) {o : Ordering}
      (ho : Value.order h "<" p.1.1 q.1.1 = .ok o) : Content.Ordered (c p.2) (c q.2) o :=
    ((hr.has p hp).order_iff (hr.has q hq)).mp ho
  have at_position {j : Nat} (hj : j < n) : ∃ p ∈ ranked, p.2 = j := by
    have : j ∈ ranked.map Prod.snd := hn ▸ List.mem_range.mpr hj
    exact List.mem_map.mp this
  have firstIn : first ∈ ranked := perm.mem_iff.mp (.head _)
  refine ⟨?_, fun j j' hlt hj' => ?_, fun j hj ne => ?_⟩
  · have : first.2 ∈ ranked.map Prod.snd := List.mem_map_of_mem firstIn
    rwa [hn, List.mem_range] at this
  · -- one of the two goes before the other
    obtain ⟨p, hp, rfl⟩ := at_position (hlt.trans hj')
    obtain ⟨q, hq, rfl⟩ := at_position hj'
    let either (a b : Ranked) := InKeyOrder h e.reversed a b ∨ InKeyOrder h e.reversed b a
    have : Std.Symm either := ⟨fun _ _ => Or.symm⟩
    have related : (first :: others).Pairwise either := sorted.imp .inl
    have ne : p ≠ q := fun same => Nat.lt_irrefl _ (same ▸ hlt)
    rcases related.forall (perm.mem_iff.mpr hp) (perm.mem_iff.mpr hq) ne
      with ⟨o, ho, -⟩ | ⟨o, ho, -⟩
    · exact ⟨o, order hp hq ho⟩
    · exact ⟨o.swap, (order hq hp ho).swap⟩
  · obtain ⟨q, hq, rfl⟩ := at_position hj
    have behind : q ∈ others := by
      rcases List.mem_cons.mp (perm.mem_iff.mpr hq) with rfl | hq
      · exact absurd rfl ne
      · exact hq
    obtain ⟨o, ho, wrong, eq⟩ := (List.pairwise_cons.mp sorted).1 q behind
    rw [← e.swap_wanted] at wrong
    exact ⟨o, order firstIn hq ho, wrong, eq⟩

end Ranked

/-! ## Machines without an effect -/

/-- All lists in a value are in the heap. -/
inductive Value.Stored (h : Heap) : Value → Prop
  | list {place : Nat} (inside : place < h.size)
    (items : ∀ v ∈ (h.items place).toList, Stored h v) : Stored h (.list place)
  | tuple {id : Nat} {vs : List Value} (items : ∀ v ∈ vs, Stored h v) : Stored h (.tuple id vs)
  | other {v : Value} (hl : ∀ place, v ≠ .list place) (ht : ∀ id vs, v ≠ .tuple id vs) : Stored h v

theorem Value.Stored.int (h : Heap) (n : Int64) : (Value.int n).Stored h :=
  .other nofun nofun

namespace Machine.Unaffected

variable {m m₁ m₂ : Machine}

/-- What is stored stays, with its content. -/
theorem stored (h : m.Unaffected m₁) {v : Value} (hv : v.Stored m.heap) :
    v.Stored m₁.heap := by
  induction hv with
  | list inside _ ih =>
    refine .list (inside.trans_le h.size) ?_
    rwa [h.lists _ inside]
  | tuple _ ih => exact .tuple ih
  | other hl ht => exact .other hl ht

theorem areOf {m₁ : Machine} {vs : List Value} {cs : List Content}
    (hvs : ∀ v ∈ vs, ∀ c, Content.IsOf m.heap c v → Content.IsOf m₁.heap c v)
    (hcs : Content.AreOf m.heap cs vs) : Content.AreOf m₁.heap cs vs := by
  induction vs generalizing cs with
  | nil => cases cs <;> simp_all [Content.AreOf]
  | cons v vs ih =>
    cases cs with
    | nil => simp [Content.AreOf] at hcs
    | cons c cs =>
      simp only [Content.AreOf] at hcs
      obtain ⟨w, ws, same, first, others⟩ := hcs
      obtain ⟨rfl, rfl⟩ := List.cons.inj same
      obtain ⟨hv, hvs⟩ := List.forall_mem_cons.mp hvs
      exact ⟨v, vs, rfl, hv c first, ih hvs others⟩

theorem isOf (h : m.Unaffected m₁) {v : Value} (hv : v.Stored m.heap) {c : Content}
    (hc : c.IsOf m.heap v) : c.IsOf m₁.heap v := by
  induction hv generalizing c with
  | @list place inside _ ih =>
    cases c with
    | list cs =>
      obtain ⟨_, same, items⟩ := hc
      obtain rfl := Value.list.inj same
      refine ⟨place, rfl, ?_⟩
      rw [h.lists place inside]
      exact areOf (fun v hv c => ih v hv) items
    | _ => simp [Content.IsOf, Value.asInt?] at hc
  | @tuple id vs _ ih =>
    cases c with
    | tuple cs =>
      obtain ⟨_, _, same, items⟩ := hc
      obtain ⟨rfl, rfl⟩ := Value.tuple.inj same
      exact ⟨id, vs, rfl, areOf (fun v hv c => ih v hv) items⟩
    | _ => simp [Content.IsOf, Value.asInt?] at hc
  | other hl ht => cases c <;> simp_all [Content.IsOf]

end Machine.Unaffected

/-! ## Keys -/

/-- The key of an item. -/
def keyOf (apply : Apply) : (key : Option Value) → Value → Run Value
  | none, item | some .none, item => pure item
  | some f, item => apply f item

/-- The key of an item has the content `k item`, without an effect, on every machine that `m` leads
to without one. -/
def SteadyKeys (apply : Apply) (key : Option Value) (k : Value → Content) (items : Array Value)
    (m : Machine) : Prop :=
  ∀ item ∈ items.toList, ∀ m₁, m.Unaffected m₁ → ∃ v m₂, keyOf apply key item m₁ = .ok v m₂ ∧
    m₁.Unaffected m₂ ∧ v.Stored m₂.heap ∧ (k item).IsOf m₂.heap v

/-- What all calls for the items return, all keys are. -/
theorem CalledForEach.all_keys {apply : Apply} {f : Value} {m m' : Machine}
    {items keys : List Value} {P : Value → Prop} (calls : CalledForEach apply f m items keys m')
    (h : ∀ item ∈ items, ∀ m₁ key m₂, apply f item m₁ = .ok key m₂ → P key) :
    ∀ k ∈ keys, P k := by
  induction calls with
  | nil => nofun
  | cons call _ ih =>
    obtain ⟨first, others⟩ := List.forall_mem_cons.mp h
    exact List.forall_mem_cons.mpr ⟨first _ _ _ call, ih others⟩

section Keys

variable {apply : Apply} {key : Option Value} {k : Value → Content} {items : Array Value}
  {m m₁ : Machine}

theorem keysOf_eq_mapM (apply : Apply) (key : Option Value) (items : List Value) :
    keysOf apply key items = items.mapM (keyOf apply key) := by
  have own : (pure items : Run (List Value)) = items.mapM pure := by
    have each := List.mapM_pure (m := Run) (l := items) (f := id)
    rw [List.map_id] at each
    exact each.symm
  obtain ⟨rfl | rfl, h⟩ | ⟨f, hf, rfl, h⟩ := keysOf_cases apply items key
  · exact h.trans own
  · exact h.trans own
  · cases f with
    | none => exact absurd rfl hf
    | _ => exact h

/-- Steady keys are made without an effect. -/
theorem SteadyKeys.keysOf (hk : SteadyKeys apply key k items m) (hm : m.Unaffected m₁) :
    ∃ keys m₂, keysOf apply key items.toList m₁ = .ok keys m₂ ∧ m₁.Unaffected m₂ ∧
      List.Forall₂ (fun v item => (k item).IsOf m₂.heap v) keys items.toList := by
  suffices made : ∀ front : List Value, (∀ item ∈ front, item ∈ items.toList) →
      ∀ m₁, m.Unaffected m₁ → ∃ keys m₂, front.mapM (keyOf apply key) m₁ = .ok keys m₂ ∧
        m₁.Unaffected m₂ ∧
        List.Forall₂ (fun v item => v.Stored m₂.heap ∧ (k item).IsOf m₂.heap v) keys front by
    obtain ⟨keys, m₂, h, effect, has⟩ := made items.toList (fun _ h => h) m₁ hm
    rw [keysOf_eq_mapM]
    exact ⟨keys, m₂, h, effect, has.imp fun _ _ both => both.2⟩
  intro front
  induction front with
  | nil => exact fun _ m₁ _ => ⟨[], m₁, rfl, .refl m₁, .nil⟩
  | cons item front ih =>
    intro inside m₁ hm
    obtain ⟨itemIn, frontIn⟩ := List.forall_mem_cons.mp inside
    obtain ⟨v, m₂, hv, effect, stored, content⟩ := hk item itemIn m₁ hm
    obtain ⟨keys, m₃, hkeys, effect', has⟩ := ih frontIn m₂ (hm.trans effect)
    refine ⟨v :: keys, m₃, ?_, effect.trans effect',
      .cons ⟨effect'.stored stored, effect'.isOf stored content⟩ has⟩
    rw [List.mapM_cons]
    exact (Run.bind_ok hv).trans (Run.bind_ok hkeys)

end Keys

/-! ## Extremes and sorted items -/

/-- A call of `min` or `max` for the items with the same key function. -/
structure ExtremeCall (e : Extreme) (key : Option Value) (items : Array Value) (m : Machine)
    (args : List Value) (keywords : Keywords) : Prop where
  allowed : keywords.only e.builtin.name ["key"] = .ok ()
  sameKey : keywords.get? "key" = key
  listed : Builtin.extremeArguments e.builtin.name args m = .ok items m

/-- The key at the position `i` is in order with all others, on the right side, and it is the first
one of those that equal it. -/
def FirstOf (h : Heap) (e : Extreme) (keys : List Value) (i : Nat) : Prop :=
  ∃ key, keys[i]? = some key ∧ ∀ j other, keys[j]? = some other → j ≠ i →
    ∃ o, Value.order h "<" key other = .ok o ∧ o ≠ e.wanted.swap ∧ (o = .eq → i < j)

section Extremes

variable {apply : Apply} {e : Extreme} {key : Option Value} {items : Array Value}
  {m m₁ m' : Machine} {args : List Value} {keywords : Keywords}

/-- The call finds the item at the position of the first extreme key. -/
theorem ExtremeCall.run_eq (hcall : ExtremeCall e key items m args keywords) {keys : List Value}
    (hkeys : keysOf apply key items.toList m = .ok keys m₁)
    (hlength : keys.length = items.toList.length) {c : Nat → Content}
    (has : ∀ j key, keys[j]? = some key → (c j).IsOf m₁.heap key) {i : Nat} {first : Value}
    (he : FirstExtreme e c items.toList.length i) (hfirst : items.toList[i]? = some first) :
    Builtin.run apply e.builtin args keywords m = .ok first m₁ := by
  have hi : i < keys.length := hlength ▸ he.inside
  have here : (keys.zip items.toList)[i]? = some (keys[i], first) :=
    List.getElem?_zip_eq_some.mpr ⟨List.getElem?_eq_getElem hi, hfirst⟩
  rw [e.run_builtin, Builtin.runExtreme, hcall.allowed, hcall.sameKey]
  refine (Run.bind_ok (r := Run.of (.ok ())) rfl).trans ((Run.bind_ok hcall.listed).trans ?_)
  unfold extremeItem
  refine (Run.bind_ok hkeys).trans ?_
  cases hz : keys.zip items.toList with
  | nil =>
    rw [hz] at here
    cases here
  | cons best rest =>
    refine Run.read_ok ?_
    refine extremeFrom_first (w := ((keys[i], first), i)) (rankedBy_zipIdx has) (fun p hp => ?_) he
      (List.mem_zipIdx_iff_getElem?.mpr here) rfl ?_
    · have inside := List.mem_zipIdx_iff_getElem?.mp hp
      exact (List.getElem?_eq_some_iff.mp (List.getElem?_zip_eq_some.mp inside).2).1
    · rw [List.zipIdx_map_fst, hz]

/-- What is sorted starts with the first extreme item. -/
theorem firstExtreme_of_sortItems {out : Array Value} {keys : List Value}
    (plain : ∀ k ∈ keys, k.Plain m₁.heap)
    (hs : sortByKeys m₁.heap e.reversed keys items.toList = .ok out.toList)
    (hlength : keys.length = items.toList.length) (hne : items.toList ≠ []) {c : Nat → Content}
    (has : ∀ j key, keys[j]? = some key → (c j).IsOf m₁.heap key) :
    ∃ i first, out[0]? = some first ∧ items.toList[i]? = some first ∧
      FirstExtreme e c items.toList.length i := by
  obtain ⟨ranked, perm, sorted, order⟩ := sortByKeys_sorted plain hs
  have length : (keys.zip items.toList).length = items.toList.length := by
    rw [List.length_zip, hlength, Nat.min_self]
  cases ranked with
  | nil =>
    have none := perm.length_eq
    rw [List.length_zipIdx, length] at none
    exact absurd (List.length_eq_zero_iff.mp none.symm) hne
  | cons first others =>
    have inside := List.mem_zipIdx_iff_getElem?.mp (perm.mem_iff.mp (.head _))
    refine ⟨first.2, first.1.2, ?_, (List.getElem?_zip_eq_some.mp inside).2, ?_⟩
    · rw [← Array.getElem?_toList, sorted]
      rfl
    · refine firstExtreme_of_sorted (rankedBy_zipIdx has) ?_ perm order
      rw [List.zipIdx_map_snd, length, List.range_eq_range']

theorem FirstExtreme.firstOf {h : Heap} {c : Nat → Content} {n i : Nat} {keys : List Value}
    (he : FirstExtreme e c n i) (hlength : keys.length = n)
    (has : ∀ j key, keys[j]? = some key → (c j).IsOf h key) : FirstOf h e keys i := by
  have hi : i < keys.length := hlength ▸ he.inside
  have here := List.getElem?_eq_getElem hi
  refine ⟨keys[i], here, fun j other hj ne => ?_⟩
  have inside : j < n := hlength ▸ (List.getElem?_eq_some_iff.mp hj).1
  obtain ⟨o, ho, side⟩ := he.first j inside ne
  exact ⟨o, ((has i _ here).order_iff (has j other hj)).mpr ho, side⟩

/-- **Extremes are the heads of sorted items.** -/
theorem extremes_head_sorted {v r : Value} {sorting : Keywords}
    (hsorted : Builtin.run apply .sorted [v] sorting m = .ok r m')
    (hreverse : sorting.isTrue "reverse" m.heap = e.reversed)
    (hitems : m.heap.iterate v = .ok items) (hne : items.toList ≠ [])
    (plain : ∀ keys m₁, HasKeys apply items.toList (sorting.get? "key") m keys m₁ →
      ∀ k ∈ keys, k.Plain m₁.heap) :
    ∃ place first i keys m₁, r = .list place ∧ (m'.heap.items place)[0]? = some first ∧
      items[i]? = some first ∧ HasKeys apply items.toList (sorting.get? "key") m keys m₁ ∧
      FirstOf m₁.heap e keys i ∧
      (∀ args keywords, ExtremeCall e (sorting.get? "key") items m args keywords →
        Builtin.run apply e.builtin args keywords m = .ok first m₁) ∧
      ∀ k, SteadyKeys apply (sorting.get? "key") k items m → m.Unaffected m' ∧
        ∀ m₂, m.Unaffected m₂ →
          ∀ args keywords, ExtremeCall e (sorting.get? "key") items m₂ args keywords →
            ∃ m₃, Builtin.run apply e.builtin args keywords m₂ = .ok first m₃ ∧
              m₂.Unaffected m₃ := by
  obtain ⟨_, _, out, m₁, ⟨⟩, -, listed, hs, rfl, rfl⟩ := sorted_eq_ok.mp hsorted
  obtain rfl := Except.ok.inj (hitems.symm.trans listed)
  rw [hreverse] at hs
  obtain ⟨keys, hkeys, ordered⟩ := keysOf_of_sortItems hs
  have hk := hasKeys_of_keysOf hkeys
  have contents (j : Nat) : ∃ c : Content, ∀ key, keys[j]? = some key → c.IsOf m₁.heap key := by
    cases hj : keys[j]? with
    | none => exact ⟨.nothing, nofun⟩
    | some key =>
      obtain ⟨c, hc⟩ := Content.exists_of_plain (plain keys m₁ hk key (List.mem_of_getElem? hj))
      exact ⟨c, fun _ same => Option.some.inj same ▸ hc⟩
  choose c has using contents
  obtain ⟨i, first, head, at_i, extreme⟩ :=
    firstExtreme_of_sortItems (plain keys m₁ hk) ordered hk.length_eq hne has
  refine ⟨m₁.heap.size, first, i, keys, m₁, rfl, ?_, Array.getElem?_toList ▸ at_i, hk,
    extreme.firstOf hk.length_eq has,
    fun args keywords hcall => hcall.run_eq hkeys hk.length_eq has extreme at_i,
    fun k steady => ?_⟩
  · rwa [Heap.items_insert]
  -- the keys that were sorted have the contents of the function too
  obtain ⟨keys', m₁', hkeys', effect, same⟩ := steady.keysOf (.refl m)
  obtain ⟨rfl, rfl⟩ := EStateM.Result.ok.inj (hkeys'.symm.trans hkeys)
  refine ⟨effect.trans (.insert m₁' out), fun m₂ hm₂ args keywords hcall => ?_⟩
  obtain ⟨again, m₃, hagain, effect', same'⟩ := steady.keysOf hm₂
  have has' (j : Nat) (key : Value) (hj : again[j]? = some key) : (c j).IsOf m₃.heap key := by
    obtain ⟨last, rfl⟩ := List.getElem?_eq_some_iff.mp hj
    have inside : j < items.toList.length := same'.length_eq ▸ last
    have before : j < keys'.length := same.length_eq ▸ inside
    have known := (has j _ (List.getElem?_eq_getElem before)).unique (same.get before inside)
    rw [known]
    exact same'.get last inside
  exact ⟨m₃, hcall.run_eq hagain same'.length_eq has' extreme at_i, effect'⟩

/-- Of two numbers with one absolute value the first one is the greatest, on all machines that look
the same. -/
theorem extremes_head_sorted_absolute :
    let m : Machine :=
      { Machine.start default with heap := ⟨#[#[.int (-1), .int 1]], 0⟩ }
    let call : Apply := applyTo fun _ _ _ _ => Run.fault .recursion
    let key : Keywords := [("key", .builtin .abs)]
    ∃ m', Builtin.run call .sorted [.list 0] (("reverse", .bool true) :: key) m = .ok (.list 1) m' ∧
      (m'.heap.items 1)[0]? = some (.int (-1)) ∧
      ∀ m₁, m.Unaffected m₁ →
        ∃ m₂, Builtin.run call .max [.list 0] key m₁ = .ok (.int (-1)) m₂ := by
  intro m call key
  let items : Array Value := #[.int (-1), .int 1]
  have sorted : sortByKeys m.heap true [.int 1, .int 1] [.int (-1), .int 1]
      = .ok [.int (-1), .int 1] := by
    let less (p q : Value × Value) := keyLess m.heap true p.1 q.1
    have stays : less (.int 1, .int 1) (.int 1, .int (-1)) = .ok false := rfl
    have pass : MergeSort.mergePairs less [] [[(.int 1, .int (-1))], [(.int 1, .int 1)]]
        = .ok [[(.int 1, .int (-1)), (.int 1, .int 1)]] := by
      simp [MergeSort.mergePairs, MergeSort.merge, stays]
    have whole : MergeSort.sort less [(.int 1, .int (-1)), (.int 1, .int 1)]
        = ([(.int 1, .int (-1)), (.int 1, .int 1)], none) := by
      refine (MergeSort.sortRuns_of_mergePairs pass).trans ?_
      rw [MergeSort.sortRuns]
    exact sortByKeys_of_sort whole rfl
  have keys : keysOf call (some (.builtin .abs)) items.toList m = .ok [.int 1, .int 1] m := rfl
  have ordered : sortItems call (some (.builtin .abs)) true items m = .ok items m :=
    (Run.bind_ok keys).trans (Run.bind_ok (Run.read_ok sorted))
  have run : Builtin.run call .sorted [.list 0] (("reverse", .bool true) :: key) m
      = .ok (.list 1) { m with heap := (m.heap.insert items).2 } :=
    sorted_eq_ok.mpr ⟨_, items, items, m, rfl, rfl, rfl, ordered, rfl, rfl⟩
  have one (m₁ : Machine) : ∀ item ∈ items.toList,
      call (.builtin .abs) item m₁ = .ok (.int 1) m₁ :=
    List.forall_mem_cons.mpr ⟨rfl, List.forall_mem_singleton.mpr rfl⟩
  have plain : ∀ keys m₁, HasKeys call items.toList (some (.builtin .abs)) m keys m₁ →
      ∀ k ∈ keys, k.Plain m₁.heap := by
    rintro keys m₁ (- | - | ⟨-, calls⟩)
    refine calls.all_keys fun item hi m₁ v m₂ made => ?_
    obtain ⟨rfl, -⟩ := EStateM.Result.ok.inj (made.symm.trans (one m₁ item hi))
    exact .int 1
  obtain ⟨place, first, i, keys, m₁, hr, head, -, -, -, -, elsewhere⟩ :=
    extremes_head_sorted (e := .greatest) run rfl rfl (List.cons_ne_nil _ _) plain
  obtain rfl := Value.list.inj hr
  obtain rfl : .int (-1) = first := Option.some.inj head
  obtain ⟨-, elsewhere⟩ := elsewhere (fun _ => .number 1) fun item hi m₁ _ =>
    ⟨.int 1, m₁, one m₁ item hi, .refl m₁, .int m₁.heap 1, rfl⟩
  refine ⟨_, run, head, fun m₁ hm₁ => ?_⟩
  have listed : m₁.heap.iterate (.list 0) = .ok items :=
    congrArg Except.ok (hm₁.lists 0 (by decide))
  have read : Builtin.extremeArguments "max" [.list 0] m₁ = .ok items m₁ :=
    Run.read_ok (f := fun h => h.iterate (.list 0)) listed
  obtain ⟨m₂, found, -⟩ := elsewhere m₁ hm₁ [.list 0] key ⟨rfl, rfl, read⟩
  exact ⟨m₂, found⟩

end Extremes

end SortTrace
