import SortTrace.Proofs.Evaluation
import SortTrace.Proofs.Ordering.Laws
import SortTrace.Proofs.Ordering.Merging
import SortTrace.Proofs.Recoding.Flow
import SortTrace.Proofs.Recoding.Library
import SortTrace.Proofs.Runs

/-!
# Sorting is stable

The items of a sequence are put in the order of their keys, and items whose keys are equal keep
their order, also where the order is turned around (`StablySorted`). The keys are the items or what
a function says of them when it is called once for each of them in turn (`HasKeys`). The main
statement is `sort_stable`.

The sort moves items with their keys. Here each of them goes with its position as well, which
changes nothing (`Recoding.sort_map`) and is what tells equal keys apart.
-/

namespace SortTrace

/-! ## Keys -/

/-- A function is called for each item in turn: the values that it returns, and what the calls make
of the machine. -/
inductive CalledForEach (apply : Apply) (f : Value) :
    Machine → List Value → List Value → Machine → Prop
  | nil (m : Machine) : CalledForEach apply f m [] [] m
  | cons {m m₁ m₂ : Machine} {item key : Value} {items keys : List Value}
    (call : apply f item m = .ok key m₁) (rest : CalledForEach apply f m₁ items keys m₂) :
    CalledForEach apply f m (item :: items) (key :: keys) m₂

/-- The keys of items: the items, if there is no function, or what a function returns for them. -/
inductive HasKeys (apply : Apply) (items : List Value) :
    Option Value → Machine → List Value → Machine → Prop
  | items (m : Machine) : HasKeys apply items none m items m
  | noFunction (m : Machine) : HasKeys apply items (some .none) m items m
  | calls {f : Value} {m m' : Machine} {keys : List Value} (hf : f ≠ .none)
    (calls : CalledForEach apply f m items keys m') : HasKeys apply items (some f) m keys m'

section Keys

variable {apply : Apply} {f : Value} {key : Option Value} {items keys : List Value}
  {m m' : Machine}

theorem CalledForEach.length_eq (calls : CalledForEach apply f m items keys m') :
    keys.length = items.length := by
  induction calls with
  | nil => rfl
  | cons _ _ ih => simp [ih]

theorem HasKeys.length_eq (hk : HasKeys apply items key m keys m') :
    keys.length = items.length := by
  cases hk with
  | items | noFunction => rfl
  | calls _ calls => exact calls.length_eq

theorem calledForEach_of_mapM (h : items.mapM (apply f) m = .ok keys m') :
    CalledForEach apply f m items keys m' := by
  induction items generalizing m keys with
  | nil =>
    cases h
    exact .nil _
  | cons item items ih =>
    rw [List.mapM_cons] at h
    obtain ⟨key, m₁, call, h⟩ := Run.ok_of_bind h
    obtain ⟨rest, m₂, calls, h⟩ := Run.ok_of_bind h
    cases h
    exact .cons call (ih calls)

/-- A function that fails does so for the first item for which it does. -/
theorem exists_of_mapM_error {e : Stop} (h : items.mapM (apply f) m = .error e m') :
    ∃ front item back keys m₁, items = front ++ item :: back ∧
      CalledForEach apply f m front keys m₁ ∧ apply f item m₁ = .error e m' := by
  induction items generalizing m with
  | nil => cases h
  | cons item items ih =>
    rw [List.mapM_cons] at h
    obtain h | ⟨key, m₁, call, h⟩ := Run.error_of_bind h
    · exact ⟨[], item, items, [], m, rfl, .nil m, h⟩
    · obtain h | ⟨rest, m₂, -, h⟩ := Run.error_of_bind h
      · obtain ⟨front, next, back, keys, m₂, rfl, calls, failed⟩ := ih h
        exact ⟨item :: front, next, back, key :: keys, m₂, rfl, .cons call calls, failed⟩
      · cases h

theorem keysOf_cases (apply : Apply) (items : List Value) (key : Option Value) :
    ((key = none ∨ key = some .none) ∧ keysOf apply key items = pure items) ∨
      ∃ f, f ≠ .none ∧ key = some f ∧ keysOf apply key items = items.mapM (apply f) := by
  rcases key with _ | f
  · exact .inl ⟨.inl rfl, rfl⟩
  · by_cases hf : f = .none
    · subst hf
      exact .inl ⟨.inr rfl, rfl⟩
    · refine .inr ⟨f, hf, rfl, ?_⟩
      cases f with
      | none => exact absurd rfl hf
      | _ => rfl

theorem hasKeys_of_keysOf (h : keysOf apply key items m = .ok keys m') :
    HasKeys apply items key m keys m' := by
  obtain ⟨rfl | rfl, own⟩ | ⟨f, hf, rfl, calls⟩ := keysOf_cases apply items key
  · cases h
    exact .items m
  · cases h
    exact .noFunction m
  · rw [calls] at h
    exact .calls hf (calledForEach_of_mapM h)

end Keys

/-! ## Order of the keys -/

/-- An item behind its key, and its position among the items. -/
abbrev Ranked : Type := (Value × Value) × Nat

/-- Two items that stand in the order of their keys: the first one is never the greater one, or
never the lesser one if the order is turned around, and comes first if their keys are equal. -/
def InKeyOrder (h : Heap) (reverse : Bool) (p q : Ranked) : Prop :=
  ∃ o, Value.order h "<" p.1.1 q.1.1 = .ok o ∧ o ≠ (if reverse then .lt else .gt) ∧
    (o = .eq → p.2 < q.2)

/-- The items in the order of their keys: every item is in there once, and any two of them stand in
the order of their keys. -/
def StablySorted (h : Heap) (reverse : Bool) (keys items sorted : List Value) : Prop :=
  ∃ ranked : List Ranked, ranked.Perm (keys.zip items).zipIdx ∧
    sorted = ranked.map (fun p => p.1.2) ∧ ranked.Pairwise (InKeyOrder h reverse)

section Order

variable {h : Heap} {reverse : Bool} {keys items sorted : List Value}

theorem StablySorted.perm (hs : StablySorted h reverse keys items sorted)
    (hk : keys.length = items.length) : sorted.Perm items := by
  obtain ⟨ranked, perm, rfl, -⟩ := hs
  have whole := perm.map (fun p => p.1.2)
  have items_eq : (keys.zip items).zipIdx.map (fun p => p.1.2) = items := by
    calc (keys.zip items).zipIdx.map (fun p => p.1.2)
        = ((keys.zip items).zipIdx.map Prod.fst).map Prod.snd := (List.map_map ..).symm
      _ = items := by rw [List.zipIdx_map_fst, List.map_snd_zip hk.ge]
  rwa [items_eq] at whole

/-- Two ranked items whose keys are plain, the first of them with the lower position. -/
def EarlierPlain (h : Heap) (p q : Ranked) : Prop :=
  p.2 < q.2 ∧ p.1.1.Plain h ∧ q.1.1.Plain h

theorem keyLess_eq_ok {p q : Value} {b : Bool} (hl : keyLess h reverse q p = .ok b) :
    ∃ o, Value.order h "<" q p = .ok o ∧ (b = true ↔ o = if reverse then .gt else .lt) := by
  unfold keyLess at hl
  cases ho : Value.order h "<" q p with
  | error e =>
    rw [ho] at hl
    cases hl
  | ok o =>
    rw [ho] at hl
    rw [← Except.ok.inj hl]
    exact ⟨o, rfl, beq_iff_eq⟩

theorem InKeyOrder.trans {a b c : Ranked} (ha : a.1.1.Plain h) (hb : b.1.1.Plain h)
    (hc : c.1.1.Plain h) (hab : InKeyOrder h reverse a b) (hbc : InKeyOrder h reverse b c) :
    InKeyOrder h reverse a c := by
  obtain ⟨o, hab, ho, eq⟩ := hab
  obtain ⟨o', hbc, ho', eq'⟩ := hbc
  cases reverse with
  | false =>
    refine ⟨o.then o', ha.order_then hb hc hab hbc (Ordering.isLE_iff_ne_gt.mpr ho)
      (Ordering.isLE_iff_ne_gt.mpr ho'), ?_, fun both => ?_⟩
    · cases o <;> simp_all
    · obtain ⟨first, second⟩ := Ordering.then_eq_eq.mp both
      exact (eq first).trans (eq' second)
  | true =>
    -- the order goes from the last item to the first one
    have back := hc.order_then hb ha (hb.order_swap hc hbc) (ha.order_swap hb hab)
      (by cases o' <;> simp_all) (by cases o <;> simp_all)
    refine ⟨_, hc.order_swap ha back, ?_, fun both => ?_⟩
    · cases o <;> cases o' <;> simp_all
    · have both : o'.swap.then o.swap = .eq := by
        cases hs : o'.swap.then o.swap <;> simp_all
      obtain ⟨second, first⟩ := Ordering.then_eq_eq.mp both
      exact (eq (by cases o <;> simp_all)).trans (eq' (by cases o' <;> simp_all))

/-- The comparison of keys sorts plain keys by their order. -/
theorem sortsBy_keyOrder (h : Heap) (reverse : Bool) :
    MergeSort.SortsBy (fun p q : Ranked => keyLess h reverse p.1.1 q.1.1) (EarlierPlain h)
      fun p q => p.1.1.Plain h ∧ q.1.1.Plain h ∧ InKeyOrder h reverse p q where
  trans := fun ⟨ha, hb, hab⟩ ⟨_, hc, hbc⟩ => ⟨ha, hc, hab.trans ha hb hc hbc⟩
  of_less := fun ⟨_, hp, hq⟩ less => by
    obtain ⟨o, ho, wanted⟩ := keyLess_eq_ok less
    refine ⟨hq, hp, o, ho, ?_⟩
    cases reverse <;> simp [wanted.mp rfl]
  of_not_less := fun ⟨earlier, hp, hq⟩ notLess => by
    obtain ⟨o, ho, wanted⟩ := keyLess_eq_ok notLess
    refine ⟨hp, hq, o.swap, hq.order_swap hp ho, ?_, fun _ => earlier⟩
    cases reverse <;> cases o <;> simp at wanted ⊢

/-- The keys and items may take their positions along when they are sorted. -/
theorem sort_ranked (h : Heap) (reverse : Bool) (pairs : List (Value × Value)) :
    let ranked := MergeSort.sort (fun p q : Ranked => keyLess h reverse p.1.1 q.1.1) pairs.zipIdx
    MergeSort.sort (fun p q => keyLess h reverse p.1 q.1) pairs
      = (ranked.1.map Prod.fst, ranked.2) := by
  let less (p q : Value × Value) := keyLess h reverse p.1 q.1
  have alike (p q : Ranked) : less (Prod.fst p) (Prod.fst q)
      = Recoding.same.outcome id (less p.1 q.1) := (Recoding.outcome_same _).symm
  have known := Recoding.same.sort_map alike pairs.zipIdx
  rw [List.zipIdx_map_fst, funext Recoding.fault_same, Option.map_id'] at known
  exact known

theorem sortByKeys_of_sort {ordered : List (Value × Value)}
    (hs : MergeSort.sort (fun p q => keyLess h reverse p.1 q.1) (keys.zip items)
      = (ordered, none)) (hm : ordered.map Prod.snd = sorted) :
    sortByKeys h reverse keys items = .ok sorted := by
  rw [sortByKeys, hs, ← hm]

theorem sortByKeys_of_sort_error {left : List (Value × Value)} {f : Fault}
    (hs : MergeSort.sort (fun p q => keyLess h reverse p.1 q.1) (keys.zip items)
      = (left, some f)) : sortByKeys h reverse keys items = .error f := by
  rw [sortByKeys, hs]

/-- Positions tell which of two items came first. -/
theorem pairwise_earlierPlain (plain : ∀ k ∈ keys, k.Plain h) :
    (keys.zip items).zipIdx.Pairwise (EarlierPlain h) := by
  have increasing : (keys.zip items).zipIdx.Pairwise fun p q => p.2 < q.2 := by
    rw [← List.pairwise_map (f := Prod.snd), List.zipIdx_map_snd]
    exact List.pairwise_lt_range'
  have plainAll : ∀ p ∈ (keys.zip items).zipIdx, p.1.1.Plain h := fun p hp =>
    plain _ (List.of_mem_zip (List.fst_mem_of_mem_zipIdx hp)).1
  exact increasing.imp_of_mem fun hp hq hlt => ⟨hlt, plainAll _ hp, plainAll _ hq⟩

theorem sortByKeys_sorted (plain : ∀ k ∈ keys, k.Plain h)
    (hs : sortByKeys h reverse keys items = .ok sorted) :
    StablySorted h reverse keys items sorted := by
  rw [sortByKeys, sort_ranked] at hs
  rcases hr : MergeSort.sort (fun p q : Ranked => keyLess h reverse p.1.1 q.1.1)
    (keys.zip items).zipIdx with ⟨ranked, _ | f⟩
  · rw [hr] at hs
    obtain ⟨perm, order⟩ := MergeSort.sort_sorted (sortsBy_keyOrder h reverse)
      (pairwise_earlierPlain plain) hr
    refine ⟨ranked, perm, ?_, order.imp fun both => both.2.2⟩
    rw [← Except.ok.inj hs, List.map_map]
    rfl
  · rw [hr] at hs
    cases hs

theorem sortByKeys_error {f : Fault} (hs : sortByKeys h reverse keys items = .error f) :
    ∃ a ∈ keys, ∃ b ∈ keys, Value.order h "<" a b = .error f := by
  rw [sortByKeys] at hs
  rcases hr : MergeSort.sort (fun p q => keyLess h reverse p.1 q.1) (keys.zip items)
    with ⟨out, _ | e⟩
  · rw [hr] at hs
    cases hs
  · rw [hr] at hs
    cases hs
    obtain ⟨p, hp, q, hq, failed⟩ := MergeSort.sort_error hr
    refine ⟨q.1, (List.of_mem_zip hq).1, p.1, (List.of_mem_zip hp).1, ?_⟩
    unfold keyLess at failed
    cases ho : Value.order h "<" q.1 p.1 with
    | error e =>
      rw [ho] at failed
      cases failed
      rfl
    | ok o =>
      rw [ho] at failed
      cases failed

end Order

/-! ## Sorted items and lists -/

section Items

variable {apply : Apply} {key : Option Value} {reverse : Bool} {items out : Array Value}
  {m m' : Machine}

/-- Items are sorted by the keys that are made for them first. -/
theorem keysOf_of_sortItems (h : sortItems apply key reverse items m = .ok out m') :
    ∃ keys, keysOf apply key items.toList m = .ok keys m' ∧
      sortByKeys m'.heap reverse keys items.toList = .ok out.toList := by
  unfold sortItems at h
  obtain ⟨keys, m₁, hk, ordered⟩ := Run.ok_of_bind h
  obtain ⟨sorted, m₂, hr, returned⟩ := Run.ok_of_bind ordered
  obtain ⟨hs, same⟩ := Run.ok_of_read hr
  cases returned
  rw [← same] at hs
  exact ⟨keys, same ▸ hk, hs⟩

theorem sortItems_ok (h : sortItems apply key reverse items m = .ok out m') :
    ∃ keys, HasKeys apply items.toList key m keys m' ∧
      sortByKeys m'.heap reverse keys items.toList = .ok out.toList := by
  obtain ⟨keys, hk, hs⟩ := keysOf_of_sortItems h
  exact ⟨keys, hasKeys_of_keysOf hk, hs⟩

theorem sortItems_error {e : Stop} (h : sortItems apply key reverse items m = .error e m') :
    keysOf apply key items.toList m = .error e m' ∨
      ∃ keys f, HasKeys apply items.toList key m keys m' ∧ e = .fault f ∧
        ∃ a ∈ keys, ∃ b ∈ keys, Value.order m'.heap "<" a b = .error f := by
  unfold sortItems at h
  obtain failed | ⟨keys, m₁, hk, ordered⟩ := Run.error_of_bind h
  · exact .inl failed
  · obtain failed | ⟨sorted, m₂, -, returned⟩ := Run.error_of_bind ordered
    · obtain ⟨f, hs, rfl, rfl⟩ := Run.error_of_read failed
      exact .inr ⟨keys, f, hasKeys_of_keysOf hk, rfl, sortByKeys_error hs⟩
    · cases returned

theorem HasKeys.unchanged {keys : List Value} (hk : HasKeys apply items.toList key m keys m')
    (plain : key = none ∨ key = some .none) : m' = m := by
  cases hk with
  | items | noFunction => rfl
  | calls hf => simp [hf] at plain

variable {args : List Value} {keywords : Keywords} {r : Value}

/-- What `sorted` makes is a new list. -/
theorem sorted_eq_ok : Builtin.run apply .sorted args keywords m = .ok r m' ↔
    ∃ v items out m₁, args = [v] ∧ keywords.only "sorted" ["key", "reverse"] = .ok () ∧
      m.heap.iterate v = .ok items ∧
      sortItems apply (keywords.get? "key") (keywords.isTrue "reverse" m.heap) items m
        = .ok out m₁ ∧
      r = .list m₁.heap.size ∧ m' = { m₁ with heap := (m₁.heap.insert out).2 } := by
  change Builtin.runSorted apply args keywords m = _ ↔ _
  unfold Builtin.runSorted
  constructor
  · intro h
    obtain ⟨⟨⟩, m₀, hk, h₀⟩ := Run.ok_of_bind h
    obtain ⟨allowed, rfl⟩ := Run.ok_of_of hk
    rcases args with _ | ⟨v, _ | ⟨w, args⟩⟩
    · cases h₀
    · obtain ⟨items, m₁, hi, h₁⟩ := Run.ok_of_bind h₀
      obtain ⟨hi, rfl⟩ := Run.ok_of_read hi
      obtain ⟨reverse, m₂, hr, h₂⟩ := Run.ok_of_bind h₁
      obtain ⟨hr, rfl⟩ := Run.ok_of_read hr
      obtain ⟨out, m₃, hs, h₃⟩ := Run.ok_of_bind h₂
      cases hr
      cases h₃
      exact ⟨v, items, out, m₃, rfl, allowed, hi, hs, rfl, rfl⟩
    · cases h₀
  · rintro ⟨v, items, out, m₁, rfl, allowed, hi, hs, rfl, rfl⟩
    rw [allowed]
    exact (Run.bind_ok (Run.read_ok hi)).trans (Run.bind_ok hs)

variable {place : Nat}

theorem listSort_apply (apply : Apply) (place : Nat) (keywords : Keywords) (m : Machine)
    (hk : keywords.only "sort" ["key", "reverse"] = .ok ()) :
    ListMethod.run apply (.list place) "sort" [] keywords m
      = (sortItems apply (keywords.get? "key") (keywords.isTrue "reverse" m.heap)
          (m.heap.items place) >>= fun sorted => do
            Run.compute (Compute.setItems place sorted)
            pure .none : Run Value) m := by
  change ListMethod.runSort apply place [] keywords m = _
  unfold ListMethod.runSort
  rw [hk]
  rfl

/-- Once its arguments are found right, the method sorts the items that the list has. -/
theorem listSort_cases (apply : Apply) (place : Nat) (args : List Value) (keywords : Keywords)
    (m : Machine) :
    (∃ f, ListMethod.run apply (.list place) "sort" args keywords m = .error (.fault f) m) ∨
      args = [] ∧ keywords.only "sort" ["key", "reverse"] = .ok () := by
  cases args with
  | cons v args => exact .inl ⟨_, rfl⟩
  | nil =>
    cases hk : keywords.only "sort" ["key", "reverse"] with
    | ok => exact .inr ⟨rfl, rfl⟩
    | error f =>
      refine .inl ⟨f, ?_⟩
      change ListMethod.runSort apply place [] keywords m = _
      unfold ListMethod.runSort
      rw [hk]
      rfl

theorem listSort_eq_ok : ListMethod.run apply (.list place) "sort" args keywords m = .ok r m' ↔
    args = [] ∧ keywords.only "sort" ["key", "reverse"] = .ok () ∧
      ∃ out m₁, sortItems apply (keywords.get? "key") (keywords.isTrue "reverse" m.heap)
          (m.heap.items place) m = .ok out m₁ ∧
        r = .none ∧ m' = { m₁ with heap := m₁.heap.modify place fun _ => out } := by
  constructor
  · intro h
    obtain ⟨f, failed⟩ | ⟨rfl, allowed⟩ := listSort_cases apply place args keywords m
    · cases failed.symm.trans h
    · obtain ⟨out, m₁, hs, done⟩ :=
        Run.ok_of_bind ((listSort_apply apply place keywords m allowed).symm.trans h)
      cases done
      exact ⟨rfl, allowed, out, m₁, hs, rfl, rfl⟩
  · rintro ⟨rfl, allowed, out, m₁, hs, rfl, rfl⟩
    exact (listSort_apply apply place keywords m allowed).trans (Run.bind_ok hs)

/-- A list whose items are their own keys is not changed by a sort that fails. -/
theorem listSort_error {e : Stop}
    (h : ListMethod.run apply (.list place) "sort" args keywords m = .error e m')
    (plain : keywords.get? "key" = none ∨ keywords.get? "key" = some .none) : m' = m := by
  obtain ⟨f, failed⟩ | ⟨rfl, allowed⟩ := listSort_cases apply place args keywords m
  · cases failed.symm.trans h
    rfl
  · obtain failed | ⟨out, m₁, -, done⟩ :=
      Run.error_of_bind ((listSort_apply apply place keywords m allowed).symm.trans h)
    · obtain keysFail | ⟨keys, f, hk, -⟩ := sortItems_error failed
      · obtain ⟨-, own⟩ | ⟨f, hf, hkey, -⟩ := keysOf_cases apply
          (m.heap.items place).toList (keywords.get? "key")
        · rw [own] at keysFail
          cases keysFail
        · simp [hkey, hf] at plain
      · exact hk.unchanged plain
    · cases done

/-- Sorting puts items in the order of their keys, items of equal keys as they stood, in both
directions. It fails only where a key or the order of two keys fails. So does `sorted`, whose result
is a new list, and so does `list.sort`, which changes the list in its place and, when it fails
without a key function, nothing at all. -/
theorem sort_stable (apply : Apply) (m m' : Machine) :
    (∀ key reverse items out, sortItems apply key reverse items m = .ok out m' →
      ∃ keys, HasKeys apply items.toList key m keys m' ∧
        ((∀ k ∈ keys, k.Plain m'.heap) →
          out.toList.Perm items.toList ∧
            StablySorted m'.heap reverse keys items.toList out.toList)) ∧
      (∀ key reverse items e, sortItems apply key reverse items m = .error e m' →
        (∃ f front item back keys m₁, key = some f ∧ items.toList = front ++ item :: back ∧
          CalledForEach apply f m front keys m₁ ∧ apply f item m₁ = .error e m') ∨
        ∃ keys f, HasKeys apply items.toList key m keys m' ∧ e = .fault f ∧
          ∃ a ∈ keys, ∃ b ∈ keys, Value.order m'.heap "<" a b = .error f) ∧
      (∀ args keywords r, Builtin.run apply .sorted args keywords m = .ok r m' ↔
        ∃ v items out m₁, args = [v] ∧ keywords.only "sorted" ["key", "reverse"] = .ok () ∧
          m.heap.iterate v = .ok items ∧
          sortItems apply (keywords.get? "key") (keywords.isTrue "reverse" m.heap) items m
            = .ok out m₁ ∧
          r = .list m₁.heap.size ∧ m' = { m₁ with heap := (m₁.heap.insert out).2 }) ∧
      (∀ place args keywords r,
        ListMethod.run apply (.list place) "sort" args keywords m = .ok r m' ↔
          args = [] ∧ keywords.only "sort" ["key", "reverse"] = .ok () ∧
          ∃ out m₁, sortItems apply (keywords.get? "key") (keywords.isTrue "reverse" m.heap)
              (m.heap.items place) m = .ok out m₁ ∧
            r = .none ∧ m' = { m₁ with heap := m₁.heap.modify place fun _ => out }) ∧
      ∀ place args keywords e,
        ListMethod.run apply (.list place) "sort" args keywords m = .error e m' →
        (keywords.get? "key" = none ∨ keywords.get? "key" = some .none) → m' = m := by
  refine ⟨fun key reverse items out h => ?_, fun key reverse items e h => ?_,
    fun args keywords r => sorted_eq_ok, fun place args keywords r => listSort_eq_ok,
    fun place args keywords e h => listSort_error h⟩
  · obtain ⟨keys, hk, hs⟩ := sortItems_ok h
    refine ⟨keys, hk, fun plain => ?_⟩
    have stable := sortByKeys_sorted plain hs
    exact ⟨stable.perm hk.length_eq, stable⟩
  · obtain failed | failed := sortItems_error h
    · obtain ⟨-, own⟩ | ⟨f, -, rfl, calls⟩ := keysOf_cases apply items.toList key
      · rw [own] at failed
        cases failed
      · rw [calls] at failed
        obtain ⟨front, item, back, keys, m₁, split, called, stopped⟩ :=
          exists_of_mapM_error failed
        exact .inl ⟨f, front, item, back, keys, m₁, rfl, split, called, stopped⟩
    · exact .inr failed

/-- Turned around, two comes first, and of the equal `True` and one the one that stood first. A
number and a text are in no order, and a list of them stays as it is. -/
theorem sort_stable_turned :
    let m : Machine := { Machine.start default with
      heap := ⟨#[#[.bool true, .int 2, .int 1], #[.int 1, .str "x"]], 0⟩ }
    let call : Apply := fun _ v => pure v
    sortItems call none true (m.heap.items 0) m = .ok #[.int 2, .bool true, .int 1] m ∧
      StablySorted m.heap true [.bool true, .int 2, .int 1] [.bool true, .int 2, .int 1]
        [.int 2, .bool true, .int 1] ∧
      ∃ e m', ListMethod.run call (.list 1) "sort" [] [] m = .error e m' ∧ m' = m := by
  intro m call
  have sorted : sortByKeys m.heap true [.bool true, .int 2, .int 1] [.bool true, .int 2, .int 1]
      = .ok [.int 2, .bool true, .int 1] := by
    let less (p q : Value × Value) := keyLess m.heap true p.1 q.1
    have swapped : less (.int 2, .int 2) (.bool true, .bool true) = .ok true := rfl
    have twoStays : less (.int 1, .int 1) (.int 2, .int 2) = .ok false := rfl
    have oneStays : less (.int 1, .int 1) (.bool true, .bool true) = .ok false := rfl
    have first : MergeSort.mergePairs less []
        [[(.bool true, .bool true)], [(.int 2, .int 2)], [(.int 1, .int 1)]]
        = .ok [[(.int 2, .int 2), (.bool true, .bool true)], [(.int 1, .int 1)]] := by
      simp [MergeSort.mergePairs, MergeSort.merge, swapped]
    have second : MergeSort.mergePairs less []
        [[(.int 2, .int 2), (.bool true, .bool true)], [(.int 1, .int 1)]]
        = .ok [[(.int 2, .int 2), (.bool true, .bool true), (.int 1, .int 1)]] := by
      simp [MergeSort.mergePairs, MergeSort.merge, twoStays, oneStays]
    have whole : MergeSort.sort less
        [(.bool true, .bool true), (.int 2, .int 2), (.int 1, .int 1)]
        = ([(.int 2, .int 2), (.bool true, .bool true), (.int 1, .int 1)], none) := by
      refine (MergeSort.sortRuns_of_mergePairs first).trans ?_
      rw [MergeSort.sortRuns_of_mergePairs second, MergeSort.sortRuns]
    exact sortByKeys_of_sort whole rfl
  have failed : sortByKeys m.heap false [.int 1, .str "x"] [.int 1, .str "x"]
      = .error (.unorderable "<" "str" "int") := by
    refine sortByKeys_of_sort_error (MergeSort.sortRuns_of_mergePairs_error ?_)
    have apart : keyLess m.heap false (.str "x") (.int 1)
        = .error (.unorderable "<" "str" "int") := rfl
    simp [MergeSort.mergePairs, MergeSort.merge, apart]
  have stable : sortItems call none true (m.heap.items 0) m
      = .ok #[.int 2, .bool true, .int 1] m :=
    Run.bind_ok (r := pure (m.heap.items 0).toList) rfl |>.trans
      (Run.bind_ok (Run.read_ok sorted))
  have stops : sortItems call none false (m.heap.items 1) m
      = .error (.fault (.unorderable "<" "str" "int")) m :=
    Run.bind_ok (r := pure (m.heap.items 1).toList) rfl |>.trans
      (Run.bind_error (Run.read_error failed))
  have stays := (listSort_apply call 1 [] m rfl).trans (Run.bind_error stops)
  refine ⟨stable, ?_, _, m, stays, (sort_stable call m m).2.2.2.2 1 [] [] _ stays (.inl rfl)⟩
  obtain ⟨keys, hk, order⟩ := (sort_stable call m m).1 none true _ _ stable
  cases hk
  refine (order fun k hk => ?_).2
  simp only [m, Heap.items] at hk
  rcases hk with _ | ⟨_, _ | ⟨_, _ | ⟨_, hk⟩⟩⟩
  · exact .bool true
  · exact .int 2
  · exact .int 1
  · cases hk

end Items

end SortTrace
