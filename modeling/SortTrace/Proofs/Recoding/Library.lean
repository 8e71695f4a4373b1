import Mathlib.Data.List.InsertIdx
import SortTrace.Machine.Arguments
import SortTrace.Machine.ListMethod
import SortTrace.Proofs.Recoding.Operator

/-!
# Builtins, methods and calls on recoded values

What the builtin functions and the methods of lists compute from their arguments commutes with every
recoding, sorting and choosing an extreme included: the keys are compared, never looked into. So
does the way in which arguments become local names (`bindArguments_value`).

The functions that are called for keys, the session and the line of a log are no matter of values;
the runs that use them are followed in `SortTrace.Proofs.Coupling`.
-/

namespace SortTrace.Recoding

variable (ρ : Recoding) (h : Heap)

/-! ## Merge sort -/

section MergeSort

open MergeSort

variable {α β : Type} {f : α → β} {less : α → α → Except Fault Bool}
  {less' : β → β → Except Fault Bool} (hless : ∀ a b, less' (f a) (f b) = ρ.outcome id (less a b))

include hless

theorem merge_map (done xs ys : List α) :
    merge less' (done.map f) (xs.map f) (ys.map f)
      = ρ.outcome (List.map f) (merge less done xs ys) := by
  fun_induction merge less done xs ys with
  | case1 done ys => simp [merge]
  | case2 done x xs => simp [merge]
  | case3 done x xs y ys e he => simp [merge, hless, he, outcome]
  | case4 done x xs y ys ht ih => simpa [merge, hless, ht, outcome] using ih
  | case5 done x xs y ys hf ih => simpa [merge, hless, hf, outcome] using ih

theorem mergePairs_map (done runs : List (List α)) :
    mergePairs less' (done.map (List.map f)) (runs.map (List.map f))
      = ρ.outcome (List.map (List.map f)) (mergePairs less done runs) := by
  fun_induction mergePairs less done runs with
  | case1 done => simp [mergePairs]
  | case2 done run => simp [mergePairs]
  | case3 done run next runs e he =>
    have merged := ρ.merge_map hless [] run next
    rw [he, List.map_nil] at merged
    simp [mergePairs, merged, outcome]
  | case4 done run next runs both hb ih =>
    have merged := ρ.merge_map hless [] run next
    rw [hb, List.map_nil] at merged
    simpa [mergePairs, merged, outcome] using ih

theorem sortRuns_map (runs : List (List α)) :
    sortRuns less' (runs.map (List.map f))
      = ((sortRuns less runs).1.map f, (sortRuns less runs).2.map ρ.fault) := by
  fun_induction sortRuns less runs with
  | case1 => simp [sortRuns]
  | case2 run => simp [sortRuns]
  | case3 run next runs e he =>
    have merged := ρ.mergePairs_map hless [] (run :: next :: runs)
    rw [he] at merged
    simp only [List.map_nil, List.map_cons] at merged
    rw [List.map_cons, List.map_cons, sortRuns, merged]
    simp [outcome]
  | case4 run next runs merged hm ih =>
    have pairs := ρ.mergePairs_map hless [] (run :: next :: runs)
    rw [hm] at pairs
    simp only [List.map_nil, List.map_cons] at pairs
    rw [List.map_cons, List.map_cons, sortRuns, pairs]
    exact ih

theorem sort_map (items : List α) :
    sort less' (items.map f)
      = ((sort less items).1.map f, (sort less items).2.map ρ.fault) := by
  have runs := ρ.sortRuns_map hless (items.map ([·]))
  simpa [sort, Function.comp_def] using runs

end MergeSort

theorem keyLess_value (reverse : Bool) (a b : Value) :
    keyLess (ρ.heap h) reverse (ρ.value a) (ρ.value b)
      = ρ.outcome id (keyLess h reverse a b) :=
  ρ.outcome_map (ρ.order_value h "<" a b) fun _ => rfl

theorem sortByKeys_value (reverse : Bool) (keys items : List Value) :
    sortByKeys (ρ.heap h) reverse (keys.map ρ.value) (items.map ρ.value)
      = ρ.outcome (List.map ρ.value) (sortByKeys h reverse keys items) := by
  let lessIn (k : Heap) (p q : Value × Value) := keyLess k reverse p.1 q.1
  have hless : ∀ p q, lessIn (ρ.heap h) (p.map ρ.value ρ.value) (q.map ρ.value ρ.value)
      = ρ.outcome id (lessIn h p q) := fun p q => ρ.keyLess_value h reverse p.1 q.1
  have sorted := ρ.sort_map hless (keys.zip items)
  rw [sortByKeys, List.zip_map, sortByKeys, sorted]
  rcases MergeSort.sort (lessIn h) (keys.zip items) with ⟨out, e⟩
  cases e <;> simp [outcome]

theorem extremeFrom_value (e : Extreme) (best : Value × Value) (rest : List (Value × Value)) :
    extremeFrom (ρ.heap h) e (Prod.map ρ.value ρ.value best)
        (rest.map (Prod.map ρ.value ρ.value))
      = ρ.outcome ρ.value (extremeFrom h e best rest) := by
  induction rest generalizing best with
  | nil => rfl
  | cons p rest ih =>
    simp only [List.map_cons, extremeFrom]
    refine ρ.outcome_bind (ρ.order_value h _ p.1 best.1) fun o => ?_
    rw [← ih]
    congr 1
    exact (apply_ite (Prod.map ρ.value ρ.value) _ p best).symm

/-! ## Arguments of builtins -/

section Arguments

variable (keywords : Keywords) (args : List Value)

theorem only_bindings (function : String) (allowed : List String) :
    Keywords.only function allowed (ρ.bindings keywords)
      = ρ.outcome id (Keywords.only function allowed keywords) := by
  simp only [Keywords.only, bindings, List.find?_map, Function.comp_def]
  cases keywords.find? fun k => !allowed.contains k.1 <;> rfl

theorem none_bindings (function : String) :
    Keywords.none function (ρ.bindings keywords)
      = ρ.outcome id (Keywords.none function keywords) := by
  cases keywords <;> rfl

@[simp] theorem get?_bindings (name : String) :
    Keywords.get? (ρ.bindings keywords) name = (keywords.get? name).map ρ.value := by
  simp only [Keywords.get?, bindings, ← List.map_reverse]
  induction keywords.reverse with
  | nil => rfl
  | cons p rest ih =>
    obtain ⟨other, v⟩ := p
    rw [List.map_cons, List.lookup_cons, List.lookup_cons, ih]
    cases name == other <;> rfl

@[simp] theorem isTrue_bindings (name : String) :
    Keywords.isTrue (ρ.bindings keywords) name (ρ.heap h) = keywords.isTrue name h := by
  rw [Keywords.isTrue, Keywords.isTrue, get?_bindings]
  cases keywords.get? name <;> simp

theorem countArguments_value (function : String) (least most : Nat) :
    countArguments function least most (args.map ρ.value)
      = ρ.outcome id (countArguments function least most args) := by
  simp only [countArguments, List.length_map]
  split
  · rfl
  split <;> rfl

theorem onlyArgument_value (function : String) :
    onlyArgument function (args.map ρ.value)
      = ρ.outcome ρ.value (onlyArgument function args) := by
  match args with
  | [] => rfl
  | [v] => rfl
  | v :: w :: rest => simp [onlyArgument, outcome]; rfl

theorem integerArgument_value (v : Value) :
    integerArgument (ρ.value v) = ρ.outcome id (integerArgument v) := by
  simp only [integerArgument, asInt?_value, typeName_value]
  cases v.asInt? <;> rfl

theorem integerArguments_value :
    (args.map ρ.value).mapM integerArgument
      = ρ.outcome id (args.mapM integerArgument) := by
  have each := ρ.outcome_mapM ρ.integerArgument_value args
  rwa [List.map_id_fun] at each

theorem printOption_value (option standard : String) (v : Option Value) :
    Value.printOption option standard (v.map ρ.value)
      = ρ.outcome id (Value.printOption option standard v) := by
  rcases v with _ | v
  · rfl
  · cases v <;> rfl

end Arguments

/-! ## Builtins -/

section Builtins

variable (v : Value)

theorem length_value : (ρ.value v).length (ρ.heap h) = ρ.outcome id (v.length h) := by
  cases v <;> simp [Value.length] <;> rfl

theorem absolute_value : (ρ.value v).absolute = ρ.outcome ρ.value v.absolute := by
  cases v with
  | int n => exact ρ.int_outcome (ρ.outcome_absolute n)
  | bool b => exact ρ.int_outcome (ρ.outcome_absolute _)
  | _ => rfl

theorem toInteger_value : (ρ.value v).toInteger (ρ.heap h) = ρ.outcome id (v.toInteger h) := by
  cases v with
  | float x => exact (ρ.outcome_truncate x).symm
  | str s =>
    have written := ρ.written_value h (.str s)
    simp only [value] at written
    simp only [value, Value.toInteger, written]
    cases Decimal.readInt64? ((Text.trim s.toList).filter (· != '_')) <;> rfl
  | _ => rfl

theorem toReal_value : (ρ.value v).toReal (ρ.heap h) = ρ.outcome id (v.toReal h) := by
  cases v with
  | str s =>
    have written := ρ.written_value h (.str s)
    simp only [value] at written
    simp only [value, Value.toReal, written]
    cases Decimal.readFloat? (Text.trim s.toList) <;> rfl
  | _ => rfl

theorem rangeOf_outcome (bounds : List Int64) :
    Value.rangeOf bounds = ρ.outcome ρ.value (Value.rangeOf bounds) := by
  match bounds with
  | [] => rfl
  | [_] => rfl
  | [_, _] => rfl
  | _ :: _ :: step :: _ =>
    simp only [Value.rangeOf]
    split <;> rfl

end Builtins

variable {ρ}

theorem sum_computes (total : Value) (items : List Value) :
    ρ.Computes ρ.value (Value.sum total items)
      (Value.sum (ρ.value total) (items.map ρ.value)) := by
  induction items generalizing total with
  | nil => exact .pure rfl
  | cons v vs ih => exact .bind (binary_computes .add total v) fun t => ih t

theorem Computes.mapM {α β γ δ : Type} {f : α → β} {g : γ → δ} {p : α → Compute γ}
    {q : β → Compute δ} (hp : ∀ a, ρ.Computes g (p a) (q (f a))) (items : List α) :
    ρ.Computes (List.map g) (items.mapM p) ((items.map f).mapM q) := by
  induction items with
  | nil => exact .pure rfl
  | cons a items ih =>
    simp only [List.map_cons, List.mapM_cons]
    exact .bind (hp a) fun c => .bind ih fun cs => .pure rfl

theorem enumerate_computes (start : Int64) (items : Array Value) :
    ρ.Computes (List.map ρ.value) (Value.enumerate start items)
      (Value.enumerate start (items.map ρ.value)) := by
  simp only [Value.enumerate, Array.toList_map, List.zipIdx_map]
  refine .mapM (fun p => ?_) _
  refine .bind (.of (ρ.outcome_narrow _).symm) fun n => ?_
  exact .newTuple (by simp)

/-! ## Methods of lists -/

section Methods

variable (place : Nat) (v : Value)

theorem indexOf_value :
    Value.indexOf (ρ.heap h) (ρ.place place) (ρ.value v)
      = ρ.outcome id (Value.indexOf h place v) := by
  simp only [Value.indexOf, items_heap, Array.findIdx?_map, written_value]
  rw [show (fun item => Value.equal (ρ.heap h) item (ρ.value v)) ∘ ρ.value
    = fun item => Value.equal h item v from funext fun item => ρ.equal_value h item v]
  cases (h.items place).findIdx? fun item => Value.equal h item v <;> rfl

theorem countOf_value :
    Value.countOf (ρ.heap h) (ρ.place place) (ρ.value v) = Value.countOf h place v := by
  simp only [Value.countOf, items_heap, Array.countP_map]
  rw [show (fun item => Value.equal (ρ.heap h) item (ρ.value v)) ∘ ρ.value
    = fun item => Value.equal h item v from funext fun item => ρ.equal_value h item v]

theorem map_insertIdx {α β : Type} (f : α → β) (items : Array α) (n : Nat) (a : α)
    (hn : n ≤ items.size) (hn' : n ≤ (items.map f).size) :
    (items.insertIdx n a hn).map f = (items.map f).insertIdx n (f a) hn' := by
  apply Array.ext'
  simp [Array.toList_insertIdx, List.map_insertIdx]

theorem map_eraseIdx {α β : Type} (f : α → β) (items : Array α) (n : Nat)
    (hn : n < items.size) (hn' : n < (items.map f).size) :
    (items.eraseIdx n hn).map f = (items.map f).eraseIdx n hn' := by
  apply Array.ext'
  simp [Array.toList_eraseIdx, List.eraseIdx_map]

theorem insertItem_computes (at_ : Value) :
    ρ.Computes id (Value.insertItem place at_ v)
      (Value.insertItem (ρ.place place) (ρ.value at_) (ρ.value v)) := by
  refine .bind (.of (ρ.integerArgument_value at_)) fun i => .modifyList place fun items => ?_
  simp only [Array.size_map, id_eq, Array.insertIdxIfInBounds]
  split
  · exact (map_insertIdx ρ.value items _ _ _ _).symm
  · rfl

theorem popPosition_value (at_ : Option Value) :
    Value.popPosition (ρ.heap h) (ρ.place place) (at_.map ρ.value)
      = ρ.outcome id (Value.popPosition h place at_) := by
  have isEmpty : ((ρ.heap h).items (ρ.place place)).isEmpty = (h.items place).isEmpty := by
    simp [Array.isEmpty]
  have size : ((ρ.heap h).items (ρ.place place)).size = (h.items place).size := by
    simp
  simp only [Value.popPosition, isEmpty, size]
  split
  · rfl
  cases at_ with
  | none =>
    refine ρ.outcome_bind (f := id) (x := .ok (-1)) rfl fun i => ?_
    rw [id_eq]
    cases position? i (h.items place).size <;> rfl
  | some v =>
    refine ρ.outcome_bind (ρ.integerArgument_value v) fun i => ?_
    rw [id_eq]
    cases position? i (h.items place).size <;> rfl

theorem popItem_computes (at_ : Option Value) :
    ρ.Computes ρ.value (Value.popItem place at_)
      (Value.popItem (ρ.place place) (at_.map ρ.value)) := by
  refine .bind (.read fun h => popPosition_value h place at_) fun n => .bind .get fun h => ?_
  refine .bind (.modifyList place fun items => ?_) fun _ => .pure ?_
  · simp only [id_eq, Array.eraseIdxIfInBounds, Array.size_map]
    split
    · exact (map_eraseIdx ρ.value items _ _ _).symm
    · rfl
  · simp only [id_eq, items_heap, Array.getElem?_map]
    cases (h.items place)[n]? <;> rfl

theorem extendItems_computes :
    ρ.Computes id (Value.extendItems place v) (Value.extendItems (ρ.place place) (ρ.value v)) :=
  .bind (.read fun h => iterate_value h v) fun more => .modifyList place fun items => by simp

theorem Computes.silently {c d : Compute Unit} (hc : ρ.Computes id c d) :
    ρ.Computes ρ.value (ListMethod.silently c) (ListMethod.silently d) :=
  .bind hc fun _ => .pure rfl

/-- A method of a list with recoded arguments. -/
theorem runPlain_computes (m : ListMethod) (args : List Value) :
    ρ.Computes ρ.value (m.runPlain place args)
      (m.runPlain (ρ.place place) (args.map ρ.value)) := by
  match m, args with
  | .append, [v] => exact .silently (.modifyList place fun items => by simp)
  | .extend, [v] => exact .silently (extendItems_computes place v)
  | .index, [v] => exact .map (.read fun h => indexOf_value h place v) fun _ => rfl
  | .count, [v] =>
    refine .map (f := id) (.read fun h => ?_) fun _ => rfl
    exact congrArg Except.ok (countOf_value h place v)
  | .insert, [at_, v] => exact .silently (insertItem_computes place v at_)
  | .pop, [] => exact popItem_computes place none
  | .pop, [at_] => exact popItem_computes place (some at_)
  | .copy, [] => exact .bind .get fun h => .newList (by simp)
  | .reverse, [] => exact .silently (.modifyList place fun items => by simp)
  | .clear, [] => exact .silently (.setItems place (by simp))
  | .append, [] | .extend, [] | .index, [] | .count, [] => exact .throw rfl
  | .append, _ :: _ :: _ | .extend, _ :: _ :: _ | .index, _ :: _ :: _ | .count, _ :: _ :: _ =>
    exact .throw (by simp; rfl)
  | .insert, [] | .insert, [_] => exact .throw rfl
  | .insert, _ :: _ :: _ :: _ => exact .throw (by simp; rfl)
  | .pop, _ :: _ :: _ => exact .throw (by simp; rfl)
  | .copy, _ :: _ | .reverse, _ :: _ | .clear, _ :: _ => exact .throw (by simp; rfl)
  | .sort, _ => exact .throw rfl

end Methods

/-! ## Calls of functions -/

variable (ρ)

open Script (FunctionDef)

theorem bindKeywords_value {f g : FunctionDef} (hname : g.name = f.name)
    (hparams : g.params = f.params) (bound : Bindings) (keywords : List (String × Value)) :
    bindKeywords g (ρ.bindings bound) (ρ.bindings keywords)
      = ρ.outcome ρ.bindings (bindKeywords f bound keywords) := by
  induction keywords generalizing bound with
  | nil => rfl
  | cons p rest ih =>
    obtain ⟨name, v⟩ := p
    simp only [bindings, List.map_cons, bindKeywords, hname, hparams] at ih ⊢
    split
    · rfl
    · have isSome := congrArg Option.isSome (ρ.find?_bindings bound name)
      rw [Option.isSome_map] at isSome
      simp only [bindings] at isSome
      rw [isSome]
      split
      · rfl
      · have inserted := ρ.bindings_insert bound name v
        simp only [bindings] at inserted
        rw [← inserted]
        exact ih _

theorem parameterDefaults_value {f g : FunctionDef} (hparams : g.params = f.params)
    (defaults : List Value) :
    parameterDefaults g (defaults.map ρ.value)
      = (parameterDefaults f defaults).map (Option.map ρ.value) := by
  simp [parameterDefaults, hparams, Function.comp_def]

/-- Arguments of a call with recoded values. -/
theorem bindArguments_value {f g : FunctionDef} (hname : g.name = f.name)
    (hparams : g.params = f.params) (defaults args : List Value)
    (keywords : List (String × Value)) :
    bindArguments g (defaults.map ρ.value) (args.map ρ.value) (ρ.bindings keywords)
      = ρ.outcome ρ.bindings (bindArguments f defaults args keywords) := by
  simp only [bindArguments, hname, hparams, List.length_map]
  split
  · rfl
  refine ρ.outcome_bind (f := ρ.bindings) ?_ fun given => ?_
  · have zipped : (f.params.map Script.Param.name).zip (args.map ρ.value)
        = ρ.bindings ((f.params.map Script.Param.name).zip args) := by
      rw [List.zip_map_right, bindings]
      rfl
    rw [zipped]
    exact ρ.bindKeywords_value hname hparams _ _
  · let filled := ((f.params.map Script.Param.name).zip (parameterDefaults f defaults)).map
      fun p => (p.1, (given.find? p.1).or p.2)
    have filled_value : ((f.params.map Script.Param.name).zip
          (parameterDefaults g (defaults.map ρ.value))).map
          (fun p => (p.1, ((ρ.bindings given).find? p.1).or p.2))
        = filled.map fun p => (p.1, p.2.map ρ.value) := by
      rw [ρ.parameterDefaults_value hparams, List.zip_map_right, List.map_map, List.map_map]
      refine List.map_congr_left fun p _ => ?_
      simp [Option.map_or]
    have missing_value : (filled.map fun p => (p.1, p.2.map ρ.value)).filter (·.2.isNone)
        = (filled.filter (·.2.isNone)).map fun p => (p.1, p.2.map ρ.value) := by
      simp [List.filter_map, Function.comp_def]
    rw [filled_value, missing_value, List.isEmpty_map]
    split
    · refine congrArg Except.ok ?_
      rw [List.filterMap_map, bindings, List.map_filterMap]
      refine congrArg (filled.filterMap ·) (funext fun p => ?_)
      cases hp : p.2 <;> simp [hp]
    · refine congrArg (Except.error ∘ Fault.missingArguments f.name) ?_
      rw [List.map_map]
      rfl

end SortTrace.Recoding
