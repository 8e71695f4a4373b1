import SortTrace.Proofs.Judgement.Basic

/-!
# Judgements of builtins and methods

A judgement holds of a builtin that is called on both sides with recodings of the same arguments
(`Judgement.builtin`), and of a method of a list (`Judgement.method`), if it holds of calls of the
key functions.
-/

namespace SortTrace

theorem Recoding.headD_values (ρ : Recoding) (args : List Value) :
    (args.map ρ.value).headD .none = ρ.value (args.headD .none) := by
  cases args <;> rfl

/-- A second argument may be named. -/
theorem Recoding.second_values (ρ : Recoding) (args : List Value) (keywords : Keywords)
    (name : String) :
    (args.map ρ.value)[1]?.or (Keywords.get? (ρ.bindings keywords) name)
      = (args[1]?.or (keywords.get? name)).map ρ.value := by
  rw [List.getElem?_map, Recoding.get?_bindings, Option.map_or]

namespace Judgement

variable {ρ ρ' : Recoding} (J : Judgement ρ ρ')

/-- The runs yield recodings of the same value. -/
abbrev Values (r r' : Run Value) : Prop :=
  J.Holds ρ.value ρ'.value r r'

/-- The judgement holds of two ways to call a value with one argument. -/
def Applies (apply apply' : Apply) : Prop :=
  ∀ f v, J.Values (apply (ρ.value f) (ρ.value v)) (apply' (ρ'.value f) (ρ'.value v))

variable {apply apply' : Apply}

/-! ## Sorting and extremes -/

section Sorting

variable (hap : J.Applies apply apply') (key : Option Value)

include hap

theorem keysOf (items : List Value) :
    J.Holds (List.map ρ.value) (List.map ρ'.value)
      (SortTrace.keysOf apply (key.map ρ.value) (items.map ρ.value))
      (SortTrace.keysOf apply' (key.map ρ'.value) (items.map ρ'.value)) := by
  rcases key with _ | f
  · exact J.pure items
  · cases f with
    | none => exact J.pure items
    | _ => exact J.mapM (fun v => hap _ v) items

theorem sortItems (reverse : Bool) (items : Array Value) :
    J.Holds (Array.map ρ.value) (Array.map ρ'.value)
      (SortTrace.sortItems apply (key.map ρ.value) reverse (items.map ρ.value))
      (SortTrace.sortItems apply' (key.map ρ'.value) reverse (items.map ρ'.value)) := by
  simp only [SortTrace.sortItems, Array.toList_map]
  refine (J.keysOf hap key items.toList).bind fun keys => ?_
  refine (J.read (fun h => ρ.sortByKeys_value h reverse keys items.toList)
    fun h => ρ'.sortByKeys_value h reverse keys items.toList).bind fun sorted => ?_
  exact J.pureOf sorted.toArray (by simp) (by simp)

theorem extremeItem (e : Extreme) (function : String) (items : Array Value) :
    J.Values (SortTrace.extremeItem apply e function (key.map ρ.value) (items.map ρ.value))
      (SortTrace.extremeItem apply' e function (key.map ρ'.value)
        (items.map ρ'.value)) := by
  simp only [SortTrace.extremeItem, Array.toList_map]
  refine (J.keysOf hap key items.toList).bind fun keys => ?_
  rw [List.zip_map, List.zip_map]
  cases keys.zip items.toList with
  | nil => exact J.fault (.emptySequence function)
  | cons best rest =>
    exact J.read (fun h => ρ.extremeFrom_value h e best rest)
      fun h => ρ'.extremeFrom_value h e best rest

end Sorting

/-! ## Builtins -/

section Builtins

variable (args : List Value) (keywords : Keywords)

theorem only (function : String) (allowed : List String) :
    J.Holds id id
      (Run.of (Keywords.only function allowed (ρ.bindings keywords)))
      (Run.of (Keywords.only function allowed (ρ'.bindings keywords))) :=
  J.of (ρ.only_bindings keywords function allowed)
    (ρ'.only_bindings keywords function allowed)

theorem noKeywords (function : String) :
    J.Holds id id (Run.of (Keywords.none function (ρ.bindings keywords)))
      (Run.of (Keywords.none function (ρ'.bindings keywords))) :=
  J.of (ρ.none_bindings keywords function) (ρ'.none_bindings keywords function)

theorem count (function : String) (least most : Nat) :
    J.Holds id id
      (Run.of (countArguments function least most (args.map ρ.value)))
      (Run.of (countArguments function least most (args.map ρ'.value))) :=
  J.of (ρ.countArguments_value args function least most)
    (ρ'.countArguments_value args function least most)

theorem onlyArgument (function : String) :
    J.Values (Run.of (SortTrace.onlyArgument function (args.map ρ.value)))
      (Run.of (SortTrace.onlyArgument function (args.map ρ'.value))) :=
  J.of (ρ.onlyArgument_value args function) (ρ'.onlyArgument_value args function)

theorem iterate (v : Value) :
    J.Holds (Array.map ρ.value) (Array.map ρ'.value)
      (Run.read fun h => h.iterate (ρ.value v))
      (Run.read fun h => h.iterate (ρ'.value v)) :=
  J.read (fun h => ρ.iterate_value h v) fun h => ρ'.iterate_value h v

theorem keywordIsTrue (name : String) :
    J.Holds id id
      (Run.read fun h => .ok (Keywords.isTrue (ρ.bindings keywords) name h))
      (Run.read fun h => .ok (Keywords.isTrue (ρ'.bindings keywords) name h)) :=
  J.read (x := fun h => .ok (keywords.isTrue name h))
    (fun h => congrArg Except.ok (ρ.isTrue_bindings h keywords name))
    fun h => congrArg Except.ok (ρ'.isTrue_bindings h keywords name)

theorem newList (items : Array Value) {items₁ items₂ : Array Value}
    (h₁ : items₁ = items.map ρ.value) (h₂ : items₂ = items.map ρ'.value) :
    J.Values (Run.compute (Compute.newList items₁)) (Run.compute (Compute.newList items₂)) :=
  J.compute (.newList h₁) (.newList h₂)

theorem printOption (option standard : String) (v : Option Value) :
    J.Holds id id (Run.of (Value.printOption option standard (v.map ρ.value)))
      (Run.of (Value.printOption option standard (v.map ρ'.value))) :=
  J.of (ρ.printOption_value option standard v)
    (ρ'.printOption_value option standard v)

theorem runPrint :
    J.Values (Builtin.runPrint (args.map ρ.value) (ρ.bindings keywords))
      (Builtin.runPrint (args.map ρ'.value) (ρ'.bindings keywords)) := by
  simp only [Builtin.runPrint, Recoding.get?_bindings]
  refine (J.only keywords _ _).bind fun _ => (J.printOption _ _ _).bind fun separator => ?_
  refine (J.printOption _ _ _).bind fun ending => ?_
  refine J.bind (f := id) (g := id) (J.read (x := fun h => .ok (args.map (Value.printed h))) ?_ ?_)
    fun texts => (J.print _).bind fun _ => J.pure Value.none
  · intro h
    simp
  · intro h
    simp

theorem runLogState :
    J.Values (Builtin.runLogState (args.map ρ.value))
      (Builtin.runLogState (args.map ρ'.value)) := by
  match args with
  | [] => exact J.fault (.nothingToLog Builtin.logState.name)
  | [v] =>
    refine (J.read (fun h => ρ.toJson_value h v) fun h => ρ'.toJson_value h v).bind
      fun state => J.line.bind fun n => (J.log state n).bind fun _ => J.pure Value.none
  | v :: w :: rest =>
    simp only [List.map_cons, Builtin.runLogState, List.length_cons, List.length_map]
    exact J.fault (.tooMuchToLog Builtin.logState.name (rest.length + 2))

theorem extremeArguments (function : String) :
    J.Holds (Array.map ρ.value) (Array.map ρ'.value)
      (Builtin.extremeArguments function (args.map ρ.value))
      (Builtin.extremeArguments function (args.map ρ'.value)) := by
  match args with
  | [] => exact J.fault (.fewArguments function 1 0)
  | [v] => exact J.iterate v
  | v :: w :: rest => exact J.pureOf (v :: w :: rest).toArray (by simp) (by simp)

theorem runExtreme (hap : J.Applies apply apply') (e : Extreme) (function : String) :
    J.Values
      (Builtin.runExtreme apply e function (args.map ρ.value) (ρ.bindings keywords))
      (Builtin.runExtreme apply' e function (args.map ρ'.value)
        (ρ'.bindings keywords)) := by
  simp only [Builtin.runExtreme, Recoding.get?_bindings]
  exact (J.only keywords _ _).bind fun _ => (J.extremeArguments args function).bind fun items =>
    J.extremeItem hap _ e function items

theorem runSorted (hap : J.Applies apply apply') :
    J.Values
      (Builtin.runSorted apply (args.map ρ.value) (ρ.bindings keywords))
      (Builtin.runSorted apply' (args.map ρ'.value) (ρ'.bindings keywords)) := by
  simp only [Builtin.runSorted, Recoding.get?_bindings]
  refine (J.only keywords _ _).bind fun _ => ?_
  match args with
  | [] => exact J.fault (.wrongArguments "sorted" 1 0)
  | [v] =>
    refine (J.iterate v).bind fun items => (J.keywordIsTrue keywords _).bind fun reverse => ?_
    exact (J.sortItems hap _ reverse items).bind fun sorted => J.newList _ rfl rfl
  | v :: w :: rest =>
    simp only [List.map_cons, List.length_cons, List.length_map]
    exact J.fault (.wrongArguments "sorted" 1 (rest.length + 2))

theorem runSum :
    J.Values (Builtin.runSum (args.map ρ.value) (ρ.bindings keywords))
      (Builtin.runSum (args.map ρ'.value) (ρ'.bindings keywords)) := by
  simp only [Builtin.runSum, Recoding.second_values, Recoding.headD_values]
  refine (J.only keywords _ _).bind fun _ => (J.count args _ _ _).bind fun _ => ?_
  have start (ρ : Recoding) : ((args[1]?.or (keywords.get? "start")).map ρ.value).getD (.int 0)
      = ρ.value ((args[1]?.or (keywords.get? "start")).getD (.int 0)) := by
    cases args[1]?.or (keywords.get? "start") <;> simp
  rw [start, start]
  generalize (args[1]?.or (keywords.get? "start")).getD (.int 0) = first
  have summed : J.Values
      (do
        let items ← Run.read fun h => h.iterate (ρ.value (args.headD .none))
        Run.compute (Value.sum (ρ.value first) items.toList))
      (do
        let items ← Run.read fun h => h.iterate (ρ'.value (args.headD .none))
        Run.compute (Value.sum (ρ'.value first) items.toList)) := by
    refine (J.iterate _).bind fun items => ?_
    rw [Array.toList_map, Array.toList_map]
    exact J.compute (Recoding.sum_computes first items.toList)
      (Recoding.sum_computes first items.toList)
  cases first with
  | str s => exact J.fault .cannotSumText
  | _ => exact summed

theorem runEnumerate :
    J.Values (Builtin.runEnumerate (args.map ρ.value) (ρ.bindings keywords))
      (Builtin.runEnumerate (args.map ρ'.value) (ρ'.bindings keywords)) := by
  simp only [Builtin.runEnumerate, Recoding.second_values, Recoding.headD_values]
  refine (J.only keywords _ _).bind fun _ => (J.count args _ _ _).bind fun _ => ?_
  generalize args[1]?.or (keywords.get? "start") = start
  refine Holds.bind (f := id) (g := id) ?first fun n => (J.iterate _).bind fun items => ?_
  case first =>
    cases start with
    | none => exact J.pure 0
    | some v => exact J.of (ρ.integerArgument_value v) (ρ'.integerArgument_value v)
  have listed (ρ : Recoding) : ρ.Computes ρ.value
      (do Compute.newList (← Value.enumerate n items).toArray)
      (do Compute.newList (← Value.enumerate n (items.map ρ.value)).toArray) := by
    refine .bind (Recoding.enumerate_computes n items) fun pairs => .newList ?_
    simp
  exact J.compute (listed _) (listed _)

theorem optionalItems (function : String) :
    J.Holds (Array.map ρ.value) (Array.map ρ'.value)
      (Builtin.optionalItems function (args.map ρ.value))
      (Builtin.optionalItems function (args.map ρ'.value)) := by
  simp only [Builtin.optionalItems]
  refine (J.count args _ _ _).bind fun _ => ?_
  cases args with
  | nil => exact J.pureOf #[] (by simp) (by simp)
  | cons v _ => exact J.iterate v

theorem runConversion (function : String) {empty : Value}
    (convert : Heap → Value → Except Fault Value)
    (hempty : ∀ ρ : Recoding, ρ.value empty = empty)
    (hconvert : ∀ (ρ : Recoding) h v,
      convert (ρ.heap h) (ρ.value v) = ρ.outcome ρ.value (convert h v)) :
    J.Values (Builtin.runConversion function (args.map ρ.value) empty convert)
      (Builtin.runConversion function (args.map ρ'.value) empty convert) := by
  simp only [Builtin.runConversion]
  refine (J.count args _ _ _).bind fun _ => ?_
  cases args with
  | nil => exact J.pureOf empty (hempty _).symm (hempty _).symm
  | cons v _ => exact J.read (fun h => hconvert _ h v) fun h => hconvert _ h v

theorem runRange :
    J.Values (Builtin.runRange (args.map ρ.value))
      (Builtin.runRange (args.map ρ'.value)) := by
  refine (J.count args _ _ _).bind fun _ => ?_
  refine (J.of (ρ.integerArguments_value args)
    (ρ'.integerArguments_value args)).bind fun bounds => ?_
  exact J.of (ρ.rangeOf_outcome bounds) (ρ'.rangeOf_outcome bounds)

theorem runReversed :
    J.Values (Builtin.runReversed (args.map ρ.value))
      (Builtin.runReversed (args.map ρ'.value)) :=
  (J.onlyArgument args _).bind fun v => (J.iterate v).bind fun items =>
    J.newList items.reverse (by simp) (by simp)

theorem plainly (b : Builtin) {r r' : Run Value} (hr : J.Values r r') :
    J.Values (Builtin.plainly b (ρ.bindings keywords) r)
      (Builtin.plainly b (ρ'.bindings keywords) r') :=
  (J.noKeywords keywords _).bind fun _ => hr

/-- A judgement of a builtin on recodings of the same arguments. -/
theorem builtin (hap : J.Applies apply apply') (b : Builtin) :
    J.Values (b.run apply (args.map ρ.value) (ρ.bindings keywords))
      (b.run apply' (args.map ρ'.value) (ρ'.bindings keywords)) := by
  cases b with
  | print => exact J.runPrint args keywords
  | min | max => exact J.runExtreme args keywords hap _ _
  | sorted => exact J.runSorted args keywords hap
  | sum => exact J.runSum args keywords
  | enumerate => exact J.runEnumerate args keywords
  | logState => exact J.plainly keywords _ (J.runLogState args)
  | len =>
    refine J.plainly keywords _ ((J.onlyArgument args _).bind fun v => ?_)
    exact Holds.map (J.read (fun h => ρ.length_value h v) fun h => ρ'.length_value h v) Value.int
      (fun _ => rfl) fun _ => rfl
  | abs =>
    refine J.plainly keywords _ ((J.onlyArgument args _).bind fun v => ?_)
    exact J.of (ρ.absolute_value v) (ρ'.absolute_value v)
  | range => exact J.plainly keywords _ (J.runRange args)
  | reversed => exact J.plainly keywords _ (J.runReversed args)
  | int =>
    exact J.plainly keywords _ (J.runConversion args _ _ (fun _ => rfl)
      fun ρ h v => ρ.outcome_map (ρ.toInteger_value h v) fun _ => rfl)
  | float =>
    exact J.plainly keywords _ (J.runConversion args _ _ (fun _ => rfl)
      fun ρ h v => ρ.outcome_map (ρ.toReal_value h v) fun _ => rfl)
  | str =>
    exact J.plainly keywords _ (J.runConversion args _ _ (fun _ => rfl)
      fun ρ h v => by simp)
  | bool =>
    exact J.plainly keywords _ (J.runConversion args _ _ (fun _ => rfl)
      fun ρ h v => by simp)
  | list =>
    exact J.plainly keywords _ ((J.optionalItems args _).bind fun items => J.newList _ rfl rfl)
  | tuple =>
    refine J.plainly keywords _ ((J.optionalItems args _).bind fun items => ?_)
    exact J.compute (.newTuple Array.toList_map) (.newTuple Array.toList_map)

end Builtins

/-! ## Methods -/

section Methods

variable (args : List Value) (keywords : Keywords)

theorem runSort (hap : J.Applies apply apply') (place : Nat) :
    J.Values
      (ListMethod.runSort apply (ρ.place place) (args.map ρ.value) (ρ.bindings keywords))
      (ListMethod.runSort apply' (ρ'.place place) (args.map ρ'.value)
        (ρ'.bindings keywords)) := by
  simp only [ListMethod.runSort, Recoding.get?_bindings, List.isEmpty_map]
  have sorted : J.Values
      (do
        Run.of (Keywords.only "sort" ["key", "reverse"] (ρ.bindings keywords))
        let reverse ← Run.read fun h =>
          .ok (Keywords.isTrue (ρ.bindings keywords) "reverse" h)
        let items ← Run.read fun h => .ok (h.items (ρ.place place))
        let sorted ← SortTrace.sortItems apply ((keywords.get? "key").map ρ.value) reverse
          items
        Run.compute (Compute.setItems (ρ.place place) sorted)
        Pure.pure .none)
      (do
        Run.of (Keywords.only "sort" ["key", "reverse"] (ρ'.bindings keywords))
        let reverse ← Run.read fun h =>
          .ok (Keywords.isTrue (ρ'.bindings keywords) "reverse" h)
        let items ← Run.read fun h => .ok (h.items (ρ'.place place))
        let sorted ← SortTrace.sortItems apply' ((keywords.get? "key").map ρ'.value)
          reverse items
        Run.compute (Compute.setItems (ρ'.place place) sorted)
        Pure.pure .none) := by
    refine (J.only keywords _ _).bind fun _ => (J.keywordIsTrue keywords _).bind fun reverse => ?_
    refine J.bind (f := Array.map ρ.value) (g := Array.map ρ'.value)
      (J.read (x := fun h => .ok (h.items place)) ?_ ?_) fun items =>
        (J.sortItems hap _ reverse items).bind fun sorted => ?_
    · exact fun h => congrArg Except.ok (ρ.items_heap h place)
    · exact fun h => congrArg Except.ok (ρ'.items_heap h place)
    · exact (J.compute (.setItems place rfl) (.setItems place rfl)).bind fun _ => J.pure Value.none
  split
  · exact J.bind (f := id) (g := id) (J.fault (.noPositionalArguments "sort"))
      fun (_ : Unit) => sorted
  · exact sorted

/-- A judgement of a method on recodings of the same object and arguments. -/
theorem method (hap : J.Applies apply apply') (object : Value) (name : String) :
    J.Values
      (ListMethod.run apply (ρ.value object) name (args.map ρ.value)
        (ρ.bindings keywords))
      (ListMethod.run apply' (ρ'.value object) name (args.map ρ'.value)
        (ρ'.bindings keywords)) := by
  cases object with
  | list place =>
    simp only [Recoding.value, ListMethod.run]
    split
    · exact J.runSort args keywords hap place
    · refine (J.noKeywords keywords _).bind fun _ => ?_
      exact J.compute (Recoding.runPlain_computes place _ args)
        (Recoding.runPlain_computes place _ args)
    · exact (J.noKeywords keywords _).bind fun _ => J.fault (.noSuchMethod "list" name)
  | _ => exact J.fault (.noSuchMethod _ name)

end Methods

end Judgement

end SortTrace
