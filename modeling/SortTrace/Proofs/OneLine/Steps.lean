import SortTrace.Proofs.OneLine.Library
import SortTrace.Proofs.Runs
import SortTrace.Proofs.Sessions

/-!
# Runs that fail on one line

From a machine that holds only neat functions a run leads to such a machine, or stops at a fault
that is told on one line (`Neatly`). This is so of the builtins and the methods of lists, as soon as
it is so of calls of key functions (`Neatly.builtin`, `Neatly.method`).
-/

namespace SortTrace

open Recoding (neat)

/-- All functions that the machine holds are neat. -/
structure Machine.Neat (m : Machine) : Prop where
  heap : m.heap.Neat
  scopes : neat.scopes m.scopes = m.scopes

theorem Machine.Neat.start (session : Session) : (Machine.start session).Neat where
  heap := Recoding.heap_empty neat
  scopes := rfl

/-- The run ends at a neat machine and with something that has the property, or it stops at a fault
that is told on one line. -/
inductive EndsNeatly {α : Type} (p : α → Prop) : EStateM.Result Stop Machine α → Prop
  | ok {a : α} {m : Machine} (h : p a) (hm : m.Neat) : EndsNeatly p (.ok a m)
  | fault {e : Fault} {m : Machine} (h : e.OneLine) : EndsNeatly p (.error (.fault e) m)
  | outOfRounds {m : Machine} : EndsNeatly p (.error .outOfRounds m)

/-- From neat machines the run ends neatly. -/
def Neatly {α : Type} (p : α → Prop) (r : Run α) : Prop :=
  ∀ m : Machine, m.Neat → EndsNeatly p (r m)

namespace Neatly

variable {α β : Type} {p : α → Prop} {q : β → Prop} {r : Run α}

/-! ## Steps -/

theorem pure {a : α} (h : p a) : Neatly p (Pure.pure a) :=
  fun _ hm => .ok h hm

theorem fault {e : Fault} (h : e.OneLine) : Neatly p (Run.fault e) :=
  fun _ _ => .fault h

theorem outOfRounds : Neatly p (throw .outOfRounds) :=
  fun _ _ => .outOfRounds

theorem bind {t : α → Run β} (hr : Neatly p r) (ht : ∀ a, p a → Neatly q (t a)) :
    Neatly q (r >>= t) := by
  intro m hm
  have first := hr m hm
  change EndsNeatly q (EStateM.bind r t m)
  rw [EStateM.bind]
  generalize r m = x at first ⊢
  cases first with
  | ok h hm₁ => exact ht _ h _ hm₁
  | fault h => exact .fault h
  | outOfRounds => exact .outOfRounds

theorem weaken {p' : α → Prop} (hr : Neatly p r) (h : ∀ a, p a → p' a) : Neatly p' r := by
  intro m hm
  have ends := hr m hm
  generalize r m = x at ends ⊢
  cases ends with
  | ok ha hm₁ => exact .ok (h _ ha) hm₁
  | fault h => exact .fault h
  | outOfRounds => exact .outOfRounds

theorem map {f : α → β} (hr : Neatly p r) (hf : ∀ a, p a → q (f a)) : Neatly q (f <$> r) := by
  rw [map_eq_pure_bind]
  exact hr.bind fun a ha => pure (hf a ha)

theorem ite {c : Prop} [Decidable c] {r' : Run α} (hr : c → Neatly p r)
    (hr' : ¬c → Neatly p r') : Neatly p (if c then r else r') := by
  split
  · exact hr ‹_›
  · exact hr' ‹_›

theorem mapM {t : Value → Run Value} (ht : ∀ v : Value, v.Neat → Neatly Value.Neat (t v))
    {items : List Value} (hitems : Value.AllNeat items) :
    Neatly Value.AllNeat (items.mapM t) := by
  induction items with
  | nil => exact pure rfl
  | cons v vs ih =>
    obtain ⟨hv, hvs⟩ := Value.allNeat_cons.mp hitems
    rw [List.mapM_cons]
    exact (ht v hv).bind fun w hw => (ih hvs).bind fun ws hws =>
      pure (Value.allNeat_cons.mpr ⟨hw, hws⟩)

/-- What is computed without the machine, and is left alone. -/
theorem of {f : α → α} {x : Except Fault α} (h : x = neat.outcome f x) (told : ToldInLine x) :
    Neatly (fun a => f a = a) (Run.of x) := by
  cases x with
  | ok a => exact pure (Except.ok.inj h).symm
  | error e => exact fault (told e rfl)

/-- What is computed without the machine and without functions. -/
theorem plain {x : Except Fault α} (told : ToldInLine x) : Neatly (fun _ => True) (Run.of x) := by
  cases x with
  | ok a => exact pure trivial
  | error e => exact fault (told e rfl)

/-- What is computed of neat lists, and is left alone. -/
theorem read {f : α → α} {x : Heap → Except Fault α}
    (h : ∀ i : Heap, i.Neat → x i = neat.outcome f (x i))
    (told : ∀ i : Heap, i.Neat → ToldInLine (x i)) :
    Neatly (fun a => f a = a) (Run.read x) :=
  fun m hm => of (h m.heap hm.heap) (told m.heap hm.heap) m hm

/-- What is only seen of lists. -/
theorem look (x : Heap → α) : Neatly (fun _ => True) (Run.read fun i => .ok (x i)) :=
  fun _ hm => .ok trivial hm

/-- What is seen of lists, and can fail. -/
theorem plainRead {x : Heap → Except Fault α} (told : ∀ i : Heap, ToldInLine (x i)) :
    Neatly (fun _ => True) (Run.read x) :=
  fun m hm => plain (told m.heap) m hm

/-- What is done with neat lists, and leaves functions alone. -/
theorem computeOf {f : α → α} {c d : Compute α} (h : neat.Computes f c d) (same : d = c)
    (told : ∀ i : Heap, i.Neat → ∀ e i', c i = .error e i' → e.OneLine) :
    Neatly (fun a => f a = a) (Run.compute c) := by
  subst same
  intro m hm
  have result := h.apply m.heap
  rw [hm.heap] at result
  simp only [Run.compute]
  cases hd : d m.heap with
  | ok a i =>
    rw [hd] at result
    obtain ⟨ha, hi⟩ := EStateM.Result.ok.inj result
    exact .ok ha.symm ⟨hi.symm, hm.scopes⟩
  | error e i => exact .fault (told m.heap hm.heap e i hd)

theorem compute {f : α → α} {c d : Compute α} (h : neat.Computes f c d) (same : d = c)
    (told : ComputesInLine c) : Neatly (fun a => f a = a) (Run.compute c) :=
  computeOf h same fun i _ => told i

theorem lookup {name : String} (h : Text.OneLine name) :
    Neatly Value.Neat (Run.lookup name) := by
  intro m hm
  have found := neat.lookup_scopes m.scopes name
  rw [hm.scopes] at found
  cases hv : m.scopes.lookup name with
  | some v =>
    rw [hv] at found
    rw [Run.lookup_bound hv]
    exact .ok (Option.some.inj found).symm hm
  | none =>
    cases hb : Builtin.ofName? name with
    | some b =>
      rw [Run.lookup_builtin hv hb]
      exact .ok rfl hm
    | none =>
      rw [Run.lookup_unbound hv hb]
      exact .fault (Fault.oneLine_unboundName h)

theorem modifyScopes {f : Scopes → Scopes}
    (h : ∀ s, neat.scopes s = s → neat.scopes (f s) = f s) :
    Neatly (fun _ => True) (Run.modifyScopes f) :=
  fun m hm => .ok trivial ⟨hm.heap, h m.scopes hm.scopes⟩

theorem bindName (name : String) {v : Value} (hv : v.Neat) :
    Neatly (fun _ => True) (Run.bind name v) :=
  modifyScopes fun s hs => by rw [Recoding.scopes_assign, hs, hv]

theorem line : Neatly (fun _ => True) Run.line :=
  fun _ hm => .ok trivial hm

theorem setLine (n : Nat) : Neatly (fun _ => True) (Run.setLine n) :=
  fun _ hm => .ok trivial ⟨hm.heap, hm.scopes⟩

theorem tick (timeout : Option Nat) : Neatly (fun _ => True) (Run.tick timeout) := by
  intro m hm
  rw [Run.tick_apply]
  split
  · exact .fault (Fault.oneLine_timeout 0)
  · exact .ok trivial ⟨hm.heap, hm.scopes⟩

theorem trace {t : EStateM Fault Session Unit}
    (h : ∀ s e s₁, t s = .error e s₁ → e = .output Sink.full) :
    Neatly (fun _ => True) (Run.trace t) := by
  intro m hm
  rw [Run.trace]
  cases ht : t m.session with
  | ok u s => exact .ok trivial ⟨hm.heap, hm.scopes⟩
  | error e s =>
    obtain rfl := h _ _ _ ht
    exact .fault (Fault.oneLine_output (.literal rfl))

theorem print (text : String) : Neatly (fun _ => True) (Run.trace (Session.print text)) :=
  trace fun _ _ _ h => Session.print_error h

theorem log (state : Report.Json) (n : Nat) :
    Neatly (fun _ => True) (Run.trace (Session.log state n)) :=
  trace fun _ _ _ h => Session.log_error h

theorem newList {items : Array Value} (h : Value.ItemsNeat items) :
    Neatly Value.Neat (Run.compute (Compute.newList items)) :=
  compute (f := neat.value) (d := Compute.newList items) (.newList h.symm) rfl (.newList items)

theorem newTuple {items : List Value} (h : Value.AllNeat items) :
    Neatly Value.Neat (Run.compute (Compute.newTuple items)) :=
  compute (f := neat.value) (d := Compute.newTuple items) (.newTuple h.symm) rfl (.newTuple items)

theorem iterate {v : Value} (hv : v.Neat) :
    Neatly Value.ItemsNeat (Run.read fun h => h.iterate v) :=
  read (fun h hh => by simpa only [hh, hv] using neat.iterate_value h v)
    fun h _ => h.iterate_inLine v

/-! ## Sorting and extremes -/

/-- Calls with one argument end neatly. -/
def Applies (apply : Apply) : Prop :=
  ∀ f v : Value, f.Neat → v.Neat → Neatly Value.Neat (apply f v)

section Sorting

variable {apply : Apply} (hap : Applies apply) {key : Option Value} (hkey : ∀ f ∈ key, f.Neat)

include hap hkey

theorem keysOf {items : List Value} (hitems : Value.AllNeat items) :
    Neatly Value.AllNeat (SortTrace.keysOf apply key items) := by
  rcases key with _ | f
  · exact pure hitems
  · have hf : f.Neat := hkey f rfl
    cases f with
    | none => exact pure hitems
    | _ => exact mapM (fun v hv => hap _ v hf hv) hitems

theorem sortItems (reverse : Bool) {items : Array Value} (hitems : Value.ItemsNeat items) :
    Neatly Value.ItemsNeat (SortTrace.sortItems apply key reverse items) := by
  have listed : Value.AllNeat items.toList := Value.allNeat_toList.mpr hitems
  refine (keysOf hap hkey listed).bind fun keys hkeys => ?_
  refine Neatly.bind (p := Value.AllNeat) (read (fun h hh => ?_)
    fun h _ => sortByKeys_inLine h reverse keys _) fun sorted hsorted =>
      pure (Value.itemsNeat_toArray.mpr hsorted)
  simpa only [hh, hkeys, listed] using neat.sortByKeys_value h reverse keys items.toList

theorem extremeItem (e : Extreme) {function : String} (hf : Text.OneLine function)
    {items : Array Value} (hitems : Value.ItemsNeat items) :
    Neatly Value.Neat (SortTrace.extremeItem apply e function key items) := by
  have listed : Value.AllNeat items.toList := Value.allNeat_toList.mpr hitems
  refine (keysOf hap hkey listed).bind fun keys hkeys => ?_
  have pairs : (keys.zip items.toList).map (Prod.map neat.value neat.value)
      = keys.zip items.toList := by
    rw [← List.zip_map, hkeys, listed]
  generalize keys.zip items.toList = zipped at pairs
  cases zipped with
  | nil => exact fault (.append hf (.literal rfl))
  | cons best rest =>
    obtain ⟨hbest, hrest⟩ := List.cons.inj pairs
    refine read (fun h hh => ?_) fun h _ => extremeFrom_inLine h e best rest
    simpa only [hh, hbest, hrest] using neat.extremeFrom_value h e best rest

end Sorting

/-! ## Builtins -/

section Builtins

variable {args : List Value} {keywords : Keywords}

theorem head_neat (hargs : Value.AllNeat args) : (args.headD .none).Neat := by
  cases args with
  | nil => rfl
  | cons v vs => exact (Value.allNeat_cons.mp hargs).1

theorem onlyKeywords {function : String} (hf : Text.OneLine function) (hk : keywords.Neat)
    (allowed : List String) : Neatly (fun _ => True) (Run.of (keywords.only function allowed)) :=
  plain (onlyKeywords_inLine hf hk allowed)

theorem runPrint (hk : keywords.Neat) : Neatly Value.Neat (Builtin.runPrint args keywords) := by
  refine (onlyKeywords (.literal rfl) hk _).bind fun _ _ => ?_
  refine (plain (Value.printOption_inLine (.literal rfl) _ _)).bind fun separator _ => ?_
  refine (plain (Value.printOption_inLine (.literal rfl) _ _)).bind fun ending _ => ?_
  exact (look _).bind fun texts _ => (print _).bind fun _ _ => pure rfl

theorem runLogState : Neatly Value.Neat (Builtin.runLogState args) := by
  match args with
  | [] => exact fault (.append (.literal rfl) (.literal rfl))
  | [v] =>
    refine (plainRead fun h => v.toJson_inLine h).bind fun state _ => ?_
    exact line.bind fun n _ => (log state n).bind fun _ _ => pure rfl
  | v :: w :: rest =>
    exact fault (.append (.append (.append (.literal rfl) (.literal rfl)) (Text.oneLine_nat _))
      (.literal rfl))

section Items

variable {function : String} (hf : Text.OneLine function) (hargs : Value.AllNeat args)

include hf hargs

theorem extremeArguments :
    Neatly Value.ItemsNeat (Builtin.extremeArguments function args) := by
  match args with
  | [] => exact fault (oneLine_fewArguments hf _ _)
  | [v] => exact iterate (Value.allNeat_cons.mp hargs).1
  | v :: w :: rest => exact pure (Value.itemsNeat_toArray.mpr hargs)

theorem optionalItems : Neatly Value.ItemsNeat (Builtin.optionalItems function args) := by
  refine (plain (countArguments_inLine hf _ _ _)).bind fun _ _ => ?_
  cases args with
  | nil => exact pure (Value.itemsNeat_toArray.mpr rfl)
  | cons v vs => exact iterate (Value.allNeat_cons.mp hargs).1

theorem onlyArgument : Neatly Value.Neat (Run.of (SortTrace.onlyArgument function args)) := by
  refine of ?_ (onlyArgument_inLine hf args)
  simpa only [hargs] using neat.onlyArgument_value args function

theorem runExtreme {apply : Apply} (hap : Applies apply) (hk : keywords.Neat) (e : Extreme) :
    Neatly Value.Neat (Builtin.runExtreme apply e function args keywords) :=
  (onlyKeywords hf hk _).bind fun _ _ => (extremeArguments hf hargs).bind fun _ hitems =>
    extremeItem hap (fun _ h => hk.get h) e hf hitems

end Items

theorem runSorted {apply : Apply} (hap : Applies apply) (hargs : Value.AllNeat args)
    (hk : keywords.Neat) : Neatly Value.Neat (Builtin.runSorted apply args keywords) := by
  refine (onlyKeywords (.literal rfl) hk _).bind fun _ _ => ?_
  match args with
  | [] => exact fault (oneLine_wrongArguments (.literal rfl) _ _)
  | [v] =>
    refine (iterate (Value.allNeat_cons.mp hargs).1).bind fun items hitems => ?_
    refine (look _).bind fun reverse _ => ?_
    exact (sortItems hap (fun _ h => hk.get h) reverse hitems).bind fun _ hsorted => newList hsorted
  | v :: w :: rest => exact fault (oneLine_wrongArguments (.literal rfl) _ _)

/-- A second argument may be named. -/
theorem second_neat (hargs : Value.AllNeat args) (hk : keywords.Neat) (name : String) :
    ∀ v ∈ args[1]?.or (keywords.get? name), v.Neat := by
  intro v hv
  cases harg : args[1]? with
  | none =>
    rw [harg, Option.none_or] at hv
    exact hk.get hv
  | some w =>
    rw [harg, Option.some_or] at hv
    obtain rfl := Option.some.inj hv
    exact hargs.mem (List.mem_of_getElem? harg)

theorem runSum (hargs : Value.AllNeat args) (hk : keywords.Neat) :
    Neatly Value.Neat (Builtin.runSum args keywords) := by
  refine (onlyKeywords (.literal rfl) hk _).bind fun _ _ => ?_
  refine (plain (countArguments_inLine (.literal rfl) _ _ _)).bind fun _ _ => ?_
  have start : ((args[1]?.or (keywords.get? "start")).getD (.int 0)).Neat := by
    have second := second_neat hargs hk "start"
    cases h : args[1]?.or (keywords.get? "start") with
    | none => rfl
    | some v => exact second v h
  generalize (args[1]?.or (keywords.get? "start")).getD (.int 0) = first at start
  have summed : Neatly Value.Neat (do
      let items ← Run.read fun h => h.iterate (args.headD .none)
      Run.compute (Value.sum first items.toList)) := by
    refine (iterate (head_neat hargs)).bind fun items hitems => ?_
    have listed : Value.AllNeat items.toList := Value.allNeat_toList.mpr hitems
    exact compute (Recoding.sum_computes first items.toList) (by rw [start, listed])
      (Value.sum_inLine _ _)
  cases first with
  | str s => exact fault (.literal rfl)
  | _ => exact summed

theorem runEnumerate (hargs : Value.AllNeat args) (hk : keywords.Neat) :
    Neatly Value.Neat (Builtin.runEnumerate args keywords) := by
  refine (onlyKeywords (.literal rfl) hk _).bind fun _ _ => ?_
  refine (plain (countArguments_inLine (.literal rfl) _ _ _)).bind fun _ _ => ?_
  refine Neatly.bind (p := fun _ => True) (plain ?_) fun n _ => ?_
  · split
    · exact integerArgument_inLine _
    · exact .ok _
  · refine (iterate (head_neat hargs)).bind fun items hitems => ?_
    refine compute (f := neat.value) (d := do
      Compute.newList (← Value.enumerate n (items.map neat.value)).toArray) ?_ (by rw [hitems]) ?_
    · exact .bind (Recoding.enumerate_computes n items) fun pairs => .newList (by simp)
    · exact .bind (Value.enumerate_inLine n items) fun _ => .newList _

theorem runConversion {function : String} (hf : Text.OneLine function)
    (hargs : Value.AllNeat args) {empty : Value} {convert : Heap → Value → Except Fault Value}
    (hempty : empty.Neat)
    (hconvert : ∀ h v, convert (neat.heap h) (neat.value v) = neat.outcome neat.value (convert h v))
    (told : ∀ h v, ToldInLine (convert h v)) :
    Neatly Value.Neat (Builtin.runConversion function args empty convert) := by
  refine (plain (countArguments_inLine hf _ _ _)).bind fun _ _ => ?_
  cases args with
  | nil => exact pure hempty
  | cons v vs =>
    have hv : v.Neat := (Value.allNeat_cons.mp hargs).1
    exact read (fun h hh => by simpa only [hh, hv] using hconvert h v) fun h _ => told h v

theorem runRange : Neatly Value.Neat (Builtin.runRange args) := by
  refine (plain (countArguments_inLine (.literal rfl) _ _ _)).bind fun _ _ => ?_
  refine (plain (.mapM integerArgument_inLine args)).bind fun bounds _ => ?_
  exact of (neat.rangeOf_outcome bounds) (Value.rangeOf_inLine bounds)

theorem runReversed (hargs : Value.AllNeat args) :
    Neatly Value.Neat (Builtin.runReversed args) := by
  refine (onlyArgument (.literal rfl) hargs).bind fun v hv =>
    (iterate hv).bind fun items hitems => ?_
  exact newList (by rw [Value.ItemsNeat, Array.map_reverse, hitems])

theorem plainly {b : Builtin} {r : Run Value} (hr : Neatly Value.Neat r) :
    Neatly Value.Neat (Builtin.plainly b keywords r) :=
  (plain (noKeywords_inLine b.oneLine_name keywords)).bind fun _ _ => hr

/-- A builtin ends neatly if calls of key functions do. -/
theorem builtin {apply : Apply} (hap : Applies apply) (hargs : Value.AllNeat args)
    (hk : keywords.Neat) (b : Builtin) : Neatly Value.Neat (b.run apply args keywords) := by
  have name : Text.OneLine b.name := b.oneLine_name
  cases b with
  | print => exact runPrint hk
  | min | max => exact runExtreme name hargs hap hk _
  | sorted => exact runSorted hap hargs hk
  | sum => exact runSum hargs hk
  | enumerate => exact runEnumerate hargs hk
  | logState => exact plainly runLogState
  | len =>
    refine plainly ((onlyArgument name hargs).bind fun v _ => ?_)
    exact (plainRead fun h => v.length_inLine h).map fun _ _ => rfl
  | abs =>
    refine plainly ((onlyArgument name hargs).bind fun v hv => of ?_ v.absolute_inLine)
    simpa only [hv] using neat.absolute_value v
  | range => exact plainly runRange
  | reversed => exact plainly (runReversed hargs)
  | int =>
    exact plainly (runConversion name hargs rfl
      (fun h v => neat.outcome_map (neat.toInteger_value h v) fun _ => rfl)
      fun h v => (v.toInteger_inLine h).map _)
  | float =>
    exact plainly (runConversion name hargs rfl
      (fun h v => neat.outcome_map (neat.toReal_value h v) fun _ => rfl)
      fun h v => (v.toReal_inLine h).map _)
  | str => exact plainly (runConversion name hargs rfl (fun h v => by simp) fun _ _ => .ok _)
  | bool => exact plainly (runConversion name hargs rfl (fun h v => by simp) fun _ _ => .ok _)
  | list => exact plainly ((optionalItems name hargs).bind fun _ hitems => newList hitems)
  | tuple =>
    refine plainly ((optionalItems name hargs).bind fun items hitems => newTuple ?_)
    exact Value.allNeat_toList.mpr hitems

/-! ## Methods -/

theorem runSort {apply : Apply} (hap : Applies apply) (hk : keywords.Neat) (place : Nat) :
    Neatly Value.Neat (ListMethod.runSort apply place args keywords) := by
  have sorted : Neatly Value.Neat (do
      Run.of (keywords.only "sort" ["key", "reverse"])
      let reverse ← Run.read fun h => .ok (keywords.isTrue "reverse" h)
      let items ← Run.read fun h => .ok (h.items place)
      let sorted ← SortTrace.sortItems apply (keywords.get? "key") reverse items
      Run.compute (Compute.setItems place sorted)
      Pure.pure .none) := by
    refine (onlyKeywords (.literal rfl) hk _).bind fun _ _ => (look _).bind fun reverse _ => ?_
    refine Neatly.bind (p := Value.ItemsNeat) (read (fun h hh => ?_) fun _ _ => .ok _)
      fun items hitems => ?_
    · exact congrArg Except.ok (hh.items place).symm
    refine (sortItems hap (fun _ h => hk.get h) reverse hitems).bind fun items hitems => ?_
    refine (compute (f := id) (d := Compute.setItems place items) ?_ rfl (.modify _)).bind
      fun _ _ => pure rfl
    exact .setItems place hitems.symm
  simp only [ListMethod.runSort]
  split
  · exact Neatly.bind (p := fun _ => True) (fault (.append (.literal rfl) (.literal rfl)))
      fun (_ : Unit) _ => sorted
  · exact sorted

theorem runPlain (m : ListMethod) (place : Nat) (hargs : Value.AllNeat args) :
    Neatly Value.Neat (Run.compute (m.runPlain place args)) :=
  computeOf (Recoding.runPlain_computes place m args) (by rw [hargs]; rfl) fun _ hh _ _ failed =>
    ListMethod.runPlain_inLine m place hh hargs failed

/-- A method ends neatly if calls of key functions do. -/
theorem method {apply : Apply} (hap : Applies apply) {object : Value} (hargs : Value.AllNeat args)
    (hk : keywords.Neat) {name : String} (hname : Text.OneLine name) :
    Neatly Value.Neat (ListMethod.run apply object name args keywords) := by
  cases object with
  | list place =>
    simp only [ListMethod.run]
    have full : Text.OneLine (ListMethod.fullName name) := ListMethod.oneLine_fullName hname
    split
    · exact runSort hap hk place
    · exact (plain (noKeywords_inLine full keywords)).bind fun _ _ => runPlain _ place hargs
    · exact (plain (noKeywords_inLine full keywords)).bind fun _ _ =>
        fault (.append (.append (.framed (.literal rfl) rfl rfl) hname) (.literal rfl))
  | _ =>
    exact fault (.append (.append (.framed (Value.oneLine_typeName _) rfl rfl) hname)
      (.literal rfl))

end Builtins

end Neatly

end SortTrace
