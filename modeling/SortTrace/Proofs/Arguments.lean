import SortTrace.Proofs.Coupling.Marking
import SortTrace.Proofs.Grammar.Statements
import SortTrace.Proofs.Judgement.Call

/-!
# Arguments and parameters

When a function is defined the defaults of its parameters get values, of which the function keeps
those that there are. Because parameters with a default come last, counting from the end gives every
parameter its own one back (`parameterDefaults_filterMap`). A call binds all parameters and nothing
else if its arguments fit them (`FunctionTakes`), and is refused otherwise before there is a
frame. The main statement is `arguments_bound_exactly`.
-/

namespace SortTrace

open Script (FunctionDef Param Stmt)

/-! ## Bindings with distinct names -/

namespace Bindings

variable {b : Bindings} {name : String} {v : Value}

theorem find?_of_mem (distinct : (b.map Prod.fst).Nodup) (hp : (name, v) ∈ b) :
    b.find? name = some v := by
  induction b with
  | nil => cases hp
  | cons p rest ih =>
    rw [List.map_cons, List.nodup_cons] at distinct
    rcases List.mem_cons.mp hp with rfl | hp
    · exact if_pos rfl
    · have other : p.1 ≠ name := by
        rintro rfl
        exact distinct.1 (List.mem_map.mpr ⟨_, hp, rfl⟩)
      rw [find?, if_neg other]
      exact ih distinct.2 hp

theorem find?_none_iff : b.find? name = none ↔ name ∉ b.map Prod.fst := by
  rw [find?_eq_none, List.mem_map]
  exact ⟨fun h ⟨p, hp, heq⟩ => h p hp heq, fun h p hp heq => h ⟨p, hp, heq⟩⟩

end Bindings

/-! ## Default values -/

/-- The value of the default that a parameter has. -/
def defaultValue (user : UserCall) (p : Param) : Run (Option Value) :=
  match p.default with
  | none => pure none
  | some e => some <$> eval user e

/-- The values of the defaults, one after the other: one for each parameter, if it has a default. -/
def defaultValues (user : UserCall) : List Param → Run (List (Option Value))
  | [] => pure []
  | p :: params => do
    let v ← defaultValue user p
    let vs ← defaultValues user params
    pure (v :: vs)

theorem evalAll_defaults (user : UserCall) (params : List Param) :
    evalAll user (params.filterMap Param.default)
      = (fun vs => vs.filterMap id) <$> defaultValues user params := by
  induction params with
  | nil => rfl
  | cons p params ih =>
    cases hp : p.default with
    | none => simp [defaultValues, defaultValue, hp, ih]
    | some e => simp [defaultValues, defaultValue, hp, ih, evalAll]

theorem defaultValue_isSome {user : UserCall} {p : Param} {slot : Option Value} {m m' : Machine}
    (h : defaultValue user p m = .ok slot m') : slot.isSome = p.default.isSome := by
  unfold defaultValue at h
  cases hp : p.default with
  | none =>
    rw [hp] at h
    cases h
    rfl
  | some e =>
    simp only [hp, map_eq_pure_bind] at h
    obtain ⟨v, m₁, -, hv⟩ := Run.ok_of_bind h
    cases hv
    rfl

/-- There is a value for every parameter with a default and for no other one. -/
theorem defaultValues_isSome {user : UserCall} : ∀ {params : List Param} {m m' : Machine}
    {slots : List (Option Value)}, defaultValues user params m = .ok slots m' →
      slots.map Option.isSome = params.map fun p => p.default.isSome
  | [], _, _, _, h => by
    cases h
    rfl
  | p :: params, m, m', slots, h => by
    obtain ⟨slot, m₁, hslot, h⟩ := Run.ok_of_bind h
    obtain ⟨rest, m₂, hrest, h⟩ := Run.ok_of_bind h
    cases h
    rw [List.map_cons, List.map_cons, defaultValue_isSome hslot, defaultValues_isSome hrest]

theorem map_some_filterMap {α : Type} {slots : List (Option α)}
    (h : ∀ slot ∈ slots, slot.isSome = true) : (slots.filterMap id).map some = slots := by
  induction slots with
  | nil => rfl
  | cons slot slots ih =>
    obtain ⟨present, others⟩ := List.forall_mem_cons.mp h
    obtain ⟨v, rfl⟩ := Option.isSome_iff_exists.mp present
    rw [List.filterMap_cons_some (f := id) (b := v) rfl, List.map_cons, ih others]

/-- Values that come last are found from the end. -/
theorem replicate_filterMap {α : Type} {slots : List (Option α)}
    (h : slots.Pairwise fun a b => a.isSome = true → b.isSome = true) :
    List.replicate (slots.length - (slots.filterMap id).length) none
      ++ (slots.filterMap id).map some = slots := by
  induction slots with
  | nil => rfl
  | cons slot slots ih =>
    obtain ⟨first, rest⟩ := List.pairwise_cons.mp h
    cases slot with
    | none =>
      have fewer : (slots.filterMap id).length ≤ slots.length := List.length_filterMap_le ..
      rw [List.filterMap_cons_none rfl, List.length_cons, Nat.succ_sub fewer,
        List.replicate_succ, List.cons_append, ih rest]
    | some v =>
      have all := map_some_filterMap fun slot hslot => first slot hslot rfl
      have size : (slots.filterMap id).length = slots.length := by
        rw [← List.length_map (f := some), all]
      rw [List.filterMap_cons_some (f := id) (b := v) rfl, List.length_cons, List.length_cons, size,
        Nat.sub_self, List.replicate_zero, List.nil_append, List.map_cons, all]

theorem parameterDefaults_filterMap {d : FunctionDef} {slots : List (Option Value)}
    (hs : slots.map Option.isSome = d.params.map fun p => p.default.isSome)
    (trailing : d.params.Pairwise fun p q => p.default.isSome = true → q.default.isSome = true) :
    parameterDefaults d (slots.filterMap id) = slots := by
  have size : d.params.length = slots.length := by
    simpa using (congrArg List.length hs).symm
  rw [parameterDefaults, size]
  refine replicate_filterMap ?_
  rw [← List.pairwise_map (f := Option.isSome) (R := fun a b => a = true → b = true), hs,
    List.pairwise_map]
  exact trailing

/-! ## Keyword arguments -/

section Keywords

variable {d : FunctionDef} {bound : Bindings} {keywords : Keywords}

/-- A keyword names a parameter that is not bound yet. -/
def FreeParameter (d : FunctionDef) (bound : Bindings) (name : String) : Prop :=
  name ∈ d.params.map Param.name ∧ bound.find? name = none

theorem any_name_iff {name : String} :
    (d.params.any fun p => p.name == name) = true ↔ name ∈ d.params.map Param.name := by
  simp [List.mem_map]

theorem freeParameter_insert {name other : String} {v : Value} (hne : other ≠ name) :
    FreeParameter d (bound.insert name v) other ↔ FreeParameter d bound other := by
  rw [FreeParameter, FreeParameter, Bindings.find?_insert_of_ne _ _ hne]

theorem bindKeywords_ok (distinct : (keywords.map Prod.fst).Nodup)
    (free : ∀ k ∈ keywords, FreeParameter d bound k.1) :
    ∃ given, bindKeywords d bound keywords = .ok given ∧
      ∀ name, given.find? name = (Bindings.find? keywords name).or (bound.find? name) := by
  induction keywords generalizing bound with
  | nil => exact ⟨bound, rfl, fun name => rfl⟩
  | cons k rest ih =>
    obtain ⟨⟨known, unbound⟩, others⟩ := List.forall_mem_cons.mp free
    obtain ⟨hnew, distinct⟩ := List.nodup_cons.mp distinct
    have differs : ∀ q ∈ rest, q.1 ≠ k.1 := fun q hq heq => hnew (List.mem_map.mpr ⟨q, hq, heq⟩)
    have later : ∀ q ∈ rest, FreeParameter d (bound.insert k.1 k.2) q.1 := fun q hq =>
      (freeParameter_insert (differs q hq)).mpr (others q hq)
    obtain ⟨given, hgiven, finds⟩ := ih distinct later
    refine ⟨given, ?_, fun name => ?_⟩
    · rw [bindKeywords, any_name_iff.mpr known, unbound]
      exact hgiven
    · rw [finds name, Bindings.find?]
      split
      · next heq =>
        subst heq
        rw [Bindings.find?_none_iff.mpr hnew, Bindings.find?_insert_self]
        rfl
      · next hne => rw [Bindings.find?_insert_of_ne _ _ (Ne.symm hne)]

theorem bindKeywords_refused (distinct : (keywords.map Prod.fst).Nodup)
    (taken : ¬ ∀ k ∈ keywords, FreeParameter d bound k.1) :
    ∃ message, bindKeywords d bound keywords = .error (.badType message) := by
  induction keywords generalizing bound with
  | nil => exact absurd nofun taken
  | cons k rest ih =>
    obtain ⟨hnew, distinct⟩ := List.nodup_cons.mp distinct
    have differs : ∀ q ∈ rest, q.1 ≠ k.1 := fun q hq heq => hnew (List.mem_map.mpr ⟨q, hq, heq⟩)
    rw [bindKeywords]
    by_cases known : k.1 ∈ d.params.map Param.name
    · rw [any_name_iff.mpr known]
      cases hbound : bound.find? k.1 with
      | some v => exact ⟨_, rfl⟩
      | none =>
        refine ih distinct fun others => taken (List.forall_mem_cons.mpr ⟨⟨known, hbound⟩, ?_⟩)
        exact fun q hq => (freeParameter_insert (differs q hq)).mp (others q hq)
    · rw [Bool.eq_false_iff.mpr fun h => known (any_name_iff.mp h)]
      exact ⟨_, rfl⟩

end Keywords

/-! ## Calls -/

/-- The arguments fit the parameters: there are no more positional arguments than parameters, every
keyword names a parameter behind those that they are given to, and each other parameter there has a
default. -/
structure FunctionTakes (d : FunctionDef) (args : List Value) (keywords : Keywords) : Prop where
  count : args.length ≤ d.params.length
  named : ∀ k ∈ keywords, k.1 ∈ (d.params.drop args.length).map Param.name
  covered : ∀ p ∈ d.params.drop args.length, p.name ∉ keywords.map Prod.fst →
    p.default.isSome = true

/-- The local names are those of the parameters. Positional arguments are given to parameters in
order, keyword arguments to those they name, and each other parameter has its default. -/
structure BoundBy (d : FunctionDef) (slots : List (Option Value)) (args : List Value)
    (keywords : Keywords) (locals : Bindings) : Prop where
  names : locals.map Prod.fst = d.params.map Param.name
  positional : ∀ q ∈ d.params.zip args, locals.find? q.1.name = some q.2
  keyword : ∀ k ∈ keywords, locals.find? k.1 = some k.2
  default : ∀ q ∈ (d.params.zip slots).drop args.length, q.1.name ∉ keywords.map Prod.fst →
    locals.find? q.1.name = q.2

section Calls

variable {d : FunctionDef} {slots : List (Option Value)} {args : List Value}
  {keywords : Keywords}

theorem zip_keys {α β : Type} : ∀ {names : List α} {args : List β}, args.length ≤ names.length →
    (names.zip args).map Prod.fst = names.take args.length
  | names, [], _ => by simp
  | name :: names, v :: args, h => by
    rw [List.zip_cons_cons, List.map_cons, zip_keys (Nat.le_of_succ_le_succ h)]
    rfl

section Distinct

variable (distinct : (d.params.map Param.name).Nodup) (count : args.length ≤ d.params.length)

include count in
theorem positional_keys : ((d.params.map Param.name).zip args).map Prod.fst
    = (d.params.take args.length).map Param.name := by
  rw [zip_keys (by rwa [List.length_map]), List.map_take]

include distinct in
/-- No parameter that is given a positional argument is one of the others. -/
theorem take_drop_disjoint {name : String} (n : Nat)
    (front : name ∈ (d.params.take n).map Param.name)
    (back : name ∈ (d.params.drop n).map Param.name) : False := by
  rw [← List.take_append_drop n d.params, List.map_append, List.nodup_append] at distinct
  exact distinct.2.2 name front name back rfl

include distinct count in
theorem freeParameter_iff {name : String} :
    FreeParameter d ((d.params.map Param.name).zip args) name
      ↔ name ∈ (d.params.drop args.length).map Param.name := by
  rw [FreeParameter, Bindings.find?_none_iff, positional_keys count]
  constructor
  · rintro ⟨known, unbound⟩
    rw [← List.take_append_drop args.length d.params, List.map_append, List.mem_append] at known
    exact known.resolve_left unbound
  · intro back
    refine ⟨?_, fun front => take_drop_disjoint distinct _ front back⟩
    rw [List.map_drop] at back
    exact List.mem_of_mem_drop back

end Distinct

/-- The value of a parameter: what it is given, or else its default. -/
def parameterValue (given : Bindings) (q : Param × Option Value) : Option Value :=
  (given.find? q.1.name).or q.2

/-- The parameters that have a value, with it. -/
def filledIn (given : Bindings) (params : List (Param × Option Value)) : Bindings :=
  params.filterMap fun q => (parameterValue given q).map fun v => (q.1.name, v)

theorem bindArguments_of_given {defaults : List Value} {given : Bindings}
    (count : args.length ≤ d.params.length) (hslots : parameterDefaults d defaults = slots)
    (hgiven : bindKeywords d ((d.params.map Param.name).zip args) keywords = .ok given) :
    bindArguments d defaults args keywords
      = if ∀ q ∈ d.params.zip slots, (parameterValue given q).isSome = true
        then .ok (filledIn given (d.params.zip slots))
        else .error (.missingArguments d.name
          (((d.params.zip slots).filter fun q => (parameterValue given q).isNone).map
            fun q => q.1.name)) := by
  have fewer : ¬ (d.params.map Param.name).length < args.length := by
    rw [List.length_map]
    exact Nat.not_lt.mpr count
  have filled : ((d.params.map Param.name).zip slots).map (fun p => (p.1, (given.find? p.1).or p.2))
      = (d.params.zip slots).map fun q => (q.1.name, parameterValue given q) := by
    rw [List.zip_map_left, List.map_map]
    rfl
  rw [bindArguments, if_neg fewer, hslots, hgiven]
  change (if (List.filter _ (List.map _ _)).isEmpty = true then _ else _) = _
  rw [filled, List.filter_map, List.isEmpty_map]
  refine if_congr ?_ ?_ ?_
  · simp [Option.isSome_iff_ne_none]
  · rw [List.filterMap_map]
    rfl
  · rw [List.map_map]
    rfl

theorem keys_filledIn {given : Bindings} {params : List (Param × Option Value)}
    (h : ∀ q ∈ params, (parameterValue given q).isSome = true) :
    (filledIn given params).map Prod.fst = params.map fun q => q.1.name := by
  induction params with
  | nil => rfl
  | cons q params ih =>
    obtain ⟨first, others⟩ := List.forall_mem_cons.mp h
    obtain ⟨v, hv⟩ := Option.isSome_iff_exists.mp first
    rw [filledIn, List.filterMap_cons_some (b := (q.1.name, v)) (by rw [hv]; rfl), List.map_cons,
      List.map_cons]
    exact congrArg (_ :: ·) (ih others)

theorem mem_filledIn {given : Bindings} {params : List (Param × Option Value)}
    {q : Param × Option Value} (hq : q ∈ params) {v : Value}
    (hv : parameterValue given q = some v) :
    (q.1.name, v) ∈ filledIn given params :=
  List.mem_filterMap.mpr ⟨q, hq, by rw [hv]; rfl⟩

/-- A slot has a value if its parameter has a default. -/
theorem isSome_of_mem_zip : ∀ {params : List Param} {slots : List (Option Value)},
    slots.map Option.isSome = (params.map fun p => p.default.isSome) →
    ∀ q ∈ params.zip slots, q.2.isSome = q.1.default.isSome
  | [], _, _, _, hq => by simp at hq
  | _ :: _, [], _, _, hq => by simp at hq
  | p :: params, slot :: slots, h, q, hq => by
    obtain ⟨first, others⟩ := List.cons.inj h
    rcases List.mem_cons.mp hq with rfl | hq
    · exact first
    · exact isSome_of_mem_zip others q hq

/-- What is given to the parameters: positional arguments in order and keyword arguments by name. -/
structure Given (d : FunctionDef) (args : List Value) (keywords : Keywords) (given : Bindings) :
    Prop where
  positional : ∀ q ∈ d.params.zip args, given.find? q.1.name = some q.2
  keyword : ∀ k ∈ keywords, given.find? k.1 = some k.2
  nothing : ∀ p ∈ d.params.drop args.length, p.name ∉ keywords.map Prod.fst →
    given.find? p.name = none

variable {defaults : List Value}
  (distinct : (d.params.map Param.name).Nodup)
  (hslots : slots.map Option.isSome = d.params.map fun p => p.default.isSome)

include distinct in
theorem bindKeywords_given (hkeys : (keywords.map Prod.fst).Nodup)
    (count : args.length ≤ d.params.length)
    (named : ∀ k ∈ keywords, k.1 ∈ (d.params.drop args.length).map Param.name) :
    ∃ given, bindKeywords d ((d.params.map Param.name).zip args) keywords = .ok given ∧
      Given d args keywords given := by
  obtain ⟨given, hgiven, finds⟩ := bindKeywords_ok hkeys fun k hk =>
    (freeParameter_iff distinct count).mpr (named k hk)
  refine ⟨given, hgiven, fun q hq => ?_, fun k hk => ?_, fun p hp hother => ?_⟩
  · have front : q.1 ∈ d.params.take args.length := by
      rw [← zip_keys count]
      exact List.mem_map_of_mem hq
    have unnamed : q.1.name ∉ keywords.map Prod.fst := by
      intro hk
      obtain ⟨k, hk, heq⟩ := List.mem_map.mp hk
      exact take_drop_disjoint distinct _ (List.mem_map_of_mem front) (heq ▸ named k hk)
    rw [finds, Bindings.find?_none_iff.mpr unnamed, Option.none_or]
    refine Bindings.find?_of_mem ?_ ?_
    · rw [positional_keys count, List.map_take]
      exact distinct.sublist (List.take_sublist ..)
    · rw [List.zip_map_left]
      exact List.mem_map_of_mem (f := Prod.map Param.name id) hq
  · rw [finds, Bindings.find?_of_mem hkeys hk, Option.some_or]
  · have behind : p.name ∉ (d.params.take args.length).map Param.name := fun front =>
      take_drop_disjoint distinct _ front (List.mem_map_of_mem hp)
    rw [← positional_keys count] at behind
    rw [finds, Bindings.find?_none_iff.mpr hother, Bindings.find?_none_iff.mpr behind]
    rfl

include hslots

theorem map_fst_slots : (d.params.zip slots).map Prod.fst = d.params := by
  have size : slots.length = d.params.length := by
    simpa using congrArg List.length hslots
  exact List.map_fst_zip (Nat.le_of_eq size.symm)

theorem exists_slot {p : Param} (hp : p ∈ d.params) : ∃ slot, (p, slot) ∈ d.params.zip slots := by
  rw [← map_fst_slots hslots] at hp
  obtain ⟨q, hq, rfl⟩ := List.mem_map.mp hp
  exact ⟨q.2, hq⟩

include distinct

/-- Arguments that fit give every parameter a value. -/
theorem bindArguments_ok (hdefaults : parameterDefaults d defaults = slots)
    (hkeys : (keywords.map Prod.fst).Nodup) (takes : FunctionTakes d args keywords) :
    ∃ locals, bindArguments d defaults args keywords = .ok locals ∧
      BoundBy d slots args keywords locals := by
  have count := takes.count
  obtain ⟨given, hgiven, gives⟩ := bindKeywords_given distinct hkeys count takes.named
  have filled : ∀ q ∈ d.params.zip slots, (parameterValue given q).isSome = true := by
    intro q hq
    have known := (List.of_mem_zip hq).1
    rw [← List.take_append_drop args.length d.params, List.mem_append, ← zip_keys count] at known
    rw [parameterValue, Option.isSome_or, Bool.or_eq_true]
    rcases known with front | back
    · obtain ⟨r, hr, heq⟩ := List.mem_map.mp front
      rw [← heq, gives.positional r hr]
      exact .inl rfl
    · by_cases hk : q.1.name ∈ keywords.map Prod.fst
      · obtain ⟨k, hk, heq⟩ := List.mem_map.mp hk
        rw [← heq, gives.keyword k hk]
        exact .inl rfl
      · rw [isSome_of_mem_zip hslots q hq]
        exact .inr (takes.covered q.1 back hk)
  refine ⟨_, by rw [bindArguments_of_given count hdefaults hgiven, if_pos filled], ?_⟩
  have keys : (filledIn given (d.params.zip slots)).map Prod.fst = d.params.map Param.name := by
    have names := congrArg (List.map Param.name) (map_fst_slots hslots)
    rw [List.map_map] at names
    exact (keys_filledIn filled).trans names
  have value {q : Param × Option Value} (hq : q ∈ d.params.zip slots) :
      (filledIn given (d.params.zip slots)).find? q.1.name = parameterValue given q := by
    obtain ⟨v, hv⟩ := Option.isSome_iff_exists.mp (filled q hq)
    rw [hv]
    exact Bindings.find?_of_mem (by rwa [keys]) (mem_filledIn hq hv)
  refine ⟨keys, fun q hq => ?_, fun k hk => ?_, fun q hq hother => ?_⟩
  · obtain ⟨slot, hslot⟩ := exists_slot hslots (List.of_mem_zip hq).1
    rw [value hslot, parameterValue, gives.positional q hq, Option.some_or]
  · obtain ⟨p, hp, heq⟩ := List.mem_map.mp (takes.named k hk)
    obtain ⟨slot, hslot⟩ := exists_slot hslots (List.mem_of_mem_drop hp)
    rw [← heq, value hslot, parameterValue, heq, gives.keyword k hk, Option.some_or]
  · have back : q.1 ∈ d.params.drop args.length := by
      rw [← map_fst_slots hslots, ← List.map_drop]
      exact List.mem_map_of_mem hq
    rw [value (List.mem_of_mem_drop hq), parameterValue, gives.nothing q.1 back hother,
      Option.none_or]

/-- Arguments that do not fit are refused with a type error. -/
theorem bindArguments_refused (hdefaults : parameterDefaults d defaults = slots)
    (hkeys : (keywords.map Prod.fst).Nodup) (refused : ¬ FunctionTakes d args keywords) :
    ∃ message, bindArguments d defaults args keywords = .error (.badType message) := by
  by_cases count : args.length ≤ d.params.length
  · by_cases named : ∀ k ∈ keywords, k.1 ∈ (d.params.drop args.length).map Param.name
    · obtain ⟨given, hgiven, gives⟩ := bindKeywords_given distinct hkeys count named
      have uncovered : ¬ ∀ q ∈ d.params.zip slots, (parameterValue given q).isSome = true := by
        intro filled
        refine refused ⟨count, named, fun p hp hother => ?_⟩
        obtain ⟨slot, hslot⟩ := exists_slot hslots (List.mem_of_mem_drop hp)
        have value := filled _ hslot
        rw [parameterValue, gives.nothing p hp hother, Option.none_or] at value
        rwa [← isSome_of_mem_zip hslots _ hslot]
      rw [bindArguments_of_given count hdefaults hgiven, if_neg uncovered]
      exact ⟨_, rfl⟩
    · have taken : ¬ ∀ k ∈ keywords,
          FreeParameter d ((d.params.map Param.name).zip args) k.1 := fun free =>
        named fun k hk => (freeParameter_iff distinct count).mp (free k hk)
      obtain ⟨message, hmessage⟩ := bindKeywords_refused hkeys taken
      refine ⟨message, ?_⟩
      rw [bindArguments, if_neg (by rw [List.length_map]; exact Nat.not_lt.mpr count), hmessage]
      rfl
  · rw [bindArguments, if_pos (by rw [List.length_map]; exact Nat.lt_of_not_le count)]
    exact ⟨_, rfl⟩

end Calls

/-- The call of a function: its body runs in a new frame, which is gone afterwards. -/
theorem callIn_ok {c : Control} {d : FunctionDef} {defaults args : List Value}
    {keywords : Keywords} {locals : Bindings}
    (h : bindArguments d defaults args keywords = .ok locals) (m : Machine) :
    callIn c d defaults args keywords m
      = (do
          let flow ← runBlock c d.body
          Run.modifyScopes fun s => s.pop.2
          Run.setLine m.line
          pure flow.result) (m.enter d.name locals) := by
  have line : Run.line m = .ok m.line m := rfl
  rw [callIn, Run.bind_ok line, h]
  rfl

theorem callIn_refused {c : Control} {d : FunctionDef} {defaults args : List Value}
    {keywords : Keywords} {f : Fault} (h : bindArguments d defaults args keywords = .error f)
    (m : Machine) : callIn c d defaults args keywords m = .error (.fault f) m := by
  rw [callIn_eq, watchedIn_refused h]

/-- What a definition leaves: the function with the values of its defaults. -/
theorem define_ok {user : UserCall} {d : FunctionDef} {m m' : Machine}
    (h : define user d m = .ok () m') :
    ∃ slots mark m₁, defaultValues user d.params m = .ok slots m₁ ∧
      m'.scopes = m₁.scopes.assign d.name (.function mark d (slots.filterMap id)) := by
  rw [define, evalAll_defaults] at h
  obtain ⟨defaults, m₁, hdefaults, h⟩ := Run.ok_of_bind h
  rw [map_eq_pure_bind] at hdefaults
  obtain ⟨slots, m₂, hslots, hpure⟩ := Run.ok_of_bind hdefaults
  cases hpure
  obtain ⟨mark, m₃, hmark, h⟩ := Run.ok_of_bind h
  cases hmark
  cases h
  exact ⟨slots, _, m₁, hslots, rfl⟩

/-- **A call binds the parameters exactly.** The function that a definition in an accepted program
makes takes arguments if and only if they fit its parameters; then its body runs in a frame whose
local names are the parameters, each with what it is given or with its default as it was valued when
the function was defined. Otherwise the call is a type error and there is no frame. -/
theorem arguments_bound_exactly {text : String} {map : Array Nat} {program : List Stmt}
    (read : Script.parseProgram text map = .ok program) {d : FunctionDef}
    (hd : d ∈ Stmt.blockFunctions program) {user : UserCall} {m m' : Machine}
    (defined : define user d m = .ok () m') :
    ∃ slots mark m₁, defaultValues user d.params m = .ok slots m₁ ∧
      m'.scopes = m₁.scopes.assign d.name (.function mark d (slots.filterMap id)) ∧
      ∀ (args : List Value) (keywords : Keywords), (keywords.map Prod.fst).Nodup →
        ((∃ locals, bindArguments d (slots.filterMap id) args keywords = .ok locals)
          ↔ FunctionTakes d args keywords) ∧
        ∀ (c : Control) (m₂ : Machine),
          (FunctionTakes d args keywords → ∃ locals, BoundBy d slots args keywords locals ∧
            callIn c d (slots.filterMap id) args keywords m₂
              = (do
                  let flow ← runBlock c d.body
                  Run.modifyScopes fun s => s.pop.2
                  Run.setLine m₂.line
                  pure flow.result) (m₂.enter d.name locals)) ∧
          (¬ FunctionTakes d args keywords → ∃ message,
            callIn c d (slots.filterMap id) args keywords m₂
              = .error (.fault (.badType message)) m₂) := by
  obtain ⟨distinct, trailing⟩ := Script.params_of_parseProgram read hd
  obtain ⟨slots, mark, m₁, valued, scopes⟩ := define_ok defined
  have hslots := defaultValues_isSome valued
  have hdefaults := parameterDefaults_filterMap hslots trailing
  refine ⟨slots, mark, m₁, valued, scopes, fun args keywords hkeys => ⟨⟨?_, fun takes => ?_⟩,
    fun c m₂ => ⟨fun takes => ?_, fun refused => ?_⟩⟩⟩
  · rintro ⟨locals, bound⟩
    by_contra refused
    obtain ⟨message, hmessage⟩ := bindArguments_refused distinct hslots hdefaults hkeys refused
    exact absurd (bound.symm.trans hmessage) nofun
  · obtain ⟨locals, bound, -⟩ := bindArguments_ok distinct hslots hdefaults hkeys takes
    exact ⟨locals, bound⟩
  · obtain ⟨locals, bound, exactly⟩ := bindArguments_ok distinct hslots hdefaults hkeys takes
    exact ⟨locals, exactly, callIn_ok bound m₂⟩
  · obtain ⟨message, hmessage⟩ := bindArguments_refused distinct hslots hdefaults hkeys refused
    exact ⟨message, callIn_refused hmessage m₂⟩

/-- A function with a default, called with a positional and a keyword argument, and with the
keyword argument alone. -/
theorem arguments_bound_exactly_default :
    let text := "def f(a, b, c=1):\n pass"
    let d : FunctionDef :=
      ⟨"f", [⟨"a", none⟩, ⟨"b", none⟩, ⟨"c", some (.literal (.int 1))⟩], [.pass 2]⟩
    let program : List Stmt := [.define 1 d.name d.params d.body]
    let user : UserCall := fun _ _ _ _ => pure .none
    let m := Machine.start (Session.start .report [] none)
    let keywords : Keywords := [("b", .int 4)]
    Script.parseProgram text #[] = .ok program ∧ d ∈ Stmt.blockFunctions program ∧
      (keywords.map Prod.fst).Nodup ∧ (∃ m', define user d m = .ok () m') ∧
      ∃ slots m₁, defaultValues user d.params m = .ok slots m₁ ∧
        FunctionTakes d [.int 3] keywords ∧ ¬ FunctionTakes d [] keywords ∧
        ∀ (c : Control) (m₂ : Machine),
          (∃ locals, callIn c d (slots.filterMap id) [.int 3] keywords m₂
              = (do
                  let flow ← runBlock c d.body
                  Run.modifyScopes fun s => s.pop.2
                  Run.setLine m₂.line
                  pure flow.result) (m₂.enter d.name locals) ∧
            locals.map Prod.fst = ["a", "b", "c"] ∧ locals.find? "a" = some (.int 3) ∧
            locals.find? "b" = some (.int 4) ∧ locals.find? "c" = some (.int 1)) ∧
          ∃ message, callIn c d (slots.filterMap id) [] keywords m₂
            = .error (.fault (.badType message)) m₂ := by
  intro text d program user m keywords
  have tokens : Script.tokenize text #[] = .ok [⟨.mark Script.Keyword.defKw, 1⟩, ⟨.name "f", 1⟩,
      ⟨.mark Script.Punct.lparen, 1⟩, ⟨.name "a", 1⟩, ⟨.mark Script.Punct.comma, 1⟩,
      ⟨.name "b", 1⟩, ⟨.mark Script.Punct.comma, 1⟩, ⟨.name "c", 1⟩,
      ⟨.mark Script.Punct.assign, 1⟩, ⟨.int 1, 1⟩,
      ⟨.mark Script.Punct.rparen, 1⟩, ⟨.mark Script.Punct.colon, 1⟩,
      ⟨.mark Script.Layout.newline, 1⟩, ⟨.mark Script.Layout.indent, 2⟩,
      ⟨.mark Script.Keyword.passKw, 2⟩, ⟨.mark Script.Layout.newline, 2⟩,
      ⟨.mark Script.Layout.dedent, 2⟩, ⟨.mark Script.Layout.finish, 2⟩] := by decide +kernel
  have read : Script.parseProgram text #[] = .ok program :=
    (Script.parseProgram_of_tokenize tokens).trans rfl
  have member : d ∈ Stmt.blockFunctions program := List.mem_singleton_self d
  have distinct : (keywords.map Prod.fst).Nodup := List.nodup_singleton "b"
  have defined : define user d m = .ok () _ := rfl
  have takes : FunctionTakes d [.int 3] keywords := by
    refine ⟨by decide, fun k hk => ?_, fun p hp unnamed => ?_⟩
    · obtain rfl := List.mem_singleton.mp hk
      exact List.mem_cons_self
    · obtain rfl | hp := List.mem_cons.mp hp
      · exact absurd List.mem_cons_self unnamed
      · obtain rfl := List.mem_singleton.mp hp
        rfl
  have refused : ¬ FunctionTakes d [] keywords := fun takes =>
    absurd (takes.covered ⟨"a", none⟩ List.mem_cons_self (by decide)) nofun
  obtain ⟨slots, mark, m₁, valued, -, binds⟩ := arguments_bound_exactly read member defined
  refine ⟨read, member, distinct, ⟨_, defined⟩, slots, m₁, valued, takes, refused,
    fun c m₂ => ⟨?_, ((binds [] keywords distinct).2 c m₂).2 refused⟩⟩
  obtain ⟨locals, bound, called⟩ := ((binds [.int 3] keywords distinct).2 c m₂).1 takes
  have values : defaultValues user d.params m = .ok [none, none, some (.int 1)] m := rfl
  obtain ⟨rfl, -⟩ := EStateM.Result.ok.inj (values.symm.trans valued)
  refine ⟨locals, called, bound.names, ?_, ?_, ?_⟩
  · exact bound.positional (⟨"a", none⟩, .int 3) List.mem_cons_self
  · exact bound.keyword ("b", .int 4) List.mem_cons_self
  · exact bound.default (⟨"c", some (.literal (.int 1))⟩, some (.int 1)) (by simp [d]) (by decide)

end SortTrace
