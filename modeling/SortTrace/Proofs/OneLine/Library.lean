import SortTrace.Machine.Program
import SortTrace.Proofs.OneLine.Neat

/-!
# Faults of the library told on one line

Sorting, the builtins and the methods of lists, and the arguments of calls: what they refuse is told
on one line. Their messages name functions and keywords, which have to be on one line, and one of
them tells of a value, which has to be neat.
-/

namespace SortTrace

open Fault

/-! ## Sorting and extremes -/

section MergeSort

open MergeSort

variable {α : Type} {less : α → α → Except Fault Bool} (hless : ∀ a b, ToldInLine (less a b))

include hless

theorem merge_inLine (done xs ys : List α) : ToldInLine (merge less done xs ys) := by
  fun_induction merge less done xs ys with
  | case1 | case2 => exact .ok _
  | case3 done x xs y ys e he => exact .error (hless y x e he)
  | case4 _ _ _ _ _ _ ih | case5 _ _ _ _ _ _ ih => exact ih

theorem mergePairs_inLine (done runs : List (List α)) : ToldInLine (mergePairs less done runs) := by
  fun_induction mergePairs less done runs with
  | case1 | case2 => exact .ok _
  | case3 done run next runs e he => exact .error (merge_inLine hless [] run next e he)
  | case4 _ _ _ _ _ _ ih => exact ih

theorem sortRuns_oneLine (runs : List (List α)) : ∀ e ∈ (sortRuns less runs).2, e.OneLine := by
  fun_induction sortRuns less runs with
  | case1 | case2 => exact fun e he => absurd he (Option.not_mem_none e)
  | case3 run next runs e he =>
    rintro _ ⟨⟩
    exact mergePairs_inLine hless [] _ e he
  | case4 _ _ _ _ _ ih => exact ih

end MergeSort

theorem sortByKeys_inLine (h : Heap) (reverse : Bool) (keys items : List Value) :
    ToldInLine (sortByKeys h reverse keys items) := by
  have less (p q : Value × Value) : ToldInLine (keyLess h reverse p.1 q.1) :=
    (Value.order_inLine h p.1 q.1 (.literal rfl)).map _
  have failure := sortRuns_oneLine less ((keys.zip items).map ([·]))
  unfold sortByKeys
  split
  · exact .ok _
  · next out e hsort => exact .error (failure e (by rw [← MergeSort.sort, hsort]; rfl))

theorem extremeFrom_inLine (h : Heap) (e : Extreme) (best : Value × Value)
    (rest : List (Value × Value)) : ToldInLine (extremeFrom h e best rest) := by
  have operator : Text.OneLine e.operator := by
    cases e <;> exact .literal rfl
  induction rest generalizing best with
  | nil => exact .ok _
  | cons p rest ih => exact (Value.order_inLine h p.1 best.1 operator).bind fun o => ih _

/-! ## Arguments of builtins -/

section Arguments

variable {function : String} (hf : Text.OneLine function)

include hf

theorem oneLine_fewArguments (least given : Nat) : (fewArguments function least given).OneLine :=
  .append (.append (.append (.append (.append (.append hf (.literal rfl)) (Text.oneLine_nat least))
    (.literal rfl)) (oneLine_arguments least)) (.literal rfl)) (Text.oneLine_nat given)

theorem oneLine_manyArguments (most given : Nat) : (manyArguments function most given).OneLine :=
  .append (.append (.append (.append (.append (.append hf (.literal rfl)) (Text.oneLine_nat most))
    (.literal rfl)) (oneLine_arguments most)) (.literal rfl)) (Text.oneLine_nat given)

theorem oneLine_wrongArguments (expected given : Nat) :
    (wrongArguments function expected given).OneLine :=
  .append (.append (.append (.append (.append (.append hf (.literal rfl))
    (Text.oneLine_nat expected)) (.literal rfl)) (oneLine_arguments expected)) (.literal rfl))
    (Text.oneLine_nat given)

theorem oneLine_exactlyOneArgument (given : Nat) :
    (exactlyOneArgument function given).OneLine :=
  .append (.append (.append hf (.literal rfl)) (Text.oneLine_nat given)) (.literal rfl)

theorem oneLine_noArguments (given : Nat) : (noArguments function given).OneLine :=
  .append (.append (.append hf (.literal rfl)) (Text.oneLine_nat given)) (.literal rfl)

theorem countArguments_inLine (least most : Nat) (args : List Value) :
    ToldInLine (countArguments function least most args) :=
  .ite (fun _ => .error (oneLine_fewArguments hf _ _)) fun _ =>
    .ite (fun _ => .error (oneLine_manyArguments hf _ _)) fun _ => .ok _

theorem onlyArgument_inLine (args : List Value) : ToldInLine (onlyArgument function args) := by
  unfold onlyArgument
  split
  · exact .ok _
  · exact .error (oneLine_exactlyOneArgument hf _)

theorem noKeywords_inLine (keywords : Keywords) : ToldInLine (keywords.none function) :=
  .ite (fun _ => .ok _) fun _ => .error (.append hf (.literal rfl))

theorem onlyKeywords_inLine {keywords : Keywords} (hk : keywords.Neat) (allowed : List String) :
    ToldInLine (keywords.only function allowed) := by
  unfold Keywords.only
  split
  · next k found =>
    have keyword : Text.OneLine k.1 := hk.names k (List.mem_of_find?_eq_some found)
    exact .error (.append (.append (.framed keyword rfl rfl) hf) (.literal rfl))
  · exact .ok _

end Arguments

theorem integerArgument_inLine (v : Value) : ToldInLine (integerArgument v) := by
  unfold integerArgument
  split
  · exact .ok _
  · exact .error (.framed v.oneLine_typeName rfl rfl)

/-! ## Builtins -/

namespace Value

variable (h : Heap) (v : Value)

theorem printOption_inLine {option : String} (ho : Text.OneLine option) (standard : String)
    (v : Option Value) : ToldInLine (printOption option standard v) := by
  unfold printOption
  split
  · exact .ok _
  · exact .ok _
  · exact .ok _
  · exact .error (.append (.append ho (.literal rfl)) (oneLine_typeName _))

theorem length_inLine : ToldInLine (v.length h) := by
  unfold length
  split
  · exact Arithmetic.narrow_inLine _
  · exact Arithmetic.narrow_inLine _
  · exact Arithmetic.narrow_inLine _
  · exact Arithmetic.narrow_inLine _
  · exact .error (.framed (oneLine_typeName _) rfl rfl)

theorem absolute_inLine : ToldInLine v.absolute := by
  unfold absolute
  split
  · exact .ok _
  · split
    · exact (Arithmetic.narrow_inLine _).map _
    · exact .error (.framed (oneLine_typeName _) rfl rfl)

theorem toInteger_inLine : ToldInLine (v.toInteger h) := by
  unfold toInteger
  split
  · exact Arithmetic.truncate_inLine _
  · next s =>
    split
    · exact .ok _
    · exact .error (.append (.literal rfl) (Text.oneLine_quote s))
  · split
    · exact .ok _
    · exact .error (.framed (oneLine_typeName _) rfl rfl)

theorem toReal_inLine : ToldInLine (v.toReal h) := by
  unfold toReal
  split
  · next s =>
    split
    · exact .ok _
    · exact .error (.append (.literal rfl) (Text.oneLine_quote s))
  · split
    · exact .ok _
    · exact .error (.framed (oneLine_typeName _) rfl rfl)

theorem rangeOf_inLine (bounds : List Int64) : ToldInLine (rangeOf bounds) := by
  unfold rangeOf
  split
  · exact .ok _
  · exact .ok _
  · exact .ite (fun _ => .error (.literal rfl)) fun _ => .ok _
  · exact .error (oneLine_fewArguments (.literal rfl) _ _)

theorem sum_inLine (total : Value) (items : List Value) : ComputesInLine (sum total items) := by
  induction items generalizing total with
  | nil => exact .pure _
  | cons v vs ih => exact (binary_inLine total v .add).bind fun next => ih next

theorem enumerate_inLine (start : Int64) (items : Array Value) :
    ComputesInLine (enumerate start items) :=
  .mapM (fun _ => .bind (.of (Arithmetic.narrow_inLine _)) fun _ => .newTuple _) _

/-! ## Methods -/

theorem indexOf_inLine {h : Heap} {v : Value} (hh : h.Neat) (hv : v.Neat) (place : Nat) :
    ToldInLine (v.indexOf h place) := by
  unfold indexOf
  split
  · exact .ok _
  · exact .error (.append (written_oneLine hh hv) (.literal rfl))

theorem popAt_inLine (i : Int64) (length : Nat) : ToldInLine (match position? i length with
    | some n => .ok n
    | .none => throw popOutOfRange) := by
  split
  · exact .ok _
  · exact .error (.literal rfl)

theorem popPosition_inLine (place : Nat) (at_ : Option Value) :
    ToldInLine (popPosition h place at_) := by
  have empty : ToldInLine (.error popFromEmpty : Except Fault Nat) := .error (.literal rfl)
  refine .ite (fun _ => empty) fun _ => ?_
  split
  · exact (integerArgument_inLine _).bind fun i => popAt_inLine i _
  · exact popAt_inLine _ _

end Value

namespace ListMethod

variable (m : ListMethod) (place : Nat) (args : List Value)

theorem oneLine_name : Text.OneLine m.name := by
  cases m <;> exact .literal rfl

theorem oneLine_fullName {method : String} (h : Text.OneLine method) :
    Text.OneLine (fullName method) :=
  .append (.literal rfl) h

theorem silently_inLine {c : Compute Unit} (h : ComputesInLine c) :
    ComputesInLine (silently c) :=
  h.bind fun _ => .pure _

/-- Looking for a value is told apart, as its fault tells of the value. -/
theorem runPlain_computesInLine (h : m = .index → ∀ v, args ≠ [v]) :
    ComputesInLine (runPlain m place args) := by
  unfold runPlain
  split
  · exact silently_inLine (.modify _)
  · exact silently_inLine (.bind (.read fun h => h.iterate_inLine _) fun _ => .modify _)
  · exact absurd rfl (h rfl _)
  · exact .map _ (.read fun _ => .ok _)
  · exact silently_inLine (.bind (.of (integerArgument_inLine _)) fun _ => .modify _)
  · exact .bind (.read fun h => Value.popPosition_inLine h _ _) fun _ =>
      .bind .get fun _ => .bind (.modify _) fun _ => .pure _
  · exact .bind (.read fun h => Value.popPosition_inLine h _ _) fun _ =>
      .bind .get fun _ => .bind (.modify _) fun _ => .pure _
  · exact .bind .get fun _ => .newList _
  · exact silently_inLine (.modify _)
  · exact silently_inLine (.modify _)
  · exact .throw (oneLine_exactlyOneArgument (oneLine_fullName (oneLine_name _)) _)
  · exact .throw (oneLine_exactlyOneArgument (oneLine_fullName (oneLine_name _)) _)
  · exact .throw (oneLine_exactlyOneArgument (oneLine_fullName (oneLine_name _)) _)
  · exact .throw (oneLine_exactlyOneArgument (oneLine_fullName (oneLine_name _)) _)
  · exact .throw (oneLine_wrongArguments (oneLine_name _) _ _)
  · exact .throw (oneLine_manyArguments (oneLine_name _) _ _)
  · exact .throw (oneLine_noArguments (oneLine_fullName (oneLine_name _)) _)
  · exact .throw (oneLine_noArguments (oneLine_fullName (oneLine_name _)) _)
  · exact .throw (oneLine_noArguments (oneLine_fullName (oneLine_name _)) _)
  · exact .throw (.append (oneLine_name _) (.literal rfl))

variable {args} in
/-- What a method refuses on neat lists, with neat arguments, is told on one line. -/
theorem runPlain_inLine {h h₁ : Heap} (hh : h.Neat) (hargs : Value.AllNeat args) {e : Fault}
    (failed : runPlain m place args h = .error e h₁) : e.OneLine := by
  by_cases looks : m = .index ∧ ∃ v, args = [v]
  · obtain ⟨rfl, v, rfl⟩ := looks
    have told := Value.indexOf_inLine hh (Value.allNeat_cons.mp hargs).1 place
    simp only [runPlain] at failed
    change EStateM.map Value.int (Compute.read fun h => v.indexOf h place) h = _ at failed
    rw [EStateM.map, Compute.read_apply] at failed
    cases found : v.indexOf h place with
    | ok n =>
      rw [found] at failed
      cases failed
    | error e' =>
      rw [found] at failed
      cases failed
      exact told _ found
  · exact runPlain_computesInLine m place args (fun hm v hv => looks ⟨hm, v, hv⟩) h e h₁ failed

end ListMethod

/-! ## Arguments of functions -/

section Calls

open Script (FunctionDef)

theorem oneLine_nameList {names : List String} (h : ∀ name ∈ names, Text.OneLine name) :
    Text.OneLine (nameList names) := by
  have quoted : ∀ s ∈ names.map (fun name => s!"'{name}'"), Text.OneLine s := by
    intro s hs
    obtain ⟨name, hname, rfl⟩ := List.mem_map.mp hs
    exact .framed (h name hname) rfl rfl
  unfold nameList
  generalize names.map (fun name => s!"'{name}'") = parts at quoted
  split
  · exact .literal rfl
  · exact quoted _ (by simp)
  · next one other =>
    exact .append (.append (quoted one (by simp)) (.literal rfl)) (quoted other (by simp))
  · have last : Text.OneLine (parts.getLastD "") := by
      cases parts with
      | nil => exact .literal rfl
      | cons s rest =>
        rw [List.getLastD_cons]
        exact quoted _ (List.getLastD_mem_cons ..)
    have others : ∀ s ∈ parts.dropLast, Text.OneLine s := fun s hs =>
      quoted s ((List.dropLast_sublist parts).subset hs)
    exact .append (.append (Text.oneLine_intercalate (.literal rfl) others) (.literal rfl)) last

variable {f : FunctionDef} (hf : f.Neat)

include hf

theorem bindKeywords_inLine {keywords : Keywords} (hk : ∀ p ∈ keywords, Text.OneLine p.1)
    (bound : Bindings) : ToldInLine (bindKeywords f bound keywords) := by
  induction keywords generalizing bound with
  | nil => exact .ok _
  | cons p rest ih =>
    obtain ⟨name, v⟩ := p
    obtain ⟨hname, hrest⟩ := List.forall_mem_cons.mp hk
    refine .ite (fun _ => ?_) fun _ => .ite (fun _ => ?_) fun _ => ih hrest _
    · exact .error (.append (.append (.append hf.1 (.literal rfl)) hname) (.literal rfl))
    · exact .error (.append (.append (.append hf.1 (.literal rfl)) hname) (.literal rfl))

theorem oneLine_tooManyPositional (required parameters given : Nat) :
    (tooManyPositional f.name required parameters given).OneLine := by
  have expected : Text.OneLine (if required = parameters then toString parameters
      else s!"from {required} to {parameters}") := by
    split
    · exact Text.oneLine_nat _
    · exact .append (.framed (Text.oneLine_nat _) rfl rfl) (Text.oneLine_nat _)
  have noun : Text.OneLine
      (if required = parameters then arguments parameters else "arguments") := by
    split
    · exact oneLine_arguments _
    · exact .literal rfl
  have verb : Text.OneLine (if given = 1 then "was" else "were") := by
    split
    · exact .literal rfl
    · exact .literal rfl
  exact .append (.append (.append (.append (.append (.append (.append (.append (.append hf.1
    (.literal rfl)) expected) (.literal rfl)) noun) (.literal rfl)) (Text.oneLine_nat given))
    (.literal rfl)) verb) (.literal rfl)

theorem oneLine_missingArguments {names : List String} (h : ∀ name ∈ names, Text.OneLine name) :
    (missingArguments f.name names).OneLine :=
  .append (.append (.append (.append (.append (.append hf.1 (.literal rfl)) (Text.oneLine_nat _))
    (.literal rfl)) (oneLine_arguments _)) (.literal rfl)) (oneLine_nameList h)

/-- What a neat function refuses is told on one line. -/
theorem bindArguments_inLine {keywords : Keywords} (hk : keywords.Neat)
    (defaults args : List Value) : ToldInLine (bindArguments f defaults args keywords) := by
  have surplus (required parameters given : Nat) :
      ToldInLine (.error (tooManyPositional f.name required parameters given) :
        Except Fault Bindings) :=
    .error (oneLine_tooManyPositional hf _ _ _)
  refine .ite (fun _ => surplus _ _ _) fun _ => ?_
  refine (bindKeywords_inLine hf hk.names _).bind fun given => .ite (fun _ => .ok _) fun _ => ?_
  refine .error (oneLine_missingArguments hf fun name hname => ?_)
  obtain ⟨p, hp, rfl⟩ := List.mem_map.mp hname
  obtain ⟨q, hq, rfl⟩ := List.mem_map.mp (List.mem_filter.mp hp).1
  obtain ⟨param, hparam, hname⟩ := List.mem_map.mp (List.of_mem_zip hq).1
  exact hname ▸ (hf.2.1 param hparam).1

end Calls

end SortTrace
