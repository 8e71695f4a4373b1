import SortTrace.Proofs.OneLine.Fault
import SortTrace.Proofs.Recoding.Flow
import SortTrace.Proofs.Recoding.Library

/-!
# Names on one line

Every name that stands in a tree may be asked to have a property (`Expr.Names`, `Stmt.Names`). A
function is neat if all its names are on one line, and so is a machine if it holds no other
function. As a recoding that changes every function but the neat ones (`Recoding.neat`) leaves just
the neat values alone, operations keep them neat because they commute with recodings.

The written form of a neat value is on one line, and so is the fault at arguments that a neat
function does not take.
-/

namespace SortTrace

/-! ## Names in trees -/

namespace Script

section Names

variable (ok : String → Prop)

mutual

/-- All names in the expression have the property. -/
def Expr.Names : Expr → Prop
  | .literal _ => True
  | .name s => ok s
  | .list items | .tuple items => Expr.AllNames items
  | .unary _ operand => operand.Names
  | .binary _ left right | .logic _ left right | .index left right => left.Names ∧ right.Names
  | .compare first rest => first.Names ∧ Expr.LinkNames rest
  | .ifElse condition yes no => condition.Names ∧ yes.Names ∧ no.Names
  | .slice object lower upper step =>
    object.Names ∧ Expr.BoundNames lower ∧ Expr.BoundNames upper ∧ Expr.BoundNames step
  | .call function args keywords =>
    function.Names ∧ Expr.AllNames args ∧ Expr.KeywordNames keywords
  | .method object called args keywords =>
    object.Names ∧ ok called ∧ Expr.AllNames args ∧ Expr.KeywordNames keywords

/-- All names in the expressions have the property. -/
def Expr.AllNames : List Expr → Prop
  | [] => True
  | e :: es => e.Names ∧ Expr.AllNames es

/-- All names in the keyword arguments have the property. -/
def Expr.KeywordNames : List (String × Expr) → Prop
  | [] => True
  | (key, e) :: rest => ok key ∧ e.Names ∧ Expr.KeywordNames rest

/-- All names in the links of a comparison have the property. -/
def Expr.LinkNames : List (CompareOp × Expr) → Prop
  | [] => True
  | (_, e) :: rest => e.Names ∧ Expr.LinkNames rest

/-- All names in an expression that may be left out have the property. -/
def Expr.BoundNames : Option Expr → Prop
  | none => True
  | some e => e.Names

end

/-- The name of the parameter and all names in its default have the property. -/
def Param.Names (p : Param) : Prop :=
  ok p.name ∧ Expr.BoundNames ok p.default

mutual

/-- All names in the statement have the property. -/
def Stmt.Names : Stmt → Prop
  | .expr _ e => e.Names ok
  | .assign _ targets value => Expr.AllNames ok targets ∧ value.Names ok
  | .augment _ target _ value => target.Names ok ∧ value.Names ok
  | .branch _ cases otherwise => Stmt.CaseNames cases ∧ Stmt.BlockNames otherwise
  | .whileLoop _ condition body otherwise =>
    condition.Names ok ∧ Stmt.BlockNames body ∧ Stmt.BlockNames otherwise
  | .forLoop _ target items body otherwise =>
    target.Names ok ∧ items.Names ok ∧ Stmt.BlockNames body ∧ Stmt.BlockNames otherwise
  | .define _ name params body => ok name ∧ (∀ p ∈ params, p.Names ok) ∧ Stmt.BlockNames body
  | .giveBack _ value => Expr.BoundNames ok value
  | .declareGlobal _ names => ∀ name ∈ names, ok name
  | .leaveLoop _ | .nextRound _ | .pass _ => True

/-- All names in the statements have the property. -/
def Stmt.BlockNames : List Stmt → Prop
  | [] => True
  | s :: rest => s.Names ∧ Stmt.BlockNames rest

/-- All names in the cases have the property. -/
def Stmt.CaseNames : List (Expr × List Stmt) → Prop
  | [] => True
  | (condition, body) :: rest =>
    condition.Names ok ∧ Stmt.BlockNames body ∧ Stmt.CaseNames rest

end

/-- All names in the function have the property. -/
def FunctionDef.Names (d : FunctionDef) : Prop :=
  ok d.name ∧ (∀ p ∈ d.params, p.Names ok) ∧ Stmt.BlockNames ok d.body

variable {ok}

theorem allNames_iff {es : List Expr} : Expr.AllNames ok es ↔ ∀ e ∈ es, e.Names ok := by
  induction es with
  | nil => exact iff_of_true trivial nofun
  | cons e es ih => rw [Expr.AllNames, ih, List.forall_mem_cons]

theorem keywordNames_iff {keywords : List (String × Expr)} :
    Expr.KeywordNames ok keywords ↔ ∀ k ∈ keywords, ok k.1 ∧ k.2.Names ok := by
  induction keywords with
  | nil => exact iff_of_true trivial nofun
  | cons k rest ih => rw [Expr.KeywordNames, ih, List.forall_mem_cons, and_assoc]

theorem linkNames_iff {links : List (CompareOp × Expr)} :
    Expr.LinkNames ok links ↔ ∀ l ∈ links, l.2.Names ok := by
  induction links with
  | nil => exact iff_of_true trivial nofun
  | cons l rest ih => rw [Expr.LinkNames, ih, List.forall_mem_cons]

theorem blockNames_iff {block : List Stmt} :
    Stmt.BlockNames ok block ↔ ∀ s ∈ block, s.Names ok := by
  induction block with
  | nil => exact iff_of_true trivial nofun
  | cons s rest ih => rw [Stmt.BlockNames, ih, List.forall_mem_cons]

theorem caseNames_iff {cases : List (Expr × List Stmt)} :
    Stmt.CaseNames ok cases ↔ ∀ c ∈ cases, c.1.Names ok ∧ Stmt.BlockNames ok c.2 := by
  induction cases with
  | nil => exact iff_of_true trivial nofun
  | cons c rest ih => rw [Stmt.CaseNames, ih, List.forall_mem_cons, and_assoc]

end Names

/-- All names in the function are on one line. -/
def FunctionDef.Neat (d : FunctionDef) : Prop :=
  d.Names Text.OneLine

end Script

open Script (FunctionDef Expr Stmt)

/-! ## Neat values -/

open Classical in
/-- Functions that are not neat have one parameter more. -/
noncomputable def Recoding.neat : Recoding where
  code d := if d.Neat then d else ⟨d.name, ⟨"", none⟩ :: d.params, d.body⟩
  name_code d := by split <;> rfl
  line n := n

namespace Recoding

theorem code_neat {d : FunctionDef} : neat.code d = d ↔ d.Neat := by
  refine ⟨fun h => ?_, fun h => if_pos h⟩
  by_contra untidy
  have changed : neat.code d = ⟨d.name, ⟨"", none⟩ :: d.params, d.body⟩ := if_neg untidy
  have params : (⟨"", none⟩ :: d.params : List Script.Param) = d.params :=
    congrArg FunctionDef.params (changed.symm.trans h)
  exact absurd (congrArg List.length params) (Nat.succ_ne_self _)

instance : neat.KeepsErrors := ⟨fun _ _ => rfl⟩

instance : neat.InPlace := ⟨rfl⟩

end Recoding

/-- All functions that the value holds are neat. -/
abbrev Value.Neat (v : Value) : Prop :=
  Recoding.neat.value v = v

/-- All functions that the values hold are neat. -/
abbrev Value.AllNeat (vs : List Value) : Prop :=
  vs.map Recoding.neat.value = vs

/-- All functions that the items hold are neat. -/
abbrev Value.ItemsNeat (items : Array Value) : Prop :=
  items.map Recoding.neat.value = items

/-- All functions that the lists hold are neat. -/
abbrev Heap.Neat (h : Heap) : Prop :=
  Recoding.neat.heap h = h

/-- The keywords are on one line, and all functions that their values hold are neat. -/
structure Keywords.Neat (keywords : Keywords) : Prop where
  names : ∀ p ∈ keywords, Text.OneLine p.1
  values : Recoding.neat.bindings keywords = keywords

namespace Value

theorem allNeat_cons {v : Value} {vs : List Value} : AllNeat (v :: vs) ↔ v.Neat ∧ AllNeat vs := by
  rw [AllNeat, List.map_cons, List.cons.injEq]

theorem AllNeat.mem {v : Value} {vs : List Value} (h : AllNeat vs) (hv : v ∈ vs) : v.Neat := by
  induction vs with
  | nil => cases hv
  | cons w ws ih =>
    obtain ⟨hw, hws⟩ := allNeat_cons.mp h
    rcases List.mem_cons.mp hv with rfl | hv
    · exact hw
    · exact ih hws hv

theorem itemsNeat_toArray {vs : List Value} : ItemsNeat vs.toArray ↔ AllNeat vs := by
  simp [ItemsNeat, AllNeat]

theorem allNeat_toList {items : Array Value} : AllNeat items.toList ↔ ItemsNeat items := by
  rw [AllNeat, ← Array.toList_map, Array.toList_inj]

theorem neat_tuple {id : Nat} {items : List Value} : (tuple id items).Neat ↔ AllNeat items := by
  simp [Neat]

theorem neat_function {id : Nat} {d : FunctionDef} {defaults : List Value} :
    (function id d defaults).Neat ↔ d.Neat ∧ AllNeat defaults := by
  simp [Neat, Recoding.code_neat]

end Value

theorem Heap.Neat.items {h : Heap} (hh : h.Neat) (place : Nat) :
    Value.ItemsNeat (h.items place) := by
  have items := Recoding.neat.items_heap h place
  rw [hh] at items
  exact items.symm

namespace Keywords

variable {keywords : Keywords}

theorem Neat.nil : Neat [] where
  names := nofun
  values := rfl

theorem Neat.cons {name : String} {v : Value} (hname : Text.OneLine name) (hv : v.Neat)
    (h : keywords.Neat) : Neat ((name, v) :: keywords) where
  names := List.forall_mem_cons.mpr ⟨hname, h.names⟩
  values := by
    rw [Recoding.bindings, List.map_cons, hv]
    exact congrArg _ h.values

theorem Neat.get? (h : keywords.Neat) (name : String) :
    (keywords.get? name).map Recoding.neat.value = keywords.get? name := by
  have got := Recoding.neat.get?_bindings keywords name
  rw [h.values] at got
  exact got.symm

theorem Neat.get {name : String} {v : Value} (h : keywords.Neat)
    (hv : keywords.get? name = some v) : v.Neat := by
  have got := h.get? name
  rw [hv] at got
  exact Option.some.inj got

end Keywords

/-! ## Written values -/

theorem Builtin.oneLine_name (b : Builtin) : Text.OneLine b.name := by
  cases b <;> exact .literal rfl

namespace Value

theorem oneLine_rangeText (s : Span) : Text.OneLine (rangeText s) := by
  have bounds : Text.OneLine (toString s.start.toInt ++ ", " ++ toString s.stop.toInt) :=
    .append (.append (Text.oneLine_int _) (.literal rfl)) (Text.oneLine_int _)
  simp only [rangeText]
  split
  · exact .framed bounds rfl rfl
  · exact .append (.append (.framed bounds rfl rfl) (Text.oneLine_int _)) (.literal rfl)

theorem oneLine_tupleText {items : List String} (h : ∀ s ∈ items, Text.OneLine s) :
    Text.OneLine (tupleText items) := by
  refine .append (.append (.literal rfl) (Text.oneLine_intercalate (.literal rfl) h)) ?_
  split
  · exact .literal rfl
  · exact .literal rfl

section Written

variable {lists : Nat → String}

mutual

theorem textWith_oneLine (hl : ∀ place, Text.OneLine (lists place)) :
    ∀ v : Value, v.Neat → Text.OneLine (textWith lists v)
  | .none, _ => .literal rfl
  | .bool b, _ => by cases b <;> exact .literal rfl
  | .int n, _ => Text.oneLine_int n.toInt
  | .float x, _ => Decimal.oneLine_scriptText x
  | .str s, _ => Text.oneLine_quote s
  | .list place, _ => hl place
  | .tuple _ items, h => by
    rw [textWith_tuple]
    exact oneLine_tupleText (textsWith_oneLine hl items (neat_tuple.mp h))
  | .range s, _ => oneLine_rangeText s
  | .function _ d _, h => by
    rw [textWith_function]
    exact .framed (neat_function.mp h).1.1 rfl rfl
  | .builtin b, _ => .framed b.oneLine_name rfl rfl

theorem textsWith_oneLine (hl : ∀ place, Text.OneLine (lists place)) :
    ∀ vs : List Value, AllNeat vs → ∀ s ∈ textsWith lists vs, Text.OneLine s
  | [], _, _, hs => nomatch hs
  | v :: vs, h, s, hs => by
    obtain ⟨hv, hvs⟩ := allNeat_cons.mp h
    rw [textsWith_cons] at hs
    rcases List.mem_cons.mp hs with rfl | hs
    · exact textWith_oneLine hl v hv
    · exact textsWith_oneLine hl vs hvs s hs

end

end Written

/-- The written form of a neat value is on one line. -/
theorem written_oneLine {h : Heap} {v : Value} (hh : h.Neat) (hv : v.Neat) :
    Text.OneLine (v.written h) := by
  have lists (fuel : Nat) : ∀ outer place, Text.OneLine (listText h fuel outer place) := by
    induction fuel with
    | zero => exact fun _ _ => .literal rfl
    | succ fuel ih =>
      intro outer place
      rw [listText]
      split
      · exact .literal rfl
      · refine .framed (Text.oneLine_intercalate (.literal rfl) fun s hs => ?_) rfl rfl
        obtain ⟨item, hitem, rfl⟩ := List.mem_map.mp hs
        exact textWith_oneLine (ih _) item ((allNeat_toList.mpr (hh.items place)).mem hitem)
  exact textWith_oneLine (lists _ _) v hv

end Value

end SortTrace
