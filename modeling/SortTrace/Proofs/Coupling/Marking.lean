import SortTrace.Machine.Arguments
import SortTrace.Proofs.BoundNames
import SortTrace.Proofs.Recoding.Basic

/-!
# Marked programs

A marked program has numbers in the places of lines. A `Marking` tells the line of every number and
which numbers belong to logging calls that were put in; `strip` leaves those calls out and puts the
lines back. The numbers tell statements apart that stand on the same line.

When a program nowhere binds the name of the logging builtin, neither does a machine that runs it
(`Scopes.Free`), and a logging call is a call of that builtin.
-/

namespace SortTrace

namespace Script

/-- A call that logs a variable. -/
def Stmt.logCall (line : Nat) (var : String) : Stmt :=
  .expr line (.call (.name Builtin.logState.name) [.name var] [])

/-- Is the statement a call that logs a variable? -/
def Stmt.isLogCall : Stmt → Bool
  | .expr _ (.call (.name f) [.name _] []) => f == Builtin.logState.name
  | _ => false

theorem Stmt.eq_logCall {s : Stmt} (h : s.isLogCall = true) :
    ∃ var, s = .logCall s.line var := by
  unfold Stmt.isLogCall at h
  split at h
  · rw [beq_iff_eq] at h
    subst h
    exact ⟨_, rfl⟩
  · cases h

end Script

open Script (Expr Stmt FunctionDef)

/-! ## Markings -/

/-- What the numbers of a marked program stand for. -/
structure Marking where
  /-- Was a logging call of this number put in? -/
  inserted : Nat → Bool
  line : Nat → Nat

namespace Marking

variable (k : Marking)

/-- Is the statement one of the logging calls that were put in? -/
def drops (s : Stmt) : Bool :=
  k.inserted s.line && s.isLogCall

mutual

/-- The statement without the logging calls that were put in, with lines for numbers. -/
def strip : Stmt → Stmt
  | .expr n e => .expr (k.line n) e
  | .assign n targets value => .assign (k.line n) targets value
  | .augment n target op value => .augment (k.line n) target op value
  | .branch n cases otherwise => .branch (k.line n) (stripCases cases) (stripBlock otherwise)
  | .whileLoop n condition body otherwise =>
    .whileLoop (k.line n) condition (stripBlock body) (stripBlock otherwise)
  | .forLoop n target items body otherwise =>
    .forLoop (k.line n) target items (stripBlock body) (stripBlock otherwise)
  | .define n name params body => .define (k.line n) name params (stripBlock body)
  | .giveBack n value => .giveBack (k.line n) value
  | .declareGlobal n names => .declareGlobal (k.line n) names
  | .leaveLoop n => .leaveLoop (k.line n)
  | .nextRound n => .nextRound (k.line n)
  | .pass n => .pass (k.line n)

/-- The block without the logging calls that were put in, with lines for numbers. -/
def stripBlock : List Stmt → List Stmt
  | [] => []
  | s :: rest => if k.drops s then stripBlock rest else strip s :: stripBlock rest

/-- Cases with their blocks stripped. -/
def stripCases : List (Expr × List Stmt) → List (Expr × List Stmt)
  | [] => []
  | (condition, body) :: rest => (condition, stripBlock body) :: stripCases rest

end

/-- A marking by which nothing was put in. -/
def keepAll : Marking :=
  { k with inserted := fun _ => false }

/-- Every number is its own line, and nothing was put in. -/
def plain : Marking :=
  ⟨fun _ => false, id⟩

mutual

theorem strip_plain : ∀ s : Stmt, plain.strip s = s
  | .branch n cases otherwise => by
    rw [strip, stripCases_plain cases, stripBlock_plain otherwise]
    rfl
  | .whileLoop n condition body otherwise => by
    rw [strip, stripBlock_plain body, stripBlock_plain otherwise]
    rfl
  | .forLoop n target items body otherwise => by
    rw [strip, stripBlock_plain body, stripBlock_plain otherwise]
    rfl
  | .define n name params body => by
    rw [strip, stripBlock_plain body]
    rfl
  | .expr .. | .assign .. | .augment .. | .giveBack .. | .declareGlobal .. | .leaveLoop _
  | .nextRound _ | .pass _ => rfl

theorem stripBlock_plain : ∀ block : List Stmt, plain.stripBlock block = block
  | [] => rfl
  | s :: rest => by
    have kept : plain.drops s = false := rfl
    rw [stripBlock, kept, strip_plain s, stripBlock_plain rest]
    rfl

theorem stripCases_plain : ∀ cases : List (Expr × List Stmt), plain.stripCases cases = cases
  | [] => rfl
  | (condition, body) :: rest => by
    rw [stripCases, stripBlock_plain body, stripCases_plain rest]

end

/-! ## Functions of marked programs -/

/-- Were logging calls put in? Then nothing else may bear the name they call. -/
def Inserts : Prop :=
  ∃ n, k.inserted n = true

/-- Neither the parameters nor the body of the function bind the name that logging calls use, if
such calls were put in. -/
def Clean (d : FunctionDef) : Prop :=
  k.Inserts → (d.params.any fun p => p.name == Builtin.logState.name) = false
    ∧ Stmt.anyBinds Builtin.logState.name d.body = false

open Classical in
/-- The values of a marked program: their functions are clean, others stand for empty ones. -/
noncomputable def marked : Recoding where
  code d := if k.Clean d then d else ⟨d.name, [], []⟩
  name_code d := by split <;> rfl
  line := id

/-- The values of the stripped program. -/
noncomputable def stripped : Recoding where
  code d := ⟨d.name, (k.marked.code d).params, k.stripBlock (k.marked.code d).body⟩
  name_code _ := rfl
  line := k.line

instance : k.marked.KeepsErrors := ⟨fun _ _ => rfl⟩

instance : k.stripped.KeepsErrors := ⟨fun _ _ => rfl⟩

instance : k.marked.InPlace := ⟨rfl⟩

instance : k.stripped.InPlace := ⟨rfl⟩

theorem clean_code (d : FunctionDef) : k.Clean (k.marked.code d) := by
  simp only [marked]
  split
  · assumption
  · exact fun _ => ⟨rfl, rfl⟩

variable {k}

theorem code_of_clean {d : FunctionDef} (h : k.Clean d) : k.marked.code d = d :=
  if_pos h

@[simp] theorem fault_marked (f : Fault) : k.marked.fault f = f := by
  cases f <;> rfl

end Marking

/-! ## Free names -/

namespace Bindings

theorem find?_eq_none {b : Bindings} {name : String} :
    b.find? name = none ↔ ∀ p ∈ b, p.1 ≠ name := by
  induction b with
  | nil => simp [find?]
  | cons p rest ih =>
    by_cases h : p.1 = name
    · simp [find?, h]
    · simp [find?, h, ih]

theorem find?_erase_eq_none {b : Bindings} {name : String} (other : String)
    (h : b.find? name = none) : (b.erase other).find? name = none := by
  rw [find?_eq_none] at h ⊢
  intro p hp
  exact h p (List.mem_filter.mp hp).1

end Bindings

/-- No scope binds the name. -/
def Scopes.Free (name : String) (s : Scopes) : Prop :=
  s.globals.find? name = none ∧ ∀ f ∈ s.frames, f.locals.find? name = none

namespace Scopes.Free

variable {name : String} {s : Scopes}

theorem empty : Scopes.empty.Free name :=
  ⟨rfl, fun _ hf => nomatch hf⟩

theorem lookup (h : s.Free name) : s.lookup name = none := by
  obtain ⟨globals, frames⟩ := s
  obtain ⟨hglobals, hframes⟩ := h
  cases frames with
  | nil => exact hglobals
  | cons f rest =>
    have local_none : f.locals.find? name = none := hframes f (List.mem_cons_self ..)
    simp only [Scopes.lookup, local_none]
    split <;> exact hglobals

theorem assign (h : s.Free name) {other : String} (hne : other ≠ name) (v : Value) :
    (s.assign other v).Free name := by
  obtain ⟨globals, frames⟩ := s
  obtain ⟨hglobals, hframes⟩ := h
  have global : (Bindings.insert other v globals).find? name = none := by
    rw [Bindings.find?_insert_of_ne _ _ hne.symm]
    exact hglobals
  cases frames with
  | nil => exact ⟨global, hframes⟩
  | cons f rest =>
    simp only [Scopes.assign]
    split
    · exact ⟨global, hframes⟩
    · refine ⟨hglobals, fun g hg => ?_⟩
      rcases List.mem_cons.mp hg with rfl | hg
      · rw [Bindings.find?_insert_of_ne _ _ hne.symm]
        exact hframes f (List.mem_cons_self ..)
      · exact hframes g (List.mem_cons_of_mem _ hg)

theorem declareGlobal (h : s.Free name) (names : List String) :
    (s.declareGlobal names).Free name := by
  obtain ⟨globals, frames⟩ := s
  cases frames with
  | nil => exact h
  | cons f rest =>
    refine ⟨h.1, fun g hg => ?_⟩
    rcases List.mem_cons.mp hg with rfl | hg
    · have locals := h.2 f (List.mem_cons_self ..)
      clear h hg
      induction names generalizing f with
      | nil => exact locals
      | cons other names ih =>
        exact ih (f.declare other) (Bindings.find?_erase_eq_none other locals)
    · exact h.2 g (List.mem_cons_of_mem _ hg)

theorem push (h : s.Free name) {f : Frame} (hf : f.locals.find? name = none) :
    (s.push f).Free name := by
  refine ⟨h.1, fun g hg => ?_⟩
  rcases List.mem_cons.mp hg with rfl | hg
  · exact hf
  · exact h.2 g hg

theorem pop (h : s.Free name) : s.pop.2.Free name := by
  obtain ⟨globals, frames⟩ := s
  cases frames with
  | nil => exact h
  | cons f rest => exact ⟨h.1, fun g hg => h.2 g (List.mem_cons_of_mem _ hg)⟩

end Scopes.Free

/-- A call binds the parameters of the function and nothing else. -/
theorem bindArguments_names {f : FunctionDef} {defaults args : List Value}
    {keywords : List (String × Value)} {locals : Bindings}
    (h : bindArguments f defaults args keywords = .ok locals) :
    ∀ p ∈ locals, p.1 ∈ f.params.map Script.Param.name := by
  intro p hp
  simp only [bindArguments] at h
  split at h
  · cases h
  cases hk : bindKeywords f ((f.params.map Script.Param.name).zip args) keywords with
  | error e => rw [hk] at h; cases h
  | ok given =>
    rw [hk] at h
    change (if _ then _ else _) = _ at h
    split at h
    · cases h
      rw [List.filterMap_map, List.mem_filterMap] at hp
      obtain ⟨q, hq, hv⟩ := hp
      rw [Function.comp_apply, Option.map_eq_some_iff] at hv
      obtain ⟨v, -, rfl⟩ := hv
      exact (List.of_mem_zip hq).1
    · cases h

end SortTrace
