import SortTrace.Value.Basic

/-!
# Scopes

The names a running script has bound: global ones, and for every call that has not ended a frame
with its local names. A name is looked up in the innermost frame and then among the global names;
the frames between are out of sight. An assignment binds in the innermost frame, or globally outside
all calls; inside a call, the names the call declared global are bound globally and are never local.

Builtins are not bound here.
-/

namespace SortTrace

/-- Names with their values. Every name occurs once. -/
abbrev Bindings : Type := List (String × Value)

namespace Bindings

/-- The value of a name. -/
def find? : Bindings → String → Option Value
  | [], _ => none
  | p :: rest, name => if p.1 = name then some p.2 else find? rest name

/-- Bind a name, in place of an earlier value. -/
def insert (name : String) (v : Value) : Bindings → Bindings
  | [] => [(name, v)]
  | p :: rest => if p.1 = name then (name, v) :: rest else p :: insert name v rest

/-- Remove a name. -/
def erase (b : Bindings) (name : String) : Bindings :=
  b.filter fun p => p.1 != name

/-- The bindings ordered by name. -/
def sorted (b : Bindings) : Bindings :=
  b.mergeSort fun p q => !(q.1 < p.1)

@[simp] theorem find?_insert_self (b : Bindings) (name : String) (v : Value) :
    (insert name v b).find? name = some v := by
  induction b with
  | nil => simp [insert, find?]
  | cons p rest ih =>
    by_cases h : p.1 = name
    · simp [insert, find?, h]
    · simp [insert, find?, h, ih]

theorem find?_insert_of_ne (b : Bindings) (v : Value) {name other : String} (h : other ≠ name) :
    (insert name v b).find? other = b.find? other := by
  induction b with
  | nil => simp [insert, find?, h.symm]
  | cons p rest ih =>
    by_cases hp : p.1 = name
    · simp [insert, find?, hp, h.symm]
    · simp [insert, find?, hp, ih]

end Bindings

/-- A call that has not ended. -/
structure Frame where
  function : String
  /-- The line of the statement that made the call. -/
  callLine : Nat
  locals : Bindings
  /-- The names that the call declared global. -/
  declared : List String
deriving Repr, Inhabited

/-- Has the call declared the name global? -/
def Frame.declares (f : Frame) (name : String) : Bool :=
  f.declared.contains name

/-- Declare a name global. -/
def Frame.declare (f : Frame) (name : String) : Frame :=
  { f with
    locals := f.locals.erase name
    declared := if f.declares name then f.declared else name :: f.declared }

/-- The names declared global in order. -/
def Frame.sortedDeclared (f : Frame) : List String :=
  f.declared.mergeSort fun a b => !(b < a)

/-- All bound names. -/
structure Scopes where
  globals : Bindings
  /-- The frames, innermost first. -/
  frames : List Frame
deriving Repr, Inhabited

namespace Scopes

/-- Nothing is bound and no call is under way. -/
def empty : Scopes := ⟨[], []⟩

/-- The number of calls under way. -/
def depth (s : Scopes) : Nat :=
  s.frames.length

/-- The value of a name. -/
def lookup (s : Scopes) (name : String) : Option Value :=
  match s.frames with
  | [] => s.globals.find? name
  | f :: _ =>
    if f.declares name then s.globals.find? name
    else match f.locals.find? name with
      | some v => some v
      | none => s.globals.find? name

/-- Bind a name. -/
def assign (s : Scopes) (name : String) (v : Value) : Scopes :=
  match s.frames with
  | [] => { s with globals := Bindings.insert name v s.globals }
  | f :: rest =>
    if f.declares name then { s with globals := Bindings.insert name v s.globals }
    else { s with frames := { f with locals := Bindings.insert name v f.locals } :: rest }

/-- Declare names global in the innermost call. Outside all calls they are global anyway. -/
def declareGlobal (s : Scopes) (names : List String) : Scopes :=
  match s.frames with
  | [] => s
  | f :: rest => { s with frames := names.foldl Frame.declare f :: rest }

/-- Enter a call. -/
def push (s : Scopes) (f : Frame) : Scopes :=
  { s with frames := f :: s.frames }

/-- Leave the innermost call. -/
def pop (s : Scopes) : Option Frame × Scopes :=
  match s.frames with
  | [] => (none, s)
  | f :: rest => (some f, { s with frames := rest })

end Scopes

end SortTrace
