import SortTrace.Machine.Assign
import SortTrace.Proofs.BoundNames
import SortTrace.Proofs.Judgement.Builtin

/-!
# Judgements of expressions and assignments

A judgement holds of an expression (`Judgement.eval`), and of an assignment to a target or an update
of it, if it holds of calls to the functions of the script (`Judgement.Calls`). Assigning to what
cannot be assigned to is a syntax error: either there is no such target, or the judgement has to
hold of the error (`Judgement.Lenient`).
-/

namespace SortTrace.Judgement

open Script (Expr BinOp CompareOp FunctionDef)

variable {ρ ρ' : Recoding} (J : Judgement ρ ρ')

/-- The judgement holds of two ways to call the functions of a script. -/
def Calls (user user' : UserCall) : Prop :=
  ∀ (d : FunctionDef) (defaults args : List Value) (keywords : Keywords),
    J.Values
      (user (ρ.code d) (defaults.map ρ.value) (args.map ρ.value) (ρ.bindings keywords))
      (user' (ρ'.code d) (defaults.map ρ'.value) (args.map ρ'.value) (ρ'.bindings keywords))

variable {user user' : UserCall}

theorem applyTo (hu : J.Calls user user') :
    J.Applies (SortTrace.applyTo user) (SortTrace.applyTo user') := by
  intro f v
  cases f with
  | builtin b => exact J.builtin [v] [] (fun _ item => J.pure item) b
  | function _ d defaults =>
    simp only [Recoding.value, Recoding.values_eq_map, SortTrace.applyTo]
    exact hu d defaults [v] []
  | _ => exact J.fault (.notCallable _)

theorem call (hu : J.Calls user user') (f : Value) (args : List Value)
    (keywords : Keywords) :
    J.Values
      (SortTrace.call user (ρ.value f) (args.map ρ.value) (ρ.bindings keywords))
      (SortTrace.call user' (ρ'.value f) (args.map ρ'.value)
        (ρ'.bindings keywords)) := by
  cases f with
  | builtin b => exact J.builtin args keywords (J.applyTo hu) b
  | function _ d defaults =>
    simp only [Recoding.value, Recoding.values_eq_map, SortTrace.call]
    exact hu d defaults args keywords
  | _ => exact J.fault (.notCallable _)

theorem sliceBound (v : Value) :
    J.Holds id id (Run.of (SortTrace.sliceBound (ρ.value v)))
      (Run.of (SortTrace.sliceBound (ρ'.value v))) := by
  have bound (ρ : Recoding) : SortTrace.sliceBound (ρ.value v)
      = ρ.outcome id (SortTrace.sliceBound v) := by
    cases v <;> rfl
  exact J.of (bound _) (bound _)

theorem isTrue (v : Value) :
    J.Holds id id (Run.read fun h => .ok ((ρ.value v).isTrue h))
      (Run.read fun h => .ok ((ρ'.value v).isTrue h)) :=
  J.read (x := fun h => .ok (v.isTrue h))
    (fun h => congrArg Except.ok (ρ.isTrue_value h v))
    fun h => congrArg Except.ok (ρ'.isTrue_value h v)

mutual

/-- An expression has recodings of the same value. -/
theorem eval (hu : J.Calls user user') : ∀ e : Expr,
    J.Values (SortTrace.eval user e) (SortTrace.eval user' e)
  | .literal v => J.pureOf (Value.ofLiteral v) (by simp) (by simp)
  | .name s => J.lookup s
  | .list items =>
    (evalAll hu items).bind fun vs => J.newList vs.toArray (by simp) (by simp)
  | .tuple items =>
    (evalAll hu items).bind fun _ => J.compute (.newTuple rfl) (.newTuple rfl)
  | .unary op operand =>
    (eval hu operand).bind fun v =>
      J.read (fun h => ρ.unary_value h op v) fun h => ρ'.unary_value h op v
  | .binary op left right =>
    (eval hu left).bind fun v => (eval hu right).bind fun w =>
      J.compute (Recoding.binary_computes op v w) (Recoding.binary_computes op v w)
  | .logic op left right => by
    refine (eval hu left).bind fun v => (J.isTrue v).bind fun holds => ?_
    cases op <;> cases holds
    · exact J.pure v
    · exact eval hu right
    · exact eval hu right
    · exact J.pure v
  | .compare first rest => (eval hu first).bind fun v => evalLinks hu v rest
  | .ifElse condition yes no => by
    refine (eval hu condition).bind fun v => (J.isTrue v).bind fun holds => ?_
    cases holds
    · exact eval hu no
    · exact eval hu yes
  | .index object subscript =>
    (eval hu object).bind fun v => (eval hu subscript).bind fun i =>
      J.read (fun h => ρ.item_value h v i) fun h => ρ'.item_value h v i
  | .slice object lower upper step =>
    (eval hu object).bind fun v => (evalBound hu lower).bind fun lower =>
      (evalBound hu upper).bind fun upper => (evalBound hu step).bind fun step =>
        J.compute (Recoding.slice_computes v ⟨lower, upper, step⟩)
          (Recoding.slice_computes v ⟨lower, upper, step⟩)
  | .call function args keywords =>
    (eval hu function).bind fun f => (evalAll hu args).bind fun vs =>
      (evalKeywords hu keywords).bind fun ks => J.call hu f vs ks
  | .method object name args keywords =>
    (eval hu object).bind fun v => (evalAll hu args).bind fun vs =>
      (evalKeywords hu keywords).bind fun ks => J.method vs ks (J.applyTo hu) v name

theorem evalAll (hu : J.Calls user user') : ∀ es : List Expr,
    J.Holds (List.map ρ.value) (List.map ρ'.value) (SortTrace.evalAll user es)
      (SortTrace.evalAll user' es)
  | [] => J.pure []
  | e :: es => (eval hu e).bind fun v => (evalAll hu es).bind fun vs => J.pure (v :: vs)

theorem evalKeywords (hu : J.Calls user user') : ∀ keywords : List (String × Expr),
    J.Holds ρ.bindings ρ'.bindings (SortTrace.evalKeywords user keywords)
      (SortTrace.evalKeywords user' keywords)
  | [] => J.pure []
  | (name, e) :: rest =>
    (eval hu e).bind fun v => (evalKeywords hu rest).bind fun vs => J.pure ((name, v) :: vs)

theorem evalLinks (hu : J.Calls user user') (v : Value) : ∀ rest : List (CompareOp × Expr),
    J.Values (SortTrace.evalLinks user (ρ.value v) rest)
      (SortTrace.evalLinks user' (ρ'.value v) rest)
  | [] => J.pure (Value.bool true)
  | (op, e) :: rest => by
    refine (eval hu e).bind fun w => ?_
    refine (J.read (fun h => ρ.compare_value h op v w)
      fun h => ρ'.compare_value h op v w).bind fun holds => ?_
    cases holds
    · exact J.pure (Value.bool false)
    · exact evalLinks hu w rest

theorem evalBound (hu : J.Calls user user') : ∀ bound : Option Expr,
    J.Holds id id (SortTrace.evalBound user bound) (SortTrace.evalBound user' bound)
  | none => J.pure none
  | some e => (eval hu e).bind fun v => J.sliceBound v

end

theorem holds (hu : J.Calls user user') (e : Expr) :
    J.Holds id id (SortTrace.holds user e) (SortTrace.holds user' e) :=
  (J.eval hu e).bind fun v => J.isTrue v

theorem evalSlice (hu : J.Calls user user') (lower upper step : Option Expr) :
    J.Holds id id (SortTrace.evalSlice user lower upper step)
      (SortTrace.evalSlice user' lower upper step) :=
  (J.evalBound hu lower).bind fun lower => (J.evalBound hu upper).bind fun upper =>
    (J.evalBound hu step).bind fun step => J.pure (⟨lower, upper, step⟩ : Slice)

/-! ## Assignments -/

theorem unpack (count : Nat) (v : Value) :
    J.Holds (List.map ρ.value) (List.map ρ'.value)
      (SortTrace.unpack count (ρ.value v)) (SortTrace.unpack count (ρ'.value v)) := by
  refine (J.iterate v).bind fun items => ?_
  simp only [Array.size_map, Array.toList_map]
  split
  · exact J.fault (.tooManyToUnpack count)
  split
  · exact J.fault (.tooFewToUnpack count items.size)
  · exact J.pure items.toList

/-- The judgement holds of the error at something that does not belong where it stands. -/
def Lenient : Prop :=
  ∀ message, J.Holds id id (SortTrace.misplaced message : Run Unit) (SortTrace.misplaced message)

theorem lenient [ρ.KeepsErrors] [ρ'.KeepsErrors] : J.Lenient := by
  intro message
  refine J.line.bind fun n => ?_
  have kept : J.Holds (id : Unit → Unit) id
      (Run.fault (ρ.fault (.syntaxError message n)))
      (Run.fault (ρ'.fault (.syntaxError message n))) :=
    J.fault _
  rwa [Recoding.fault, Recoding.fault, Recoding.KeepsErrors.misplaced_eq,
    Recoding.KeepsErrors.misplaced_eq] at kept

theorem setItem (object subscript v : Value) :
    J.Holds id id
      (Run.compute ((ρ.value object).setItem (ρ.value subscript) (ρ.value v)))
      (Run.compute
        ((ρ'.value object).setItem (ρ'.value subscript) (ρ'.value v))) :=
  J.compute (Recoding.setItem_computes object subscript v)
    (Recoding.setItem_computes object subscript v)

theorem setSlice (object v : Value) (s : Slice) :
    J.Holds id id
      (Run.compute ((ρ.value object).setSlice s (ρ.value v)))
      (Run.compute ((ρ'.value object).setSlice s (ρ'.value v))) :=
  J.compute (Recoding.setSlice_computes object s v) (Recoding.setSlice_computes object s v)

mutual

/-- Recodings of the same value are assigned to a target. -/
theorem assign (hu : J.Calls user user') (v : Value) : ∀ target : Expr,
    (∀ name, target.binds name = true → J.Free name) → J.Lenient ∨ target.isTarget = true →
    J.Holds id id (SortTrace.assign user target (ρ.value v))
      (SortTrace.assign user' target (ρ'.value v))
  | .name s, hfree, _ => J.bindName (hfree s (beq_self_eq_true s)) v
  | .index object subscript, _, _ =>
    (J.eval hu object).bind fun o => (J.eval hu subscript).bind fun i => J.setItem o i v
  | .slice object lower upper step, _, _ =>
    (J.eval hu object).bind fun o =>
      (J.evalSlice hu lower upper step).bind fun s => J.setSlice o v s
  | .tuple targets, hfree, htarget =>
    (J.unpack targets.length v).bind fun vs =>
      assignEach hu targets hfree (htarget.imp_right fun h => (Bool.and_eq_true_iff.mp h).2) vs
  | .list targets, hfree, htarget =>
    (J.unpack targets.length v).bind fun vs =>
      assignEach hu targets hfree (htarget.imp_right fun h => (Bool.and_eq_true_iff.mp h).2) vs
  | .literal _, _, htarget | .unary .., _, htarget | .binary .., _, htarget
  | .logic .., _, htarget | .compare .., _, htarget | .ifElse .., _, htarget
  | .call .., _, htarget | .method .., _, htarget => htarget.resolve_right nofun _

theorem assignEach (hu : J.Calls user user') : ∀ targets : List Expr,
    (∀ name, Expr.anyBinds name targets = true → J.Free name) →
    J.Lenient ∨ Expr.areTargets targets = true → ∀ vs : List Value,
    J.Holds id id (SortTrace.assignEach user targets (vs.map ρ.value))
      (SortTrace.assignEach user' targets (vs.map ρ'.value))
  | [], _, _, _ => J.pure ()
  | _ :: _, _, _, [] => J.pure ()
  | e :: es, hfree, htargets, v :: vs =>
    (assign hu v e (fun name h => hfree name (Bool.or_eq_true_iff.mpr (.inl h)))
      (htargets.imp_right fun h => (Bool.and_eq_true_iff.mp h).1)).bind fun _ =>
        assignEach hu es (fun name h => hfree name (Bool.or_eq_true_iff.mpr (.inr h)))
          (htargets.imp_right fun h => (Bool.and_eq_true_iff.mp h).2) vs

end

theorem assignAll (hu : J.Calls user user') (v : Value) : ∀ targets : List Expr,
    (∀ name, Expr.anyBinds name targets = true → J.Free name) →
    J.Lenient ∨ Expr.areTargets targets = true →
    J.Holds id id (SortTrace.assignAll user (ρ.value v) targets)
      (SortTrace.assignAll user' (ρ'.value v) targets)
  | [], _, _ => J.pure ()
  | e :: es, hfree, htargets =>
    (J.assign hu v e (fun name h => hfree name (Bool.or_eq_true_iff.mpr (.inl h)))
      (htargets.imp_right fun h => (Bool.and_eq_true_iff.mp h).1)).bind fun _ =>
        assignAll hu v es (fun name h => hfree name (Bool.or_eq_true_iff.mpr (.inr h)))
          (htargets.imp_right fun h => (Bool.and_eq_true_iff.mp h).2)

/-- Recodings of the same place are updated. -/
theorem update (hu : J.Calls user user') (target : Expr) (op : BinOp) (operand : Expr)
    (hfree : ∀ name, target.binds name = true → J.Free name)
    (hplace : J.Lenient ∨ target.isPlace = true) :
    J.Holds id id (SortTrace.update user target op operand)
      (SortTrace.update user' target op operand) := by
  have updated (v w : Value) :
      J.Values (Run.compute ((ρ.value v).updated op (ρ.value w)))
        (Run.compute ((ρ'.value v).updated op (ρ'.value w))) :=
    J.compute (Recoding.updated_computes op v w) (Recoding.updated_computes op v w)
  cases target with
  | name s =>
    refine (J.lookup s).bind fun current => (J.eval hu operand).bind fun w => ?_
    exact (updated current w).bind (J.bindName (hfree s (beq_self_eq_true s)))
  | index object subscript =>
    refine (J.eval hu object).bind fun o => (J.eval hu subscript).bind fun i => ?_
    refine (J.read (fun h => ρ.item_value h o i)
      fun h => ρ'.item_value h o i).bind fun current => ?_
    exact (J.eval hu operand).bind fun w => (updated current w).bind fun v => J.setItem o i v
  | slice object lower upper step =>
    refine (J.eval hu object).bind fun o => (J.evalSlice hu lower upper step).bind fun s => ?_
    refine (J.compute (Recoding.slice_computes o s) (Recoding.slice_computes o s)).bind
      fun current => ?_
    exact (J.eval hu operand).bind fun w => (updated current w).bind fun v => J.setSlice o v s
  | _ => exact hplace.resolve_right nofun _

end SortTrace.Judgement
