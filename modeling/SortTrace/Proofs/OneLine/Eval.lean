import SortTrace.Proofs.Judgement.Block
import SortTrace.Proofs.OneLine.Steps

/-!
# Programs that fail on one line

Where all names of a program are on one line, its run ends neatly: so do expressions, assignments
and statements, if calls to the functions of the script do (`Neatly.block`), and therefore calls
themselves (`Neatly.userCall`) and programs (`Neatly.runProgram`).
-/

namespace SortTrace

open Recoding (neat)
open Script (Expr BinOp CompareOp Stmt FunctionDef)

namespace Neatly

/-- Calls of neat functions end neatly. -/
def Calls (user : UserCall) : Prop :=
  ∀ (d : FunctionDef) (defaults args : List Value) (keywords : Keywords), d.Neat →
    Value.AllNeat defaults → Value.AllNeat args → keywords.Neat →
    Neatly Value.Neat (user d defaults args keywords)

section Eval

variable {user : UserCall} (hu : Calls user)

include hu

theorem applyTo : Applies (SortTrace.applyTo user) := by
  intro f v hf hv
  have args : Value.AllNeat [v] := Value.allNeat_cons.mpr ⟨hv, rfl⟩
  cases f with
  | builtin b => exact builtin (fun _ _ _ h => pure h) args .nil b
  | function _ d defaults =>
    obtain ⟨hd, hdefaults⟩ := Value.neat_function.mp hf
    exact hu d defaults [v] [] hd hdefaults args .nil
  | _ => exact fault (.framed (Value.oneLine_typeName _) rfl rfl)

theorem call {f : Value} {args : List Value} {keywords : Keywords} (hf : f.Neat)
    (hargs : Value.AllNeat args) (hk : keywords.Neat) :
    Neatly Value.Neat (SortTrace.call user f args keywords) := by
  cases f with
  | builtin b => exact builtin (applyTo hu) hargs hk b
  | function _ d defaults =>
    obtain ⟨hd, hdefaults⟩ := Value.neat_function.mp hf
    exact hu d defaults args keywords hd hdefaults hargs hk
  | _ => exact fault (.framed (Value.oneLine_typeName _) rfl rfl)

end Eval

theorem sliceBound_inLine (v : Value) : ToldInLine (sliceBound v) := by
  unfold sliceBound
  split
  · exact .ok _
  · split
    · exact .ok _
    · exact .error (.literal rfl)

section Eval

variable {user : UserCall}

mutual

/-- An expression whose names are on one line has a neat value. -/
theorem eval (hu : Calls user) : ∀ e : Expr, e.Names Text.OneLine →
    Neatly Value.Neat (SortTrace.eval user e)
  | .literal v, _ => pure (neat.value_ofLiteral v)
  | .name s, h => lookup h
  | .list items, h =>
    (evalAll hu items h).bind fun _ hvs => newList (Value.itemsNeat_toArray.mpr hvs)
  | .tuple items, h => (evalAll hu items h).bind fun _ hvs => newTuple hvs
  | .unary op operand, h =>
    (eval hu operand h).bind fun v hv =>
      read (fun i hi => by simpa only [hi, hv] using neat.unary_value i op v)
        fun i _ => v.unary_inLine i op
  | .binary op left right, h =>
    (eval hu left h.1).bind fun v hv => (eval hu right h.2).bind fun w hw =>
      compute (Recoding.binary_computes op v w) (by rw [hv, hw]) (v.binary_inLine w op)
  | .logic op left right, h => by
    refine (eval hu left h.1).bind fun v hv => (look _).bind fun holds _ => ?_
    cases op <;> cases holds
    · exact pure hv
    · exact eval hu right h.2
    · exact eval hu right h.2
    · exact pure hv
  | .compare first rest, h => (eval hu first h.1).bind fun v _ => evalLinks hu v rest h.2
  | .ifElse condition yes no, h => by
    refine (eval hu condition h.1).bind fun v hv => (look _).bind fun holds _ => ?_
    cases holds
    · exact eval hu no h.2.2
    · exact eval hu yes h.2.1
  | .index object subscript, h =>
    (eval hu object h.1).bind fun v hv => (eval hu subscript h.2).bind fun i hi =>
      read (fun k hk => by simpa only [hk, hv, hi] using neat.item_value k v i)
        fun k _ => Value.item_inLine k v i
  | .slice object lower upper step, h =>
    (eval hu object h.1).bind fun v hv => (evalBound hu lower h.2.1).bind fun lower _ =>
      (evalBound hu upper h.2.2.1).bind fun upper _ =>
        (evalBound hu step h.2.2.2).bind fun step _ =>
          compute (Recoding.slice_computes v ⟨lower, upper, step⟩) (by rw [hv])
            (Value.slice_inLine v _)
  | .call function args keywords, h =>
    (eval hu function h.1).bind fun f hf => (evalAll hu args h.2.1).bind fun vs hvs =>
      (evalKeywords hu keywords h.2.2).bind fun ks hks => call hu hf hvs hks
  | .method object name args keywords, h =>
    (eval hu object h.1).bind fun v _ => (evalAll hu args h.2.2.1).bind fun vs hvs =>
      (evalKeywords hu keywords h.2.2.2).bind fun ks hks =>
        method (applyTo hu) hvs hks h.2.1

theorem evalAll (hu : Calls user) : ∀ es : List Expr, Expr.AllNames Text.OneLine es →
    Neatly Value.AllNeat (SortTrace.evalAll user es)
  | [], _ => pure rfl
  | e :: es, h =>
    (eval hu e h.1).bind fun _ hv => (evalAll hu es h.2).bind fun _ hvs =>
      pure (Value.allNeat_cons.mpr ⟨hv, hvs⟩)

theorem evalKeywords (hu : Calls user) : ∀ keywords : List (String × Expr),
    Expr.KeywordNames Text.OneLine keywords →
    Neatly Keywords.Neat (SortTrace.evalKeywords user keywords)
  | [], _ => pure .nil
  | (_, e) :: rest, h =>
    (eval hu e h.2.1).bind fun _ hv => (evalKeywords hu rest h.2.2).bind fun _ hvs =>
      pure (hvs.cons h.1 hv)

theorem evalLinks (hu : Calls user) (v : Value) : ∀ rest : List (CompareOp × Expr),
    Expr.LinkNames Text.OneLine rest → Neatly Value.Neat (SortTrace.evalLinks user v rest)
  | [], _ => pure rfl
  | (op, e) :: rest, h => by
    refine (eval hu e h.1).bind fun w _ => ?_
    refine (plainRead fun i => v.compare_inLine i w op).bind fun holds _ => ?_
    cases holds
    · exact pure rfl
    · exact evalLinks hu w rest h.2

theorem evalBound (hu : Calls user) : ∀ bound : Option Expr, Expr.BoundNames Text.OneLine bound →
    Neatly (fun _ => True) (SortTrace.evalBound user bound)
  | none, _ => pure trivial
  | some e, h => (eval hu e h).bind fun v _ => plain (sliceBound_inLine v)

end

theorem holds (hu : Calls user) {e : Expr} (h : e.Names Text.OneLine) :
    Neatly (fun _ => True) (SortTrace.holds user e) :=
  (eval hu e h).bind fun _ _ => look _

theorem evalSlice (hu : Calls user) {lower upper step : Option Expr}
    (hl : Expr.BoundNames Text.OneLine lower) (hup : Expr.BoundNames Text.OneLine upper)
    (hs : Expr.BoundNames Text.OneLine step) :
    Neatly (fun _ => True) (SortTrace.evalSlice user lower upper step) :=
  (evalBound hu lower hl).bind fun _ _ => (evalBound hu upper hup).bind fun _ _ =>
    (evalBound hu step hs).bind fun _ _ => pure trivial

/-! ## Assignments -/

theorem unpack (count : Nat) {v : Value} (hv : v.Neat) :
    Neatly Value.AllNeat (SortTrace.unpack count v) := by
  refine (iterate hv).bind fun items hitems => ?_
  refine .ite (fun _ => ?_) fun _ => .ite (fun _ => ?_) fun _ => ?_
  · exact fault (.framed (Text.oneLine_nat _) rfl rfl)
  · exact fault (.append (.append (.framed (Text.oneLine_nat _) rfl rfl) (Text.oneLine_nat _))
      (.literal rfl))
  · exact pure (Value.allNeat_toList.mpr hitems)

theorem misplaced {message : String} (h : Text.OneLine message) :
    Neatly (fun _ => True) (SortTrace.misplaced message : Run Unit) :=
  line.bind fun n _ => fault (Fault.oneLine_syntaxError h n)

theorem setItem {object subscript v : Value} (ho : object.Neat) (hs : subscript.Neat)
    (hv : v.Neat) : Neatly (fun _ => True) (Run.compute (object.setItem subscript v)) :=
  (compute (Recoding.setItem_computes object subscript v) (by rw [ho, hs, hv])
    (Value.setItem_inLine v object subscript)).weaken fun _ _ => trivial

theorem setSlice {object v : Value} (ho : object.Neat) (hv : v.Neat) (s : Slice) :
    Neatly (fun _ => True) (Run.compute (object.setSlice s v)) :=
  (compute (Recoding.setSlice_computes object s v) (by rw [ho, hv])
    (Value.setSlice_inLine v object s)).weaken fun _ _ => trivial

mutual

/-- A neat value is assigned to a target. -/
theorem assign (hu : Calls user) {v : Value} (hv : v.Neat) : ∀ target : Expr,
    target.Names Text.OneLine → Neatly (fun _ => True) (SortTrace.assign user target v)
  | .name s, _ => bindName s hv
  | .index object subscript, h =>
    (eval hu object h.1).bind fun _ ho => (eval hu subscript h.2).bind fun _ hi =>
      setItem ho hi hv
  | .slice object _ _ _, h =>
    (eval hu object h.1).bind fun _ ho =>
      (evalSlice hu h.2.1 h.2.2.1 h.2.2.2).bind fun s _ => setSlice ho hv s
  | .tuple targets, h | .list targets, h =>
    (unpack targets.length hv).bind fun vs hvs => assignEach hu targets h vs hvs
  | .literal _, _ | .unary .., _ | .binary .., _ | .logic .., _ | .compare .., _ | .ifElse .., _
  | .call .., _ | .method .., _ => misplaced (.literal rfl)

theorem assignEach (hu : Calls user) : ∀ targets : List Expr, Expr.AllNames Text.OneLine targets →
    ∀ vs : List Value, Value.AllNeat vs →
    Neatly (fun _ => True) (SortTrace.assignEach user targets vs)
  | [], _, _, _ => pure trivial
  | _ :: _, _, [], _ => pure trivial
  | e :: es, h, v :: vs, hvs => by
    obtain ⟨hv, hvs⟩ := Value.allNeat_cons.mp hvs
    exact (assign hu hv e h.1).bind fun _ _ => assignEach hu es h.2 vs hvs

end

theorem assignAll (hu : Calls user) {v : Value} (hv : v.Neat) : ∀ targets : List Expr,
    Expr.AllNames Text.OneLine targets →
    Neatly (fun _ => True) (SortTrace.assignAll user v targets)
  | [], _ => pure trivial
  | e :: es, h => (assign hu hv e h.1).bind fun _ _ => assignAll hu hv es h.2

theorem update (hu : Calls user) {target operand : Expr} (ht : target.Names Text.OneLine)
    (ho : operand.Names Text.OneLine) (op : BinOp) :
    Neatly (fun _ => True) (SortTrace.update user target op operand) := by
  have updated {v w : Value} (hv : v.Neat) (hw : w.Neat) :
      Neatly Value.Neat (Run.compute (v.updated op w)) :=
    compute (Recoding.updated_computes op v w) (by rw [hv, hw]) (v.updated_inLine w op)
  cases target with
  | name s =>
    refine (lookup ht).bind fun current hcurrent => (eval hu operand ho).bind fun w hw => ?_
    exact (updated hcurrent hw).bind fun _ hv => bindName s hv
  | index object subscript =>
    refine (eval hu object ht.1).bind fun o hobject => (eval hu subscript ht.2).bind fun i hi => ?_
    refine Neatly.bind (p := Value.Neat) (read (fun h hh => ?_) fun h _ => Value.item_inLine h o i)
      fun current hcurrent => ?_
    · simpa only [hh, hobject, hi] using neat.item_value h o i
    · exact (eval hu operand ho).bind fun w hw => (updated hcurrent hw).bind fun v hv =>
        setItem hobject hi hv
  | slice object lower upper step =>
    refine (eval hu object ht.1).bind fun o hobject =>
      (evalSlice hu ht.2.1 ht.2.2.1 ht.2.2.2).bind fun s _ => ?_
    refine (compute (Recoding.slice_computes o s) (by rw [hobject])
      (Value.slice_inLine o s)).bind fun current hcurrent => ?_
    exact (eval hu operand ho).bind fun w hw => (updated hcurrent hw).bind fun v hv =>
      setSlice hobject hv s
  | _ => exact misplaced (.literal rfl)

end Eval

end Neatly

end SortTrace
