import SortTrace.Machine.Block
import SortTrace.Proofs.OneLine.Text

/-!
# Faults told on one line

A fault is told on one line if its message holds no newline (`Fault.OneLine`). Operations on values
fail so: their messages are made of the names of types and operators, of numbers and of quoted
texts. `ToldInLine` says it of what is computed at once, and `ComputesInLine` of what may change
lists.
-/

namespace SortTrace

open Script (BinOp UnaryOp CompareOp)

/-- The message of the fault is on one line. -/
def Fault.OneLine (e : Fault) : Prop :=
  Text.OneLine e.message

namespace Fault

variable {text : String}

theorem oneLine_syntaxError (h : Text.OneLine text) (line : Nat) :
    (syntaxError text line).OneLine :=
  .append (.append (.append h (.literal rfl)) (Text.oneLine_nat line)) (.literal rfl)

theorem oneLine_unboundName (h : Text.OneLine text) : (unboundName text).OneLine :=
  .framed h rfl rfl

theorem oneLine_recursion : recursion.OneLine :=
  .literal rfl

theorem oneLine_overflow : overflow.OneLine :=
  .literal rfl

theorem oneLine_oversize (items : Nat) : (oversize items).OneLine :=
  .framed (Text.oneLine_nat items) rfl rfl

theorem oneLine_timeout (seconds : Nat) : (timeout seconds).OneLine :=
  .framed (Text.oneLine_nat seconds) rfl rfl

theorem oneLine_output (h : Text.OneLine text) : (output text).OneLine :=
  .append (.literal rfl) h

theorem oneLine_arguments (n : Nat) : Text.OneLine (arguments n) := by
  rw [arguments]
  split
  · exact .literal rfl
  · exact .literal rfl

end Fault

/-! ## Outcomes -/

/-- A fault, where there is no result, is told on one line. -/
def ToldInLine {α : Type} (x : Except Fault α) : Prop :=
  ∀ e, x = .error e → e.OneLine

namespace ToldInLine

variable {α β : Type} {x : Except Fault α} {t : α → Except Fault β}

theorem ok (a : α) : ToldInLine (.ok a) := nofun

theorem error {e : Fault} (h : e.OneLine) : ToldInLine (.error e : Except Fault α) := by
  rintro _ ⟨⟩
  exact h

theorem bind (hx : ToldInLine x) (ht : ∀ a, ToldInLine (t a)) : ToldInLine (x >>= t) := by
  cases x with
  | ok a => exact ht a
  | error e => exact .error (hx e rfl)

theorem map (f : α → β) (hx : ToldInLine x) : ToldInLine (f <$> x) := by
  cases x with
  | ok a => exact .ok (f a)
  | error e => exact .error (hx e rfl)

theorem ite {c : Prop} [Decidable c] {y : Except Fault α} (hx : c → ToldInLine x)
    (hy : ¬c → ToldInLine y) : ToldInLine (if c then x else y) := by
  split
  · exact hx ‹_›
  · exact hy ‹_›

theorem mapM (ht : ∀ a, ToldInLine (t a)) (items : List α) : ToldInLine (items.mapM t) := by
  induction items with
  | nil => exact .ok []
  | cons a items ih =>
    rw [List.mapM_cons]
    exact (ht a).bind fun b => ih.bind fun bs => .ok (b :: bs)

end ToldInLine

/-- A fault, where the computation ends without a result, is told on one line. -/
def ComputesInLine {α : Type} (c : Compute α) : Prop :=
  ∀ h e h₁, c h = .error e h₁ → e.OneLine

namespace ComputesInLine

variable {α β : Type} {c : Compute α} {t : α → Compute β}

theorem pure (a : α) : ComputesInLine (Pure.pure a) := nofun

theorem throw {e : Fault} (h : e.OneLine) : ComputesInLine (throw e : Compute α) := by
  rintro _ _ _ ⟨⟩
  exact h

theorem bind (hc : ComputesInLine c) (ht : ∀ a, ComputesInLine (t a)) :
    ComputesInLine (c >>= t) := by
  intro h e h₁ failed
  change EStateM.bind c t h = _ at failed
  rw [EStateM.bind] at failed
  cases hch : c h with
  | ok a h₂ =>
    rw [hch] at failed
    exact ht a h₂ e h₁ failed
  | error e' h₂ =>
    rw [hch] at failed
    cases failed
    exact hc h e h₁ hch

theorem map (f : α → β) (hc : ComputesInLine c) : ComputesInLine (f <$> c) := by
  rw [map_eq_pure_bind]
  exact hc.bind fun a => pure (f a)

theorem of {x : Except Fault α} (hx : ToldInLine x) : ComputesInLine (Compute.of x) := by
  cases x with
  | ok a => exact pure a
  | error e => exact throw (hx e rfl)

theorem get : ComputesInLine (MonadState.get : Compute Heap) := nofun

theorem read {f : Heap → Except Fault α} (hf : ∀ h, ToldInLine (f h)) :
    ComputesInLine (Compute.read f) :=
  get.bind fun h => of (hf h)

theorem modify (f : Heap → Heap) : ComputesInLine (modify f : Compute Unit) := nofun

theorem newList (items : Array Value) : ComputesInLine (Compute.newList items) := nofun

theorem newTuple (items : List Value) : ComputesInLine (Compute.newTuple items) := nofun

theorem mapM (ht : ∀ a, ComputesInLine (t a)) (items : List α) :
    ComputesInLine (items.mapM t) := by
  induction items with
  | nil => exact pure []
  | cons a items ih =>
    rw [List.mapM_cons]
    exact (ht a).bind fun b => ih.bind fun bs => pure (b :: bs)

end ComputesInLine

/-! ## Names of types and operators -/

theorem Value.oneLine_typeName (v : Value) : Text.OneLine v.typeName := by
  cases v <;> exact .literal rfl

theorem Script.BinOp.oneLine_symbol (op : BinOp) : Text.OneLine op.symbol := by
  cases op <;> exact .literal rfl

theorem Script.CompareOp.oneLine_symbol (op : CompareOp) : Text.OneLine op.symbol := by
  cases op <;> exact .literal rfl

/-! ## Arithmetic -/

namespace Arithmetic

open Fault

variable (a b : Int64) (x y : Float)

theorem narrow_inLine (n : Int) : ToldInLine (narrow n) :=
  .ite (fun _ => .ok _) fun _ => .error oneLine_overflow

theorem divided_inLine (result : Int64) : ToldInLine (divided a b result) :=
  .ite (fun _ => .error oneLine_overflow) fun _ => .ok _

theorem floorQuotient_inLine : ToldInLine (floorQuotient a b) :=
  .ite (fun _ => .error (.literal rfl)) fun _ => (divided_inLine a b _).bind fun _ => .ok _

theorem floorRemainder_inLine : ToldInLine (floorRemainder a b) :=
  .ite (fun _ => .error (.literal rfl)) fun _ => (divided_inLine a b _).bind fun _ => .ok _

theorem power_inLine : ToldInLine (power a b) :=
  .ite (fun _ => .error oneLine_overflow) fun _ => .ite (fun _ => narrow_inLine _) fun _ =>
    .ite (fun _ => .error oneLine_overflow) fun _ => narrow_inLine _

theorem shiftLeft_inLine : ToldInLine (shiftLeft a b) :=
  .ite (fun _ => .error (.literal rfl)) fun _ => .ite (fun _ => .ok _) fun _ =>
    .ite (fun _ => .error oneLine_overflow) fun _ => narrow_inLine _

theorem shiftRight_inLine : ToldInLine (shiftRight a b) :=
  .ite (fun _ => .error (.literal rfl)) fun _ => .ite (fun _ => .ok _) fun _ => .ok _

theorem integers_inLine (op : BinOp) : ToldInLine (integers op a b) := by
  cases op with
  | add | sub | mul => exact (narrow_inLine _).map _
  | div => exact .ite (fun _ => .error (.literal rfl)) fun _ => .ok _
  | floorDiv => exact (floorQuotient_inLine a b).map _
  | mod => exact (floorRemainder_inLine a b).map _
  | pow =>
    refine .ite (fun _ => ?_) fun _ => (power_inLine a b).map _
    exact .ite (fun _ => .error (.literal rfl)) fun _ => .ok _
  | bitAnd | bitOr | bitXor => exact .ok _
  | shiftLeft => exact (shiftLeft_inLine a b).map _
  | shiftRight => exact (shiftRight_inLine a b).map _

theorem reals_inLine {unsupported : Fault} (h : unsupported.OneLine) (op : BinOp) :
    ToldInLine (reals unsupported op x y) := by
  cases op with
  | add | sub | mul => exact .ok _
  | div | floorDiv | mod | pow => exact .ite (fun _ => .error (.literal rfl)) fun _ => .ok _
  | _ => exact .error h

theorem truncate_inLine : ToldInLine (truncate x) :=
  .ite (fun _ => .error (.literal rfl)) fun _ =>
    .ite (fun _ => .error oneLine_overflow) fun _ => .ok _

end Arithmetic

/-! ## Operators -/

namespace Compute

theorem read_apply {α : Type} (f : Heap → Except Fault α) (h : Heap) :
    read f h = match f h with
      | .ok a => .ok a h
      | .error e => .error e h := by
  change of (f h) h = _
  cases f h <;> rfl

theorem fits_inLine (length : Nat) : ToldInLine (fits length) :=
  .ite (fun _ => .ok _) fun _ => .error (Fault.oneLine_oversize length)

end Compute

theorem Heap.iterate_inLine (h : Heap) (v : Value) : ToldInLine (h.iterate v) := by
  cases v with
  | list | tuple | str => exact .ok _
  | range s => exact (Compute.fits_inLine s.length).bind fun _ => .ok _
  | _ => exact .error (.framed (Value.oneLine_typeName _) rfl rfl)

namespace Value

open Fault

variable (h : Heap) (v w : Value)

theorem oneLine_badUnary {operator : String} (ho : Text.OneLine operator) :
    (badUnary operator v.typeName).OneLine :=
  .append (.append (.framed ho rfl rfl) v.oneLine_typeName) (.literal rfl)

theorem oneLine_unsupported (op : BinOp) : (unsupported op v w).OneLine :=
  .append (.append (.append (.append (.framed op.oneLine_symbol rfl rfl) v.oneLine_typeName)
    (.literal rfl)) w.oneLine_typeName) (.literal rfl)

theorem negate_inLine : ToldInLine v.negate := by
  unfold negate
  split
  · exact .ok _
  · split
    · exact (Arithmetic.narrow_inLine _).map _
    · exact .error (oneLine_badUnary _ (.literal rfl))

theorem keep_inLine : ToldInLine v.keep := by
  unfold keep
  split
  · exact .ok _
  · split
    · exact .ok _
    · exact .error (oneLine_badUnary _ (.literal rfl))

theorem invert_inLine : ToldInLine v.invert := by
  unfold invert
  split
  · exact .ok _
  · exact .error (oneLine_badUnary _ (.literal rfl))

theorem unary_inLine (op : UnaryOp) : ToldInLine (v.unary h op) := by
  cases op with
  | negate => exact v.negate_inLine
  | keep => exact v.keep_inLine
  | invert => exact v.invert_inLine
  | not => exact .ok _

theorem repeatFits_inLine (length : Nat) (n : Int64) : ToldInLine (repeatFits length n) :=
  .ite (fun _ => .error oneLine_overflow) fun _ => Compute.fits_inLine _

theorem repeated_inLine {unsupported : Fault} (hu : unsupported.OneLine) (n : Int64) :
    ComputesInLine (repeated unsupported v n) := by
  have items (items : Array Value) : ToldInLine (repeatItems items n) :=
    (repeatFits_inLine _ n).bind fun _ => .ok _
  cases v with
  | list place => exact .bind (.read fun h => items _) fun _ => .newList _
  | tuple _ vs => exact .bind (.of (items _)) fun _ => .newTuple _
  | str s => exact .map _ (.of ((repeatFits_inLine _ n).bind fun _ => .ok _))
  | _ => exact .throw hu

theorem joined_inLine : ComputesInLine (joined v w) := by
  have unjoined {sequence : String} (hs : Text.OneLine sequence) :
      (badConcatenation sequence w.typeName).OneLine :=
    .append (.append (.append (.framed hs rfl rfl) w.oneLine_typeName) (.literal rfl)) hs
  unfold joined
  split
  · exact .pure _
  · exact .throw (unjoined (.literal rfl))
  · exact .bind .get fun _ => .newList _
  · exact .throw (unjoined (.literal rfl))
  · exact .newTuple _
  · exact .throw (oneLine_unsupported v w .add)

theorem sequences_inLine (op : BinOp) : ComputesInLine (sequences op v w) := by
  have refused : (unsupported op v w).OneLine := oneLine_unsupported v w op
  unfold sequences
  split
  · exact joined_inLine v w
  · split
    · exact repeated_inLine _ refused _
    · exact repeated_inLine _ refused _
    · exact .throw refused
  · exact .throw refused

theorem binary_inLine (op : BinOp) : ComputesInLine (binary op v w) := by
  unfold binary
  split
  · exact .of (Arithmetic.integers_inLine _ _ op)
  · split
    · exact .map _ (.of (Arithmetic.reals_inLine _ _ (oneLine_unsupported v w op) op))
    · exact sequences_inLine v w op

theorem updated_inLine (op : BinOp) : ComputesInLine (updated op v w) := by
  unfold updated
  split
  · exact .bind (.read fun h => h.iterate_inLine w) fun _ => .bind (.modify _) fun _ => .pure _
  · split
    · refine .bind (.read fun h => ?_) fun _ => .bind (.modify _) fun _ => .pure _
      exact (repeatFits_inLine _ _).bind fun _ => .ok _
    · exact binary_inLine _ _ _
  · exact binary_inLine _ _ _

/-! ## Comparisons -/

theorem oneLine_unorderable {op : String} (ho : Text.OneLine op) :
    (unorderable op v.typeName w.typeName).OneLine :=
  .append (.append (.append (.append (.framed ho rfl rfl) v.oneLine_typeName) (.literal rfl))
    w.oneLine_typeName) (.literal rfl)

section OrderWith

variable {op : String} {same : Value → Value → Bool}
  {lists : Nat → Nat → Except Fault Ordering}

mutual

theorem orderWith_inLine (ho : Text.OneLine op) (hl : ∀ i j, ToldInLine (lists i j)) :
    ∀ v w : Value, ToldInLine (orderWith same lists op v w)
  | v, w => by
    unfold orderWith
    split
    · exact .ok _
    · exact hl _ _
    · next vs _ ws => exact orderAllWith_inLine ho hl vs ws
    · split
      · exact .ok _
      · exact .error (oneLine_unorderable _ _ ho)

theorem orderAllWith_inLine (ho : Text.OneLine op) (hl : ∀ i j, ToldInLine (lists i j)) :
    ∀ vs ws : List Value, ToldInLine (orderAllWith same lists op vs ws)
  | [], [] => .ok _
  | [], _ :: _ => .ok _
  | _ :: _, [] => .ok _
  | v :: vs, w :: ws =>
    .ite (fun _ => orderAllWith_inLine ho hl vs ws) fun _ => orderWith_inLine ho hl v w

end

end OrderWith

theorem order_inLine {op : String} (ho : Text.OneLine op) : ToldInLine (order h op v w) := by
  have lists (fuel : Nat) : ∀ i j, ToldInLine (orderLists h op fuel i j) := by
    induction fuel with
    | zero => exact fun _ _ => .ok _
    | succ fuel ih => exact fun _ _ => orderAllWith_inLine ho ih _ _
  exact orderWith_inLine ho (lists _) v w

theorem contains_inLine : ToldInLine (contains h v w) := by
  unfold contains
  split
  · exact .ok _
  · exact .ok _
  · split
    · exact .ok _
    · exact .error (.append (.literal rfl) (oneLine_typeName _))
  · exact .ok _
  · exact .error (.framed (oneLine_typeName _) rfl rfl)

theorem compare_inLine (op : CompareOp) : ToldInLine (compare h op v w) := by
  have ordered (wanted : Ordering → Bool) : ToldInLine (ordered h op wanted v w) :=
    .ite (fun _ => .ok _) fun _ => (order_inLine h v w op.oneLine_symbol).map _
  cases op with
  | lt | le | gt | ge => exact ordered _
  | member => exact contains_inLine h w v
  | notMember => exact (contains_inLine h w v).map _
  | _ => exact .ok _

/-! ## Subscripts -/

theorem oneLine_badSubscript {container : String} (hc : Text.OneLine container) :
    (badSubscript container v.typeName).OneLine :=
  .append (.append hc (.literal rfl)) v.oneLine_typeName

theorem item_inLine (object subscript : Value) : ToldInLine (item h object subscript) := by
  cases object with
  | list | tuple | range =>
    simp only [item]
    split
    · exact .error (oneLine_badSubscript _ (.literal rfl))
    · split
      · exact .ok _
      · exact .error (.append (.literal rfl) (.literal rfl))
  | str =>
    simp only [item]
    split
    · exact .error (.framed (oneLine_typeName _) rfl rfl)
    · split
      · exact .ok _
      · exact .error (.append (.literal rfl) (.literal rfl))
  | _ => exact .error (.framed (oneLine_typeName _) rfl rfl)

theorem slice_inLine (object : Value) (s : Slice) : ComputesInLine (slice object s) := by
  unfold slice
  split
  · exact .throw (.literal rfl)
  · split
    · exact .bind .get fun _ => .newList _
    · exact .newTuple _
    · exact .pure _
    · exact .bind (.read fun h => h.iterate_inLine _) fun _ => .newList _
    · exact .throw (.framed (oneLine_typeName _) rfl rfl)

theorem setItem_inLine (object subscript : Value) :
    ComputesInLine (setItem object subscript v) := by
  unfold setItem
  split
  · split
    · exact .throw (oneLine_badSubscript _ (.literal rfl))
    · refine .bind .get fun _ => ?_
      split
      · exact .modify _
      · exact .throw (.literal rfl)
  · exact .throw (.framed (oneLine_typeName _) rfl rfl)

theorem spliced_inLine (items replacement : Array Value) (s : Slice) :
    ToldInLine (spliced items s replacement) := by
  refine .ite (fun _ => .error (.literal rfl)) fun _ => .ite (fun _ => .ok _) fun _ => ?_
  refine .ite (fun _ => .ok _) fun _ => .error ?_
  exact .append (.framed (Text.oneLine_nat _) rfl rfl) (Text.oneLine_nat _)

theorem setSlice_inLine (object : Value) (s : Slice) : ComputesInLine (setSlice object s v) := by
  unfold setSlice
  split
  · exact .bind (.read fun h => h.iterate_inLine v) fun _ =>
      .bind (.read fun h => spliced_inLine _ _ s) fun _ => .modify _
  · exact .throw (.framed (oneLine_typeName _) rfl rfl)

/-! ## Documents -/

section Documents

variable {lists : Nat → Except Fault Report.Json}

mutual

theorem jsonWith_inLine (hl : ∀ place, ToldInLine (lists place)) :
    ∀ v : Value, ToldInLine (jsonWith lists v)
  | .none | .bool _ | .int _ | .float _ | .str _ => .ok _
  | .list place => hl place
  | .tuple _ items => (jsonsWith_inLine hl items).map _
  | .range _ | .function .. | .builtin _ => .error (.framed (oneLine_typeName _) rfl rfl)

theorem jsonsWith_inLine (hl : ∀ place, ToldInLine (lists place)) :
    ∀ vs : List Value, ToldInLine (jsonsWith lists vs)
  | [] => .ok _
  | v :: vs => (jsonWith_inLine hl v).bind fun _ => (jsonsWith_inLine hl vs).bind fun _ => .ok _

end

end Documents

theorem toJson_inLine : ToldInLine (v.toJson h) := by
  have lists (fuel : Nat) : ∀ outer place, ToldInLine (listJson h fuel outer place) := by
    induction fuel with
    | zero => exact fun _ _ => .error (.literal rfl)
    | succ fuel ih =>
      refine fun outer place => .ite (fun _ => .error (.literal rfl)) fun _ => ?_
      exact (ToldInLine.mapM (jsonWith_inLine (ih _)) _).map _
  exact jsonWith_inLine (lists _ _) v

end Value

end SortTrace
