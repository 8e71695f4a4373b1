import SortTrace.Machine.Eval
import SortTrace.Proofs.Refusals
import SortTrace.Proofs.Runs

/-!
# Expressions that call nothing

An expression in which no function and no method is called has no effect (`callFree_untouched`):
scopes and frames, the lists there are, the session, the line and the number of ticks are as before,
whether it has a value or stops at a fault. What an expression does make are new lists and tuples.

Expressions work on lists through a few operations that other statements use as well, to change
lists. So this is asked of each operation by itself: it leads from a heap only to heaps that keep
the lists there were (`Respects Heap.Kept`), and a run that is put together from such operations
leads only to machines that are untouched.
-/

namespace SortTrace

open Script (Expr BinOp CompareOp)

/-! ## Computations that respect a relation -/

section Respects

variable {ε σ α β : Type}

/-- A computation leads from a state only to states in the relation with it, whether it ends or
fails. -/
class Respects (R : σ → σ → Prop) (c : EStateM ε σ α) : Prop where
  ok : ∀ {s : σ} {a : α} {s' : σ}, c s = .ok a s' → R s s'
  error : ∀ {s : σ} {e : ε} {s' : σ}, c s = .error e s' → R s s'

variable {R : σ → σ → Prop} {c : EStateM ε σ α} {t : α → EStateM ε σ β}

/-- A computation that changes nothing respects every reflexive relation. -/
theorem Respects.ofSame (refl : ∀ s, R s s) [looks : OnlyLooks c] [fails : FailsFirst c] :
    Respects R c where
  ok h := looks.kept h ▸ refl _
  error h := fails.kept h ▸ refl _

theorem Respects.bind (trans : ∀ {s s₁ s₂}, R s s₁ → R s₁ s₂ → R s s₂) (hc : Respects R c)
    (ht : ∀ a, Respects R (t a)) : Respects R (c >>= t) where
  ok {s b s₂} h := by
    rw [estate_bind] at h
    split at h
    · next a s₁ first => exact trans (hc.ok first) ((ht a).ok h)
    · cases h
  error {s e s₂} h := by
    rw [estate_bind] at h
    split at h
    · next a s₁ first => exact trans (hc.ok first) ((ht a).error h)
    · next e₁ s₁ first =>
      cases h
      exact hc.error first

end Respects

/-! ## Operations on lists -/

namespace Compute

variable {α β : Type}

instance (c : Compute α) [OnlyLooks c] [FailsFirst c] : Respects Heap.Kept c :=
  .ofSame Heap.Kept.refl

instance {c : Compute α} {t : α → Compute β} [hc : Respects Heap.Kept c]
    [ht : ∀ a, Respects Heap.Kept (t a)] : Respects Heap.Kept (c >>= t) :=
  hc.bind Heap.Kept.trans ht

instance (f : α → β) (c : Compute α) [Respects Heap.Kept c] : Respects Heap.Kept (f <$> c) := by
  rw [map_eq_pure_bind]
  infer_instance

instance (items : Array Value) : Respects Heap.Kept (newList items) where
  ok h := by
    cases h
    exact .insert ..
  error h := by cases h

instance (items : List Value) : Respects Heap.Kept (newTuple items) where
  ok h := by
    cases h
    exact .mark _
  error h := by cases h

end Compute

namespace Value

instance (unsupported : Fault) (v : Value) (n : Int64) :
    Respects Heap.Kept (repeated unsupported v n) := by
  unfold repeated
  split <;> infer_instance

instance (v w : Value) : Respects Heap.Kept (joined v w) := by
  unfold joined
  split <;> infer_instance

instance (op : BinOp) (v w : Value) : Respects Heap.Kept (sequences op v w) := by
  unfold sequences
  split
  · infer_instance
  · split <;> infer_instance
  · infer_instance

instance (op : BinOp) (v w : Value) : Respects Heap.Kept (binary op v w) := by
  unfold binary
  split
  · infer_instance
  · split <;> infer_instance

instance (object : Value) (s : Slice) : Respects Heap.Kept (slice object s) := by
  unfold slice
  split
  · infer_instance
  · split <;> infer_instance

end Value

/-! ## Runs -/

/-- A run that touches nothing. -/
abbrev Touchless {α : Type} (r : Run α) : Prop := Respects Machine.Untouched r

namespace Touchless

variable {α β : Type} {r : Run α} {t : α → Run β}

theorem bind (hr : Touchless r) (ht : ∀ a, Touchless (t a)) : Touchless (r >>= t) :=
  Respects.bind Machine.Untouched.trans hr ht

theorem same (r : Run α) [OnlyLooks r] [FailsFirst r] : Touchless r :=
  .ofSame Machine.Untouched.refl

theorem compute (c : Compute α) [hc : Respects Heap.Kept c] : Touchless (Run.compute c) where
  ok {m a m'} h := by
    unfold Run.compute at h
    dsimp only at h
    split at h
    · next b heap made =>
      cases h
      exact .heap m (hc.ok made)
    · cases h
  error {m e m'} h := by
    unfold Run.compute at h
    dsimp only at h
    split at h
    · cases h
    · next f heap failed =>
      cases h
      exact .heap m (hc.error failed)

theorem lookup (name : String) : Touchless (Run.lookup name) := by
  refine .bind (.same get) fun m => ?_
  split
  · exact .same _
  · split <;> exact .same _

theorem left (hr : Touchless r) (m : Machine) : m.Untouched (leftBy (r m)) := by
  cases h : r m with
  | ok a m' => exact hr.ok h
  | error e m' => exact hr.error h

end Touchless

/-! ## Expressions -/

mutual

/-- Does the expression contain no call of a function or of a method? -/
def Script.Expr.callFree : Expr → Bool
  | .literal _ | .name _ => true
  | .list items | .tuple items => Expr.allCallFree items
  | .unary _ operand => operand.callFree
  | .binary _ left right | .logic _ left right => left.callFree && right.callFree
  | .compare first rest => first.callFree && Expr.linksCallFree rest
  | .ifElse condition yes no => condition.callFree && yes.callFree && no.callFree
  | .index object subscript => object.callFree && subscript.callFree
  | .slice object lower upper step =>
    object.callFree && Expr.boundCallFree lower && Expr.boundCallFree upper
      && Expr.boundCallFree step
  | .call .. | .method .. => false

/-- Do all the expressions contain no call? -/
def Script.Expr.allCallFree : List Expr → Bool
  | [] => true
  | e :: es => e.callFree && Expr.allCallFree es

/-- Do the operands of a chain of comparisons contain no call? -/
def Script.Expr.linksCallFree : List (CompareOp × Expr) → Bool
  | [] => true
  | (_, e) :: rest => e.callFree && Expr.linksCallFree rest

/-- Does a bound of a slice contain no call? -/
def Script.Expr.boundCallFree : Option Expr → Bool
  | none => true
  | some e => e.callFree

end

section Expressions

open Script.Expr (callFree allCallFree linksCallFree boundCallFree)

variable (user : UserCall)

mutual

theorem eval_touchless : ∀ e : Expr, e.callFree = true → Touchless (eval user e)
  | .literal v, _ => .same (pure (Value.ofLiteral v))
  | .name s, _ => .lookup s
  | .list items, h => by
    rw [callFree] at h
    exact (evalAll_touchless items h).bind fun vs => .compute _
  | .tuple items, h => by
    rw [callFree] at h
    exact (evalAll_touchless items h).bind fun vs => .compute _
  | .unary op operand, h => by
    rw [callFree] at h
    exact (eval_touchless operand h).bind fun v => .same _
  | .binary op left right, h => by
    rw [callFree, Bool.and_eq_true] at h
    exact (eval_touchless left h.1).bind fun v => (eval_touchless right h.2).bind fun w =>
      .compute (v.binary op w)
  | .logic op left right, h => by
    rw [callFree, Bool.and_eq_true] at h
    refine (eval_touchless left h.1).bind fun v => .bind (.same _) fun holds => ?_
    split
    · exact .same _
    · exact .same _
    · exact eval_touchless right h.2
  | .compare first rest, h => by
    rw [callFree, Bool.and_eq_true] at h
    exact (eval_touchless first h.1).bind fun v => evalLinks_touchless v rest h.2
  | .ifElse condition yes no, h => by
    simp only [callFree, Bool.and_eq_true] at h
    obtain ⟨⟨hc, hy⟩, hn⟩ := h
    refine (eval_touchless condition hc).bind fun v => .bind (.same _) fun holds => ?_
    split
    · exact eval_touchless yes hy
    · exact eval_touchless no hn
  | .index object subscript, h => by
    rw [callFree, Bool.and_eq_true] at h
    exact (eval_touchless object h.1).bind fun v => (eval_touchless subscript h.2).bind fun i =>
      .same _
  | .slice object lower upper step, h => by
    simp only [callFree, Bool.and_eq_true] at h
    obtain ⟨⟨⟨ho, hl⟩, hu⟩, hs⟩ := h
    exact (eval_touchless object ho).bind fun v => (evalBound_touchless lower hl).bind fun lower =>
      (evalBound_touchless upper hu).bind fun upper => (evalBound_touchless step hs).bind
        fun step => .compute (v.slice ⟨lower, upper, step⟩)

theorem evalAll_touchless : ∀ es : List Expr, Expr.allCallFree es = true →
    Touchless (evalAll user es)
  | [], _ => .same (pure [])
  | e :: es, h => by
    rw [allCallFree, Bool.and_eq_true] at h
    exact (eval_touchless e h.1).bind fun v => (evalAll_touchless es h.2).bind fun vs => .same _

theorem evalLinks_touchless (v : Value) : ∀ rest : List (CompareOp × Expr),
    Expr.linksCallFree rest = true → Touchless (evalLinks user v rest)
  | [], _ => .same (pure (Value.bool true))
  | (op, e) :: rest, h => by
    rw [linksCallFree, Bool.and_eq_true] at h
    refine (eval_touchless e h.1).bind fun w => .bind (.same _) fun holds => ?_
    split
    · exact evalLinks_touchless w rest h.2
    · exact .same _

theorem evalBound_touchless : ∀ bound : Option Expr, Expr.boundCallFree bound = true →
    Touchless (evalBound user bound)
  | none, _ => .same (pure none)
  | some e, h => (eval_touchless e h).bind fun v => .same (Run.of (sliceBound v))

end

/-- **An expression without calls has no effect.** It leaves all scopes and frames, the lists there
are, the session, the line and the number of ticks as they were, also where it stops at a fault. -/
theorem callFree_untouched {e : Expr} (h : e.callFree = true) (m : Machine) :
    m.Untouched (leftBy (eval user e m)) :=
  (eval_touchless user e h).left m

/-- The slice makes a second list before the division fails. -/
theorem callFree_untouched_division :
    let m := { Machine.holding #[.int 1, .int 2] with scopes := ⟨[("xs", .list 0)], []⟩ }
    let e : Expr := .list [.slice (.name "xs") (some (.literal (.int 1))) none none,
      .binary .floorDiv (.index (.name "xs") (.literal (.int 0))) (.literal (.int 0))]
    let user : UserCall := fun _ _ _ _ => pure .none
    e.callFree = true ∧
      eval user e m = .error (.fault (.zeroDivision "integer division or modulo by zero"))
        { m with heap := ⟨#[#[.int 1, .int 2], #[.int 2]], 0⟩ } ∧
      m.Untouched (leftBy (eval user e m)) := by
  intro m e user
  have free : e.callFree = true := rfl
  exact ⟨free, rfl, callFree_untouched user free m⟩

end Expressions

end SortTrace
