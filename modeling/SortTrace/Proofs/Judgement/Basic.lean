import SortTrace.Machine.Basic
import SortTrace.Proofs.Recoding.Library

/-!
# Judgements about pairs of runs

A `Judgement` says of two runs that they belong together: they start from machines that correspond,
whose values are recoded by `ρ` and by `ρ'`, and end so again. What it takes for machines to
correspond is left to each judgement. All that matters to the evaluation of expressions is which
judgements follow from which: a judgement holds of the steps that evaluation is made of, and of two
steps in a row if it holds of each.

`Judgement.eval` concludes from this alone that a judgement holds of an expression as soon as it
holds of calls to the functions of the script. So what is to be proved of all expressions is proved
of the steps.
-/

namespace SortTrace

/-- A judgement about pairs of runs, one on values recoded by `ρ` and one on values recoded by `ρ'`.
`Holds f g r r'` is about runs whose results are `f c` and `g c` for the same `c`. -/
structure Judgement (ρ ρ' : Recoding) where
  Holds {α β γ : Type} (f : γ → α) (g : γ → β) (r : Run α) (r' : Run β) : Prop
  /-- The names that may be bound. -/
  Free : String → Prop
  pure {α β γ : Type} {f : γ → α} {g : γ → β} (c : γ) :
    Holds f g (Pure.pure (f c)) (Pure.pure (g c))
  bind {α β γ δ ε ζ : Type} {f : γ → α} {g : γ → β} {f' : δ → ε} {g' : δ → ζ} {r : Run α}
    {r' : Run β} {t : α → Run ε} {t' : β → Run ζ} (hr : Holds f g r r')
    (ht : ∀ c, Holds f' g' (t (f c)) (t' (g c))) : Holds f' g' (r >>= t) (r' >>= t')
  fault {α β γ : Type} {f : γ → α} {g : γ → β} (e : Fault) :
    Holds f g (Run.fault (ρ.fault e)) (Run.fault (ρ'.fault e))
  /-- Something that only reads lists, and commutes with both recodings. -/
  read {α β γ : Type} {f : γ → α} {g : γ → β} {x : Heap → Except Fault γ}
    {y : Heap → Except Fault α} {y' : Heap → Except Fault β}
    (h : ∀ i, y (ρ.heap i) = ρ.outcome f (x i)) (h' : ∀ i, y' (ρ'.heap i) = ρ'.outcome g (x i)) :
    Holds f g (Run.read y) (Run.read y')
  /-- Something that concerns only lists, and commutes with both recodings. -/
  compute {α β γ : Type} {f : γ → α} {g : γ → β} {x : Compute γ} {y : Compute α} {y' : Compute β}
    (h : ρ.Computes f x y) (h' : ρ'.Computes g x y') : Holds f g (Run.compute y) (Run.compute y')
  lookup (name : String) : Holds ρ.value ρ'.value (Run.lookup name) (Run.lookup name)
  bindName {name : String} (hname : Free name) (v : Value) :
    Holds id id (Run.bind name (ρ.value v)) (Run.bind name (ρ'.value v))
  line : Holds ρ.line ρ'.line Run.line Run.line
  print (text : String) :
    Holds id id (Run.trace (Session.print text)) (Run.trace (Session.print text))
  log (state : Report.Json) (n : Nat) :
    Holds id id (Run.trace (Session.log state (ρ.line n)))
      (Run.trace (Session.log state (ρ'.line n)))

namespace Judgement

variable {ρ ρ' : Recoding} (J : Judgement ρ ρ') {α β γ δ ε ζ : Type} {f : γ → α} {g : γ → β}
  {f' : δ → ε} {g' : δ → ζ} {r : Run α} {r' : Run β}

variable {J} in
theorem Holds.bind {t : α → Run ε} {t' : β → Run ζ} (hr : J.Holds f g r r')
    (ht : ∀ c, J.Holds f' g' (t (f c)) (t' (g c))) : J.Holds f' g' (r >>= t) (r' >>= t') :=
  J.bind hr ht

theorem pureOf {a : α} {b : β} (c : γ) (ha : a = f c) (hb : b = g c) :
    J.Holds f g (Pure.pure a) (Pure.pure b) := by
  subst ha hb
  exact J.pure c

variable {J} in
theorem Holds.map {t : α → ε} {t' : β → ζ} (hr : J.Holds f g r r') (u : γ → δ)
    (ht : ∀ c, t (f c) = f' (u c)) (ht' : ∀ c, t' (g c) = g' (u c)) :
    J.Holds f' g' (t <$> r) (t' <$> r') := by
  rw [map_eq_pure_bind, map_eq_pure_bind]
  exact hr.bind fun c => J.pureOf (u c) (ht c) (ht' c)

theorem mapM {t : α → Run ε} {t' : β → Run ζ} (ht : ∀ c, J.Holds f' g' (t (f c)) (t' (g c)))
    (items : List γ) :
    J.Holds (List.map f') (List.map g') ((items.map f).mapM t) ((items.map g).mapM t') := by
  induction items with
  | nil => exact J.pure []
  | cons c items ih =>
    simp only [List.map_cons, List.mapM_cons]
    exact (ht c).bind fun d => ih.bind fun ds => J.pure (d :: ds)

/-- An outcome that is a recoding of the same outcome on both sides. -/
theorem of {x : Except Fault γ} {y : Except Fault α} {y' : Except Fault β}
    (h : y = ρ.outcome f x) (h' : y' = ρ'.outcome g x) : J.Holds f g (Run.of y) (Run.of y') := by
  subst h h'
  cases x with
  | ok c => exact J.pure c
  | error e => exact J.fault e

end Judgement

end SortTrace
