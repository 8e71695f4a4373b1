import SortTrace.Proofs.Evaluation

/-!
# Two items exchanged

The assignment of two items of a list to each other's places, `a[i], a[j] = a[j], a[i]`. Both are
read before either is written, and the targets are assigned from left to right; so the items change
places, or nothing changes where the two subscripts denote one place.
-/

namespace SortTrace

open Script (Expr Stmt)

variable {user : UserCall} {m m₁ m₂ : Machine} {h : Heap} {items : Array Value} {place p q : Nat}
  {i j : Int64} {v w : Value}

/-! ## Items -/

theorem Value.item_of_position (hitems : h.items place = items)
    (hp : position? i items.size = some p) (hv : items[p]? = some v) :
    Value.item h (.list place) (.int i) = .ok v := by
  have found : Value.item? (h.items place) i = some v := by
    rw [hitems, Value.item?, hp, Option.bind_some, hv]
  simp only [Value.item, Value.asInt?, found]

theorem Value.item_of_no_position (hitems : h.items place = items)
    (hp : position? i items.size = .none) :
    Value.item h (.list place) (.int i) = .error (.indexOutOfRange "list") := by
  have missing : Value.item? (h.items place) i = .none := by
    rw [hitems, Value.item?, hp, Option.bind_none]
  simp only [Value.item, Value.asInt?, missing]

theorem Value.setItem_of_position (hp : position? i (h.items place).size = some p) :
    Value.setItem (.list place) (.int i) v h
      = .ok () (h.modify place fun items => items.setIfInBounds p v) := by
  have lists : (get : Compute Heap) h = .ok h h := rfl
  unfold Value.setItem
  simp only [Value.asInt?]
  change EStateM.bind get _ h = _
  rw [EStateM.bind, lists]
  dsimp only
  rw [hp]
  rfl

theorem Heap.items_of_lists (hlists : h.lists = #[items]) : h.items 0 = items := by
  rw [Heap.items, hlists]
  rfl

/-! ## Assignments -/

theorem eval_pair {l r : Expr} (hl : Yields user m l v) (hr : Yields user m r w) :
    eval user (.tuple [l, r]) m
      = .ok (.tuple m.heap.marks [v, w]) { m with heap := m.heap.mark.2 } := by
  rw [eval, Run.bind_ok (Yields.evalAll (.cons hl (.cons hr .nil)))]
  rfl

theorem eval_pair_error {l r : Expr} {f : Stop} (h : eval user l m = .error f m ∨
    (∃ v, Yields user m l v) ∧ eval user r m = .error f m) :
    eval user (.tuple [l, r]) m = .error f m := by
  have all : evalAll user [l, r] m = .error f m := by
    rcases h with hl | ⟨⟨v, hl⟩, hr⟩
    · rw [evalAll, Run.bind_error hl]
    · rw [evalAll, Run.bind_ok hl, Run.bind_error]
      rw [evalAll, Run.bind_error hr]
  rw [eval, Run.bind_error all]

/-- Two values assigned to two targets at once. -/
theorem assign_pair {id : Nat} {l r : Expr} (hl : assign user l v m = .ok () m₁)
    (hr : assign user r w m₁ = .ok () m₂) :
    assignAll user (.tuple id [v, w]) [.tuple [l, r]] m = .ok () m₂ := by
  have taken : unpack 2 (.tuple id [v, w]) m = .ok [v, w] m := rfl
  have each : assignEach user [l, r] [v, w] m = .ok () m₂ := by
    rw [assignEach, Run.bind_ok hl, assignEach, Run.bind_ok hr]
    rfl
  have both : assign user (.tuple [l, r]) (.tuple id [v, w]) m = .ok () m₂ := by
    rw [assign]
    exact (Run.bind_ok taken).trans each
  rw [assignAll, Run.bind_ok both]
  rfl

theorem assign_item {object subscript : Expr} (ho : Yields user m object (.list place))
    (hs : Yields user m subscript (.int i)) (hp : position? i (m.heap.items place).size = some p) :
    assign user (.index object subscript) v m
      = .ok () { m with heap := m.heap.modify place fun items => items.setIfInBounds p v } := by
  rw [assign, Run.bind_ok ho, Run.bind_ok hs]
  exact Run.compute_ok (Value.setItem_of_position hp)

/-- The items at two positions exchanged. -/
def swapped (items : Array Value) (p q : Nat) (v w : Value) : Array Value :=
  (items.setIfInBounds p w).setIfInBounds q v

/-- Two items of the only list are exchanged. The expressions for the list and for the subscripts
read names only. -/
theorem runStmt_swap {c : Control} {line : Nat} {object ei ej : Expr} (hc : c.timeout = none)
    (hlists : m.heap.lists = #[items])
    (ho : ∀ m', m'.scopes = m.scopes → Yields c.user m' object (.list 0))
    (hi : ∀ m', m'.scopes = m.scopes → Yields c.user m' ei (.int i))
    (hj : ∀ m', m'.scopes = m.scopes → Yields c.user m' ej (.int j))
    (hp : position? i items.size = some p) (hq : position? j items.size = some q)
    (hv : items[p]? = some v) (hw : items[q]? = some w) :
    runStmt c (.assign line [.tuple [.index object ei, .index object ej]]
        (.tuple [.index object ej, .index object ei])) m
      = .ok .normal { m.entered line with
          heap := ⟨#[swapped items p q v w], m.heap.marks + 1⟩ } := by
  have list (h : Heap) : Yields c.user { m.entered line with heap := h } object (.list 0) :=
    ho { m.entered line with heap := h } rfl
  have left (h : Heap) : Yields c.user { m.entered line with heap := h } ei (.int i) :=
    hi { m.entered line with heap := h } rfl
  have right (h : Heap) : Yields c.user { m.entered line with heap := h } ej (.int j) :=
    hj { m.entered line with heap := h } rfl
  have whole : (m.entered line).heap.items 0 = items := Heap.items_of_lists hlists
  have readi : Yields c.user (m.entered line) (.index object ei) v :=
    .index (list m.heap) (left m.heap) (Value.item_of_position whole hp hv)
  have readj : Yields c.user (m.entered line) (.index object ej) w :=
    .index (list m.heap) (right m.heap) (Value.item_of_position whole hq hw)
  have read := eval_pair readj readi
  have marked : (m.entered line).heap.mark.2 = ⟨#[items], m.heap.marks + 1⟩ := by
    rw [← hlists]
    rfl
  rw [marked] at read
  have size : position? j (items.setIfInBounds p w).size = some q := by
    rwa [Array.size_setIfInBounds]
  exact runStmt_assign hc read (assign_pair (assign_item (list _) (left _) hp)
    (assign_item (list _) (right _) size))

end SortTrace
