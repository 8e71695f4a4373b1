import SortTrace.Proofs.Refusals
import SortTrace.Value.MergeSort

/-!
# Merge sort in two buffers

The sort as it is done in place: the items stand in one buffer, each pass merges them run by run
into the other, and then the two buffers change places. Runs are not lists here but positions, and
of a position nothing is taken for granted: to read or to write beside a buffer stops the sort
(`Halt.outside`), and so does a loop that takes more rounds than it was given (`Halt.outOfRounds`).
The comparison can fail, and can answer as it likes: it has a memory of its own, so it need not say
the same of the same two items when it is asked again.
-/

namespace SortTrace.MergeSort

/-- A comparison that can fail and that remembers something from one call to the next. -/
abbrev Comparison (ε σ α : Type) : Type := α → α → EStateM ε σ Ordering

/-- What stops a sort in buffers. -/
inductive Halt (ε : Type) where
  /-- The comparison failed. -/
  | failed (e : ε)
  /-- A position outside a buffer was to be read or written. -/
  | outside
  /-- A loop took more rounds than it was given. -/
  | outOfRounds
deriving DecidableEq, Repr, Inhabited

/-- Two buffers, and what the comparison remembers. -/
structure Buffers (α σ : Type) where
  /-- The items. -/
  order : Array α
  /-- What the items are merged into. -/
  spare : Array α
  memory : σ

/-- Something that is done in buffers. -/
abbrev InBuffers (ε σ α β : Type) : Type := EStateM (Halt ε) (Buffers α σ) β

/-- Where the merging of two runs has come to: the next items of both, and the next position to
write to. -/
structure Cursors where
  left : Nat
  right : Nat
  out : Nat
deriving DecidableEq, Repr

namespace InBuffers

variable {α β ε σ : Type}

/-- The item at a position. -/
def read (i : Nat) : InBuffers ε σ α α := do
  match (← get).order[i]? with
  | some a => pure a
  | none => throw .outside

/-- Write an item to a position of the spare buffer. -/
def write (k : Nat) (a : α) : InBuffers ε σ α Unit := do
  let b ← get
  if k < b.spare.size then set { b with spare := b.spare.setIfInBounds k a }
  else throw .outside

/-- Copy the items from `low` to `high`, without `high`, to the positions from `k` on. -/
def copy (low high k : Nat) : InBuffers ε σ α Unit := do
  let b ← get
  if low ≤ high ∧ high ≤ b.order.size ∧ k + (high - low) ≤ b.spare.size then
    set { b with
      spare := b.spare.extract 0 k ++ b.order.extract low high
        ++ b.spare.extract (k + (high - low)) b.spare.size }
  else throw .outside

/-- Ask how two items compare. -/
def ask (cmp : Comparison ε σ α) (a b : α) : InBuffers ε σ α Ordering := fun buffers =>
  match cmp a b buffers.memory with
  | .ok o memory => .ok o { buffers with memory }
  | .error e memory => .error (.failed e) { buffers with memory }

/-- Let the buffers change places. -/
def swap : InBuffers ε σ α Unit :=
  modify fun b => { b with order := b.spare, spare := b.order }

/-- Repeat a step while a condition holds, for so many rounds at most. -/
def loop (goesOn : β → Bool) (step : β → InBuffers ε σ α β) : Nat → β → InBuffers ε σ α β
  | 0, x => if goesOn x then throw .outOfRounds else pure x
  | rounds + 1, x => if goesOn x then step x >>= loop goesOn step rounds else pure x

variable (cmp : Comparison ε σ α)

/-- Write the next item of two runs. The later run gives it only if its next item is less than that
of the earlier one. -/
def advance (c : Cursors) : InBuffers ε σ α Cursors := do
  let y ← read c.right
  let x ← read c.left
  if (← ask cmp y x) == .lt then
    write c.out y
    pure { c with right := c.right + 1, out := c.out + 1 }
  else
    write c.out x
    pure { c with left := c.left + 1, out := c.out + 1 }

/-- Copy what is left of either run when the other one has come to its end. -/
def copyRest (mid stop : Nat) (c : Cursors) : InBuffers ε σ α Unit := do
  copy c.left mid c.out
  copy c.right stop (c.out + (mid - c.left))

/-- Merge what is left of two runs, up to `mid` and up to `stop`. -/
def mergeFrom (rounds mid stop : Nat) (c : Cursors) : InBuffers ε σ α Unit :=
  loop (fun c => c.left < mid && c.right < stop) (advance cmp) rounds c >>= copyRest mid stop

/-- Merge the two runs of the given width at a position, as far as there are items, and go to the
position behind them. -/
def mergeAt (rounds length width start : Nat) : InBuffers ε σ α Nat := do
  let mid := min (start + width) length
  let stop := min (start + 2 * width) length
  mergeFrom cmp rounds mid stop ⟨start, mid, start⟩
  pure stop

/-- One pass over all runs of the given width. Then the runs are twice as wide. -/
def pass (rounds length width : Nat) : InBuffers ε σ α Nat := do
  let _ ← loop (· < length) (mergeAt cmp rounds length width) rounds 0
  swap
  pure (2 * width)

/-- Put the items in order. -/
def sort (rounds : Nat) : InBuffers ε σ α Unit := do
  let length := (← get).order.size
  let _ ← loop (· < length) (pass cmp rounds length) rounds 1
  pure ()

end InBuffers

/-- The items in one buffer, and another one of the same size. -/
def Buffers.start {α σ : Type} (filler : α) (items : Array α) (memory : σ) : Buffers α σ :=
  ⟨items, Array.replicate items.size filler, memory⟩

/-! ## Steps -/

namespace InBuffers

variable {α β γ ε σ : Type} {order spare : Array α} {s : σ}

theorem bind_ok {c : InBuffers ε σ α β} {t : β → InBuffers ε σ α γ} {b b₁ : Buffers α σ} {x : β}
    (h : c b = .ok x b₁) : (c >>= t) b = t x b₁ := by
  rw [estate_bind, h]

theorem bind_error {c : InBuffers ε σ α β} {t : β → InBuffers ε σ α γ} {b b₁ : Buffers α σ}
    {e : Halt ε} (h : c b = .error e b₁) : (c >>= t) b = .error e b₁ := by
  rw [estate_bind, h]

theorem read_apply {i : Nat} {a : α} (h : order[i]? = some a) :
    (read i : InBuffers ε σ α α) ⟨order, spare, s⟩ = .ok a ⟨order, spare, s⟩ := by
  change (match order[i]? with
    | some a => pure a
    | none => throw .outside : InBuffers ε σ α α) _ = _
  rw [h]
  rfl

theorem write_apply {k : Nat} (h : k < spare.size) (a : α) :
    (write k a : InBuffers ε σ α Unit) ⟨order, spare, s⟩
      = .ok () ⟨order, spare.setIfInBounds k a, s⟩ := by
  change (if k < spare.size then set _ else throw .outside : InBuffers ε σ α Unit) _ = _
  rw [if_pos h]
  rfl

theorem copy_apply {low high k : Nat} (hl : low ≤ high) (hh : high ≤ order.size)
    (hk : k + (high - low) ≤ spare.size) :
    (copy low high k : InBuffers ε σ α Unit) ⟨order, spare, s⟩
      = .ok () ⟨order, spare.extract 0 k ++ order.extract low high
          ++ spare.extract (k + (high - low)) spare.size, s⟩ := by
  change (if low ≤ high ∧ high ≤ order.size ∧ k + (high - low) ≤ spare.size then set _
    else throw .outside : InBuffers ε σ α Unit) _ = _
  rw [if_pos ⟨hl, hh, hk⟩]
  rfl

variable {cmp : Comparison ε σ α} {a b : α} {s₁ : σ}

theorem ask_ok {o : Ordering} (h : cmp a b s = .ok o s₁) :
    ask cmp a b ⟨order, spare, s⟩ = .ok o ⟨order, spare, s₁⟩ := by
  rw [ask, h]

theorem ask_error {e : ε} (h : cmp a b s = .error e s₁) :
    ask cmp a b ⟨order, spare, s⟩ = .error (.failed e) ⟨order, spare, s₁⟩ := by
  rw [ask, h]

variable {goesOn : β → Bool} {step : β → InBuffers ε σ α β} {x : β}

theorem loop_done (h : goesOn x = false) (rounds : Nat) : loop goesOn step rounds x = pure x := by
  cases rounds <;> simp [loop, h]

theorem loop_next (h : goesOn x = true) (rounds : Nat) :
    loop goesOn step (rounds + 1) x = step x >>= loop goesOn step rounds := by
  simp [loop, h]

variable {mid stop : Nat} {c : Cursors}

theorem mergeFrom_done (h : c.left < mid → stop ≤ c.right) (rounds : Nat) :
    mergeFrom cmp rounds mid stop c = copyRest mid stop c := by
  rw [mergeFrom, loop_done (by simpa using h), pure_bind]

theorem mergeFrom_next (hl : c.left < mid) (hr : c.right < stop) (rounds : Nat) :
    mergeFrom cmp (rounds + 1) mid stop c = advance cmp c >>= mergeFrom cmp rounds mid stop := by
  rw [mergeFrom, loop_next (by simp [hl, hr]), bind_assoc]
  rfl

theorem sort_apply (cmp : Comparison ε σ α) (rounds : Nat) (b : Buffers α σ) :
    sort cmp rounds b = (loop (· < b.order.size) (pass cmp rounds b.order.size) rounds 1
      >>= fun _ => pure ()) b := rfl

end InBuffers

end SortTrace.MergeSort
