import SortTrace.Proofs.Printing.Program

/-!
# Ways down an expression

A step down an expression leads to the object that something is done to, by a subscript, a slice or
a call that stands behind it, or to any other part. The longest way is no longer than the most steps
of the one kind and the most steps of the other together (`Expr.height_le`).
-/

namespace SortTrace.Script

mutual

/-- The most that a way down an expression adds up to if a step to the object of a subscript, a
slice, a call or a method counts `object` and any other step `inside`. -/
def Expr.reach (inside object : Nat) : Expr → Nat
  | .literal _ | .name _ => 0
  | .list items | .tuple items => Expr.itemsReach inside object items
  | .unary _ e => e.reach inside object + inside
  | .binary _ l r | .logic _ l r =>
    max (l.reach inside object) (r.reach inside object) + inside
  | .compare first rest =>
    max (first.reach inside object + inside) (Expr.linksReach inside object rest)
  | .ifElse condition yes no =>
    max (condition.reach inside object) (max (yes.reach inside object) (no.reach inside object))
      + inside
  | .index e i => max (e.reach inside object + object) (i.reach inside object + inside)
  | .slice e lower upper step =>
    max (e.reach inside object + object)
      (max (Expr.boundReach inside object lower)
        (max (Expr.boundReach inside object upper) (Expr.boundReach inside object step)))
  | .call e args keywords | .method e _ args keywords =>
    max (e.reach inside object + object)
      (max (Expr.itemsReach inside object args) (Expr.keywordsReach inside object keywords))

/-- The same of a node with the given items. -/
def Expr.itemsReach (inside object : Nat) : List Expr → Nat
  | [] => 0
  | e :: es => max (e.reach inside object + inside) (Expr.itemsReach inside object es)

/-- The same of a node with the given keyword arguments. -/
def Expr.keywordsReach (inside object : Nat) : List (String × Expr) → Nat
  | [] => 0
  | (_, e) :: rest => max (e.reach inside object + inside) (Expr.keywordsReach inside object rest)

/-- The same of a node with the given links. -/
def Expr.linksReach (inside object : Nat) : List (CompareOp × Expr) → Nat
  | [] => 0
  | (_, e) :: rest => max (e.reach inside object + inside) (Expr.linksReach inside object rest)

/-- The same of a node with the given bound. -/
def Expr.boundReach (inside object : Nat) : Option Expr → Nat
  | none => 0
  | some e => e.reach inside object + inside

end

/-- The most subscripts, slices and calls one behind the other on a way down. -/
def Expr.climb (e : Expr) : Nat :=
  e.reach 0 1

/-- The longest way down, where steps to the object of a subscript, a slice or a call are not
counted. -/
def Expr.rise (e : Expr) : Nat :=
  e.reach 1 0

mutual

theorem Expr.reach_one : ∀ e : Expr, e.reach 1 1 = e.height
  | .literal _ | .name _ => rfl
  | .list items | .tuple items => Expr.itemsReach_one items
  | .unary _ e => congrArg (· + 1) (Expr.reach_one e)
  | .binary _ l r | .logic _ l r => by
    rw [Expr.reach, Expr.height, Expr.reach_one l, Expr.reach_one r]
  | .compare first rest => by
    rw [Expr.reach, Expr.height, Expr.reach_one first, Expr.linksReach_one rest]
  | .ifElse condition yes no => by
    rw [Expr.reach, Expr.height, Expr.reach_one condition, Expr.reach_one yes, Expr.reach_one no]
  | .index e i => by
    rw [Expr.reach, Expr.height, Expr.reach_one e, Expr.reach_one i, Nat.add_max_add_right]
  | .slice e lower upper step => by
    rw [Expr.reach, Expr.height, Expr.reach_one e, Expr.boundReach_one lower,
      Expr.boundReach_one upper, Expr.boundReach_one step]
  | .call e args keywords | .method e _ args keywords => by
    rw [Expr.reach, Expr.height, Expr.reach_one e, Expr.itemsReach_one args,
      Expr.keywordsReach_one keywords]

theorem Expr.itemsReach_one : ∀ items : List Expr,
    Expr.itemsReach 1 1 items = Expr.itemsHeight items
  | [] => rfl
  | e :: es => by
    rw [Expr.itemsReach, Expr.itemsHeight, Expr.reach_one e, Expr.itemsReach_one es]

theorem Expr.keywordsReach_one : ∀ keywords : List (String × Expr),
    Expr.keywordsReach 1 1 keywords = Expr.keywordsHeight keywords
  | [] => rfl
  | (_, e) :: rest => by
    rw [Expr.keywordsReach, Expr.keywordsHeight, Expr.reach_one e, Expr.keywordsReach_one rest]

theorem Expr.linksReach_one : ∀ links : List (CompareOp × Expr),
    Expr.linksReach 1 1 links = Expr.linksHeight links
  | [] => rfl
  | (_, e) :: rest => by
    rw [Expr.linksReach, Expr.linksHeight, Expr.reach_one e, Expr.linksReach_one rest]

theorem Expr.boundReach_one : ∀ bound : Option Expr,
    Expr.boundReach 1 1 bound = Expr.boundHeight bound
  | none => rfl
  | some e => congrArg (· + 1) (Expr.reach_one e)

end

section Split

theorem max_le_add {m n m₁ m₂ n₁ n₂ : Nat} (hm : m ≤ m₁ + m₂) (hn : n ≤ n₁ + n₂) :
    max m n ≤ max m₁ n₁ + max m₂ n₂ := by
  omega

theorem step_le_add {m m₁ m₂ c d : Nat} (h : m ≤ m₁ + m₂) :
    m + (c + d) ≤ m₁ + c + (m₂ + d) := by
  omega

variable (a b c d : Nat)

mutual

/-- A way that counts sums is no longer than two that count the summands. -/
theorem Expr.reach_add_le : ∀ e : Expr,
    e.reach (a + c) (b + d) ≤ e.reach a b + e.reach c d
  | .literal _ | .name _ => Nat.zero_le _
  | .list items | .tuple items => Expr.itemsReach_add_le items
  | .unary _ e => step_le_add (Expr.reach_add_le e)
  | .binary _ l r | .logic _ l r =>
    step_le_add (max_le_add (Expr.reach_add_le l) (Expr.reach_add_le r))
  | .compare first rest =>
    max_le_add (step_le_add (Expr.reach_add_le first)) (Expr.linksReach_add_le rest)
  | .ifElse condition yes no =>
    step_le_add (max_le_add (Expr.reach_add_le condition)
      (max_le_add (Expr.reach_add_le yes) (Expr.reach_add_le no)))
  | .index e i => max_le_add (step_le_add (Expr.reach_add_le e)) (step_le_add (Expr.reach_add_le i))
  | .slice e lower upper step =>
    max_le_add (step_le_add (Expr.reach_add_le e)) (max_le_add (Expr.boundReach_add_le lower)
      (max_le_add (Expr.boundReach_add_le upper) (Expr.boundReach_add_le step)))
  | .call e args keywords | .method e _ args keywords =>
    max_le_add (step_le_add (Expr.reach_add_le e))
      (max_le_add (Expr.itemsReach_add_le args) (Expr.keywordsReach_add_le keywords))

theorem Expr.itemsReach_add_le : ∀ items : List Expr, Expr.itemsReach (a + c) (b + d) items
    ≤ Expr.itemsReach a b items + Expr.itemsReach c d items
  | [] => Nat.zero_le _
  | e :: es => max_le_add (step_le_add (Expr.reach_add_le e)) (Expr.itemsReach_add_le es)

theorem Expr.keywordsReach_add_le : ∀ keywords : List (String × Expr),
    Expr.keywordsReach (a + c) (b + d) keywords
      ≤ Expr.keywordsReach a b keywords + Expr.keywordsReach c d keywords
  | [] => Nat.zero_le _
  | (_, e) :: rest =>
    max_le_add (step_le_add (Expr.reach_add_le e)) (Expr.keywordsReach_add_le rest)

theorem Expr.linksReach_add_le : ∀ links : List (CompareOp × Expr),
    Expr.linksReach (a + c) (b + d) links
      ≤ Expr.linksReach a b links + Expr.linksReach c d links
  | [] => Nat.zero_le _
  | (_, e) :: rest => max_le_add (step_le_add (Expr.reach_add_le e)) (Expr.linksReach_add_le rest)

theorem Expr.boundReach_add_le : ∀ bound : Option Expr,
    Expr.boundReach (a + c) (b + d) bound
      ≤ Expr.boundReach a b bound + Expr.boundReach c d bound
  | none => Nat.zero_le _
  | some e => step_le_add (Expr.reach_add_le e)

end

end Split

/-- The height counts steps of both kinds. -/
theorem Expr.height_le (e : Expr) : e.height ≤ e.rise + e.climb := by
  rw [← Expr.reach_one]
  exact Expr.reach_add_le 1 0 0 1 e

/-! ## Bounds -/

section Bounds

variable {inside object k : Nat}

theorem Expr.itemsReach_le {items : List Expr}
    (h : ∀ e ∈ items, e.reach inside object ≤ k) :
    Expr.itemsReach inside object items ≤ k + inside := by
  induction items with
  | nil => exact Nat.zero_le _
  | cons e es ih =>
    obtain ⟨first, others⟩ := List.forall_mem_cons.mp h
    exact Nat.max_le.mpr ⟨Nat.add_le_add_right first _, ih others⟩

theorem Expr.keywordsReach_le {keywords : List (String × Expr)}
    (h : ∀ q ∈ keywords, q.2.reach inside object ≤ k) :
    Expr.keywordsReach inside object keywords ≤ k + inside := by
  induction keywords with
  | nil => exact Nat.zero_le _
  | cons q rest ih =>
    obtain ⟨first, others⟩ := List.forall_mem_cons.mp h
    exact Nat.max_le.mpr ⟨Nat.add_le_add_right first _, ih others⟩

theorem Expr.linksReach_le {links : List (CompareOp × Expr)}
    (h : ∀ q ∈ links, q.2.reach inside object ≤ k) :
    Expr.linksReach inside object links ≤ k + inside := by
  induction links with
  | nil => exact Nat.zero_le _
  | cons q rest ih =>
    obtain ⟨first, others⟩ := List.forall_mem_cons.mp h
    exact Nat.max_le.mpr ⟨Nat.add_le_add_right first _, ih others⟩

theorem Expr.boundReach_le {bound : Option Expr}
    (h : ∀ e ∈ bound, e.reach inside object ≤ k) :
    Expr.boundReach inside object bound ≤ k + inside := by
  cases bound with
  | none => exact Nat.zero_le _
  | some e => exact Nat.add_le_add_right (h e rfl) _

end Bounds

end SortTrace.Script
