import SortTrace.Machine.Basic

/-!
# Steps of runs

What the machine is after a step, where a run ends and where it goes on.

Some steps change nothing that was there before them. New lists may have come behind the old ones,
and marks may have been given to tuples: neither shows on a list that was there (`Heap.Kept`), nor
on anything else that a script can see (`Machine.Unaffected`). If no statement ran and no round of a
loop ended either, the number of ticks is the same as well (`Machine.Untouched`).
-/

namespace SortTrace

/-- What a run leaves of a machine, whether it ends or stops. -/
def leftBy {α : Type} : EStateM.Result Stop Machine α → Machine
  | .ok _ m => m
  | .error _ m => m

namespace Run

variable {α β : Type} {r : Run α} {t : α → Run β} {m m₁ : Machine}

theorem bind_ok {a : α} (h : r m = .ok a m₁) : (r >>= t) m = t a m₁ := by
  change EStateM.bind r t m = _
  rw [EStateM.bind, h]

theorem bind_error {e : Stop} (h : r m = .error e m₁) : (r >>= t) m = .error e m₁ := by
  change EStateM.bind r t m = _
  rw [EStateM.bind, h]

theorem ok_of_bind {b : β} {m₂ : Machine} (h : (r >>= t) m = .ok b m₂) :
    ∃ a m₁, r m = .ok a m₁ ∧ t a m₁ = .ok b m₂ := by
  cases hr : r m with
  | ok a m₁ => exact ⟨a, m₁, rfl, by rw [← h, bind_ok hr]⟩
  | error e m₁ =>
    rw [bind_error hr] at h
    cases h

theorem error_of_bind {e : Stop} {m₂ : Machine} (h : (r >>= t) m = .error e m₂) :
    r m = .error e m₂ ∨ ∃ a m₁, r m = .ok a m₁ ∧ t a m₁ = .error e m₂ := by
  cases hr : r m with
  | ok a m₁ => exact .inr ⟨a, m₁, rfl, by rw [← h, bind_ok hr]⟩
  | error e' m₁ =>
    rw [bind_error hr] at h
    cases h
    exact .inl rfl

theorem ok_of_of {x : Except Fault α} {a : α} (h : Run.of x m = .ok a m₁) :
    x = .ok a ∧ m₁ = m := by
  cases x with
  | ok b =>
    cases h
    exact ⟨rfl, rfl⟩
  | error e => cases h

theorem error_of_of {x : Except Fault α} {e : Stop} (h : Run.of x m = .error e m₁) :
    ∃ f, x = .error f ∧ e = .fault f ∧ m₁ = m := by
  cases x with
  | ok b => cases h
  | error f =>
    cases h
    exact ⟨f, rfl, rfl, rfl⟩

theorem ok_of_read {f : Heap → Except Fault α} {a : α} (h : Run.read f m = .ok a m₁) :
    f m.heap = .ok a ∧ m₁ = m :=
  ok_of_of h

theorem error_of_read {f : Heap → Except Fault α} {e : Stop} (h : Run.read f m = .error e m₁) :
    ∃ e', f m.heap = .error e' ∧ e = .fault e' ∧ m₁ = m :=
  error_of_of h

theorem tick_apply (timeout : Option Nat) (m : Machine) :
    Run.tick timeout m
      = if (m.ticks + 1) % Run.ticksPerLook = 0 && timeout = some 0
        then .error (.fault (.timeout 0)) { m with ticks := m.ticks + 1 }
        else .ok () { m with ticks := m.ticks + 1 } := by
  change (if _ then _ else _ : Run Unit) _ = _
  split <;> rfl

/-! ## Names -/

theorem get_apply : (get : Run Machine) m = .ok m m := rfl

variable {name : String}

theorem lookup_bound {v : Value} (h : m.scopes.lookup name = some v) :
    lookup name m = .ok v m := by
  rw [lookup, bind_ok get_apply, h]
  rfl

theorem lookup_builtin {b : Builtin} (h : m.scopes.lookup name = none)
    (hb : Builtin.ofName? name = some b) : lookup name m = .ok (.builtin b) m := by
  rw [lookup, bind_ok get_apply, h, hb]
  rfl

theorem lookup_unbound (h : m.scopes.lookup name = none) (hb : Builtin.ofName? name = none) :
    lookup name m = .error (.fault (.unboundName name)) m := by
  rw [lookup, bind_ok get_apply, h, hb]
  rfl

end Run

/-! ## Computations with lists -/

namespace Compute

variable {α β : Type} {c : Compute α} {t : α → Compute β} {f : Heap → Except Fault α}
  {h h₁ : Heap} {a : α}

theorem bind_ok (hc : c h = .ok a h₁) : (c >>= t) h = t a h₁ := by
  change EStateM.bind c t h = _
  rw [EStateM.bind, hc]

theorem bind_error {e : Fault} (hc : c h = .error e h₁) : (c >>= t) h = .error e h₁ := by
  change EStateM.bind c t h = _
  rw [EStateM.bind, hc]

theorem ok_of_bind {b : β} {h₂ : Heap} (hb : (c >>= t) h = .ok b h₂) :
    ∃ a h₁, c h = .ok a h₁ ∧ t a h₁ = .ok b h₂ := by
  change EStateM.bind c t h = _ at hb
  rw [EStateM.bind] at hb
  split at hb
  · next a h₁ hc => exact ⟨a, h₁, hc, hb⟩
  · cases hb

theorem read_ok (hf : f h = .ok a) : Compute.read f h = .ok a h := by
  change Compute.of (f h) h = _
  rw [hf]
  rfl

theorem read_error {e : Fault} (hf : f h = .error e) : Compute.read f h = .error e h := by
  change Compute.of (f h) h = _
  rw [hf]
  rfl

theorem ok_of_read (hr : Compute.read f h = .ok a h₁) : f h = .ok a ∧ h₁ = h := by
  change Compute.of (f h) h = _ at hr
  cases hf : f h with
  | ok b =>
    rw [hf] at hr
    cases hr
    exact ⟨rfl, rfl⟩
  | error e =>
    rw [hf] at hr
    cases hr

end Compute

/-! ## Lists that stay -/

/-- The lists of the first heap are as they were in the second, which may have more. -/
structure Heap.Kept (h h' : Heap) : Prop where
  size : h.size ≤ h'.size
  items : ∀ place, place < h.size → h'.items place = h.items place

namespace Heap.Kept

variable {h h' h'' : Heap}

theorem refl (h : Heap) : h.Kept h := ⟨Nat.le_refl _, fun _ _ => rfl⟩

theorem trans (hk : h.Kept h') (hk' : h'.Kept h'') : h.Kept h'' where
  size := Nat.le_trans hk.size hk'.size
  items place hp :=
    (hk'.items place (Nat.lt_of_lt_of_le hp hk.size)).trans (hk.items place hp)

/-- A new list leaves the others as they were. -/
theorem insert (h : Heap) (items : Array Value) : h.Kept (h.insert items).2 where
  size := by
    rw [Heap.size, Heap.insert, Heap.size, Array.size_push]
    exact Nat.le_succ _
  items place hp := by
    rw [Heap.items, Heap.insert, Array.getElem?_push_lt hp, Heap.items,
      Array.getElem?_eq_getElem hp]

/-- A new mark leaves all lists as they were. -/
theorem mark (h : Heap) : h.Kept h.mark.2 :=
  ⟨Nat.le_refl _, fun _ _ => rfl⟩

end Heap.Kept

/-! ## Machines without an effect -/

/-- What a script can see of a machine is the same on another one: that has the same scopes and the
same session, and its lists are the same, but for new ones. -/
structure Machine.Unaffected (m m' : Machine) : Prop where
  scopes : m'.scopes = m.scopes
  session : m'.session = m.session
  line : m'.line = m.line
  size : m.heap.size ≤ m'.heap.size
  lists : ∀ place < m.heap.size, m'.heap.items place = m.heap.items place

namespace Machine.Unaffected

variable {m m₁ m₂ : Machine}

theorem refl (m : Machine) : m.Unaffected m :=
  ⟨rfl, rfl, rfl, Nat.le_refl _, fun _ _ => rfl⟩

theorem trans (h : m.Unaffected m₁) (h' : m₁.Unaffected m₂) : m.Unaffected m₂ where
  scopes := h'.scopes.trans h.scopes
  session := h'.session.trans h.session
  line := h'.line.trans h.line
  size := Nat.le_trans h.size h'.size
  lists place hp := (h'.lists place (Nat.lt_of_lt_of_le hp h.size)).trans (h.lists place hp)

/-- Another heap that keeps the lists there were. -/
theorem heap (m : Machine) {heap : Heap} (kept : m.heap.Kept heap) :
    m.Unaffected { m with heap } where
  scopes := rfl
  session := rfl
  line := rfl
  size := kept.size
  lists := kept.items

theorem insert (m : Machine) (items : Array Value) :
    m.Unaffected { m with heap := (m.heap.insert items).2 } :=
  heap m (.insert m.heap items)

end Machine.Unaffected

/-- Nothing has happened on the way from one machine to another but that lists and tuples were made:
the other one is at the same tick as well. -/
structure Machine.Untouched (m m' : Machine) : Prop extends Machine.Unaffected m m' where
  ticks : m'.ticks = m.ticks

namespace Machine.Untouched

variable {m m₁ m₂ : Machine}

theorem refl (m : Machine) : m.Untouched m :=
  ⟨.refl m, rfl⟩

theorem trans (h : m.Untouched m₁) (h' : m₁.Untouched m₂) : m.Untouched m₂ :=
  ⟨h.toUnaffected.trans h'.toUnaffected, h'.ticks.trans h.ticks⟩

theorem heap (m : Machine) {heap : Heap} (kept : m.heap.Kept heap) :
    m.Untouched { m with heap } :=
  ⟨.heap m kept, rfl⟩

end Machine.Untouched

end SortTrace
