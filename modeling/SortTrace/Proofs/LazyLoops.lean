import SortTrace.Proofs.Judgement.Guest

/-!
# Loops over lists and over other items

A loop over a list reads the list again in every round, since its body may change it. Of a tuple, a
text or a range, the loop takes one item after the other, and no list of them is ever made. Where a
list of the items could be made, it would make no difference: the loop ends as the loop over such a
list does, with the same result or fault at the same machine (`lazy_loop_as_over_list`). It assigns
the items in their order, leaves out the last part after `break`, and comes to it otherwise
(`eachRound`).
-/

namespace SortTrace

open Script (Expr Stmt)

/-- The loop of a `for` statement, over the items of a value. -/
def loopOver (c : Control) (line : Nat) (target : Expr) (body otherwise : List Stmt) (v : Value) :
    Run Flow := do
  let cursor ← Run.of (Cursor.start v)
  forRounds c.timeout line (assign c.user target) (runBlock c body) (runBlock c otherwise)
    c.rounds cursor

/-- A `for` statement goes to its line, counts a tick and loops over the value of its items. -/
theorem runStmt_forLoop (c : Control) (line : Nat) (target items : Expr)
    (body otherwise : List Stmt) :
    runStmt c (.forLoop line target items body otherwise) = (do
      Run.setLine line
      Run.tick c.timeout
      let v ← eval c.user items
      loopOver c line target body otherwise v) :=
  rfl

/-! ## Rounds over given items -/

section Rounds

variable (timeout : Option Nat) (line : Nat) (take : Value → Run Unit) (body otherwise : Run Flow)

/-- A round of a loop: an item is assigned, and the body runs. It tells how the loop ends if it ends
here, and counts a tick if it goes on. -/
def round (v : Value) : Run (Option Flow) := do
  Run.setLine line
  take v
  match ← body with
  | .leaveLoop => pure (some .normal)
  | .giveBack v => pure (some (.giveBack v))
  | .normal | .nextRound =>
    Run.tick timeout
    pure none

/-- A round for each item in order, until a round ends the loop, and the last part if none does. -/
def eachRound : List Value → Run Flow
  | [] => otherwise
  | v :: rest => do
    match ← round timeout line take body v with
    | some flow => pure flow
    | none => eachRound rest

variable {m : Machine} {cursor : Cursor} {timeout line take body otherwise}

theorem forRounds_done (h : cursor.next? m.heap = none) (rounds : Nat) :
    forRounds timeout line take body otherwise (rounds + 1) cursor m = otherwise m := by
  have reads : Run.read (fun h => .ok (cursor.next? h)) m = .ok none m :=
    congrArg (EStateM.Result.ok · m) h
  rw [forRounds_succ, Run.bind_ok reads]

theorem forRounds_next {v : Value} {rest : Cursor} (h : cursor.next? m.heap = some (v, rest))
    (rounds : Nat) :
    forRounds timeout line take body otherwise (rounds + 1) cursor m = (do
      match ← round timeout line take body v with
      | some flow => pure flow
      | none => forRounds timeout line take body otherwise rounds rest) m := by
  have reads : Run.read (fun h => .ok (cursor.next? h)) m = .ok (some (v, rest)) m :=
    congrArg (EStateM.Result.ok · m) h
  rw [forRounds_succ, Run.bind_ok reads]
  refine congrFun ?_ m
  simp only [round, bind_assoc]
  refine congrArg _ (funext fun _ => congrArg _ (funext fun _ => ?_))
  refine congrArg _ (funext fun flow => ?_)
  cases flow <;> simp

end Rounds

/-! ## Items in order -/

/-- What comes first behind a position stands at it. -/
theorem at_drop {α : Type} {xs rest : List α} {x : α} {position : Nat}
    (h : xs.drop position = x :: rest) :
    xs[position]? = some x ∧ xs.drop (position + 1) = rest := by
  rw [← List.head?_drop, ← List.tail_drop, h]
  exact ⟨rfl, rfl⟩

theorem none_at_drop {α : Type} {xs : List α} {position : Nat} (h : xs.drop position = []) :
    xs[position]? = none :=
  List.getElem?_eq_none (List.drop_eq_nil_iff.mp h)

/-- The cursor comes to these values one after the other, whatever happens to lists. -/
inductive Cursor.Yields : Cursor → List Value → Prop
  | nil {c : Cursor} (ends : ∀ h, c.next? h = none) : Yields c []
  | cons {c c' : Cursor} {v : Value} {rest : List Value} (next : ∀ h, c.next? h = some (v, c'))
    (later : Yields c' rest) : Yields c (v :: rest)

namespace Cursor.Yields

theorem tuple (vs : List Value) : ∀ {rest : List Value} {position : Nat},
    vs.drop position = rest → (Cursor.tuple vs position).Yields rest
  | [], _, ends => nil fun _ => by rw [next?, none_at_drop ends, Option.map_none]
  | _ :: _, _, next =>
    cons (fun _ => by rw [next?, (at_drop next).1, Option.map_some]) (tuple vs (at_drop next).2)

theorem str (s : String) : ∀ {rest : List Char} {position : Nat},
    s.toList.drop position = rest → (Cursor.str s position).Yields (rest.map Value.ofChar)
  | [], _, ends => nil fun _ => by rw [next?, none_at_drop ends, Option.map_none]
  | _ :: _, _, next =>
    cons (fun _ => by rw [next?, (at_drop next).1, Option.map_some]) (str s (at_drop next).2)

theorem range (s : Span) : ∀ count position : Nat, position + count = s.length →
    (Cursor.range s position).Yields
      ((List.range' position count).map fun i => .int (s.item i))
  | 0, position, hc => nil fun _ => if_neg (by omega)
  | count + 1, position, hc =>
    cons (fun _ => if_pos (by omega)) (range s count (position + 1) (by omega))

/-- A loop over a value that is no list comes to the items that the value has. -/
theorem start {h : Heap} {v : Value} {xs : Array Value} (hv : ∀ place, v ≠ .list place)
    (hx : h.iterate v = .ok xs) : ∃ c, Cursor.start v = .ok c ∧ c.Yields xs.toList := by
  cases v with
  | list place => exact absurd rfl (hv place)
  | tuple id vs =>
    cases hx
    exact ⟨_, rfl, tuple vs rfl⟩
  | str text =>
    cases hx
    exact ⟨_, rfl, str text rfl⟩
  | range s =>
    have made : xs = (s.items.map Value.int).toArray := by
      simp only [Heap.iterate] at hx
      cases hf : Compute.fits s.length with
      | ok u =>
        rw [hf] at hx
        cases hx
        rfl
      | error e =>
        rw [hf] at hx
        cases hx
    refine ⟨_, rfl, ?_⟩
    have yields := range s s.length 0 (Nat.zero_add _)
    rw [made, Span.items, List.map_map, List.range_eq_range']
    exact yields
  | _ => cases hx

end Cursor.Yields

section Loops

variable {timeout : Option Nat} {line : Nat} {take take' : Value → Run Unit}
  {body body' otherwise otherwise' : Run Flow}

/-- With a round for each item and one to see that there are no more, a loop takes the items in
order. -/
theorem forRounds_eq_eachRound {c : Cursor} {xs : List Value} (hc : c.Yields xs) :
    ∀ {rounds : Nat}, xs.length < rounds →
    forRounds timeout line take body otherwise rounds c
      = eachRound timeout line take body otherwise xs := by
  induction hc with
  | nil ends =>
    intro rounds hr
    obtain ⟨rounds, rfl⟩ := Nat.exists_eq_add_one_of_ne_zero (Nat.ne_zero_of_lt hr)
    exact funext fun m => forRounds_done (ends m.heap) rounds
  | cons next later ih =>
    intro rounds hr
    obtain ⟨rounds, rfl⟩ := Nat.exists_eq_add_one_of_ne_zero (Nat.ne_zero_of_lt hr)
    funext m
    rw [forRounds_next (next m.heap), ih (Nat.lt_of_succ_lt_succ hr), eachRound]

variable {p : Nat} {items : Array Value}

theorem round_beside
    (ht : ∀ v, RunsBeside p items id id (take v) (take' ((Recoding.beside p items).value v)))
    (hb : RunsBeside p items Recoding.same.flow (Recoding.beside p items).flow body body')
    (v : Value) :
    RunsBeside p items (Option.map Recoding.same.flow)
      (Option.map (Recoding.beside p items).flow) (round timeout line take body v)
      (round timeout line take' body' ((Recoding.beside p items).value v)) := by
  refine (RunsBeside.setLine line).bind fun _ => (ht v).bind fun _ => hb.bind fun flow => ?_
  cases flow with
  | leaveLoop => exact .pure (some Flow.normal)
  | giveBack v => exact .pure (some (Flow.giveBack v))
  | normal | nextRound => exact (RunsBeside.tick timeout).bind fun _ => .pure none

/-- A loop over items runs as the loop over a list of them that stands beside the others: nothing
changes the list, so the loop finds there what is left of the items. -/
theorem forRounds_beside
    (ht : ∀ v, RunsBeside p items id id (take v) (take' ((Recoding.beside p items).value v)))
    (hb : RunsBeside p items Recoding.same.flow (Recoding.beside p items).flow body body')
    (ho : RunsBeside p items Recoding.same.flow (Recoding.beside p items).flow otherwise
      otherwise') :
    ∀ (rounds position : Nat) (c : Cursor), c.Yields (items.toList.drop position) →
    RunsBeside p items Recoding.same.flow (Recoding.beside p items).flow
      (forRounds timeout line take body otherwise rounds c)
      (forRounds timeout line take' body' otherwise' rounds (.list p position))
  | 0, _, _, _ => .error .outOfRounds
  | rounds + 1, position, c, hc => by
    intro m fits
    let ρ := Recoding.beside p items
    have found : (Cursor.list p position).next? (ρ.machine m).heap
        = items[position]?.map fun v => (ρ.value v, .list p (position + 1)) := by
      rw [Cursor.next?, Recoding.items_machine_beside fits, Array.getElem?_map, Option.map_map]
      rfl
    generalize hxs : items.toList.drop position = xs at hc
    cases hc with
    | nil ends =>
      have none : items[position]? = .none := Array.getElem?_toList.symm.trans (none_at_drop hxs)
      rw [none] at found
      rw [forRounds_done (ends m.heap), forRounds_done found]
      exact ho m fits
    | @cons _ c' v rest next later =>
      obtain ⟨first, remaining⟩ := at_drop hxs
      have some : items[position]? = .some v := Array.getElem?_toList.symm.trans first
      rw [some] at found
      rw [forRounds_next (next m.heap), forRounds_next found]
      refine (round_beside ht hb v).bind (fun ended => ?_) m fits
      cases ended with
      | some flow => exact .pure flow
      | none =>
        exact forRounds_beside ht hb ho rounds (position + 1) c' (by rwa [remaining])

end Loops

/-! ## Loops over values -/

section Values

variable {timeout : Option Nat} {rounds depth line : Nat} {target : Expr}
  {body otherwise : List Stmt} {h : Heap} {v : Value} {xs : Array Value}

/-- A loop over a value that is no list takes its items in order. -/
theorem loopOver_eq_eachRound (c : Control) (hv : ∀ place, v ≠ .list place)
    (hx : h.iterate v = .ok xs) (hr : xs.size < c.rounds) :
    loopOver c line target body otherwise v
      = eachRound c.timeout line (assign c.user target) (runBlock c body) (runBlock c otherwise)
          xs.toList := by
  obtain ⟨cursor, hstart, yields⟩ := Cursor.Yields.start hv hx
  rw [loopOver, hstart, Run.of, pure_bind]
  exact forRounds_eq_eachRound yields (by rwa [Array.length_toList])

/-- A loop over a value that is no list runs as the loop over a list of its items that stands beside
the others. -/
theorem loopOver_beside (p : Nat) (hv : ∀ place, v ≠ .list place) (hx : h.iterate v = .ok xs) :
    let c : Control := ⟨userCall timeout rounds depth, timeout, rounds⟩
    RunsBeside p xs Recoding.same.flow (Recoding.beside p xs).flow
      (loopOver c line target body otherwise v)
      (loopOver c line target body otherwise (.list p)) := by
  intro c
  have calls : (RunsBeside.judgement p xs).Calls c.user c.user := RunsBeside.userCall depth
  obtain ⟨cursor, hstart, yields⟩ := Cursor.Yields.start hv hx
  rw [loopOver, loopOver, hstart]
  refine forRounds_beside (fun v => ?_) (.block calls body) (.block calls otherwise) rounds 0 cursor
    yields
  have assigned := (RunsBeside.judgement p xs).assign calls v target (fun _ _ => trivial)
    (.inl (RunsBeside.judgement p xs).lenient)
  rwa [Recoding.value_same] at assigned

/-- The list makes no difference to the loop over the value itself. -/
theorem loopOver_value (p : Nat) (v : Value) :
    let c : Control := ⟨userCall timeout rounds depth, timeout, rounds⟩
    RunsBeside p xs Recoding.same.flow (Recoding.beside p xs).flow
      (loopOver c line target body otherwise v)
      (loopOver c line target body otherwise ((Recoding.beside p xs).value v)) := by
  intro c
  have calls : (RunsBeside.judgement p xs).Calls c.user c.user := RunsBeside.userCall depth
  let C := RunsBeside.conduct p xs timeout
  have started := C.expr.of (Recoding.same.start_value v) ((Recoding.beside p xs).start_value v)
  rw [Recoding.value_same] at started
  exact started.bind fun cursor => C.forRounds line
    (fun v => C.expr.assign calls v target (fun _ _ => trivial) (.inl C.expr.lenient))
    (.block calls body) (.block calls otherwise) rounds rounds cursor (.inl rfl)

end Values

/-- **Going through items one by one is going through a list of them.** Let a tuple, a text or a
range have the items `xs`, and let there be one more list, at any place `p` among the others, that
holds them and that nothing in the machine leads to. The loop over that list ends as the loop over
the value, with the list there or without it: with the same result or fault, at the same session,
line and number of ticks, with the same names and the same lists, up to the places behind `p`. The
list holds its items in the end. A list that is newly made is one of that kind. The loop assigns the
items in their order, and comes to its last part if no round ends it. It is the loop of a `for`
statement over the value. -/
theorem lazy_loop_as_over_list {m : Machine} {v : Value} {xs : Array Value}
    (hv : ∀ place, v ≠ .list place) (hx : m.heap.iterate v = .ok xs) (timeout : Option Nat)
    (rounds depth line : Nat) (target : Expr) (body otherwise : List Stmt) :
    let c : Control := ⟨userCall timeout rounds depth, timeout, rounds⟩
    let loop := loopOver c line target body otherwise
    (∀ p ≤ m.heap.size, let ρ := Recoding.beside p xs
      p ∉ (ρ.machine m).places ∧ (ρ.machine m).heap.items p = xs.map ρ.value ∧
      loop (.list p) (ρ.machine m) = ρ.ending ρ.flow (loop v m) ∧
      loop (ρ.value v) (ρ.machine m) = ρ.ending ρ.flow (loop v m) ∧
      (leftBy (loop (.list p) (ρ.machine m))).heap.items p = xs.map ρ.value) ∧
    ((∀ n ∈ m.places ++ Value.allPlaces xs.toList, n < m.heap.size) →
      let ρ := Recoding.beside m.heap.size xs
      let made := m.heap.insert xs
      loop made.1 { m with heap := made.2 } = ρ.ending ρ.flow (loop v m)) ∧
    (xs.size < rounds → loop v = eachRound timeout line (assign c.user target) (runBlock c body)
      (runBlock c otherwise) xs.toList) ∧
    ∀ items, runStmt c (.forLoop line target items body otherwise) = (do
      Run.setLine line
      Run.tick timeout
      let v ← eval c.user items
      loop v) := by
  intro c loop
  have overList (p : Nat) : RunsBeside p xs Recoding.same.flow (Recoding.beside p xs).flow
      (loop v) (loop (.list p)) := loopOver_beside p hv hx
  refine ⟨fun p hp => ?_, fun closed => ?_, loopOver_eq_eachRound c hv hx,
    fun items => runStmt_forLoop c line target items body otherwise⟩
  · intro ρ
    obtain ⟨same, stays⟩ := (overList p).ends hp
    obtain ⟨same', -⟩ := RunsBeside.ends (loopOver_value p v) hp
    refine ⟨Recoding.not_mem_places_beside m, Recoding.items_machine_beside hp, same, same', ?_⟩
    rw [same, Recoding.leftBy_ending]
    exact Recoding.items_machine_beside stays
  · intro ρ made
    obtain ⟨places, placesOfItems⟩ := List.forall_mem_append.mp closed
    obtain ⟨same, -⟩ := (overList m.heap.size).ends (Nat.le_refl _)
    rwa [Recoding.machine_beside_size places placesOfItems] at same

/-- A loop over a range, and over a list that is made of its items. -/
theorem lazy_loop_as_over_list_range :
    let m := Machine.start default
    let v : Value := .range ⟨0, 2, 1⟩
    let xs : Array Value := #[.int 0, .int 1]
    let c : Control := ⟨userCall none 3 1, none, 3⟩
    let items : Expr := .call (.name "range") [.literal (.int 2)] []
    let body : List Stmt := [.expr 2 (.call (.name "print") [.name "i"] [])]
    let loop := loopOver c 1 (.name "i") body []
    let ρ := Recoding.beside 0 xs
    let made := m.heap.insert xs
    (∀ place, v ≠ .list place) ∧ m.heap.iterate v = .ok xs
      ∧ m.places ++ Value.allPlaces xs.toList = []
      ∧ loop made.1 { m with heap := made.2 } = ρ.ending ρ.flow (loop v m)
      ∧ loop v = eachRound none 1 (assign c.user (.name "i")) (runBlock c body) (runBlock c [])
          xs.toList
      ∧ runStmt c (.forLoop 1 (.name "i") items body []) = (do
          Run.setLine 1
          Run.tick none
          let v ← eval c.user items
          loop v) := by
  intro m v xs c items body loop ρ made
  have noList (place : Nat) : v ≠ .list place := Value.noConfusion
  have inside : m.heap.iterate v = .ok xs := rfl
  have closed : m.places ++ Value.allPlaces xs.toList = [] := rfl
  obtain ⟨-, fresh, inOrder, statement⟩ :=
    lazy_loop_as_over_list noList inside none 3 1 1 (.name "i") body []
  refine ⟨noList, inside, closed, fresh fun n hn => ?_, inOrder (by decide), statement items⟩
  rw [closed] at hn
  cases hn

end SortTrace
