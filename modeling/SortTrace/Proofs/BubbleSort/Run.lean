import SortTrace.Proofs.BubbleSort.Exchanges
import SortTrace.Proofs.BubbleSort.Script
import SortTrace.Proofs.Sessions
import SortTrace.Proofs.Swap

/-!
# Runs of a bubble sort

`Holds` says what the machine holds while the loops of the script run: the list as it is now and the
states logged so far. One lemma for each statement says what becomes of the two. A step of a pass
then moves the list on as `Came` and `Bubbled` allow, and the two loops keep what a step keeps.
-/

namespace SortTrace.BubbleSort

open Script

/-- The line that logs a list of integers. -/
def stateLine (xs : List Int) : String :=
  Session.stateMarker ++ (Value.intsJson xs).oneLine ++ "\n"

/-- The session after the given states were logged. -/
def logged (states : List (List Int)) : Session :=
  { Session.start .stream [] none with
    sink := ⟨(String.join (states.map stateLine)).toUTF8, none⟩
    states := states.length }

theorem log_logged (states : List (List Int)) (xs : List Int) (line : Nat) :
    Session.log (Value.intsJson xs) line (logged states) = .ok () (logged (states ++ [xs])) := by
  rw [Session.log_stream _ _ rfl rfl]
  congr 1
  simp [logged, stateLine]

/-- The builtins that the loops of the script call. -/
def called : List Builtin :=
  [.range, .logState, .print]

/-- The machine holds the list `xs` of `n` items, and logged the given states. -/
structure Holds (n : Nat) (states : List (List Int)) (xs : List Int) (m : Machine) : Prop where
  frames : m.scopes.frames = []
  list : m.scopes.globals.find? "arr" = some (.list 0)
  size : m.scopes.globals.find? "n" = some (.ofInt n)
  free : ∀ b ∈ called, m.scopes.globals.find? b.name = none
  lists : m.heap.lists = #[Value.ofInts xs]
  session : m.session = logged states
  small : ∀ x ∈ xs, Small x
  length : xs.length = n
  /-- No machine holds a longer list. -/
  bound : n < 2 ^ 63

variable {xs : List Int} {states : List (List Int)} {m m' : Machine} {c : Control}
  {n i j k : Nat} {user : UserCall}

theorem small_position (h : i < 2 ^ 63) : Small (i : Int) :=
  .of_bounds (by omega) (by omega)

/-- The position behind the one of the pass. -/
theorem yields_next (hj : m.scopes.lookup "j" = some (.ofInt j)) (hlt : j + 1 < 2 ^ 63) :
    Yields user m next (.ofInt (j + 1 : Nat)) := by
  have sum : Small ((j : Int) + 1) := by
    have small := small_position hlt
    rwa [Nat.cast_add_one] at small
  have one : Yields user m (.literal (.int 1)) (.ofInt 1) := rfl
  have value := Value.add_ofInt (h := m.heap) (small_position (by omega)) (by decide) sum
  rw [Nat.cast_add_one]
  exact .binary (.bound hj) one value

theorem swapped_ofInts (hj : j < xs.length) (h : j + 1 < xs.length) :
    swapped (Value.ofInts xs) j (j + 1) (.ofInt xs[j]) (.ofInt xs[j + 1])
      = Value.ofInts (exchangedAt xs j h) := by
  simp [swapped, Value.ofInts, exchangedAt, List.map_set]

namespace Holds

/-! ## Names -/

theorem of_scopes (h : Holds n states xs m) (hscopes : m'.scopes = m.scopes)
    (hlists : m'.heap.lists = m.heap.lists) (hsession : m'.session = m.session) :
    Holds n states xs m' :=
  ⟨hscopes ▸ h.frames, hscopes ▸ h.list, hscopes ▸ h.size, hscopes ▸ h.free, hlists ▸ h.lists,
    hsession ▸ h.session, h.small, h.length, h.bound⟩

theorem lookup (h : Holds n states xs m) (name : String) :
    m.scopes.lookup name = m.scopes.globals.find? name := by
  rw [Scopes.lookup, h.frames]

/-- The names of the positions can be bound. -/
theorem bind (h : Holds n states xs m) {name : String} (hname : name ∈ ["i", "j"]) (v : Value) :
    Holds n states xs { m with scopes := m.scopes.assign name v } := by
  have assigned : m.scopes.assign name v
      = { m.scopes with globals := Bindings.insert name v m.scopes.globals } := by
    simp only [Scopes.assign, h.frames]
  have kept {other : String} (hother : other ∉ ["i", "j"]) :
      (Bindings.insert name v m.scopes.globals).find? other = m.scopes.globals.find? other := by
    refine Bindings.find?_insert_of_ne _ _ ?_
    rintro rfl
    exact hother hname
  rw [assigned]
  refine ⟨h.frames, ?_, ?_, fun b hb => ?_, h.lists, h.session, h.small, h.length, h.bound⟩
  · exact (kept (by decide)).trans h.list
  · exact (kept (by decide)).trans h.size
  · refine (kept ?_).trans (h.free b hb)
    revert b
    decide

theorem yields_list (h : Holds n states xs m) : Yields user m (.name "arr") (.list 0) :=
  .bound ((h.lookup "arr").trans h.list)

theorem yields_size (h : Holds n states xs m) : Yields user m (.name "n") (.ofInt n) :=
  .bound ((h.lookup "n").trans h.size)

theorem yields_called (h : Holds n states xs m) {b : Builtin} (hb : b ∈ called) :
    Yields user m (.name b.name) (.builtin b) := by
  refine .builtin ((h.lookup b.name).trans (h.free b hb)) ?_
  revert b
  decide

/-! ## Items -/

/-- An item of the list. -/
theorem yields_item (h : Holds n states xs m) {e : Expr} (he : Yields user m e (.ofInt i))
    (hi : i < xs.length) : Yields user m (item e) (.ofInt xs[i]) := by
  have bound : xs.length < 2 ^ 63 := by
    rw [h.length]
    exact h.bound
  exact .index h.yields_list he (Value.item_of_position (Heap.items_of_lists h.lists)
    (Value.position?_ofInts hi bound) (Value.getElem?_ofInts hi))

/-! ## Statements -/

/-- The assignment that exchanges the items at the position of the pass and behind it. -/
theorem exchange (h : Holds n states xs m) (hc : c.timeout = none)
    (hj : m.scopes.lookup "j" = some (.ofInt j)) (hle : j < xs.length) (hlt : j + 1 < xs.length)
    (hout : xs[j + 1] < xs[j]) :
    ∃ m', runStmt c (.assign 6 [.tuple [item (.name "j"), item next]]
        (.tuple [item next, item (.name "j")])) m = .ok .normal m' ∧
      m'.scopes = m.scopes ∧ Holds n states (exchangedAt xs j hlt) m' := by
  have length := h.length
  have bound : xs.length < 2 ^ 63 := by
    rw [length]
    exact h.bound
  have exchanged : runStmt c (.assign 6 [.tuple [item (.name "j"), item next]]
        (.tuple [item next, item (.name "j")])) m
      = .ok .normal { m.entered 6 with
          heap := ⟨#[Value.ofInts (exchangedAt xs j hlt)], m.heap.marks + 1⟩ } := by
    rw [← swapped_ofInts hle hlt]
    exact runStmt_swap hc h.lists
      (fun m' hm' => .bound (hm' ▸ (h.lookup "arr").trans h.list))
      (fun m' hm' => .bound (hm' ▸ hj)) (fun m' hm' => yields_next (hm' ▸ hj) (by omega))
      (Value.position?_ofInts hle bound) (Value.position?_ofInts hlt bound)
      (Value.getElem?_ofInts hle) (Value.getElem?_ofInts hlt)
  have same := (exchange_exchangedAt hlt hout).perm
  exact ⟨_, exchanged, rfl, h.frames, h.list, h.size, h.free, rfl, h.session,
    fun x hx => h.small x (same.mem_iff.mp hx), same.length_eq.trans length, h.bound⟩

/-- The call that logs the list. -/
theorem log (h : Holds n states xs m) (hc : c.timeout = none) :
    ∃ m', runStmt c (.expr 6 (.call (.name "log_state") [.name "arr"] [])) m = .ok .normal m' ∧
      m'.scopes = m.scopes ∧ Holds n (states ++ [xs]) xs m' := by
  have entered : Holds n states xs (m.entered 6) := h.of_scopes rfl rfl rfl
  have name : Yields c.user (m.entered 6) (.name "log_state") (.builtin .logState) :=
    entered.yields_called (b := .logState) (by decide)
  have told : Session.log (Value.intsJson xs) (m.entered 6).line (m.entered 6).session
      = .ok () (logged (states ++ [xs])) := by
    rw [entered.session, log_logged]
  have logs := eval_logState name entered.yields_list (Value.toJson_ofInts h.lists h.small) told
  exact ⟨_, runStmt_expr hc logs, rfl, h.frames, h.list, h.size, h.free, h.lists, rfl, h.small,
    h.length, h.bound⟩

/-- The statements of an exchange. -/
theorem exchangeBlock (h : Holds n states xs m) (hc : c.timeout = none)
    (hj : m.scopes.lookup "j" = some (.ofInt j)) (hle : j < xs.length) (hlt : j + 1 < xs.length)
    (hout : xs[j + 1] < xs[j]) :
    ∃ m', runBlock c BubbleSort.exchangeBlock m = .ok .normal m' ∧ m'.scopes = m.scopes ∧
      Holds n (states ++ [exchangedAt xs j hlt]) (exchangedAt xs j hlt) m' := by
  obtain ⟨m₁, exchanged, scopes₁, h₁⟩ := h.exchange hc hj hle hlt hout
  obtain ⟨m₂, logged, scopes₂, h₂⟩ := h₁.log hc
  refine ⟨m₂, ?_, scopes₂.trans scopes₁, h₂⟩
  rw [BubbleSort.exchangeBlock, runBlock_cons exchanged, runBlock_cons logged]
  rfl

end Holds

/-! ## Loops -/

/-- The machine holds a list that `L` came to be, of which a property is known. -/
def Sorts (L : List Int) (P : List Int → Prop) (m : Machine) : Prop :=
  ∃ states xs, Came L states xs ∧ Holds L.length states xs m ∧ P xs

variable {L : List Int}

theorem Sorts.of_scopes {P : List Int → Prop} (h : Sorts L P m) (hscopes : m'.scopes = m.scopes)
    (hlists : m'.heap.lists = m.heap.lists) (hsession : m'.session = m.session) : Sorts L P m' := by
  obtain ⟨states, xs, came, holds, hP⟩ := h
  exact ⟨states, xs, came, holds.of_scopes hscopes hlists hsession, hP⟩

/-- A step of a pass. -/
theorem runBlock_passBody (hc : c.timeout = none) (h : Sorts L (Bubbled k j) m)
    (hj : m.scopes.lookup "j" = some (.ofInt j)) (hjk : j < k) (hk : k < L.length) :
    ∃ m', runBlock c passBody m = .ok .normal m' ∧ Sorts L (Bubbled k (j + 1)) m' := by
  obtain ⟨states, xs, came, holds, bubbled⟩ := h
  have length := holds.length
  have bound := holds.bound
  have hlt : j + 1 < xs.length := by omega
  have entered : Holds L.length states xs (m.entered 5) := holds.of_scopes rfl rfl rfl
  have this : Yields c.user (m.entered 5) (item (.name "j")) (.ofInt xs[j]) :=
    entered.yields_item (.bound hj) (by omega)
  have next : Yields c.user (m.entered 5) (item next) (.ofInt xs[j + 1]) :=
    entered.yields_item (yields_next hj (by omega)) hlt
  have small := holds.small
  have compared := Yields.compare this next (Value.gt_ofInt (h := m.heap)
    (small _ (List.getElem_mem _)) (small _ (List.getElem_mem _)))
  have branch : runStmt c (.branch 5 [(.compare (item (.name "j")) [(.gt, item BubbleSort.next)],
        exchangeBlock)] []) m
      = if decide (xs[j + 1] < xs[j]) then runBlock c exchangeBlock (m.entered 5)
        else .ok .normal (m.entered 5) := runStmt_branch hc compared.holds
  by_cases hout : xs[j + 1] < xs[j]
  · obtain ⟨m', exchanged, -, holds'⟩ := entered.exchangeBlock hc hj (by omega) hlt hout
    rw [decide_eq_true hout] at branch
    refine ⟨m', ?_, _, _, came.exchange (exchange_exchangedAt hlt hout), holds',
      bubbled.exchanged hlt hjk hout⟩
    rw [passBody, runBlock_cons (branch.trans exchanged)]
    rfl
  · rw [decide_eq_false hout] at branch
    refine ⟨m.entered 5, ?_, states, xs, came, entered, bubbled.keep hlt (Int.not_lt.mp hout)⟩
    rw [passBody, runBlock_cons branch]
    rfl

theorem Sorts.bind {P : List Int → Prop} (h : Sorts L P m) {name : String}
    (hname : name ∈ ["i", "j"]) (v : Value) :
    Sorts L P { m with scopes := m.scopes.assign name v } ∧
      (m.scopes.assign name v).lookup name = some v := by
  obtain ⟨states, xs, came, holds, hP⟩ := h
  refine ⟨⟨states, xs, came, holds.bind hname v, hP⟩, ?_⟩
  simp only [Scopes.assign, Scopes.lookup, holds.frames, Bindings.find?_insert_self]

/-- The number of steps of a pass. -/
theorem Holds.yields_passEnd (h : Holds n states xs m) (hi : m.scopes.lookup "i" = some (.ofInt i))
    (hin : i < n) : Yields user m passEnd (.ofInt (n - i - 1 : Nat)) := by
  have bound := h.bound
  have rest : ((n - i : Nat) : Int) = n - i := by omega
  have last : ((n - i - 1 : Nat) : Int) = n - i - 1 := by omega
  have small : Small ((n : Int) - i) := by
    rw [← rest]
    exact small_position (by omega)
  have small' : Small ((n : Int) - i - 1) := by
    rw [← last]
    exact small_position (by omega)
  have one : Yields user m (.literal (.int 1)) (.ofInt 1) := rfl
  have left : Yields user m (.binary .sub (.name "n") (.name "i")) (.ofInt (n - i)) :=
    .binary h.yields_size (.bound hi)
      (Value.sub_ofInt (small_position bound) (small_position (by omega)) small)
  rw [last]
  exact .binary left one (Value.sub_ofInt small (by decide) small')

/-- A pass brings one more item to its place. -/
theorem runStmt_pass (hc : c.timeout = none) (h : Sorts L (Settled (L.length - i)) m)
    (hi : m.scopes.lookup "i" = some (.ofInt i)) (hin : i < L.length)
    (hrounds : L.length < c.rounds) :
    ∃ m', runStmt c pass m = .ok .normal m' ∧ Sorts L (Settled (L.length - (i + 1))) m' := by
  obtain ⟨states, xs, came, holds, settled⟩ := h
  have bound := holds.bound
  obtain ⟨k, hk⟩ : ∃ k, k = L.length - i - 1 := ⟨_, rfl⟩
  have entered : Holds L.length states xs (m.entered 4) := holds.of_scopes rfl rfl rfl
  have items : Yields c.user (m.entered 4)
      (.call (.name "range") [.literal (.int 0), passEnd] []) (.range (.upTo k)) := by
    have name : Yields c.user (m.entered 4) (.name "range") (.builtin .range) :=
      entered.yields_called (b := .range) (by decide)
    rw [hk]
    exact .call name (.cons (.literal (.int 0)) (.cons (entered.yields_passEnd hi hin) .nil)) rfl
  have length : (Span.upTo k).length = k := Span.length_upTo (by omega)
  have start : Sorts L (Bubbled k 0) (m.entered 4) := by
    refine ⟨states, xs, came, entered, .start ?_⟩
    have next : k + 1 = L.length - i := by omega
    rwa [next]
  have round : ∀ j < (Span.upTo k).length, ∀ m, Sorts L (Bubbled k j) m → ∃ m₁ m₂,
      assign c.user (.name "j") (.int ((Span.upTo k).item j)) { m with line := 4 } = .ok () m₁ ∧
        runBlock c passBody m₁ = .ok .normal m₂ ∧
        Sorts L (Bubbled k (j + 1)) { m₂ with ticks := m₂.ticks + 1 } := by
    intro j hj m hm
    rw [length] at hj
    have j_mem : "j" ∈ ["i", "j"] := by decide
    have here : Sorts L (Bubbled k j) { m with line := 4 } := hm.of_scopes rfl rfl rfl
    obtain ⟨bound, found⟩ := here.bind j_mem (.ofInt j)
    obtain ⟨m₂, run, sorts⟩ := runBlock_passBody hc bound found hj (by omega)
    rw [Span.item_upTo]
    exact ⟨_, m₂, rfl, run, sorts.of_scopes rfl rfl rfl⟩
  obtain ⟨m', run, sorts⟩ := forRounds_range round (fun _ => rfl) c.rounds 0 (m.entered 4)
    (by omega) (Nat.zero_le _) start
  rw [length] at sorts
  refine ⟨m', (runStmt_range hc items).trans run, ?_⟩
  obtain ⟨states, xs, came, holds, bubbled⟩ := sorts
  have left : L.length - (i + 1) = k := by omega
  rw [left]
  exact ⟨states, xs, came, holds, bubbled.finish⟩

/-- All passes bring all items to their places. -/
theorem runStmt_passes (hc : c.timeout = none) (h : Sorts L (Settled L.length) m)
    (hrounds : L.length < c.rounds) :
    ∃ m', runStmt c (.forLoop 3 (.name "i") (.call (.name "range") [.name "n"] []) [pass] []) m
      = .ok .normal m' ∧ Sorts L (Settled 0) m' := by
  obtain ⟨states, xs, came, holds, settled⟩ := h
  have entered : Holds L.length states xs (m.entered 3) := holds.of_scopes rfl rfl rfl
  have items : Yields c.user (m.entered 3) (.call (.name "range") [.name "n"] [])
      (.range (.upTo L.length)) := by
    have name : Yields c.user (m.entered 3) (.name "range") (.builtin .range) :=
      entered.yields_called (b := .range) (by decide)
    exact .call name (.cons entered.yields_size .nil) rfl
  have length : (Span.upTo L.length).length = L.length := Span.length_upTo holds.bound
  have round : ∀ i < (Span.upTo L.length).length, ∀ m, Sorts L (Settled (L.length - i)) m →
      ∃ m₁ m₂, assign c.user (.name "i") (.int ((Span.upTo L.length).item i)) { m with line := 3 }
          = .ok () m₁ ∧ runBlock c [pass] m₁ = .ok .normal m₂ ∧
        Sorts L (Settled (L.length - (i + 1))) { m₂ with ticks := m₂.ticks + 1 } := by
    intro i hi m hm
    rw [length] at hi
    have i_mem : "i" ∈ ["i", "j"] := by decide
    have here : Sorts L (Settled (L.length - i)) { m with line := 3 } := hm.of_scopes rfl rfl rfl
    obtain ⟨bound, found⟩ := here.bind i_mem (.ofInt i)
    obtain ⟨m₂, run, sorts⟩ := runStmt_pass hc bound found hi hrounds
    rw [Span.item_upTo]
    exact ⟨_, m₂, rfl, (runBlock_cons run).trans rfl, sorts.of_scopes rfl rfl rfl⟩
  obtain ⟨m', run, sorts⟩ := forRounds_range round (fun _ => rfl) c.rounds 0 (m.entered 3)
    (by omega) (Nat.zero_le _) ⟨states, xs, came, entered, settled⟩
  rw [length, Nat.sub_self] at sorts
  exact ⟨m', (runStmt_range hc items).trans run, sorts⟩

end SortTrace.BubbleSort
