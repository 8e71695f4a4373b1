import SortTrace.Proofs.ItemSwap.Script
import SortTrace.Proofs.Swap

/-!
# Two items exchanged, from the text to the output

Run on the text of the script, the program writes one line, whatever the two subscripts are
(`swap_exchanges`): the list with the items exchanged, or why it cannot be. Both items are read
before one is written, so a subscript out of range leaves nothing done.
-/

namespace SortTrace.ItemSwap

open Script (Expr Stmt)

variable {L : List Int} {i j : Int} {p q : Nat} {c : Control} {m : Machine} {user : UserCall}

/-! ## Positions -/

/-- The subscript denotes an item of a list of `n` items. -/
def InRange (n : Nat) (i : Int) : Prop :=
  -n ≤ i ∧ i < n

instance (n : Nat) : DecidablePred (InRange n) := fun _ =>
  inferInstanceAs (Decidable (_ ∧ _))

/-- The position that a subscript denotes; a negative one counts from the end. -/
def position (n : Nat) (i : Int) : Nat :=
  (if i < 0 then i + n else i).toNat

theorem position_lt {n : Nat} (h : InRange n i) : position n i < n := by
  obtain ⟨low, high⟩ := h
  rw [position]
  split <;> omega

theorem position?_ofInt {n : Nat} (hn : n < 2 ^ 63) (hi : Small i) :
    position? (Int64.ofInt i) n = if InRange n i then some (position n i) else none := by
  have room : ¬ positionLimit ≤ n := by
    rw [positionLimit]
    omega
  rw [position?, if_neg room, hi.toInt, position]
  dsimp only
  refine ite_congr (propext ?_) (fun _ => rfl) fun _ => rfl
  rw [InRange]
  split <;> omega

/-! ## Lists with two items exchanged -/

/-- The list with the items at two positions exchanged. -/
def exchanged (L : List Int) (p q : Nat) : List Int :=
  match L[p]?, L[q]? with
  | some x, some y => (L.set p y).set q x
  | _, _ => L

theorem exchanged_of_lt (hp : p < L.length) (hq : q < L.length) :
    exchanged L p q = (L.set p L[q]).set q L[p] := by
  rw [exchanged, List.getElem?_eq_getElem hp, List.getElem?_eq_getElem hq]

/-- Each position holds the item of the position that it is exchanged with. -/
theorem getElem?_exchanged (hp : p < L.length) (hq : q < L.length) (k : Nat) :
    (exchanged L p q)[k]? = L[Equiv.swap p q k]? := by
  rw [exchanged_of_lt hp hq, List.getElem?_set, List.getElem?_set, List.length_set,
    Equiv.swap_apply_def]
  by_cases hkq : q = k
  · subst hkq
    by_cases hkp : q = p
    · subst hkp
      simp [hq]
    · simp [hq, hkp, List.getElem?_eq_getElem hp]
  · by_cases hkp : p = k
    · subst hkp
      simp [hp, hkq, List.getElem?_eq_getElem hq]
    · simp [hkq, hkp, Ne.symm hkq, Ne.symm hkp]

theorem exchanged_self (hp : p < L.length) : exchanged L p p = L := by
  refine List.ext_getElem? fun k => ?_
  rw [getElem?_exchanged hp hp, Equiv.swap_self, Equiv.refl_apply]

theorem small_exchanged (h : ∀ x ∈ L, Small x) : ∀ x ∈ exchanged L p q, Small x := by
  intro x hx
  rw [exchanged] at hx
  split at hx
  · next a b ha hb =>
    rcases List.mem_or_eq_of_mem_set hx with hx | rfl
    · rcases List.mem_or_eq_of_mem_set hx with hx | rfl
      · exact h x hx
      · exact h _ (List.mem_of_getElem? hb)
    · exact h _ (List.mem_of_getElem? ha)
  · exact h x hx

theorem swapped_ofInts (hp : p < L.length) (hq : q < L.length) :
    swapped (Value.ofInts L) p q (.ofInt L[p]) (.ofInt L[q])
      = Value.ofInts (exchanged L p q) := by
  simp [swapped, Value.ofInts, exchanged_of_lt hp hq, List.map_set]

/-! ## The statements -/

/-- The machine behind the exchange. -/
def itemsExchanged (L : List Int) (p q : Nat) : Machine :=
  { (listBound L).entered 2 with heap := ⟨#[Value.ofInts (exchanged L p q)], 1⟩ }

theorem yields_list (hm : m.scopes = ⟨[("arr", .list 0)], []⟩) :
    Yields user m (.name "arr") (.list 0) := by
  refine .bound ?_
  rw [hm]
  rfl

/-- Both subscripts are in range. -/
theorem runStmt_exchange (hc : c.timeout = none) (hlength : L.length < 2 ^ 63) (hi : Small i)
    (hj : Small j) (hin : InRange L.length i) (hjn : InRange L.length j) :
    runStmt c (exchange i j) (listBound L)
      = .ok .normal (itemsExchanged L (position L.length i) (position L.length j)) := by
  have hp := position_lt hin
  have hq := position_lt hjn
  have at_ {x : Int} (hx : Small x) (h : InRange L.length x) :
      position? (Int64.ofInt x) (Value.ofInts L).size = some (position L.length x) := by
    rw [Value.size_ofInts, position?_ofInt hlength hx, if_pos h]
  rw [itemsExchanged, ← swapped_ofInts hp hq]
  exact runStmt_swap hc rfl (fun m' hm' => yields_list hm') (fun _ _ => .literal _)
    (fun _ _ => .literal _) (at_ hi hin) (at_ hj hjn) (Value.getElem?_ofInts hp)
    (Value.getElem?_ofInts hq)

/-- The line that logs a list of integers. -/
def stateLine (L : List Int) : String :=
  Session.stateMarker ++ (Value.intsJson L).oneLine ++ "\n"

/-- The list is logged. -/
theorem runStmt_logs (hc : c.timeout = none) (hL : ∀ x ∈ L, Small x) :
    ∃ m, runStmt c logs (itemsExchanged L p q) = .ok .normal m ∧ m.session.states = 1 ∧
      m.session.sink.bytes = (stateLine (exchanged L p q)).toUTF8 := by
  have name : Yields c.user ((itemsExchanged L p q).entered 2) (.name "log_state")
      (.builtin .logState) := .builtin rfl rfl
  have list : Yields c.user ((itemsExchanged L p q).entered 2) (.name "arr") (.list 0) :=
    yields_list rfl
  have document : (Value.list 0).toJson ((itemsExchanged L p q).entered 2).heap
      = .ok (Value.intsJson (exchanged L p q)) := Value.toJson_ofInts rfl (small_exchanged hL)
  have told := Session.log_stream (s := .start .stream [] none)
    (Value.intsJson (exchanged L p q)) 2 rfl rfl
  refine ⟨_, runStmt_expr hc (eval_logState name list document told), rfl, ?_⟩
  exact ByteArray.empty_append

/-- An item that the list has not. -/
theorem eval_item_outOfRange (hlength : L.length < 2 ^ 63) (hi : Small i)
    (h : ¬ InRange L.length i) : eval user (item i) ((listBound L).entered 2)
      = .error (.fault (.indexOutOfRange "list")) ((listBound L).entered 2) := by
  have nowhere : position? (Int64.ofInt i) (Value.ofInts L).size = none := by
    rw [Value.size_ofInts, position?_ofInt hlength hi, if_neg h]
  exact Yields.index_error (yields_list rfl) (.literal _)
    (Value.item_of_no_position rfl nowhere)

/-- A subscript is out of range. -/
theorem runStmt_outOfRange (hc : c.timeout = none) (hlength : L.length < 2 ^ 63) (hi : Small i)
    (hj : Small j) (h : ¬ (InRange L.length i ∧ InRange L.length j)) :
    runStmt c (exchange i j) (listBound L)
      = .error (.fault (.indexOutOfRange "list")) ((listBound L).entered 2) := by
  refine runStmt_assign_error hc (eval_pair_error ?_)
  by_cases hjn : InRange L.length j
  · have hin : ¬ InRange L.length i := fun hin => h ⟨hin, hjn⟩
    have there : position? (Int64.ofInt j) (Value.ofInts L).size = some (position L.length j) := by
      rw [Value.size_ofInts, position?_ofInt hlength hj, if_pos hjn]
    have read : Yields c.user ((listBound L).entered 2) (item j) _ :=
      .index (yields_list rfl) (.literal _) (Value.item_of_position rfl there
        (Value.getElem?_ofInts (position_lt hjn)))
    exact .inr ⟨⟨_, read⟩, eval_item_outOfRange hlength hi hin⟩
  · exact .inl (eval_item_outOfRange hlength hj hjn)

/-! ## The whole script -/

variable {closed : Bool} {rounds : Nat}

/-- The list is logged with the items exchanged. -/
theorem runSource_inRange (hL : ∀ x ∈ L, Small x) (hlength : L.length < 2 ^ 63) (hi : Small i)
    (hj : Small j) (hin : InRange L.length i) (hjn : InRange L.length j) :
    ∃ o, runSource (source L i j closed) .standard none rounds = .ok o ∧ o.fault = none ∧
      o.session.states = 1 ∧ o.session.sink.bytes
        = (stateLine (exchanged L (position L.length i) (position L.length j))).toUTF8 := by
  obtain ⟨c, hcontrol⟩ : ∃ c : Control, c = ⟨userCall none rounds 1000, none, rounds⟩ := ⟨_, rfl⟩
  have hc : c.timeout = none := by rw [hcontrol]
  obtain ⟨m, logged, states, bytes⟩ := runStmt_logs (p := position L.length i)
    (q := position L.length j) hc hL
  have ran : runBlock c (program L i j) (Machine.start (.start .stream [] none))
      = .ok .normal m := by
    rw [program, runBlock_cons (runStmt_bindList hc),
      runBlock_cons (runStmt_exchange hc hlength hi hj hin hjn), runBlock_cons logged]
    rfl
  exact ⟨_, runSource_standard (programOf_source hL hi hj) (hcontrol ▸ ran), rfl, states, bytes⟩

/-- The run stops at the exchange. -/
theorem runText_outOfRange (hL : ∀ x ∈ L, Small x) (hlength : L.length < 2 ^ 63) (hi : Small i)
    (hj : Small j) (h : ¬ (InRange L.length i ∧ InRange L.length j)) :
    runText Settings.standard.limits rounds (source L i j closed) "arr"
        (Machine.start (.start .stream [] none))
      = .error (.fault (.indexOutOfRange "list")) ((listBound L).entered 2) := by
  obtain ⟨c, hcontrol⟩ : ∃ c : Control, c = ⟨userCall none rounds 1000, none, rounds⟩ := ⟨_, rfl⟩
  have hc : c.timeout = none := by rw [hcontrol]
  have ran : runBlock c (program L i j) (Machine.start (.start .stream [] none))
      = .error (.fault (.indexOutOfRange "list")) ((listBound L).entered 2) := by
    rw [program, runBlock_cons (runStmt_bindList hc),
      runBlock_cons_error (runStmt_outOfRange hc hlength hi hj h)]
  exact runText_stopped (programOf_source hL hi hj) (hcontrol ▸ ran)

/-- The text is refused before anything runs. -/
theorem runText_overflow (hL : ∀ x ∈ L, Small x) (hi : Small i ∨ 2 ^ 63 ≤ i)
    (h : 2 ^ 63 ≤ i ∨ 2 ^ 63 ≤ j) :
    runText Settings.standard.limits rounds (source L i j closed) "arr"
        (Machine.start (.start .stream [] none))
      = .error (.fault .overflow) (Machine.start (.start .stream [] none)) := by
  rw [runText, programOf_overflow hL hi h]
  rfl

/-- **An exchange of two items, from its text to its output**: the run puts out one line and no
more. It is the list with the items at the two positions exchanged if both subscripts denote one,
which is the list itself where they denote the same; otherwise it says that a subscript is out of
range, or that it is too large to be read at all. A list of `2 ^ 63` items or more fits in no
memory. -/
theorem swap_exchanges (L : List Int) (hL : ∀ x ∈ L, Small x) (hlength : L.length < 2 ^ 63)
    (i j : Int) (hi : -2 ^ 63 < i) (hj : -2 ^ 63 < j) (closed : Bool) (rounds : Nat) :
    ∃ o, runSource (source L i j closed) .standard none rounds = .ok o ∧
      (InRange L.length i ∧ InRange L.length j →
        o.fault = none ∧ o.session.states = 1 ∧ o.session.sink.bytes
          = (stateLine (exchanged L (position L.length i) (position L.length j))).toUTF8 ∧
        (position L.length i = position L.length j →
          exchanged L (position L.length i) (position L.length j) = L)) ∧
      (¬ (InRange L.length i ∧ InRange L.length j) → i < 2 ^ 63 ∧ j < 2 ^ 63 →
        o.fault = some (.indexOutOfRange "list") ∧ o.session.states = 0 ∧
        o.session.sink.bytes = "Error: list index out of range\n".toUTF8) ∧
      (2 ^ 63 ≤ i ∨ 2 ^ 63 ≤ j →
        o.fault = some .overflow ∧ o.session.states = 0 ∧
        o.session.sink.bytes = "Error: integer overflow\n".toUTF8) := by
  by_cases hlarge : 2 ^ 63 ≤ i ∨ 2 ^ 63 ≤ j
  · have small : Small i ∨ 2 ^ 63 ≤ i := by
      rw [Small]
      omega
    have outside : ¬ (InRange L.length i ∧ InRange L.length j) := by
      rw [InRange, InRange]
      omega
    refine ⟨_, runSource_standard_stopped (runText_overflow hL small hlarge) rfl,
      fun h => absurd h outside, fun _ h => absurd hlarge (by omega), fun _ => ⟨rfl, rfl, rfl⟩⟩
  · have hi : Small i := by
      rw [Small]
      omega
    have hj : Small j := by
      rw [Small]
      omega
    by_cases h : InRange L.length i ∧ InRange L.length j
    · obtain ⟨o, ran, fault, states, bytes⟩ := runSource_inRange hL hlength hi hj h.1 h.2
      refine ⟨o, ran, fun _ => ⟨fault, states, bytes, fun same => ?_⟩, fun hout => absurd h hout,
        fun hl => absurd hl hlarge⟩
      rw [← same]
      exact exchanged_self (position_lt h.1)
    · exact ⟨_, runSource_standard_stopped (runText_outOfRange hL hlength hi hj h) rfl,
        fun hin => absurd hin h, fun _ _ => ⟨rfl, rfl, rfl⟩, fun hl => absurd hl hlarge⟩

theorem swap_exchanges_three : (∀ x ∈ [3, 1, 2], Small x) ∧ [(3 : Int), 1, 2].length < 2 ^ 63 ∧
    (-2 ^ 63 : Int) < 0 ∧ (-2 ^ 63 : Int) < -1 ∧ (InRange 3 0 ∧ InRange 3 (-1)) ∧
    exchanged [3, 1, 2] (position 3 0) (position 3 (-1)) = [2, 1, 3] ∧
    ∃ o, runSource (source [3, 1, 2] 0 (-1) true) .standard none 0 = .ok o ∧
      o.session.sink.bytes = (stateLine [2, 1, 3]).toUTF8 := by
  have inRange : InRange 3 0 ∧ InRange 3 (-1) := by decide
  obtain ⟨o, ran, exchanges, -, -⟩ :=
    swap_exchanges [3, 1, 2] (by decide) (by decide) 0 (-1) (by decide) (by decide) true 0
  obtain ⟨-, -, bytes, -⟩ := exchanges inRange
  exact ⟨by decide, by decide, by decide, by decide, inRange, rfl, o, ran, bytes⟩

/-- A subscript that is no 64-bit integer is not told to be out of range, though it is. -/
theorem large_subscript_overflows : ¬ ∀ (L : List Int) (i j : Int), (∀ x ∈ L, Small x) →
    -2 ^ 63 < i → -2 ^ 63 < j → ¬ (InRange L.length i ∧ InRange L.length j) →
    ∃ o, runSource (source L i j true) .standard none 0 = .ok o ∧
      o.session.sink.bytes = "Error: list index out of range\n".toUTF8 := by
  intro h
  obtain ⟨o, ran, bytes⟩ := h [1, 2] 0 (2 ^ 63) (by decide) (by decide) (by decide) (by decide)
  have stopped : runText Settings.standard.limits 0 (source [1, 2] 0 (2 ^ 63) true) "arr"
      (Machine.start (.start .stream [] none))
      = .error (.fault .overflow) (Machine.start (.start .stream [] none)) :=
    runText_overflow (by decide) (.inl (by decide)) (.inr (Int.le_refl _))
  rw [runSource_standard_stopped stopped rfl] at ran
  rw [← Except.ok.inj ran] at bytes
  revert bytes
  decide +kernel

end SortTrace.ItemSwap
