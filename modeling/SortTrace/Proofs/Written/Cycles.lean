import SortTrace.Proofs.Levels.Unfolding

/-!
# Lists that contain themselves

What is followed of a value ends where a list comes up inside itself. A mark in the tree stands for
a list that contains itself (`Unfolding.Of.cyclic`), and a value has no document exactly if it
reaches one of these or something that has no document of its own (`cycles_detected`).

The lists around a value need not be handed down. They can be kept on one stack for the whole value,
where a list stands while its items are followed: whatever ends without a fault leaves the stack as
it was, so that every item finds on it the lists around it (`Writes.list`, `Gives.list`).
-/

namespace SortTrace

open Report (Json)

/-- Ranges and functions have no document. -/
def Value.Unrecordable : Value → Prop
  | range _ | function .. | builtin _ => True
  | _ => False

namespace Heap

variable {h : Heap} {v w : Value} {place : Nat}

/-- One value leads to another through lists and tuples. -/
def Reaches (h : Heap) : Value → Value → Prop :=
  Relation.ReflTransGen h.Holds

/-- The list contains itself, directly or through other lists and tuples. -/
def Cyclic (h : Heap) (place : Nat) : Prop :=
  Relation.TransGen h.Holds (.list place) (.list place)

/-- The fault is due to something that the value reaches. -/
def Blames (h : Heap) (v : Value) (e : Fault) : Prop :=
  (e = .circular ∧ ∃ place, h.Reaches v (.list place) ∧ h.Cyclic place) ∨
    ∃ w, h.Reaches v w ∧ w.Unrecordable ∧ e = .notSerializable w.typeName

theorem Blames.of_holds {e : Fault} (hw : h.Holds v w) (he : h.Blames w e) : h.Blames v e :=
  he.imp (fun ⟨same, place, reached, cyclic⟩ => ⟨same, place, .head hw reached, cyclic⟩)
    fun ⟨x, reached, hx, same⟩ => ⟨x, .head hw reached, hx, same⟩

/-- A list contains itself if it is around itself. -/
theorem Around.cyclic {outer : List Nat} (ha : h.Around (.list place) outer)
    (hp : place ∈ outer) : h.Cyclic place :=
  ha.leads place hp

end Heap

namespace Value

/-! ## Marks -/

namespace Unfolding

variable {h : Heap}

mutual

/-- The places of the marks. -/
def marks : Unfolding → List Nat
  | atom _ => []
  | list us | tuple us => allMarks us
  | again place => [place]

/-- The places of the marks in the items. -/
def allMarks : List Unfolding → List Nat
  | [] => []
  | u :: us => marks u ++ allMarks us

end

mutual

/-- A mark stands for a list that contains itself. -/
theorem Of.cyclic : ∀ {u : Unfolding} {v : Value} {outer : List Nat}, u.Of h outer v →
    h.Around v outer → ∀ place ∈ u.marks, h.Cyclic place
  | atom _, _, _, _, _, _, hp => nomatch hp
  | again _, _, _, hu, ha, _, hp => by
    obtain ⟨rfl, outside⟩ := hu
    obtain rfl := List.mem_singleton.mp hp
    exact ha.cyclic outside
  | list _, _, _, hu, ha, place, hp => by
    obtain ⟨_, rfl, fresh, hus⟩ := hu
    exact hus.cyclic (fun w hw => ha.listItem fresh hw) place hp
  | tuple _, _, _, hu, ha, place, hp => by
    obtain ⟨_, _, rfl, hus⟩ := hu
    exact hus.cyclic (fun w hw => ha.tupleItem hw) place hp

theorem AllOf.cyclic : ∀ {us : List Unfolding} {vs : List Value} {outer : List Nat},
    AllOf h outer us vs → (∀ v ∈ vs, h.Around v outer) → ∀ place ∈ allMarks us, h.Cyclic place
  | [], _, _, _, _, _, hp => nomatch hp
  | _ :: _, _, _, hus, ha, place, hp => by
    obtain ⟨v, ws, rfl, hu, hus⟩ := hus
    obtain ⟨first, others⟩ := List.forall_mem_cons.mp ha
    exact (List.mem_append.mp hp).elim (hu.cyclic first place) (hus.cyclic others place)

end

theorem map_array_error {x : Except Fault (List Json)} {e : Fault}
    (hx : Json.array <$> x = .error e) : x = .error e := by
  cases x with
  | ok ds => cases hx
  | error e' => cases hx; rfl

theorem map_array_ok {x : Except Fault (List Json)} {d : Json} (hx : Json.array <$> x = .ok d) :
    ∃ ds, x = .ok ds ∧ d = .array ds := by
  cases x with
  | ok ds => cases hx; exact ⟨ds, rfl, rfl⟩
  | error e => cases hx

theorem jsons_cons_error {u : Unfolding} {us : List Unfolding} {e : Fault}
    (he : jsons (u :: us) = .error e) : u.json = .error e ∨ jsons us = .error e := by
  rw [jsons] at he
  cases hu : u.json with
  | error => rw [hu] at he; cases he; exact .inl rfl
  | ok d =>
    cases hus : jsons us with
    | error => rw [hu, hus] at he; cases he; exact .inr rfl
    | ok ds => rw [hu, hus] at he; cases he

theorem jsons_cons_ok {u : Unfolding} {us : List Unfolding} {docs : List Json}
    (hd : jsons (u :: us) = .ok docs) :
    ∃ d ds, u.json = .ok d ∧ jsons us = .ok ds ∧ docs = d :: ds := by
  rw [jsons] at hd
  cases hu : u.json with
  | error => rw [hu] at hd; cases hd
  | ok d =>
    cases hus : jsons us with
    | error => rw [hu, hus] at hd; cases hd
    | ok ds => rw [hu, hus] at hd; cases hd; exact ⟨d, ds, rfl, rfl, rfl⟩

mutual

/-- A value has no document because of something it reaches. -/
theorem Of.blames {e : Fault} : ∀ {u : Unfolding} {v : Value} {outer : List Nat}, u.Of h outer v →
    h.Around v outer → u.json = .error e → h.Blames v e
  | atom a, v, _, hu, _, he => by
    obtain ⟨rfl, hv⟩ := hu
    cases v with
    | range => cases he; exact .inr ⟨_, .refl, trivial, rfl⟩
    | function => cases he; exact .inr ⟨_, .refl, trivial, rfl⟩
    | builtin => cases he; exact .inr ⟨_, .refl, trivial, rfl⟩
    | list => cases hv
    | tuple => cases hv
    | _ => cases he
  | again place, _, _, hu, ha, he => by
    obtain ⟨rfl, outside⟩ := hu
    cases he
    exact .inl ⟨rfl, place, .refl, ha.cyclic outside⟩
  | list us, _, _, hu, ha, he => by
    obtain ⟨place, rfl, fresh, hus⟩ := hu
    obtain ⟨w, hw, blames⟩ := hus.blame (fun w hw => ha.listItem fresh hw) (map_array_error he)
    exact blames.of_holds ⟨_, rfl, hw⟩
  | tuple us, _, _, hu, ha, he => by
    obtain ⟨_, vs, rfl, hus⟩ := hu
    obtain ⟨w, hw, blames⟩ := hus.blame (fun w hw => ha.tupleItem hw) (map_array_error he)
    exact blames.of_holds ⟨_, rfl, hw⟩

theorem AllOf.blame {e : Fault} : ∀ {us : List Unfolding} {vs : List Value} {outer : List Nat},
    AllOf h outer us vs → (∀ v ∈ vs, h.Around v outer) → jsons us = .error e →
    ∃ v ∈ vs, h.Blames v e
  | [], _, _, _, _, he => nomatch he
  | u :: us, _, _, hus, ha, he => by
    obtain ⟨v, ws, rfl, hu, hus⟩ := hus
    obtain ⟨first, others⟩ := List.forall_mem_cons.mp ha
    cases jsons_cons_error he with
    | inl here => exact ⟨v, List.mem_cons_self, hu.blames first here⟩
    | inr later =>
      obtain ⟨w, hw, blames⟩ := hus.blame others later
      exact ⟨w, List.mem_cons_of_mem v hw, blames⟩

end

end Unfolding

end Value

/-! ## Lists that are entered -/

namespace Text

theorem intercalate_cons (separator t : String) (ts : List String) :
    separator.intercalate (t :: ts) = t ++ String.join (ts.map (separator ++ ·)) := by
  induction ts generalizing t with
  | nil => simp
  | cons u ts ih =>
    rw [String.intercalate_cons_cons, ih, List.map_cons, String.join_cons, String.append_assoc,
      String.append_assoc]

end Text

namespace Value

theorem length_textsWith (lists : Nat → String) (vs : List Value) :
    (textsWith lists vs).length = vs.length := by
  rw [← map_textWith, List.length_map]

/-- A text that is being written, and the places of the lists that are entered, the last one
first. -/
structure Draft where
  text : String
  entered : List Nat

/-- Add to the text. -/
def Draft.add (s : String) : StateM Draft Unit :=
  modify fun d => { d with text := d.text ++ s }

/-- Enter the list at a place. -/
def Draft.enter (place : Nat) : StateM Draft Unit :=
  modify fun d => { d with entered := place :: d.entered }

/-- Leave the list that was entered last. -/
def Draft.leave : StateM Draft Unit :=
  modify fun d => { d with entered := d.entered.tail }

mutual

/-- Write a value. -/
def write (lists : Nat → StateM Draft Unit) : Value → StateM Draft Unit
  | list place => lists place
  | tuple _ items => do
    Draft.add "("
    writeItems lists 0 items
    if items.length = 1 then
      Draft.add ","
    Draft.add ")"
  | v => Draft.add (v.textWith fun _ => "[...]")

/-- Write the items from number `i` on. -/
def writeItems (lists : Nat → StateM Draft Unit) : (i : Nat) → List Value → StateM Draft Unit
  | _, [] => pure ()
  | i, v :: vs => do
    if i > 0 then
      Draft.add ", "
    write lists v
    writeItems lists (i + 1) vs

end

/-- Write a list. It counts as entered while its items are written. -/
def writeList (h : Heap) : (fuel : Nat) → (place : Nat) → StateM Draft Unit
  | 0, _ => Draft.add "[...]"
  | fuel + 1, place => do
    if (← get).entered.contains place then
      Draft.add "[...]"
    else
      Draft.enter place
      Draft.add "["
      writeItems (writeList h fuel) 0 (h.items place).toList
      Draft.add "]"
      Draft.leave

mutual

/-- Record a value. The state has the places of the lists that are entered, the last one first. -/
def record (lists : Nat → EStateM Fault (List Nat) Json) : Value → EStateM Fault (List Nat) Json
  | list place => lists place
  | tuple _ items => .array <$> recordItems lists items
  | v => MonadExcept.ofExcept (v.jsonWith fun _ => .error .circular)

/-- Record values one after the other. -/
def recordItems (lists : Nat → EStateM Fault (List Nat) Json) :
    List Value → EStateM Fault (List Nat) (List Json)
  | [] => pure []
  | v :: vs => do
    let d ← record lists v
    let ds ← recordItems lists vs
    pure (d :: ds)

end

/-- Record a list. It counts as entered while its items are recorded. -/
def recordList (h : Heap) : (fuel : Nat) → (place : Nat) → EStateM Fault (List Nat) Json
  | 0, _ => throw .circular
  | fuel + 1, place => do
    if (← get).contains place then
      throw .circular
    else
      modify (place :: ·)
      let items ← recordItems (recordList h fuel) (h.items place).toList
      modify List.tail
      pure (.array items)

section

variable {h : Heap} {lists : Nat → StateM Draft Unit} {texts : Nat → String} {entered : List Nat}

/-- The text is written behind what there is, and the lists that are entered stay the same. -/
def Writes (entered : List Nat) (x : StateM Draft Unit) (s : String) : Prop :=
  ∀ text, x ⟨text, entered⟩ = ((), ⟨text ++ s, entered⟩)

namespace Writes

theorem add (s : String) : Writes entered (Draft.add s) s :=
  fun _ => rfl

theorem nothing : Writes entered (pure ()) "" :=
  fun text => by rw [String.append_empty]; rfl

theorem append {x y : StateM Draft Unit} {s t : String} (hx : Writes entered x s)
    (hy : Writes entered y t) : Writes entered (do x; y) (s ++ t) := by
  intro text
  have first := hx text
  change (match x ⟨text, entered⟩ with | (_, d) => y d) = _
  rw [first, ← String.append_assoc]
  exact hy (text ++ s)

/-- A list that is entered is left again. -/
theorem within {x : StateM Draft Unit} {s : String} {place : Nat}
    (hx : Writes (place :: entered) x s) :
    Writes entered (do Draft.enter place; x; Draft.leave) s := by
  intro text
  change (match x ⟨text, place :: entered⟩ with | (_, d) => Draft.leave d) = _
  rw [hx]
  rfl

theorem itemsFrom {vs : List Value}
    (hv : ∀ v ∈ vs, Writes entered (write lists v) (v.textWith texts)) (i : Nat) :
    Writes entered (writeItems lists (i + 1) vs)
      (String.join ((textsWith texts vs).map (", " ++ ·))) := by
  induction vs generalizing i with
  | nil => exact nothing
  | cons v vs ih =>
    obtain ⟨first, others⟩ := List.forall_mem_cons.mp hv
    rw [textsWith_cons, List.map_cons, String.join_cons, String.append_assoc]
    exact (add ", ").append (first.append (ih others (i + 1)))

/-- Commas stand between the items. -/
theorem items {vs : List Value}
    (hv : ∀ v ∈ vs, Writes entered (write lists v) (v.textWith texts)) :
    Writes entered (writeItems lists 0 vs) (", ".intercalate (textsWith texts vs)) := by
  cases vs with
  | nil => exact nothing
  | cons v vs =>
    obtain ⟨first, others⟩ := List.forall_mem_cons.mp hv
    rw [textsWith_cons, Text.intercalate_cons]
    exact first.append (itemsFrom others 0)

theorem value (hl : ∀ place, Writes entered (lists place) (texts place)) :
    ∀ v : Value, Writes entered (write lists v) (v.textWith texts)
  | list place => hl place
  | tuple id items => by
    have inside := Writes.items fun w (hw : w ∈ items) => Writes.value hl w
    have last : Writes entered (do
        if items.length = 1 then
          Draft.add ","
        Draft.add ")") (if items.length = 1 then ",)" else ")") := by
      split
      · exact (add ",").append (add ")")
      · exact add ")"
    have whole := (add "(").append (inside.append last)
    rw [textWith_tuple, tupleText, length_textsWith, String.append_assoc]
    exact whole
  | none | bool _ | int _ | float _ | str _ | range _ | function .. | builtin _ => add _

/-- A list is left again when its items are written. The induction is on the levels, for whatever
lists are entered, since one more is entered for the items. -/
theorem list (h : Heap) (fuel : Nat) (entered : List Nat) (place : Nat) :
    Writes entered (writeList h fuel place) (listText h fuel entered place) := by
  induction fuel generalizing entered place with
  | zero => exact add _
  | succ fuel ih =>
    rw [listText]
    split
    · next again =>
      intro text
      change (if entered.contains place then _ else _ : StateM Draft Unit) ⟨text, entered⟩ = _
      rw [if_pos again]
      exact add "[...]" text
    · next fresh =>
      have written := items fun w (_ : w ∈ (h.items place).toList) =>
        value (ih (place :: entered)) w
      have inside := (add "[").append (written.append (add "]"))
      intro text
      change (if entered.contains place then _ else _ : StateM Draft Unit) ⟨text, entered⟩ = _
      rw [if_neg fresh, map_textWith, String.append_assoc]
      exact within inside text

end Writes

/-- This is recorded, and other lists are entered then; or there is this fault. -/
def Gives {α : Type} (entered left : List Nat) (x : EStateM Fault (List Nat) α)
    (y : Except Fault α) : Prop :=
  match x entered with
  | .ok a after => y = .ok a ∧ after = left
  | .error f _ => y = .error f

namespace Gives

variable {α β : Type} {left after : List Nat} {docs : Nat → Except Fault Json}
  {recorders : Nat → EStateM Fault (List Nat) Json}

theorem pure (a : α) : Gives entered entered (Pure.pure a) (.ok a) :=
  ⟨rfl, rfl⟩

theorem bind {x : EStateM Fault (List Nat) α} {y : Except Fault α}
    {f : α → EStateM Fault (List Nat) β} {g : α → Except Fault β} (hx : Gives entered left x y)
    (hf : ∀ a, Gives left after (f a) (g a)) : Gives entered after (x >>= f) (y >>= g) := by
  unfold Gives at hx ⊢
  cases hr : x entered with
  | ok a between =>
    rw [hr] at hx
    obtain ⟨rfl, rfl⟩ := hx
    have goesOn : (x >>= f) entered = f a between := by simp only [Bind.bind, EStateM.bind, hr]
    rw [goesOn]
    exact hf a
  | error e between =>
    rw [hr] at hx
    obtain rfl : y = .error e := hx
    have stops : (x >>= f) entered = .error e between := by
      simp only [Bind.bind, EStateM.bind, hr]
    rw [stops]
    rfl

theorem items {vs : List Value}
    (hv : ∀ v ∈ vs, Gives entered entered (record recorders v) (v.jsonWith docs)) :
    Gives entered entered (recordItems recorders vs) (jsonsWith docs vs) := by
  induction vs with
  | nil => exact .pure []
  | cons v vs ih =>
    obtain ⟨first, others⟩ := List.forall_mem_cons.mp hv
    exact first.bind fun d => (ih others).bind fun ds => .pure (d :: ds)

theorem value (hl : ∀ place, Gives entered entered (recorders place) (docs place)) :
    ∀ v : Value, Gives entered entered (record recorders v) (v.jsonWith docs)
  | list place => hl place
  | tuple id vs => by
    have inside := items fun w (_ : w ∈ vs) => value hl w
    exact inside.bind fun ds => .pure (Json.array ds)
  | none | bool _ | int _ | float _ | str _ => ⟨rfl, rfl⟩
  | range _ | function .. | builtin _ => rfl

/-- A list is left again when its items are recorded. -/
theorem list (h : Heap) (fuel : Nat) (entered : List Nat) (place : Nat) :
    Gives entered entered (recordList h fuel place) (listJson h fuel entered place) := by
  induction fuel generalizing entered place with
  | zero => exact rfl
  | succ fuel ih =>
    have met : recordList h (fuel + 1) place entered
        = (if entered.contains place then throw .circular else do
            modify (place :: ·)
            let ds ← recordItems (recordList h fuel) (h.items place).toList
            modify List.tail
            Pure.pure (Json.array ds) : EStateM Fault (List Nat) Json) entered := rfl
    rw [Gives, met, listJson]
    by_cases again : entered.contains place = true
    · rw [if_pos again, if_pos again]
      rfl
    · have entering : Gives entered (place :: entered) (modify (place :: ·)) (.ok ()) := ⟨rfl, rfl⟩
      have leaving : Gives (place :: entered) entered (modify List.tail) (.ok ()) := ⟨rfl, rfl⟩
      have inside := items fun w (_ : w ∈ (h.items place).toList) =>
        value (ih (place :: entered)) w
      rw [if_neg again, if_neg again, mapM_jsonWith]
      exact entering.bind fun _ => inside.bind fun ds => leaving.bind fun _ => .pure (Json.array ds)

end Gives

end

end Value

/-! ## Documents of values -/

namespace Report.Json

variable {h : Heap} {v w : Value} {d : Json} {place : Nat}

mutual

/-- The document is that of the value, with an array of the documents of its items in their order
for each list and tuple. -/
def Records (h : Heap) : Json → Value → Prop
  | null, v => v = .none
  | bool b, v => v = .bool b
  | int n, v => ∃ i : Int64, v = .int i ∧ n = i.toInt
  | float x, v => v = .float x
  | str s, v => v = .str s
  | array ds, v => ∃ vs, v.items? h = some vs ∧ AllRecord h ds vs
  | object _, _ => False

/-- The documents are those of the values, one by one. -/
def AllRecord (h : Heap) : List Json → List Value → Prop
  | [], vs => vs = []
  | d :: ds, vs => ∃ v ws, vs = v :: ws ∧ Records h d v ∧ AllRecord h ds ws

end

/-- Each item has a smaller document. -/
theorem AllRecord.item : ∀ {ds : List Json} {vs : List Value}, AllRecord h ds vs → w ∈ vs →
    ∃ d, Records h d w ∧ sizeOf d < sizeOf ds
  | [], _, hds, hw => by
    obtain rfl := hds
    cases hw
  | d :: ds, _, hds, hw => by
    obtain ⟨v, ws, rfl, hd, hds⟩ := hds
    obtain rfl | hw := List.mem_cons.mp hw
    · exact ⟨d, hd, by simp; omega⟩
    · obtain ⟨d', hd', smaller⟩ := hds.item hw
      exact ⟨d', hd', by simp; omega⟩

theorem Records.item (hd : d.Records h v) (hw : h.Holds v w) :
    ∃ d' : Json, d'.Records h w ∧ sizeOf d' < sizeOf d := by
  obtain ⟨vs, hvs, mem⟩ := hw
  cases d with
  | array ds =>
    obtain ⟨_, hvs', hds⟩ := hd
    obtain rfl := Option.some.inj (hvs.symm.trans hvs')
    obtain ⟨d', hd', smaller⟩ := hds.item mem
    exact ⟨d', hd', by simp; omega⟩
  | object => cases hd
  | int n =>
    obtain ⟨i, rfl, -⟩ := hd
    cases hvs
  | _ =>
    obtain rfl := hd
    cases hvs

/-- What a value contains has a smaller document. -/
theorem Records.inside (hd : d.Records h v) (hw : Relation.TransGen h.Holds v w) :
    ∃ d' : Json, d'.Records h w ∧ sizeOf d' < sizeOf d := by
  induction hw with
  | single first => exact hd.item first
  | tail _ next ih =>
    obtain ⟨d₁, hd₁, smaller₁⟩ := ih
    obtain ⟨d₂, hd₂, smaller₂⟩ := hd₁.item next
    exact ⟨d₂, hd₂, Nat.lt_trans smaller₂ smaller₁⟩

theorem Records.reached (hd : d.Records h v) (hw : h.Reaches v w) :
    ∃ d' : Json, d'.Records h w := by
  obtain rfl | inside := Relation.reflTransGen_iff_eq_or_transGen.mp hw
  · exact ⟨d, hd⟩
  · obtain ⟨d', hd', -⟩ := hd.inside inside
    exact ⟨d', hd'⟩

/-- A list that contains itself would have a document inside its document, and so on. -/
theorem Records.not_cyclic {d : Json} (hd : d.Records h (.list place)) : ¬ h.Cyclic place := by
  intro cyclic
  obtain ⟨d', hd', smaller⟩ := hd.inside cyclic
  exact hd'.not_cyclic cyclic
termination_by sizeOf d

theorem Records.recordable (hd : d.Records h v) : ¬ v.Unrecordable := by
  cases d with
  | array ds =>
    obtain ⟨vs, hvs, -⟩ := hd
    cases v <;> first | exact id | cases hvs
  | object => cases hd
  | int n =>
    obtain ⟨i, rfl, -⟩ := hd
    exact id
  | _ =>
    obtain rfl := hd
    exact id

end Report.Json

namespace Value

variable {h : Heap} {v : Value}

namespace Unfolding

mutual

/-- The document of an unfolding is that of the value. -/
theorem Of.records : ∀ {u : Unfolding} {v : Value} {outer : List Nat} {d : Json}, u.Of h outer v →
    u.json = .ok d → d.Records h v
  | atom a, v, _, d, hu, hd => by
    obtain ⟨rfl, hv⟩ := hu
    cases v with
    | list => cases hv
    | tuple => cases hv
    | int i => cases hd; exact ⟨i, rfl, rfl⟩
    | _ => cases hd <;> rfl
  | again _, _, _, _, _, hd => nomatch hd
  | list us, _, _, d, hu, hd => by
    obtain ⟨place, rfl, -, hus⟩ := hu
    obtain ⟨ds, hds, rfl⟩ := map_array_ok hd
    exact ⟨_, rfl, hus.record hds⟩
  | tuple us, _, _, d, hu, hd => by
    obtain ⟨id, vs, rfl, hus⟩ := hu
    obtain ⟨ds, hds, rfl⟩ := map_array_ok hd
    exact ⟨_, rfl, hus.record hds⟩

theorem AllOf.record : ∀ {us : List Unfolding} {vs : List Value} {outer : List Nat}
    {ds : List Json}, AllOf h outer us vs → jsons us = .ok ds → Json.AllRecord h ds vs
  | [], _, _, _, hus, hds => by
    obtain rfl := hus
    cases hds
    rfl
  | u :: us, _, _, _, hus, hds => by
    obtain ⟨v, ws, rfl, hu, hus⟩ := hus
    obtain ⟨d, ds, first, others, rfl⟩ := jsons_cons_ok hds
    exact ⟨v, ws, rfl, hu.records first, hus.record others⟩

end

end Unfolding

/-- **Lists that contain themselves are told exactly.** What is followed of a value is a finite
tree, so that levels beyond the number of lists make no difference. There is a document exactly if
the value reaches no range, no function and no list that contains itself, and a fault is due to one
that it reaches. The document has the items in order at every level. In the written form a mark
stands only for a list that contains itself. The same comes out of a stack of the lists that are
entered, where each list is put on it before its items and taken off behind them. -/
theorem cycles_detected (h : Heap) (v : Value) :
    (∀ levels, h.size < levels → v.jsonWith (listJson h levels []) = v.toJson h ∧
      v.textWith (listText h levels []) = v.written h) ∧
    (∀ levels, h.size < levels → Gives [] [] (record (recordList h levels) v) (v.toJson h) ∧
      Writes [] (write (writeList h levels) v) (v.written h)) ∧
    ((∃ d, v.toJson h = .ok d) ↔ (∀ w, h.Reaches v w → ¬ w.Unrecordable) ∧
      ∀ place, h.Reaches v (.list place) → ¬ h.Cyclic place) ∧
    (∀ d, v.toJson h = .ok d → d.Records h v) ∧
    (∀ e, v.toJson h = .error e → h.Blames v e) ∧
    ∃ u : Unfolding, u.Of h [] v ∧ v.written h = u.text ∧ ∀ place ∈ u.marks, h.Cyclic place := by
  have outermost : h.Around v [] := .nil h v
  obtain ⟨u, hu⟩ := exists_unfolding v outermost
  have follows (levels : Nat) (hl : h.size < levels) :
      v.textWith (listText h levels []) = u.text ∧ v.jsonWith (listJson h levels []) = u.json :=
    hu.follows outermost hl
  obtain ⟨text, doc⟩ : v.written h = u.text ∧ v.toJson h = u.json :=
    follows (h.size + 1) (Nat.lt_succ_self _)
  have records (d : Json) (hd : v.toJson h = .ok d) : d.Records h v := hu.records (doc ▸ hd)
  have blames (e : Fault) (he : v.toJson h = .error e) : h.Blames v e :=
    hu.blames outermost (doc ▸ he)
  have same (levels : Nat) (hl : h.size < levels) :
      v.jsonWith (listJson h levels []) = v.toJson h ∧
        v.textWith (listText h levels []) = v.written h :=
    ⟨(follows levels hl).2.trans doc.symm, (follows levels hl).1.trans text.symm⟩
  refine ⟨same, fun levels hl => ?_, ⟨?_, ?_⟩, records, blames, u, hu, text, hu.cyclic outermost⟩
  · rw [← (same levels hl).1, ← (same levels hl).2]
    exact ⟨.value (.list h levels []) v, .value (.list h levels []) v⟩
  · rintro ⟨d, hd⟩
    constructor
    · intro w reached
      obtain ⟨d', hd'⟩ := (records d hd).reached reached
      exact hd'.recordable
    · intro place reached
      obtain ⟨d', hd'⟩ := (records d hd).reached reached
      exact hd'.not_cyclic
  · rintro ⟨recordable, acyclic⟩
    cases outcome : v.toJson h with
    | ok d => exact ⟨d, rfl⟩
    | error e =>
      obtain ⟨-, place, reached, cyclic⟩ | ⟨w, reached, unrecordable, -⟩ := blames e outcome
      · exact absurd cyclic (acyclic place reached)
      · exact absurd unrecordable (recordable w reached)

/-- A list is written, and recorded, as often as it occurs, but inside itself it is only marked. -/
example :
    let h : Heap := ⟨#[#[.int 1], #[.list 0, .tuple 0 [.list 0, .list 1]]], 1⟩
    written h (.list 1) = "[[1], ([1], [...])]" ∧ (toJson h (.list 1)).toOption.isNone ∧
      (toJson h (.tuple 0 [.list 0, .list 0])).toOption.isSome := by
  decide

end Value

end SortTrace
