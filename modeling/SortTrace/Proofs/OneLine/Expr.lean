import SortTrace.Proofs.OneLine.Neat
import SortTrace.Proofs.Printing.Reading
import SortTrace.Script.Parsing.Expr

/-!
# Expressions with names on one line

Where the names among the tokens are on one line, a parser is neat if it makes something whose names
are on one line and leaves such tokens, or fails with a message on one line (`Parse.Neatly`). All
parsers of expressions are neat (`Parse.Neatly.parseGoal`).
-/

namespace SortTrace.Script

open Parse

/-- The token, if it is a name, is on one line. -/
def Token.Neat (t : Token) : Prop :=
  ∀ s, t.lexeme = .name s → Text.OneLine s

namespace Parse

/-- What was read has the property, and the tokens that are left are neat; or the fault is told on
one line. -/
inductive Reads {α : Type} (p : α → Prop) : Except Fault (α × List Token) → Prop
  | ok {a : α} {rest : List Token} (h : p a) (hrest : ∀ t ∈ rest, t.Neat) :
    Reads p (.ok (a, rest))
  | error {e : Fault} (h : e.OneLine) : Reads p (.error e)

/-- Of neat tokens the parser makes something with the property and leaves neat tokens, or fails on
one line. -/
def Neatly {α : Type} (p : α → Prop) (r : Parse α) : Prop :=
  ∀ ts : List Token, (∀ t ∈ ts, t.Neat) → Reads p (r ts)

/-- Of neat tokens the parser leaves neat tokens, or fails on one line. -/
class IsNeat {α : Type} (r : Parse α) : Prop where
  neatly : Neatly (fun _ => True) r

namespace Neatly

/-! ## Rules -/

section Rules

variable {α β : Type} {p : α → Prop} {q : β → Prop} {r : Parse α} {t : α → Parse β} {m : Mark}

theorem isNeat (h : Neatly p r) : IsNeat r := by
  refine ⟨fun ts hts => ?_⟩
  have read := h ts hts
  generalize r ts = x at read ⊢
  cases read with
  | ok _ hrest => exact .ok trivial hrest
  | error he => exact .error he

theorem pure {a : α} (h : p a) : Neatly p (Pure.pure a) :=
  fun _ hts => .ok h hts

theorem fail {message : String} (h : Text.OneLine message) : Neatly p (Parse.fail message) :=
  fun _ _ => .error (Fault.oneLine_syntaxError h _)

theorem bind (hr : Neatly p r) (ht : ∀ a, p a → Neatly q (t a)) : Neatly q (r >>= t) := by
  intro ts hts
  have read := hr ts hts
  change Reads q (r ts >>= fun x => t x.1 x.2)
  generalize r ts = x at read ⊢
  cases read with
  | ok h hrest => exact ht _ h _ hrest
  | error he => exact .error he

/-- After something whose result says nothing. -/
theorem after [hr : IsNeat r] (ht : ∀ a, Neatly q (t a)) : Neatly q (r >>= t) :=
  hr.neatly.bind fun a _ => ht a

theorem map {u : α → β} (h : Neatly p r) (hu : ∀ a, p a → q (u a)) : Neatly q (u <$> r) := by
  rw [map_eq_pure_bind]
  exact h.bind fun a ha => pure (hu a ha)

theorem ite {c : Prop} [Decidable c] {r' : Parse α} (h : c → Neatly p r)
    (h' : ¬c → Neatly p r') : Neatly p (if c then r else r') := by
  split
  · exact h ‹_›
  · exact h' ‹_›

/-- Something that only looks at the tokens. -/
theorem looks {f : List Token → α × List Token} (hr : ∀ ts, r ts = .ok (f ts))
    (hf : ∀ ts, (f ts).2 <:+ ts) : IsNeat r := by
  refine ⟨fun ts hts => ?_⟩
  rw [hr]
  exact .ok trivial fun t ht => hts t ((hf ts).subset ht)

instance : IsNeat peekSecond := looks (fun _ => rfl) fun _ => List.suffix_rfl

instance : IsNeat Parse.line := looks (fun _ => rfl) fun _ => List.suffix_rfl

instance : IsNeat (check m) := looks (fun _ => rfl) fun _ => List.suffix_rfl

instance : IsNeat advance := looks (fun _ => rfl) List.tail_suffix

instance : IsNeat (accept m) := by
  refine looks (f := fun ts =>
    if lexemeOf ts == .mark m then (true, ts.tail) else (false, ts)) (fun ts => ?_) fun ts => ?_
  · rw [accept]
    split <;> rfl
  · split
    · exact List.tail_suffix ts
    · exact List.suffix_rfl

/-- The next token, if it is a name, is on one line. -/
theorem peek : Neatly (fun l => ∀ s, l = .name s → Text.OneLine s) Parse.peek := by
  intro ts hts
  refine .ok (fun s hs => ?_) hts
  cases ts with
  | nil => cases hs
  | cons t ts => exact hts t List.mem_cons_self s hs

instance : IsNeat Parse.peek := peek.isNeat

theorem unexpected : Neatly p Parse.unexpected := by
  refine after fun l => ?_
  split
  · exact fail (.literal rfl)
  · exact fail (.literal rfl)
  · exact fail (.literal rfl)

instance : IsNeat (expect m) := by
  have made : Neatly (fun _ => True) (expect m) :=
    after fun _ => ite (fun _ => pure trivial) fun _ => unexpected
  exact made.isNeat

theorem expectName : Neatly Text.OneLine Parse.expectName := by
  refine peek.bind fun l hl => ?_
  split
  · next s => exact after fun _ => pure (hl s rfl)
  · exact unexpected

end Rules

/-! ## Sequences -/

/-- The parser makes expressions whose names are on one line. -/
abbrev Expr (r : Parse Script.Expr) : Prop :=
  Neatly (fun e => e.Names Text.OneLine) r

/-- The parser makes several expressions whose names are on one line. -/
abbrev Exprs (r : Parse (List Script.Expr)) : Prop :=
  Neatly (fun es => ∀ e ∈ es, e.Names Text.OneLine) r

variable {item : Parse Script.Expr} {parts : Parts} {fuel nesting : Nat}

instance (extra : Nat) : IsNeat (checkNesting nesting extra) := by
  have made : Neatly (fun _ => True) (checkNesting nesting extra) :=
    ite (fun _ => fail (.literal rfl)) fun _ => pure trivial
  exact made.isNeat

theorem nested (h : ∀ goal n, Expr (parts goal n)) (goal : Goal) :
    Expr (Script.nested parts goal nesting) :=
  after fun _ => h goal (nesting + 1)

section Items

variable {items : List Script.Expr}

theorem reverse {β : Type} {good : β → Prop} {xs : List β} (h : ∀ x ∈ xs, good x) :
    ∀ x ∈ xs.reverse, good x :=
  fun x hx => h x (List.mem_reverse.mp hx)

theorem moreItems (h : Expr item) : ∀ (fuel : Nat) (items : List Script.Expr),
    (∀ e ∈ items, e.Names Text.OneLine) → Exprs (Script.moreItems item fuel items)
  | 0, _, hitems => pure (reverse hitems)
  | fuel + 1, items, hitems => by
    refine after fun _ => ite (fun _ => ?_) fun _ => pure (reverse hitems)
    refine after fun _ => ite (fun _ => ?_) fun _ => pure (reverse hitems)
    exact h.bind fun e he => moreItems h fuel (e :: items) (List.forall_mem_cons.mpr ⟨he, hitems⟩)

theorem testList (h : Expr item) : Expr (Script.testList item fuel) := by
  refine h.bind fun first hfirst => after fun _ => ite (fun _ => ?_) fun _ => pure hfirst
  exact (moreItems h fuel [first] (List.forall_mem_singleton.mpr hfirst)).map fun _ hes =>
    allNames_iff.mpr hes

theorem itemsUntil (close : Punct) (h : Expr item) :
    ∀ (fuel : Nat) (items : List Script.Expr), (∀ e ∈ items, e.Names Text.OneLine) →
    Exprs (Script.itemsUntil close item fuel items)
  | 0, _, hitems => pure (reverse hitems)
  | fuel + 1, items, hitems => by
    refine after fun _ => ite (fun _ => pure (reverse hitems)) fun _ => ?_
    refine h.bind fun e he => ?_
    have more : ∀ x ∈ e :: items, x.Names Text.OneLine := List.forall_mem_cons.mpr ⟨he, hitems⟩
    exact after fun _ => ite (fun _ => itemsUntil close h fuel _ more) fun _ =>
      pure (reverse more)

theorem parenthesized (h : Expr item) : Expr (Script.parenthesized item fuel) := by
  refine after fun _ => ite (fun _ => pure trivial) fun _ => ?_
  refine h.bind fun first hfirst => after fun _ => ite (fun _ => pure hfirst) fun _ => ?_
  have single : ∀ e ∈ [first], e.Names Text.OneLine := List.forall_mem_singleton.mpr hfirst
  refine after fun _ => ?_
  have closed (es : List Script.Expr) (hes : ∀ e ∈ es, e.Names Text.OneLine) :
      Expr (do expect Punct.rparen; Pure.pure (.tuple es)) :=
    after fun _ => pure (allNames_iff.mpr hes)
  split
  · exact (itemsUntil .rparen h fuel [first] single).bind closed
  · exact (pure single).bind closed

end Items

instance moreStrings : ∀ (fuel : Nat) (text : String), IsNeat (Script.moreStrings fuel text)
  | 0, _ => (pure trivial : Neatly (fun _ => True) _).isNeat
  | fuel + 1, text => by
    refine (after fun l => ?_ : Neatly (fun _ => True) _).isNeat
    split
    · exact after fun _ => (moreStrings fuel _).neatly
    · exact pure trivial

/-! ## Primaries -/

theorem atom (h : ∀ goal n, Expr (parts goal n)) : Expr (Script.atom parts fuel nesting) := by
  refine peek.bind fun l hl => ?_
  cases l with
  | name s => exact after fun _ => pure (hl s rfl)
  | int | float => exact after fun _ => pure trivial
  | str => exact after fun _ => (moreStrings _ _).neatly.map fun _ _ => trivial
  | op | augment => exact unexpected
  | mark m =>
    cases m with
    | keyword k =>
      cases k
      case trueKw | falseKw | noneKw => exact after fun _ => pure trivial
      all_goals exact unexpected
    | punct p =>
      cases p
      case lparen => exact after fun _ => parenthesized (h .test nesting)
      case lbracket =>
        refine after fun _ => (itemsUntil .rbracket (h .test nesting) fuel [] nofun).bind ?_
        exact fun es hes => after fun _ => pure (allNames_iff.mpr hes)
      case lbrace => exact after fun _ => fail (.literal rfl)
      all_goals exact unexpected
    | layout => exact unexpected

/-- The names in the arguments are on one line. -/
def ArgumentsNeat (a : List Script.Expr × List (String × Script.Expr)) : Prop :=
  (∀ e ∈ a.1, e.Names Text.OneLine) ∧ ∀ k ∈ a.2, Text.OneLine k.1 ∧ k.2.Names Text.OneLine

theorem arguments (h : Expr item) : ∀ (fuel : Nat) (args : List Script.Expr)
    (keywords : List (String × Script.Expr)), ArgumentsNeat (args, keywords) →
    Neatly (fun a => ArgumentsNeat (a.positional, a.keywords))
      (Script.arguments item fuel args keywords)
  | 0, _, _, ha => pure ⟨reverse ha.1, reverse ha.2⟩
  | fuel + 1, args, keywords, ha => by
    refine after fun _ => ite (fun _ => pure ⟨reverse ha.1, reverse ha.2⟩) fun _ => ?_
    refine peek.bind fun first hfirst => after fun second => ?_
    have again (a : List Script.Expr × List (String × Script.Expr)) (ha : ArgumentsNeat a) :
        Neatly (fun a => ArgumentsNeat (a.positional, a.keywords)) (do
          if ← accept Punct.comma then Script.arguments item fuel a.1 a.2
          else Pure.pure (Arguments.mk a.1.reverse a.2.reverse)) :=
      after fun _ => ite (fun _ => arguments h fuel a.1 a.2 ha) fun _ =>
        pure ⟨reverse ha.1, reverse ha.2⟩
    split
    · next key =>
      have hkey : Text.OneLine key := hfirst key rfl
      refine after fun _ => after fun _ => ?_
      split
      · exact (fail (.append (.literal rfl) hkey)).bind again
      · exact h.bind fun e he =>
          again (args, (key, e) :: keywords) ⟨ha.1, List.forall_mem_cons.mpr ⟨⟨hkey, he⟩, ha.2⟩⟩
    · split
      · exact h.bind fun e he =>
          again (e :: args, keywords) ⟨List.forall_mem_cons.mpr ⟨he, ha.1⟩, ha.2⟩
      · exact (fail (.literal rfl)).bind again

theorem callArguments (h : Expr item) :
    Neatly (fun a => ArgumentsNeat (a.positional, a.keywords))
      (Script.callArguments item fuel) :=
  (arguments h fuel [] [] ⟨nofun, nofun⟩).bind fun _ ha => after fun _ => pure ha

theorem bound? (h : Expr item) (absent : List Punct) :
    Neatly (Expr.BoundNames Text.OneLine) (Script.bound? item absent) :=
  after fun _ => ite (fun _ => pure trivial) fun _ => h.map fun _ he => he

theorem subscript (h : Expr item) {object : Script.Expr} (hobject : object.Names Text.OneLine) :
    Expr (Script.subscript item fuel object) := by
  have hnone : Expr.BoundNames Text.OneLine none := trivial
  have slice (lower : Option Script.Expr) (hlower : Expr.BoundNames Text.OneLine lower) :
      Expr (do
        expect Punct.colon
        let upper ← Script.bound? item [.colon, .rbracket]
        let step ← if ← accept Punct.colon then Script.bound? item [.rbracket]
          else Pure.pure none
        expect Punct.rbracket
        Pure.pure (Script.Expr.slice object lower upper step)) := by
    refine after fun _ => (bound? h _).bind fun upper hupper => after fun b => ?_
    have step (step : Option Script.Expr) (hstep : Expr.BoundNames Text.OneLine step) :
        Expr (do
          expect Punct.rbracket
          Pure.pure (Script.Expr.slice object lower upper step)) :=
      after fun _ => pure ⟨hobject, hlower, hupper, hstep⟩
    split
    · exact (bound? h _).bind step
    · exact (pure hnone).bind step
  refine after fun b => ?_
  split
  · exact slice none hnone
  · have given : Neatly (Expr.BoundNames Text.OneLine) (some <$> Script.testList item fuel) :=
      (testList h).map fun _ he => he
    refine given.bind fun lower hlower => ?_
    cases lower with
    | none => exact slice none hlower
    | some i =>
      exact after fun _ => ite (fun _ => pure ⟨hobject, hlower⟩) fun _ => slice (some i) hlower

theorem trailers (h : Expr item) : ∀ (fuel : Nat) (e : Script.Expr), e.Names Text.OneLine →
    Expr (Script.trailers item fuel e)
  | 0, _, he => pure he
  | fuel + 1, e, he => by
    refine after fun l => ?_
    split
    · exact after fun _ => (callArguments h).bind fun args ha =>
        trailers h fuel _ ⟨he, allNames_iff.mpr ha.1, keywordNames_iff.mpr ha.2⟩
    · exact after fun _ => (subscript h he).bind fun e' he' => trailers h fuel e' he'
    · refine after fun _ => expectName.bind fun method hmethod => after fun _ =>
        ite (fun _ => ?_) fun _ => fail (.literal rfl)
      exact (callArguments h).bind fun args ha =>
        trailers h fuel _ ⟨he, hmethod, allNames_iff.mpr ha.1, keywordNames_iff.mpr ha.2⟩
    · exact pure he

section Ladder

variable (h : ∀ goal n, Expr (parts goal n))

include h

theorem primary : Expr (Script.primary parts fuel nesting) :=
  (atom h).bind fun e he => trailers (h .test nesting) fuel e he

/-! ## Operators -/

theorem power : Expr (Script.power parts fuel nesting) := by
  refine (primary h).bind fun base hbase => after fun l => ?_
  split
  · exact after fun _ => (nested h .factor).map fun _ he => ⟨hbase, he⟩
  · exact pure hbase

omit h in
theorem names_applySign {e : Script.Expr} (he : e.Names Text.OneLine) (op : UnaryOp) :
    (applySign op e).Names Text.OneLine := by
  unfold applySign
  split
  · trivial
  · trivial
  · exact he

theorem factor : Expr (Script.factor parts fuel nesting) := by
  refine after fun l => ?_
  split
  · next op _ =>
    exact after fun _ => (nested h .factor).map fun e he => names_applySign he op
  · exact power h

omit h in
theorem operands (ops : List BinOp) {operand : Parse Script.Expr} (ho : Expr operand) :
    ∀ (fuel chain : Nat) (left : Script.Expr), left.Names Text.OneLine →
      Expr (Script.operands ops operand nesting fuel chain left)
  | 0, _, _, hleft => pure hleft
  | fuel + 1, chain, left, hleft => by
    refine after fun l => ?_
    split
    · refine ite (fun _ => after fun _ => after fun _ => ?_) fun _ => pure hleft
      exact ho.bind fun right hright => operands ops ho fuel (chain + 1) _ ⟨hleft, hright⟩
    · exact pure hleft

theorem binary (levels : List (List BinOp)) :
    Expr (Script.binary parts fuel nesting levels) := by
  induction levels with
  | nil => exact factor h
  | cons ops tighter ih => exact ih.bind fun left hleft => operands ops ih fuel 0 left hleft

omit h in
instance compareOp? : IsNeat Script.compareOp? := by
  have made : Neatly (fun _ => True) Script.compareOp? := by
    refine after fun l => ?_
    split
    case h_8 =>
      exact after fun _ => ite (fun _ => after fun _ => after fun _ => pure trivial)
        fun _ => pure trivial
    case h_9 =>
      exact after fun _ => ite (fun _ => after fun _ => after fun _ => pure trivial)
        fun _ => after fun _ => pure trivial
    case h_10 => exact pure trivial
    all_goals exact after fun _ => pure trivial
  exact made.isNeat

omit h in
theorem links {operand : Parse Script.Expr} (ho : Expr operand) :
    ∀ (fuel : Nat) (rest : List (CompareOp × Script.Expr)),
      (∀ l ∈ rest, l.2.Names Text.OneLine) →
      Neatly (fun rest => ∀ l ∈ rest, l.2.Names Text.OneLine) (Script.links operand fuel rest)
  | 0, _, hrest => pure (reverse hrest)
  | fuel + 1, rest, hrest => by
    refine after fun op => ?_
    split
    · next op =>
      exact ho.bind fun e he =>
        links ho fuel ((op, e) :: rest) (List.forall_mem_cons.mpr ⟨he, hrest⟩)
    · exact pure (reverse hrest)

theorem comparison : Expr (Script.comparison parts fuel nesting) := by
  have operand : Expr (Script.binary parts fuel nesting operatorLevels) := binary h operatorLevels
  refine operand.bind fun first hfirst => (links operand fuel [] nofun).bind fun rest hrest =>
    pure ?_
  split
  · exact hfirst
  · exact ⟨hfirst, linkNames_iff.mpr hrest⟩

theorem inversion : Expr (Script.inversion parts fuel nesting) :=
  after fun _ => ite (fun _ => (nested h .inversion).map fun _ he => he) fun _ => comparison h

omit h in
theorem connected (word : Keyword) (op : BoolOp) {operand : Parse Script.Expr}
    (ho : Expr operand) : ∀ (fuel chain : Nat) (left : Script.Expr), left.Names Text.OneLine →
      Expr (Script.connected word op operand nesting fuel chain left)
  | 0, _, _, hleft => pure hleft
  | fuel + 1, chain, left, hleft => by
    refine after fun _ => ite (fun _ => after fun _ => ?_) fun _ => pure hleft
    exact ho.bind fun right hright =>
      connected word op ho fuel (chain + 1) _ ⟨hleft, hright⟩

theorem conjunction : Expr (Script.conjunction parts fuel nesting) :=
  (inversion h).bind fun left hleft => connected .andKw .and (inversion h) fuel 0 left hleft

theorem disjunction : Expr (Script.disjunction parts fuel nesting) :=
  (conjunction h).bind fun left hleft => connected .orKw .or (conjunction h) fuel 0 left hleft

theorem conditional : Expr (Script.conditional parts fuel nesting) := by
  refine (disjunction h).bind fun value hvalue => after fun _ => ite (fun _ => ?_) fun _ =>
    pure hvalue
  refine (disjunction h).bind fun condition hcondition => after fun _ => ?_
  exact (nested h .test).bind fun alternative halternative =>
    pure ⟨hcondition, hvalue, halternative⟩

end Ladder

/-! ## Expressions -/

/-- The names in an expression that is made of neat tokens are on one line. -/
theorem parseGoal (fuel : Nat) (goal : Goal) (nesting : Nat) :
    Expr (Script.parseGoal fuel goal nesting) := by
  induction fuel generalizing goal nesting with
  | zero => exact fail (.literal rfl)
  | succ fuel ih =>
    cases goal with
    | test => exact conditional ih
    | inversion => exact inversion ih
    | factor => exact factor ih

theorem parseTest : Expr (Script.parseTest fuel) :=
  parseGoal fuel .test 0

theorem parseTestList : Expr (Script.parseTestList fuel) :=
  testList parseTest

theorem parseOperand : Expr (Script.parseOperand fuel) :=
  binary (parseGoal fuel) operatorLevels

end Neatly

end Parse

end SortTrace.Script
