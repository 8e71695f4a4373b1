import SortTrace.Proofs.Printing.Reading
import SortTrace.Script.Parsing.Expr

/-!
# What the parser makes of expressions

A property of expressions holds of every expression that the parser makes of some tokens if it holds
of the names among these tokens and each expression that hands it on does so
(`ExprGrammar.parseGoal`). Most expressions have such a property by their kind, whatever they are
made of. A parser leaves no tokens that were not there (`Parse.Keeps`), and one that reads an
expression takes none that cannot stand inside of one (`Parse.Inward`).
-/

namespace SortTrace.Script

open Parse

/-! ## What parsers make -/

/-- Of tokens that are admitted, the parser makes something with the property and leaves tokens that
are as `left` says. -/
def Parse.Leads {α : Type} (ok : List Token → Prop) (p : α → Prop) (r : Parse α)
    (left : List Token → Prop) : Prop :=
  ∀ ts a rest, ok ts → r ts = .ok (a, rest) → p a ∧ left rest

/-- Of tokens that are admitted, the parser makes something with the property and leaves tokens that
are admitted. -/
abbrev Parse.Makes {α : Type} (ok : List Token → Prop) (p : α → Prop) (r : Parse α) : Prop :=
  Parse.Leads ok p r ok

/-- Can the lexeme stand inside of a small statement? The layout cannot, nor can the word before a
function. -/
def Lexeme.isInner : Lexeme → Bool
  | .mark (.layout _) | .mark (.keyword .defKw) => false
  | _ => true

theorem Lexeme.isInner_of_sign? {l : Lexeme} {op : UnaryOp} (h : sign? l = some op) :
    l.isInner = true := by
  unfold sign? at h
  split at h
  case h_4 => cases h
  all_goals rfl

/-- The mark can stand inside of a small statement. -/
class Parse.Inner (m : Mark) : Prop where
  isInner : (Lexeme.mark m).isInner = true

instance (p : Punct) : Inner p := ⟨rfl⟩

instance : Inner Keyword.ifKw := ⟨rfl⟩

instance : Inner Keyword.elseKw := ⟨rfl⟩

instance : Inner Keyword.notKw := ⟨rfl⟩

instance : Inner Keyword.andKw := ⟨rfl⟩

instance : Inner Keyword.orKw := ⟨rfl⟩

instance : Inner Keyword.inKw := ⟨rfl⟩

/-- Tokens that are admitted stay so when the first of them is taken, if it can stand inside of a
small statement. -/
class Parse.Inward (ok : List Token → Prop) : Prop where
  taken {t : Token} {ts : List Token} (h : ok (t :: ts)) (ht : t.lexeme.isInner = true) : ok ts

/-- Tokens that are admitted stay so when the first of them is taken. -/
class Parse.Lasting (ok : List Token → Prop) : Prop where
  tail {ts : List Token} (h : ok ts) : ok ts.tail

instance {ok : List Token → Prop} [Lasting ok] : Inward ok :=
  ⟨fun h _ => Lasting.tail h⟩

/-- All tokens are such. -/
def Parse.Only (p : Token → Prop) (ts : List Token) : Prop :=
  ∀ t ∈ ts, p t

instance (p : Token → Prop) : Lasting (Only p) :=
  ⟨fun h t ht => h t (List.mem_of_mem_tail ht)⟩

instance : Lasting fun _ => True :=
  ⟨fun _ => trivial⟩

theorem Parse.Lasting.suffix {ok : List Token → Prop} [Lasting ok] {ts rest : List Token}
    (h : rest <:+ ts) (hts : ok ts) : ok rest := by
  obtain ⟨front, rfl⟩ := h
  induction front with
  | nil => exact hts
  | cons t front ih => exact ih (Lasting.tail hts)

/-- The name is that of an admitted token. -/
def Parse.IsName (ok : List Token → Prop) (s : String) : Prop :=
  ∃ t ts, ok (t :: ts) ∧ t.lexeme = .name s

/-- The tokens are admitted, and the first of them is known. -/
def Parse.Next (ok : List Token → Prop) (l : Lexeme) (ts : List Token) : Prop :=
  ok ts ∧ lexemeOf ts = l

/-- The tokens are admitted, and the first two of them are known. -/
def Parse.NextTwo (ok : List Token → Prop) (l l' : Lexeme) (ts : List Token) : Prop :=
  Next ok l ts ∧ lexemeOf ts.tail = l'

theorem Parse.Next.taken {ok : List Token → Prop} [Inward ok] {l : Lexeme} {ts : List Token}
    (h : Next ok l ts) (hl : l.isInner = true) : ok ts.tail := by
  obtain ⟨hts, rfl⟩ := h
  cases ts with
  | nil => cases hl
  | cons t ts => exact Inward.taken hts hl

/-- The parser leaves tokens that are admitted, of tokens that are. -/
class Parse.Keeps {α : Type} (ok : List Token → Prop) (r : Parse α) : Prop where
  makes : Parse.Makes ok (fun _ => True) r

namespace Parse.Leads

variable {α β : Type} {ok mid left : List Token → Prop} {p : β → Prop} {q : α → Prop}
  {r : Parse α} {t : α → Parse β} {m : Mark}

theorem keeps (h : Makes ok q r) : Keeps ok r :=
  ⟨fun ts a rest hts hr => ⟨trivial, (h ts a rest hts hr).2⟩⟩

theorem weaken {q' : α → Prop} (h : Leads ok q r left) (hq : ∀ a, q a → q' a) :
    Leads ok q' r left :=
  fun ts a rest hts hr => ⟨hq a (h ts a rest hts hr).1, (h ts a rest hts hr).2⟩

theorem pure {b : β} (h : p b) : Makes ok p (Pure.pure b) := by
  intro ts b' rest hts hb
  cases hb
  exact ⟨h, hts⟩

theorem fail (message : String) : Leads ok p (Parse.fail message) left :=
  fun _ _ _ _ h => nomatch h

theorem bind (hr : Leads ok q r mid) (ht : ∀ a, q a → Leads mid p (t a) left) :
    Leads ok p (r >>= t) left := by
  intro ts b rest hts h
  obtain ⟨a, between, hfirst, hsecond⟩ := ok_of_bind h
  obtain ⟨ha, hmid⟩ := hr ts a between hts hfirst
  exact ht a ha between b rest hmid hsecond

theorem failed (message : String) : Leads ok p (Parse.fail message >>= t) left := by
  intro ts b rest _ h
  obtain ⟨a, between, hfail, -⟩ := ok_of_bind h
  cases hfail

/-- After something whose result says nothing. -/
theorem after [hr : Keeps ok r] (ht : ∀ a, Leads ok p (t a) left) : Leads ok p (r >>= t) left :=
  hr.makes.bind fun a _ => ht a

theorem map {u : α → β} (h : Leads ok q r left) (hu : ∀ a, q a → p (u a)) :
    Leads ok p (u <$> r) left := by
  rw [map_eq_pure_bind]
  exact h.bind fun a ha => pure (hu a ha)

theorem mapAny {u : α → β} [Keeps ok r] (hu : ∀ a, p (u a)) : Makes ok p (u <$> r) := by
  rw [map_eq_pure_bind]
  exact after fun a => pure (hu a)

theorem ite {c : Prop} [Decidable c] {r r' : Parse β} (h : c → Leads ok p r left)
    (h' : ¬c → Leads ok p r' left) : Leads ok p (if c then r else r') left := by
  split
  · exact h ‹_›
  · exact h' ‹_›

/-- Something that only looks at the tokens. -/
theorem keepsSame {f : List Token → α} (hr : ∀ ts, r ts = .ok (f ts, ts)) : Keeps ok r := by
  refine ⟨fun ts a rest hts h => ⟨trivial, ?_⟩⟩
  rw [hr] at h
  obtain ⟨-, rfl⟩ := Prod.mk.inj (Except.ok.inj h)
  exact hts

/-- Something that takes tokens from the front. -/
theorem keepsOf [Lasting ok] {f : List Token → α × List Token} (hr : ∀ ts, r ts = .ok (f ts))
    (hf : ∀ ts, (f ts).2 <:+ ts) : Keeps ok r := by
  refine ⟨fun ts a rest hts h => ⟨trivial, ?_⟩⟩
  rw [hr] at h
  obtain ⟨-, rfl⟩ := Prod.mk.inj (Except.ok.inj h)
  exact Lasting.suffix (hf ts) hts

end Parse.Leads

section Keeps

variable {ok left : List Token → Prop} {m : Mark}

open Parse.Leads

instance {α : Type} (a : α) : Keeps ok (Pure.pure a : Parse α) := keepsSame fun _ => rfl

instance {α β : Type} (f : α → β) (r : Parse α) [Keeps ok r] : Keeps ok (f <$> r) :=
  (mapAny (p := fun _ => True) fun _ => trivial).keeps

instance : Keeps ok peek := keepsSame fun _ => rfl

instance : Keeps ok peekSecond := keepsSame fun _ => rfl

instance : Keeps ok line := keepsSame fun _ => rfl

instance : Keeps ok (check m) := keepsSame fun _ => rfl

theorem Parse.Leads.unexpected {α : Type} {p : α → Prop} :
    Leads ok p Parse.unexpected left := by
  refine after fun l => ?_
  split <;> exact .fail _

/-- What the next token is, where it may be a name of the text. -/
theorem Parse.Leads.peek {β : Type} {p : β → Prop} {t : Lexeme → Parse β}
    (h : ∀ l, (∀ s, l = .name s → IsName ok s) → Leads (Next ok l) p (t l) left) :
    Leads ok p (peek >>= t) left := by
  intro ts b rest hts hread
  rw [bind_ok peek_apply] at hread
  refine h _ (fun s hs => ?_) ts b rest ⟨hts, rfl⟩ hread
  cases ts with
  | nil => cases hs
  | cons x ts => exact ⟨x, ts, hts, hs⟩

theorem Parse.Leads.peekNext {β : Type} {p : β → Prop} {t : Lexeme → Parse β}
    (h : ∀ l, Leads (Next ok l) p (t l) left) : Leads ok p (Parse.peek >>= t) left :=
  .peek fun l _ => h l

section Next

variable {β : Type} {p : β → Prop} {l l' : Lexeme}

theorem Parse.Leads.peekSecondNext {t : Lexeme → Parse β}
    (h : ∀ l', Leads (NextTwo ok l l') p (t l') left) :
    Leads (Next ok l) p (peekSecond >>= t) left := by
  intro ts b rest hts hread
  rw [bind_ok peekSecond_apply] at hread
  exact h _ ts b rest ⟨hts, rfl⟩ hread

/-- Whatever the first token is. -/
theorem Parse.Leads.ofNext {r : Parse β} (h : Leads ok p r left) : Leads (Next ok l) p r left :=
  fun ts b rest hts hread => h ts b rest hts.1 hread

theorem Parse.Leads.ofNextTwo {r : Parse β} (h : Leads (Next ok l) p r left) :
    Leads (NextTwo ok l l') p r left :=
  fun ts b rest hts hread => h ts b rest hts.1 hread

/-- The first token is taken, which can stand inside of a small statement. -/
theorem Parse.Leads.inner [Inward ok] {t : Unit → Parse β} (hl : l.isInner = true)
    (h : Leads ok p (t ()) left) : Leads (Next ok l) p (advance >>= t) left := by
  intro ts b rest hts hread
  rw [bind_ok advance_apply] at hread
  exact h ts.tail b rest (hts.taken hl) hread

/-- The first token is taken, and the second one is known. -/
theorem Parse.Leads.innerFirst [Inward ok] {t : Unit → Parse β} (hl : l.isInner = true)
    (h : Leads (Next ok l') p (t ()) left) : Leads (NextTwo ok l l') p (advance >>= t) left := by
  intro ts b rest hts hread
  rw [bind_ok advance_apply] at hread
  exact h ts.tail b rest ⟨hts.1.taken hl, hts.2⟩ hread

end Next

theorem accept_keeps (h : ∀ ts, Next ok (.mark m) ts → ok ts.tail) : Keeps ok (accept m) := by
  refine ⟨fun ts b rest hts hread => ⟨trivial, ?_⟩⟩
  rw [accept] at hread
  split at hread
  · next hm =>
    cases hread
    exact h ts ⟨hts, beq_iff_eq.mp hm⟩
  · cases hread
    exact hts

instance [Inward ok] [hm : Inner m] : Keeps ok (accept m) :=
  accept_keeps fun _ hts => hts.taken hm.isInner

instance [Lasting ok] : Keeps ok (accept m) :=
  accept_keeps fun _ hts => Lasting.tail hts.1

instance [Keeps ok (accept m)] : Keeps ok (expect m) :=
  have made : Makes ok (fun _ => True) (expect m) :=
    after fun _ => ite (fun _ => pure trivial) fun _ => .unexpected
  made.keeps

instance [Lasting ok] : Keeps ok advance := keepsOf (fun _ => rfl) List.tail_suffix

theorem Parse.Leads.expectName [Inward ok] : Makes ok (IsName ok) expectName := by
  refine .peek fun l hl => ?_
  split
  · exact .inner rfl (.pure (hl _ rfl))
  · exact .unexpected

instance [Inward ok] : Keeps ok expectName := Parse.Leads.expectName.keeps

end Keeps

/-! ## Parts and sequences -/

section Parts

variable {ok left : List Token → Prop} {p fine : Expr → Prop} {parts : Parts} {item : Parse Expr}
  {goal : Goal} {nesting fuel : Nat}

theorem checkNesting_makes (extra : Nat) :
    Parse.Makes ok (fun _ => nesting + extra ≤ maxNesting) (checkNesting nesting extra) :=
  .ite (fun _ => .fail _) fun h => .pure (Nat.le_of_not_lt h)

instance (extra : Nat) : Keeps ok (checkNesting nesting extra) :=
  (checkNesting_makes extra).keeps

/-- A part that is read one level deeper, where there is one. -/
theorem nested_makes (h : nesting < maxNesting → Parse.Leads ok p (parts goal (nesting + 1)) left) :
    Parse.Leads ok p (nested parts goal nesting) left :=
  (checkNesting_makes 1).bind fun _ hn => h hn

theorem all_reverse {items : List Expr} (h : ∀ e ∈ items, p e) : ∀ e ∈ items.reverse, p e :=
  fun e he => h e (List.mem_reverse.mp he)

namespace Parse.Leads

variable [Keeps ok (accept Punct.comma)]

theorem moreItems (h : Makes ok p item) : ∀ (fuel : Nat) (items : List Expr),
    (∀ e ∈ items, p e) → Makes ok (fun es => ∀ e ∈ es, p e) (moreItems item fuel items)
  | 0, _, hitems => .pure (all_reverse hitems)
  | fuel + 1, items, hitems => by
    refine .after fun _ => .ite (fun _ => ?_) fun _ => .pure (all_reverse hitems)
    refine .after fun _ => .ite (fun _ => ?_) fun _ => .pure (all_reverse hitems)
    exact h.bind fun e he => moreItems h fuel (e :: items) (List.forall_mem_cons.mpr ⟨he, hitems⟩)

theorem testList (h : Makes ok p item) (whole : ∀ e, p e → fine e)
    (tuple : ∀ items : List Expr, (∀ e ∈ items, p e) → fine (.tuple items)) :
    Makes ok fine (testList item fuel) := by
  refine h.bind fun first hfirst => .after fun _ =>
    .ite (fun _ => ?_) fun _ => .pure (whole first hfirst)
  exact (h.moreItems fuel [first] (List.forall_mem_singleton.mpr hfirst)).map tuple

theorem itemsUntil (close : Punct) (h : Makes ok p item) : ∀ (fuel : Nat) (items : List Expr),
    (∀ e ∈ items, p e) →
    Makes ok (fun es => ∀ e ∈ es, p e) (itemsUntil close item fuel items)
  | 0, _, hitems => .pure (all_reverse hitems)
  | fuel + 1, items, hitems => by
    refine .after fun _ => .ite (fun _ => .pure (all_reverse hitems)) fun _ => ?_
    refine h.bind fun e he => ?_
    have more : ∀ x ∈ e :: items, p x := List.forall_mem_cons.mpr ⟨he, hitems⟩
    exact .after fun _ => .ite (fun _ => itemsUntil close h fuel _ more) fun _ =>
      .pure (all_reverse more)

end Parse.Leads

end Parts

/-! ## Properties that expressions hand on -/

/-- Does it matter what the expression is made of? -/
def Expr.isOpen : Expr → Bool
  | .name _ | .list _ | .tuple _ | .call .. => true
  | _ => false

/-- A property of expressions that are made of admitted tokens. -/
structure ExprGrammar (ok : List Token → Prop) (good : Expr → Prop) : Prop where
  name {s : String} (h : IsName ok s) : good (.name s)
  list {items : List Expr} (h : ∀ e ∈ items, good e) : good (.list items)
  tuple {items : List Expr} (h : ∀ e ∈ items, good e) : good (.tuple items)
  call {f : Expr} (args : List Expr) (keywords : List (String × Expr)) (h : good f) :
    good (.call f args keywords)
  closed {e : Expr} (h : e.isOpen = false) : good e

/-- Nothing is asked of expressions. -/
theorem ExprGrammar.any {ok : List Token → Prop} : ExprGrammar ok fun _ => True :=
  ⟨fun _ => trivial, fun _ => trivial, fun _ => trivial, fun _ _ _ => trivial, fun _ => trivial⟩

namespace ExprGrammar

variable {ok : List Token → Prop} [Inward ok] {good : Expr → Prop} (G : ExprGrammar ok good)
  {item : Parse Expr} {parts : Parts} {fuel nesting : Nat}

include G in
theorem testList (h : Makes ok good item) : Makes ok good (testList item fuel) :=
  Leads.testList h (fun _ he => he) fun _ hes => G.tuple hes

include G in
theorem parenthesized (h : Makes ok good item) : Makes ok good (parenthesized item fuel) := by
  refine .after fun _ => .ite (fun _ => .pure (G.tuple nofun)) fun _ => ?_
  refine h.bind fun first hfirst => .after fun _ => .ite (fun _ => .pure hfirst) fun _ => ?_
  have single : ∀ e ∈ [first], good e := List.forall_mem_singleton.mpr hfirst
  refine .after fun _ => ?_
  have closed (es : List Expr) (hes : ∀ e ∈ es, good e) :
      Makes ok good (do expect Punct.rparen; pure (.tuple es)) :=
    .after fun _ => .pure (G.tuple hes)
  split
  · exact (h.itemsUntil .rparen fuel [first] single).bind closed
  · exact (Leads.pure single).bind closed

instance moreStrings : ∀ (fuel : Nat) (text : String), Keeps ok (moreStrings fuel text)
  | 0, _ => (Leads.pure trivial : Makes ok (fun _ => True) _).keeps
  | fuel + 1, text => by
    refine (Leads.peekNext fun l => ?_ : Makes ok (fun _ => True) _).keeps
    split
    · exact .inner rfl (moreStrings fuel _).makes
    · exact .ofNext (.pure trivial)

/-! ### Primaries -/

include G in
theorem atom (h : ∀ goal n, Makes ok good (parts goal n)) :
    Makes ok good (atom parts fuel nesting) := by
  refine .peek fun l hl => ?_
  have literal (v : Literal) : good (.literal v) := G.closed rfl
  cases l with
  | name s => exact .inner rfl (.pure (G.name (hl s rfl)))
  | int | float => exact .inner rfl (.pure (literal _))
  | str => exact .inner rfl (.mapAny fun _ => literal _)
  | op | augment => exact .unexpected
  | mark m =>
    cases m with
    | keyword k =>
      cases k
      case trueKw | falseKw | noneKw => exact .inner rfl (.pure (literal _))
      all_goals exact .unexpected
    | punct p =>
      cases p
      case lparen => exact .inner rfl (G.parenthesized (h .test nesting))
      case lbracket =>
        refine .inner rfl (((h .test nesting).itemsUntil .rbracket fuel [] nofun).bind ?_)
        exact fun es hes => .after fun _ => .pure (G.list hes)
      case lbrace => exact .inner rfl (.fail _)
      all_goals exact .unexpected
    | layout => exact .unexpected

theorem arguments [Keeps ok item] : ∀ (fuel : Nat) (args : List Expr)
    (keywords : List (String × Expr)),
    Makes ok (fun _ => True) (arguments item fuel args keywords)
  | 0, _, _ => .pure trivial
  | fuel + 1, args, keywords => by
    refine .after fun _ => .ite (fun _ => .pure trivial) fun _ => ?_
    refine .peekNext fun first => .peekSecondNext fun second => ?_
    have again (a : List Expr × List (String × Expr)) : Makes ok (fun _ => True) (do
        if ← accept Punct.comma then SortTrace.Script.arguments item fuel a.1 a.2
        else pure (Arguments.mk a.1.reverse a.2.reverse)) :=
      .after fun _ => .ite (fun _ => arguments fuel a.1 a.2) fun _ => .pure trivial
    split
    · refine .innerFirst rfl (.inner rfl ?_)
      split
      · exact .failed _
      · exact .after fun e => again (args, (_, e) :: keywords)
    · refine .ofNextTwo (.ofNext ?_)
      split
      · exact .after fun e => again (e :: args, keywords)
      · exact .failed _

instance callArguments [Keeps ok item] : Keeps ok (callArguments item fuel) := by
  have made : Makes ok (fun _ => True) (SortTrace.Script.callArguments item fuel) :=
    (arguments fuel [] []).bind fun _ _ => .after fun _ => .pure trivial
  exact made.keeps

instance bound? [Keeps ok item] (absent : List Punct) : Keeps ok (bound? item absent) := by
  have made : Makes ok (fun _ => True) (SortTrace.Script.bound? item absent) :=
    .after fun _ => .ite (fun _ => .pure trivial) fun _ => .mapAny fun _ => trivial
  exact made.keeps

include G in
theorem subscript (h : Makes ok good item) (object : Expr) :
    Makes ok good (subscript item fuel object) := by
  have : Keeps ok item := h.keeps
  have : Keeps ok (SortTrace.Script.testList item fuel) := (G.testList h).keeps
  have slice (lower : Option Expr) : Makes ok good (do
      expect Punct.colon
      let upper ← SortTrace.Script.bound? item [.colon, .rbracket]
      let step ← if ← accept Punct.colon then SortTrace.Script.bound? item [.rbracket]
        else pure none
      expect Punct.rbracket
      pure (Expr.slice object lower upper step)) := by
    refine .after fun _ => .after fun upper => .after fun b => ?_
    have step (step : Option Expr) : Makes ok good (do
        expect Punct.rbracket
        pure (Expr.slice object lower upper step)) := .after fun _ => .pure (G.closed rfl)
    split
    · exact .after step
    · exact .bind (.pure trivial) fun a (_ : True) => step a
  refine .after fun b => ?_
  have index (i : Expr) : Makes ok good (do
      if ← accept Punct.rbracket then return .index object i
      expect Punct.colon
      let upper ← SortTrace.Script.bound? item [.colon, .rbracket]
      let step ← if ← accept Punct.colon then SortTrace.Script.bound? item [.rbracket]
        else pure none
      expect Punct.rbracket
      pure (Expr.slice object (some i) upper step)) :=
    .after fun _ => .ite (fun _ => .pure (G.closed rfl)) fun _ => slice (some i)
  split
  · refine .bind (.pure trivial) fun lower (_ : True) => ?_
    cases lower with
    | none => exact slice none
    | some i => exact index i
  · refine .bind (.mapAny fun _ => trivial) fun lower (_ : True) => ?_
    cases lower with
    | none => exact slice none
    | some i => exact index i

include G in
theorem trailers (h : Makes ok good item) : ∀ (fuel : Nat) (e : Expr), good e →
    Makes ok good (trailers item fuel e)
  | 0, _, he => .pure he
  | fuel + 1, e, he => by
    have : Keeps ok item := h.keeps
    refine .peekNext fun l => ?_
    split
    · exact .inner rfl (.after fun args => trailers h fuel _ (G.call _ _ he))
    · exact .inner rfl ((G.subscript h e).bind fun e' he' => trailers h fuel e' he')
    · refine .inner rfl (.after fun method => .after fun _ => .ite (fun _ => ?_) fun _ => .fail _)
      exact .after fun args => trailers h fuel _ (G.closed rfl)
    · exact .ofNext (.pure he)

section Ladder

variable (h : ∀ goal n, Makes ok good (parts goal n))

include G h

theorem primary : Makes ok good (primary parts fuel nesting) :=
  (G.atom h).bind fun e he => G.trailers (h .test nesting) fuel e he

/-! ### Operators -/

theorem power : Makes ok good (power parts fuel nesting) := by
  refine (G.primary h).bind fun base hbase => .peekNext fun l => ?_
  split
  · exact .inner rfl ((nested_makes fun _ => h .factor _).map fun _ _ => G.closed rfl)
  · exact .ofNext (.pure hbase)

theorem factor : Makes ok good (factor parts fuel nesting) := by
  refine .peekNext fun l => ?_
  split
  · next op hop =>
    refine .inner (Lexeme.isInner_of_sign? hop) ?_
    refine (nested_makes fun _ => h .factor _).map fun e _ => G.closed ?_
    unfold applySign
    split <;> rfl
  · exact .ofNext (G.power h)

omit h in
theorem operands (ops : List BinOp) {operand : Parse Expr} (ho : Makes ok good operand) :
    ∀ (fuel chain : Nat) (left : Expr), good left →
      Makes ok good (operands ops operand nesting fuel chain left)
  | 0, _, _, hleft => .pure hleft
  | fuel + 1, chain, left, hleft => by
    refine .peekNext fun l => ?_
    split
    · refine .ite (fun _ => .after fun _ => .inner rfl ?_) fun _ => .ofNext (.pure hleft)
      exact ho.bind fun right _ => operands ops ho fuel (chain + 1) _ (G.closed rfl)
    · exact .ofNext (.pure hleft)

theorem binary : ∀ levels : List (List BinOp), Makes ok good (binary parts fuel nesting levels)
  | [] => G.factor h
  | ops :: tighter =>
    (binary tighter).bind fun left hleft => G.operands ops (binary tighter) fuel 0 left hleft

omit G h in
instance compareOp? : Keeps ok compareOp? := by
  have made : Makes ok (fun _ => True) SortTrace.Script.compareOp? := by
    refine .peekNext fun l => ?_
    split
    case h_8 =>
      refine .peekSecondNext fun l' => .ite (fun hl' => ?_) fun _ =>
        .ofNextTwo (.ofNext (.pure trivial))
      exact .innerFirst rfl (.inner (eq_of_beq hl' ▸ rfl) (.pure trivial))
    case h_9 =>
      refine .peekSecondNext fun l' => .ite (fun hl' => ?_) fun _ =>
        .ofNextTwo (.inner rfl (.pure trivial))
      exact .innerFirst rfl (.inner (eq_of_beq hl' ▸ rfl) (.pure trivial))
    case h_10 => exact .ofNext (.pure trivial)
    all_goals exact .inner rfl (.pure trivial)
  exact made.keeps

omit G h in
instance links {operand : Parse Expr} [Keeps ok operand] :
    ∀ (fuel : Nat) (rest : List (CompareOp × Expr)), Keeps ok (links operand fuel rest)
  | 0, _ => (Leads.pure trivial : Makes ok (fun _ => True) _).keeps
  | fuel + 1, rest => by
    refine (Leads.after fun op => ?_ : Makes ok (fun _ => True) _).keeps
    split
    · exact .after fun e => (links fuel _).makes
    · exact .pure trivial

theorem comparison : Makes ok good (comparison parts fuel nesting) := by
  have operand : Makes ok good (SortTrace.Script.binary parts fuel nesting operatorLevels) :=
    G.binary h operatorLevels
  have : Keeps ok (SortTrace.Script.binary parts fuel nesting operatorLevels) := operand.keeps
  refine operand.bind fun first hfirst => .after fun rest => .pure ?_
  split
  · exact hfirst
  · exact G.closed rfl

theorem inversion : Makes ok good (inversion parts fuel nesting) :=
  .after fun _ =>
    .ite (fun _ => (nested_makes fun _ => h .inversion _).map fun _ _ => G.closed rfl) fun _ =>
    G.comparison h

omit h in
theorem connected (word : Keyword) [Inner word] (op : BoolOp) {operand : Parse Expr}
    (ho : Makes ok good operand) : ∀ (fuel chain : Nat) (left : Expr), good left →
      Makes ok good (connected word op operand nesting fuel chain left)
  | 0, _, _, hleft => .pure hleft
  | fuel + 1, chain, left, hleft => by
    refine .after fun _ => .ite (fun _ => .after fun _ => ?_) fun _ => .pure hleft
    exact ho.bind fun right _ => connected word op ho fuel (chain + 1) _ (G.closed rfl)

theorem conjunction : Makes ok good (conjunction parts fuel nesting) :=
  (G.inversion h).bind fun left hleft => G.connected .andKw .and (G.inversion h) fuel 0 left hleft

theorem disjunction : Makes ok good (disjunction parts fuel nesting) :=
  (G.conjunction h).bind fun left hleft =>
    G.connected .orKw .or (G.conjunction h) fuel 0 left hleft

theorem conditional : Makes ok good (conditional parts fuel nesting) := by
  refine (G.disjunction h).bind fun value hvalue => .after fun _ => .ite (fun _ => ?_) fun _ =>
    .pure hvalue
  refine (G.disjunction h).bind fun condition _ => .after fun _ => ?_
  exact (nested_makes fun _ => h .test _).bind fun alternative _ => .pure (G.closed rfl)

end Ladder

/-! ### Expressions -/

include G

/-- An expression that is made of admitted tokens has the property. -/
theorem parseGoal : ∀ (fuel : Nat) (goal : Goal) (nesting : Nat),
    Makes ok good (parseGoal fuel goal nesting)
  | 0, _, _ => .fail _
  | fuel + 1, goal, nesting => by
    cases goal with
    | test => exact G.conditional (parseGoal fuel)
    | inversion => exact G.inversion (parseGoal fuel)
    | factor => exact G.factor (parseGoal fuel)

theorem parseTest : Makes ok good (parseTest fuel) :=
  G.parseGoal fuel .test 0

theorem parseTestList : Makes ok good (parseTestList fuel) :=
  G.testList (G.parseTest)

theorem parseOperand : Makes ok good (parseOperand fuel) :=
  G.binary (G.parseGoal fuel) operatorLevels

end ExprGrammar

variable {ok : List Token → Prop} [Inward ok] {fuel : Nat}

instance : Keeps ok (parseTest fuel) := ExprGrammar.any.parseTest.keeps

instance : Keeps ok (parseTestList fuel) := ExprGrammar.any.parseTestList.keeps

instance : Keeps ok (parseOperand fuel) := ExprGrammar.any.parseOperand.keeps

end SortTrace.Script
