import SortTrace.Proofs.Accounting.Relined
import SortTrace.Proofs.Printing.Reading

/-!
# Expressions do not see lines

A parser is blind if it reads the same of the same tokens on other lines: it makes the same thing
and leaves the same tokens, or fails in both cases. Blind parsers are closed under sequences and
choices (the instances here), and everything that reads expressions is one.
-/

namespace SortTrace.Script

open Parse

/-- The tokens with the lines that are reported for their lines. -/
abbrev relinedTokens (map : Array Nat) (ts : List Token) : List Token :=
  ts.map (Token.relined map)

namespace Parse

/-- What the second parser makes of relined tokens is what `f` makes of what the first makes of the
tokens, and it fails where the first one fails. -/
def Relines {α β : Type} (map : Array Nat) (f : α → β) (p : Parse α) (p' : Parse β) : Prop :=
  ∀ ts, (p' (relinedTokens map ts)).toOption
    = (p ts).toOption.map (Prod.map f (relinedTokens map))

/-- The parser reads the same on other lines. -/
class Blind {α : Type} (p : Parse α) : Prop where
  relines : ∀ map, Relines map id p p

/-! ## Rules -/

namespace Relines

variable {α β γ δ : Type} {map : Array Nat} {f : α → β} {g : γ → δ} {p : Parse α} {p' : Parse β}
  {q : α → Parse γ} {q' : β → Parse δ}

theorem pure (a : α) : Relines map f (Pure.pure a) (Pure.pure (f a)) := fun _ => rfl

theorem fail (message message' : String) :
    Relines map f (Parse.fail message) (Parse.fail message') :=
  fun _ => rfl

theorem bind (hp : Relines map f p p') (hq : ∀ a, Relines map g (q a) (q' (f a))) :
    Relines map g (p >>= q) (p' >>= q') := by
  intro ts
  have first := hp ts
  change (p' (relinedTokens map ts) >>= fun r => q' r.1 r.2).toOption
    = (p ts >>= fun r => q r.1 r.2).toOption.map _
  cases hpts : p ts with
  | error e =>
    rw [hpts] at first
    cases hp' : p' (relinedTokens map ts) with
    | error e' => rfl
    | ok r' =>
      rw [hp'] at first
      cases first
  | ok r =>
    rw [hpts] at first
    cases hp' : p' (relinedTokens map ts) with
    | error e' =>
      rw [hp'] at first
      cases first
    | ok r' =>
      rw [hp'] at first
      obtain rfl : r' = Prod.map f (relinedTokens map) r := Option.some.inj first
      exact hq r.1 r.2

theorem after {q' : α → Parse δ} [hp : Blind p] (hq : ∀ a, Relines map g (q a) (q' a)) :
    Relines map g (p >>= q) (p >>= q') :=
  (hp.relines map).bind hq

theorem ite {c : Prop} [Decidable c] {p₁ p₂ : Parse α} {p₁' p₂' : Parse β}
    (h₁ : Relines map f p₁ p₁') (h₂ : Relines map f p₂ p₂') :
    Relines map f (if c then p₁ else p₂) (if c then p₁' else p₂') := by
  split
  · exact h₁
  · exact h₂

end Relines

/-! ## Blind parsers -/

section Blind

variable {α β : Type} {p p₁ p₂ : Parse α} {q : α → Parse β} {m : Mark}

instance (a : α) : Blind (Pure.pure a : Parse α) :=
  ⟨fun _ => .pure a⟩

instance (message : String) : Blind (fail message : Parse α) :=
  ⟨fun _ => .fail message message⟩

instance Blind.bind [Blind p] [h : ∀ a, Blind (q a)] : Blind (p >>= q) :=
  ⟨fun map => .after fun a => (h a).relines map⟩

instance (f : α → β) [Blind p] : Blind (f <$> p) := by
  rw [map_eq_pure_bind]
  infer_instance

instance {c : Prop} [Decidable c] [h₁ : Blind p₁] [h₂ : Blind p₂] : Blind (if c then p₁ else p₂) :=
  ⟨fun map => .ite (h₁.relines map) (h₂.relines map)⟩

theorem lexemeOf_relined (map : Array Nat) (ts : List Token) :
    lexemeOf (relinedTokens map ts) = lexemeOf ts := by
  cases ts <;> rfl

theorem lexemeOf_tail_relined (map : Array Nat) (ts : List Token) :
    lexemeOf (relinedTokens map ts).tail = lexemeOf ts.tail := by
  rw [← List.map_tail]
  exact lexemeOf_relined map ts.tail

instance : Blind peek :=
  ⟨fun map ts => congrArg (fun l => some (l, relinedTokens map ts)) (lexemeOf_relined map ts)⟩

instance : Blind peekSecond :=
  ⟨fun map ts => congrArg (fun l => some (l, relinedTokens map ts)) (lexemeOf_tail_relined map ts)⟩

instance : Blind (check m) :=
  ⟨fun map ts => congrArg (fun l => some (l == Lexeme.mark m, relinedTokens map ts))
    (lexemeOf_relined map ts)⟩

instance : Blind advance :=
  ⟨fun _ _ => congrArg (fun ts => some ((), ts)) (List.map_tail ..).symm⟩

instance : Blind (accept m) := by
  refine ⟨fun map ts => ?_⟩
  rw [accept, accept, lexemeOf_relined]
  split
  · exact congrArg (fun ts => some (true, ts)) (List.map_tail ..).symm
  · rfl

instance : Blind (unexpected : Parse α) := by
  refine .bind (h := fun l => ?_)
  split <;> infer_instance

instance : Blind (expect m) := by
  unfold expect
  infer_instance

instance : Blind expectName := by
  refine .bind (h := fun l => ?_)
  split <;> infer_instance

end Blind

end Parse

/-! ## Expressions -/

section Expressions

variable {item operand : Parse Expr} {parts : Parts} {fuel nesting : Nat}

instance (extra : Nat) : Blind (checkNesting nesting extra) := by
  unfold checkNesting
  infer_instance

section Items

variable [Blind item]

instance moreItems_blind : ∀ (fuel : Nat) (items : List Expr), Blind (moreItems item fuel items)
  | 0, items => inferInstanceAs (Blind (pure items.reverse))
  | fuel + 1, items => by
    have := moreItems_blind fuel
    unfold moreItems
    infer_instance

instance : Blind (testList item fuel) := by
  unfold testList
  infer_instance

instance itemsUntil_blind (close : Punct) :
    ∀ (fuel : Nat) (items : List Expr), Blind (itemsUntil close item fuel items)
  | 0, items => inferInstanceAs (Blind (pure items.reverse))
  | fuel + 1, items => by
    have := itemsUntil_blind close fuel
    unfold itemsUntil
    infer_instance

instance : Blind (parenthesized item fuel) := by
  unfold parenthesized
  dsimp only
  refine .bind (h := fun closed => ?_)
  split <;> infer_instance

instance moreStrings_blind : ∀ (fuel : Nat) (text : String), Blind (moreStrings fuel text)
  | 0, text => inferInstanceAs (Blind (pure text))
  | fuel + 1, text => by
    have := moreStrings_blind fuel
    unfold moreStrings
    refine .bind (h := fun l => ?_)
    split <;> infer_instance

instance arguments_blind : ∀ (fuel : Nat) (args : List Expr) (keywords : List (String × Expr)),
    Blind (arguments item fuel args keywords)
  | 0, args, keywords => inferInstanceAs (Blind (pure (Arguments.mk args.reverse keywords.reverse)))
  | fuel + 1, args, keywords => by
    have := arguments_blind fuel
    unfold arguments
    dsimp only
    refine .bind (h := fun closed => ?_)
    split
    · infer_instance
    refine .bind (h := fun first => .bind (h := fun second => ?_))
    split <;> infer_instance

instance : Blind (callArguments item fuel) := by
  unfold callArguments
  infer_instance

instance (absent : List Punct) : Blind (bound? item absent) := by
  unfold bound?
  infer_instance

instance (object : Expr) : Blind (subscript item fuel object) := by
  unfold subscript
  dsimp only
  have rest (lower : Option Expr) : Blind (do
      expect Punct.colon
      let upper ← bound? item [.colon, .rbracket]
      let step ← if ← accept Punct.colon then bound? item [.rbracket] else pure none
      expect Punct.rbracket
      pure (Expr.slice object lower upper step)) := inferInstance
  refine .bind (h := fun first => ?_)
  split
  · refine .bind (h := fun lower => ?_)
    split <;> infer_instance
  · refine .bind (h := fun lower => ?_)
    split <;> infer_instance

instance trailers_blind : ∀ (fuel : Nat) (e : Expr), Blind (trailers item fuel e)
  | 0, e => inferInstanceAs (Blind (pure e))
  | fuel + 1, e => by
    have := trailers_blind fuel
    unfold trailers
    refine .bind (h := fun l => ?_)
    split <;> infer_instance

end Items

section Operators

variable [h : ∀ goal n, Blind (parts goal n)]

instance (goal : Goal) : Blind (nested parts goal nesting) := by
  unfold nested
  infer_instance

instance : Blind (atom parts fuel nesting) := by
  unfold atom
  refine .bind (h := fun l => ?_)
  cases l with
  | mark m =>
    cases m with
    | keyword k => cases k <;> infer_instance
    | punct p => cases p <;> infer_instance
    | layout => infer_instance
  | _ => infer_instance

instance : Blind (primary parts fuel nesting) := by
  unfold primary
  infer_instance

instance : Blind (power parts fuel nesting) := by
  unfold power
  refine .bind (h := fun base => .bind (h := fun l => ?_))
  split <;> infer_instance

instance : Blind (factor parts fuel nesting) := by
  unfold factor
  refine .bind (h := fun l => ?_)
  split <;> infer_instance

instance operands_blind (ops : List BinOp) [Blind operand] : ∀ (fuel chain : Nat) (left : Expr),
    Blind (operands ops operand nesting fuel chain left)
  | 0, _, left => inferInstanceAs (Blind (pure left))
  | fuel + 1, chain, left => by
    have := operands_blind ops fuel
    unfold operands
    refine .bind (h := fun l => ?_)
    split <;> infer_instance

instance binary_blind : ∀ levels : List (List BinOp), Blind (binary parts fuel nesting levels)
  | [] => inferInstanceAs (Blind (factor parts fuel nesting))
  | ops :: tighter => by
    have := binary_blind tighter
    unfold binary
    infer_instance

instance : Blind compareOp? := by
  refine .bind (h := fun l => ?_)
  split <;> infer_instance

instance links_blind [Blind operand] : ∀ (fuel : Nat) (rest : List (CompareOp × Expr)),
    Blind (links operand fuel rest)
  | 0, rest => inferInstanceAs (Blind (pure rest.reverse))
  | fuel + 1, rest => by
    have := links_blind fuel
    unfold links
    refine .bind (h := fun op => ?_)
    split <;> infer_instance

instance : Blind (comparison parts fuel nesting) := by
  unfold comparison
  infer_instance

instance : Blind (inversion parts fuel nesting) := by
  unfold inversion
  infer_instance

instance connected_blind (word : Keyword) (op : BoolOp) [Blind operand] :
    ∀ (fuel chain : Nat) (left : Expr), Blind (connected word op operand nesting fuel chain left)
  | 0, _, left => inferInstanceAs (Blind (pure left))
  | fuel + 1, chain, left => by
    have := connected_blind word op fuel
    unfold connected
    infer_instance

instance : Blind (conjunction parts fuel nesting) := by
  unfold conjunction
  infer_instance

instance : Blind (disjunction parts fuel nesting) := by
  unfold disjunction
  infer_instance

instance : Blind (conditional parts fuel nesting) := by
  unfold conditional
  infer_instance

end Operators

instance parseGoal_blind : ∀ (fuel : Nat) (goal : Goal) (nesting : Nat),
    Blind (parseGoal fuel goal nesting)
  | 0, _, _ => inferInstanceAs (Blind (fail "too many nested expressions"))
  | fuel + 1, goal, nesting => by
    have := parseGoal_blind fuel
    unfold parseGoal
    cases goal <;> infer_instance

instance : Blind (parseTest fuel) :=
  parseGoal_blind fuel .test 0

instance : Blind (parseTestList fuel) := by
  unfold parseTestList
  infer_instance

instance : Blind (parseOperand fuel) := by
  unfold parseOperand
  infer_instance

end Expressions

end SortTrace.Script
