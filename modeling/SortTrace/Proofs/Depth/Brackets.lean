import SortTrace.Proofs.Grammar.Expr
import SortTrace.Proofs.Written.Lexemes

/-!
# Open brackets while parsing

The tokens of a text have brackets such as the scanner admits. A parser that takes an opening
bracket goes on with tokens that fit behind one more open bracket (`Leads.take`), and one that has
taken the closing bracket as well is where it was; all other tokens leave the number of open
brackets as it is (`Plain`).
-/

namespace SortTrace.Script

open Parse
open Scan (depthAfter)

/-- The tokens fit behind so many open brackets. -/
def Parse.Behind (depth : Nat) (ts : List Token) : Prop :=
  BracketsFit depth (ts.map Token.lexeme)

/-- The mark is no bracket. -/
class Parse.Plain (m : Mark) : Prop where
  depth (n : Nat) : depthAfter (.mark m) n = n

instance (k : Keyword) : Plain (.keyword k) := ⟨fun _ => rfl⟩

instance (l : Layout) : Plain (.layout l) := ⟨fun _ => rfl⟩

instance : Plain Punct.comma := ⟨fun _ => rfl⟩

instance : Plain Punct.colon := ⟨fun _ => rfl⟩

namespace Parse

variable {α β : Type} {ok left : List Token → Prop} {p : β → Prop} {q : α → Prop} {r : Parse α}
  {t : α → Parse β} {depth n : Nat} {l : Lexeme} {m : Mark} {ts : List Token}

theorem Behind.tail (h : Behind depth ts) : Behind (depthAfter (lexemeOf ts) depth) ts.tail := by
  cases ts with
  | nil => exact h
  | cons x ts => exact BracketsFit.tail h

theorem Behind.opening (h : Behind depth ts) (hl : (lexemeOf ts).opens = true) :
    depth < maxBrackets := by
  cases ts with
  | nil => cases hl
  | cons x ts => exact BracketsFit.opening h hl

/-- Any tokens that fit behind some open brackets. -/
instance : Lasting fun ts => ∃ depth, Behind depth ts :=
  ⟨fun ⟨_, h⟩ => ⟨_, h.tail⟩⟩

namespace Leads

/-- The first token is taken. -/
theorem take {t : Unit → Parse β} (h : (l.opens = true → depth < maxBrackets) →
    Leads (Behind (depthAfter l depth)) p (t ()) left) :
    Leads (Next (Behind depth) l) p (advance >>= t) left := by
  rintro ts b rest ⟨hts, rfl⟩ hread
  rw [bind_ok advance_apply] at hread
  exact h hts.opening ts.tail b rest hts.tail hread

/-- The first token is taken, and the second one is known. -/
theorem takeFirst {l' : Lexeme} {t : Unit → Parse β}
    (h : Leads (Next (Behind (depthAfter l depth)) l') p (t ()) left) :
    Leads (NextTwo (Behind depth) l l') p (advance >>= t) left := by
  rintro ts b rest ⟨⟨hts, rfl⟩, hl'⟩ hread
  rw [bind_ok advance_apply] at hread
  exact h ts.tail b rest ⟨hts.tail, hl'⟩ hread

/-- The next token is taken if it is the mark. -/
theorem acceptIte {hit miss : Parse β}
    (hhit : ((Lexeme.mark m).opens = true → depth < maxBrackets) →
      Leads (Behind (depthAfter (.mark m) depth)) p hit left)
    (hmiss : Leads (Behind depth) p miss left) :
    Leads (Behind depth) p (accept m >>= fun b => if b = true then hit else miss) left := by
  intro ts b rest hts hread
  obtain ⟨taken, between, haccept, hread⟩ := ok_of_bind hread
  rw [accept] at haccept
  split at haccept
  · next hm =>
    cases haccept
    rw [← beq_iff_eq.mp hm] at hhit
    exact hhit hts.opening ts.tail b rest hts.tail hread
  · cases haccept
    exact hmiss ts b rest hts hread

theorem expectMark :
    Leads (Behind depth) (fun _ => True) (expect m) (Behind (depthAfter (.mark m) depth)) :=
  acceptIte (fun _ => .pure trivial) .unexpected

end Leads

instance [h : Plain m] : Keeps (Behind depth) (accept m) := by
  refine accept_keeps fun ts hts => ?_
  have left := hts.1.tail
  rwa [hts.2, h.depth] at left

instance : Keeps (Behind depth) expectName := by
  refine (Leads.peekNext fun l => ?_ : Makes (Behind depth) (fun _ => True) _).keeps
  split
  · exact .take fun _ => .pure trivial
  · exact .ofNext .unexpected

end Parse

end SortTrace.Script
