import SortTrace.Proofs.Literals
import SortTrace.Proofs.OneLine.Text
import SortTrace.Proofs.Printing.Program
import SortTrace.Source.Instrumented

/-!
# The line that binds a list

A script whose first line binds the list `arr` to given integers. That line seems to write no item,
so no call is put after it, and it is read as one statement, whatever stands on the lines after it.
-/

namespace SortTrace.Script

open Source Parse

variable {L : List Int}

/-! ## Its characters -/

/-- The characters of the written form of a list. -/
def isListChar (c : Char) : Prop :=
  c.isDigit = true ∨ c ∈ "[], -".toList

theorem isListChar_integer {c : Char} {x : Int} (h : c ∈ (toString x).toList) : isListChar c := by
  rw [Int.toString_eq_repr, Int.repr_eq_if] at h
  split at h
  · rw [Nat.toList_repr] at h
    exact .inl (Nat.isDigit_of_mem_toDigits (by decide) (by decide) h)
  · rw [String.toList_append, Nat.toList_repr] at h
    rcases List.mem_append.mp h with h | h
    · rw [List.mem_singleton.mp h]
      exact .inr (by decide)
    · exact .inl (Nat.isDigit_of_mem_toDigits (by decide) (by decide) h)

theorem isListChar_intsText {c : Char} (h : c ∈ (Value.intsText L).toList) : isListChar c := by
  rw [Value.intsText, String.toList_append, String.toList_append, String.toList_intercalate,
    List.mem_append, List.mem_append] at h
  rcases h with (h | h) | h
  · rw [List.mem_singleton.mp h]
    exact .inr (by decide)
  · rcases Text.mem_intercalate h with h | ⟨part, hpart, hc⟩
    · rcases List.mem_cons.mp h with rfl | h
      · exact .inr (by decide)
      · rw [List.mem_singleton.mp h]
        exact .inr (by decide)
    · obtain ⟨text, htext, rfl⟩ := List.mem_map.mp hpart
      obtain ⟨x, -, rfl⟩ := List.mem_map.mp htext
      exact isListChar_integer hc
  · rw [List.mem_singleton.mp h]
    exact .inr (by decide)

theorem not_isListChar {c : Char} (hdigit : c.isDigit = false) (h : c ∉ "[], -".toList) :
    ¬ isListChar c := by
  rw [isListChar, hdigit, not_or]
  exact ⟨Bool.false_ne_true, h⟩

/-- A character that stands in no list is not in the written form of one. -/
theorem not_mem_intsText {c : Char} (hdigit : c.isDigit = false) (h : c ∉ "[], -".toList) :
    c ∉ (Value.intsText L).toList :=
  fun hc => not_isListChar hdigit h (isListChar_intsText hc)

/-- The line is a line of its own. -/
theorem onLine_ints (L : List Int) : '\n' ∉ ("arr = " ++ Value.intsText L).toList := by
  rw [String.toList_append, List.mem_append, not_or]
  exact ⟨by decide, not_mem_intsText rfl (by decide)⟩

/-- The line does not seem to write an item. -/
theorem isMutation_ints (L : List Int) :
    isMutation ("arr = " ++ Value.intsText L) "arr" = false := by
  have occurs : Text.occurs "arr[".toList ("arr = ".toList ++ (Value.intsText L).toList)
      = Text.occurs "arr[".toList (Value.intsText L).toList := rfl
  have nowhere : Text.occurs "arr[".toList (Value.intsText L).toList = false :=
    Text.occurs_of_not_mem (c := 'a') (by decide) (not_mem_intsText rfl (by decide))
  have name : ("arr" ++ "[" : String).toList = "arr[".toList := rfl
  rw [isMutation, name, String.toList_append, occurs, nowhere]
  rfl

/-! ## Its statement -/

theorem wellFormed_ofInts (L : List Int) (n : Nat) :
    (Stmt.assign n [.name "arr"] (.ofInts L)).wellFormed ⟨false, false⟩ = true := by
  have items : Expr.allWellFormed (L.map Expr.ofInt) = true ∧
      Expr.itemsHeight (L.map Expr.ofInt) ≤ 1 := by
    induction L with
    | nil => exact ⟨rfl, Nat.zero_le 1⟩
    | cons x L ih =>
      rw [List.map_cons, Expr.allWellFormed, Expr.itemsHeight, ih.1]
      exact ⟨rfl, max_le (Nat.le_refl 1) ih.2⟩
  have shallow : (Expr.ofInts L).height < maxNesting :=
    Nat.lt_of_le_of_lt items.2 (by decide)
  have list : (Expr.ofInts L).isPrintable = true := by
    rw [Expr.isPrintable, decide_eq_true shallow, Expr.ofInts, Expr.wellFormed, items.1]
    rfl
  rw [Stmt.wellFormed, list]
  rfl

/-- A program that starts with the line is read as the statement and what the rest is read as. -/
theorem parseTokens_ints (L : List Int) {ts rest : List Token} {ss : List Stmt} (hts : NoClause ts)
    (hne : ts ≠ []) (h : ∀ (s : Stmt) (fuel rounds : Nat),
      programLines (fuel + ts.length) (rounds + ts.length) [s] ts = .ok (s :: ss, rest)) :
    parseTokens ((Stmt.assign 1 [.name "arr"] (.ofInts L)).tokens ++ ts)
      = .ok (.assign 1 [.name "arr"] (.ofInts L) :: ss) := by
  have wellFormed := wellFormed_ofInts L 1
  generalize Stmt.assign 1 [.name "arr"] (.ofInts L) = s at *
  have some : 0 < ts.length := List.length_pos_iff.mpr hne
  have read := Stmt.readsBack s _ wellFormed (s.tokens.length + ts.length + 1) ts (by omega) hts
  rw [parseTokens_eq, List.length_append, programLines_read (startsStmt_tokens wellFormed ts) read,
    Nat.add_right_comm, h]
  rfl

end SortTrace.Script
