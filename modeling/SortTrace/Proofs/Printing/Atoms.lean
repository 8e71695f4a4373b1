import SortTrace.Proofs.Printing.Brackets

/-!
# Atoms are read back

Names, literals, lists and tuples. A part of an expression is read one level deeper by a goal of its
own (`nested_reads`), and the items of brackets are read as whole expressions (`makes_items`).
-/

namespace SortTrace.Script

open Parse

variable {e : Expr} {f n line : Nat} {rest : List Token}

/-! ## One level deeper -/

/-- The rung of a goal. -/
def Goal.rung : Goal → Nat
  | test => 0
  | inversion => 3
  | factor => 11

theorem parseGoal_succ (goal : Goal) : parseGoal (f + 1) goal n = readAt f n goal.rung := by
  cases goal <;> rfl

theorem nested_reads (goal : Goal) (line : Nat) (h : ReadsAt goal.rung e)
    (hf : (e.lexemesAt goal.rung).length + 1 < f) (hn : n + (e.height + 1) < maxNesting)
    (hs : Stops goal.rung rest) :
    nested (parseGoal f) goal n (onLine line (e.lexemesAt goal.rung) ++ rest) = .ok (e, rest) := by
  obtain ⟨f, rfl⟩ := Nat.exists_eq_add_one_of_ne_zero (show f ≠ 0 by omega)
  rw [nested, bind_ok (checkNesting_ok (by omega)), parseGoal_succ]
  exact h f (n + 1) line rest (by omega) (by omega) hs

/-! ## Atoms -/

theorem Trails.of_atom (hr : e.rung = 13)
    (h : ∀ f n line rest, e.lexemes.length < f → n + e.height < maxNesting → Stops 14 rest →
      atom (parseGoal f) f n (onLine line e.lexemes ++ rest) = .ok (e, rest)) : Trails e := by
  intro f n line rest hf hn hs
  rw [lexemesAt_of_le (by omega)] at hf ⊢
  exact ⟨f, by omega, bind_ok (h f n line rest hf hn hs)⟩

theorem readsBack_name (s : String) : ReadsBack (.name s) :=
  .of_trails rfl (.of_atom rfl fun _ _ _ _ _ _ _ => rfl)

theorem int_reads {m : Int64} {rung : Nat} (hr : rung = 13 ∨ rung = 11) (hs : Stops rung rest) :
    readAt f n rung (onLine line [.int m] ++ rest) = .ok (.literal (.int m), rest) := by
  have primary : readAt f n 13 (onLine line [.int m] ++ rest) = .ok (.literal (.int m), rest) := by
    have atomRead : atom (parseGoal f) f n (onLine line [.int m] ++ rest)
        = .ok (.literal (.int m), rest) := rfl
    refine (bind_ok atomRead).trans ?_
    exact trailers_stop _ (hs.mono (by omega))
  have opens : Opening 13 [.int m] := .single [] rfl (by simp) (by simp) fun _ => rfl
  exact readAt_of_le (Nat.le_refl 13) (by omega) primary opens hs

/-- A number, with a minus sign before it if it is negative. -/
theorem readsBack_int (m : Int64) : ReadsBack (.literal (.int m)) := by
  by_cases hm : m < 0
  · have rung : (Expr.literal (.int m)).rung = 11 := by simp [Expr.rung, hm]
    have lexemes : (Expr.literal (.int m)).lexemes = [.op .sub, .int (-m)] := by
      simp [Expr.lexemes, Literal.lexemes, hm]
    refine .of_own ?_ (by rw [rung]; simp [chainRungs]) (by rw [rung]; simp)
    intro f n line rest hf hn hs
    rw [lexemesAt_of_le (Nat.le_refl _), lexemes] at hf ⊢
    rw [rung] at hs ⊢
    obtain ⟨f, rfl⟩ := Nat.exists_eq_add_one_of_ne_zero (show f ≠ 0 by omega)
    have deeper : nested (parseGoal (f + 1)) .factor n (onLine line [.int (-m)] ++ rest)
        = .ok (.literal (.int (-m)), rest) := by
      rw [nested, bind_ok (checkNesting_ok (by omega)), parseGoal_succ]
      exact int_reads (.inr rfl) hs
    change factor _ _ _ _ = _
    rw [factor, bind_ok peek_apply]
    change (advance >>= fun _ => applySign .negate <$> nested (parseGoal (f + 1)) .factor n) _ = _
    rw [bind_ok advance_apply]
    refine (map_ok deeper).trans ?_
    rw [applySign, Int64.neg_neg]
  · have rung : (Expr.literal (.int m)).rung = 13 := by simp [Expr.rung, hm]
    have lexemes : (Expr.literal (.int m)).lexemes = [.int m] := by
      simp [Expr.lexemes, Literal.lexemes, hm]
    refine .of_trails rung (.of_atom rung fun f n line rest _ _ _ => ?_)
    rw [lexemes]
    rfl

theorem readsBack_str (s : String) : ReadsBack (.literal (.str s)) := by
  refine .of_trails rfl (.of_atom rfl fun f n line rest _ _ hs => ?_)
  have strings : moreStrings f s rest = .ok (s, rest) := by
    cases f with
    | zero => rfl
    | succ f =>
      rw [moreStrings, bind_ok peek_apply]
      generalize hl : lexemeOf rest = l
      split
      · exact absurd hl (hs.ne rfl (by omega))
      · rfl
  exact map_ok strings

/-- A well-formed literal. -/
theorem readsBack_literal (v : Literal) (h : (Expr.literal v).wellFormed = true) :
    ReadsBack (.literal v) := by
  cases v with
  | none => exact .of_trails rfl (.of_atom rfl fun _ _ _ _ _ _ _ => rfl)
  | bool b =>
    cases b
    · exact .of_trails rfl (.of_atom rfl fun _ _ _ _ _ _ _ => rfl)
    · exact .of_trails rfl (.of_atom rfl fun _ _ _ _ _ _ _ => rfl)
  | int m => exact readsBack_int m
  | float x => cases h
  | str s => exact readsBack_str s

/-! ## Brackets -/

section Items

variable {es : List Expr}

theorem length_le_separated {g : List Lexeme} : ∀ {gs : List (List Lexeme)}, g ∈ gs →
    g.length ≤ (separated gs).length
  | [h], hg => by
    rw [List.mem_singleton.mp hg]
    exact Nat.le_refl _
  | h :: h' :: gs, hg => by
    rw [separated_cons_cons, List.length_append, List.length_cons]
    rcases List.mem_cons.mp hg with rfl | hg
    · omega
    · have := length_le_separated hg
      omega

theorem count_le_separated : ∀ {gs : List (List Lexeme)}, (∀ g ∈ gs, g ≠ []) →
    gs.length ≤ (separated gs).length
  | [], _ => Nat.le_refl 0
  | [g], h => List.length_pos_iff.mpr (h g (List.mem_singleton_self g))
  | g :: h :: gs, hne => by
    have rest := count_le_separated fun x hx => hne x (List.mem_cons_of_mem g hx)
    simp only [separated_cons_cons, List.length_append, List.length_cons] at rest ⊢
    omega

theorem lexemes_ne_nil (e : Expr) : e.lexemes ≠ [] := by
  obtain ⟨⟨l, more, h, -⟩, -⟩ := opening e
  rw [h]
  exact List.cons_ne_nil _ _

theorem groups_eq : ∀ es : List Expr, Expr.groups es = es.map Expr.lexemes
  | [] => rfl
  | e :: es => congrArg (e.lexemes :: ·) (groups_eq es)

theorem groups_ne_nil (es : List Expr) : ∀ g ∈ Expr.groups es, g ≠ [] := by
  intro g hg
  rw [groups_eq] at hg
  obtain ⟨e, -, rfl⟩ := List.mem_map.mp hg
  exact lexemes_ne_nil e

theorem length_groups (es : List Expr) : (Expr.groups es).length = es.length := by
  rw [groups_eq, List.length_map]

theorem mem_groups (h : e ∈ es) : e.lexemes ∈ Expr.groups es := by
  rw [groups_eq]
  exact List.mem_map_of_mem h

theorem height_lt_items : ∀ {es : List Expr} {e : Expr}, e ∈ es →
    e.height < Expr.itemsHeight es
  | _ :: _, _, h => by
    rw [Expr.itemsHeight]
    rcases List.mem_cons.mp h with rfl | h
    · omega
    · have := height_lt_items h
      omega

/-- Items that are read back are what their parser makes. -/
theorem makes_items (h : ∀ e ∈ es, ReadsBack e) (hf : ∀ e ∈ es, e.lexemes.length + 1 < f)
    (hn : n + Expr.itemsHeight es < maxNesting) : ∀ e ∈ es, Makes (parseGoal f .test n) line e := by
  intro e he rest hs
  have := height_lt_items he
  exact ((h e he).reads 0 (by omega)).item (hf e he) (by omega) hs

theorem readsBack_list (h : ∀ e ∈ es, ReadsBack e) : ReadsBack (.list es) := by
  refine .of_trails rfl (.of_atom rfl fun f n line rest hf hn _ => ?_)
  simp only [Expr.lexemes, List.length_cons, List.length_append, List.length_nil] at hf
  have count := count_le_separated (groups_ne_nil es)
  rw [length_groups] at count
  have items : itemsUntil .rbracket (parseGoal f .test n) f []
        (onLine line (separated (Expr.groups es)) ++ ⟨.mark Punct.rbracket, line⟩ :: rest)
      = .ok (es, ⟨.mark Punct.rbracket, line⟩ :: rest) := by
    refine itemsUntil_makes .rbracket rfl rfl (by decide) es [] f (by omega) ?_
    refine makes_items h (fun e he => ?_) hn
    have := length_le_separated (mem_groups he)
    omega
  rw [Expr.lexemes, onLine_cons, onLine_append, onLine_cons, onLine_nil, List.cons_append,
    List.append_assoc, atom, bind_ok peek_apply, lexemeOf_cons]
  change (advance >>= fun _ => _ : Parse Expr) _ = _
  rw [bind_ok advance_apply, List.tail_cons]
  refine (bind_ok items).trans ?_
  rw [bind_ok (expect_hit line)]
  rfl

theorem separated_le_tupleItems (gs : List (List Lexeme)) :
    (separated gs).length ≤ (tupleItems gs).length := by
  match gs with
  | [] | _ :: _ :: _ => exact Nat.le_refl _
  | [g] =>
    rw [separated, tupleItems, List.length_append]
    omega

theorem readsBack_tuple (h : ∀ e ∈ es, ReadsBack e) : ReadsBack (.tuple es) := by
  refine .of_trails rfl (.of_atom rfl fun f n line rest hf hn _ => ?_)
  simp only [Expr.lexemes, inParens, List.length_cons, List.length_append, List.length_nil] at hf
  have commas := separated_le_tupleItems (Expr.groups es)
  have count := count_le_separated (groups_ne_nil es)
  rw [length_groups] at count
  have items : ∀ e ∈ es, Makes (parseGoal f .test n) line e := by
    refine makes_items h (fun e he => ?_) hn
    have := length_le_separated (mem_groups he)
    omega
  rw [Expr.lexemes, inParens, onLine_cons, onLine_append, onLine_cons, onLine_nil,
    List.cons_append, List.append_assoc, atom, bind_ok peek_apply, lexemeOf_cons]
  change (advance >>= fun _ => _ : Parse Expr) _ = _
  rw [bind_ok advance_apply, List.tail_cons]
  exact parenthesized_makes es (by omega) items

end Items

end SortTrace.Script
