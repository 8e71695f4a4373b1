import SortTrace.Proofs.Instrumenting.Expr

/-!
# Statements on a line

The small statements of a logical line, and the parts of a compound statement that stand on one, are
read in the same way whatever stands behind the line (`simpleLine_ends`). Where logging calls are
put in, this is so of a line that does not write (`simpleLine_inside`) and of one that does, which
has its call directly after its end (`simpleLine_written`).
-/

namespace SortTrace.Script

open Parse

variable {w : List Token → List Token} [Weaving w] {writes : Nat → Bool} {var : String}
  {around : Surrounding} {f f' n : Nat} {rest ts : List Token}

/-! ## Small statements -/

theorem moreNames_atLineEnd (r : Nat) (names : List String) (h : (lexemeOf ts).isLayout = true) :
    moreNames r names ts = .ok (names.reverse, ts) := by
  obtain ⟨l, hl⟩ := Lexeme.eq_of_isLayout h
  cases r with
  | zero => rfl
  | succ r =>
    rw [moreNames, bind_ok (accept_miss (by simp [hl]))]
    rfl

theorem moreNames_threads : ∀ (r r' : Nat) (names : List String),
    Threads w (r + 1) (r' + 1) (moreNames r names) (moreNames r' names) := by
  intro r r'
  refine Threads.loop List.reverse (fun r names ts => moreNames_atLineEnd r names)
    (fun r names ts => moreNames_atLineEnd r names) ?_ r (Nat.le_refl r) r' (Nat.le_refl r')
  · intro r _ r' _ ih names
    exact .accept rfl (.expectName fun name => ih (name :: names)) (.pure _)

theorem moreAssigned_atLineEnd (testlist : Parse Expr) (r : Nat) (sides : List Expr)
    (h : (lexemeOf ts).isLayout = true) : moreAssigned testlist r sides ts = .ok (sides, ts) := by
  obtain ⟨l, hl⟩ := Lexeme.eq_of_isLayout h
  cases r with
  | zero => rfl
  | succ r =>
    rw [moreAssigned, bind_ok (accept_miss (by simp [hl]))]
    rfl

theorem moreAssigned_threads {testlist testlist' : Parse Expr}
    (h : Threads w f f' testlist testlist') :
    ∀ sides, Threads w (f + 1) (f' + 1) (moreAssigned testlist f sides)
      (moreAssigned testlist' f' sides) := by
  refine Threads.loop id (fun r sides ts => moreAssigned_atLineEnd testlist r sides)
    (fun r sides ts => moreAssigned_atLineEnd testlist' r sides) ?_ f (Nat.le_refl f) f'
    (Nat.le_refl f')
  · intro r hr r' hr' ih sides
    refine .accept rfl ?_ (.pure sides)
    exact (h.mono (by omega) (by omega)).bind fun side => ih (side :: sides)

theorem exprStatement_threads (f f' n : Nat) :
    Threads w f f' (exprStatement f n) (exprStatement f' n) := by
  have value : Threads w f f' (parseTestList f) (parseTestList f') :=
    parseTestList_threads f f'
  refine value.bind fun first => .peek fun ts => ?_
  generalize hl : lexemeOf ts = l
  have word (hword : l.isLayout = false) : (lexemeOf ts).isLayout = false := by rwa [hl]
  split
  · split
    · exact .taking (word rfl) ((value.mono (Nat.sub_le f 1) (Nat.sub_le f' 1)).map _)
    · exact .fail _
  · have sides := (moreAssigned_threads value [first]).mono (Nat.le_succ f) (Nat.le_succ f')
    refine sides.bind (fun sides => ?_) ts
    cases sides with
    | nil => exact .unexpected
    | cons value targets =>
      dsimp only
      split
      · exact .pure _
      · exact .fail _
  · exact .pure _

theorem smallStatement_threads (f f' : Nat) (around : Surrounding) :
    Threads w f f' (smallStatement f around) (smallStatement f' around) := by
  have value : Threads w (f - 1) (f' - 1) (parseTestList f) (parseTestList f') :=
    (parseTestList_threads f f').mono (Nat.sub_le f 1) (Nat.sub_le f' 1)
  refine .line fun n => .peek fun ts => ?_
  generalize hl : lexemeOf ts = l
  have word (hword : l.isLayout = false) : (lexemeOf ts).isLayout = false := by rwa [hl]
  split
  · exact .taking (word rfl) (.pure _)
  · split
    · exact .taking (word rfl) (.pure _)
    · exact .fail _
  · split
    · exact .taking (word rfl) (.pure _)
    · exact .fail _
  · split
    · refine .taking (word rfl) (.peek fun ts => ?_)
      split
      · exact .pure _
      · exact .pure _
      · exact .pure _
      · exact value.map _ ts
    · exact .fail _
  · have names (first : String) : Threads w (f - 1) (f' - 1) (moreNames f [first])
        (moreNames f' [first]) := (moreNames_threads f f' [first]).mono (by omega) (by omega)
    exact .taking (word rfl) (.expectName fun first => (names first).map _)
  · exact exprStatement_threads f f' n ts

/-! ## Parts of compound statements -/

theorem expect_threads {m : Mark} (hm : (Lexeme.mark m).isLayout = false) :
    Threads w f f' (expect m) (expect m) := by
  have h : Threads w f f' (expect m >>= pure) (expect m >>= pure) := .expect hm (.pure ())
  rwa [bind_pure] at h

theorem check_threads {m : Mark} : Threads w f f' (check m) (check m) := by
  have h : Threads w f f' (check m >>= pure) (check m >>= pure) := .check fun b => .pure b
  rwa [bind_pure] at h

theorem expectName_threads : Threads w f f' expectName expectName := by
  have h : Threads w f f' (expectName >>= pure) (expectName >>= pure) :=
    .expectName fun s => .pure s
  rwa [bind_pure] at h

theorem moreTargets_threads : ∀ r ≤ f, ∀ r' ≤ f', ∀ targets, Threads w r r'
    (moreTargets f r targets) (moreTargets f' r' targets)
  | 0, _, _, _, _ => .none
  | _ + 1, _, 0, _, _ => .none_woven
  | r + 1, hr, r' + 1, hr', targets => by
    refine .accept rfl (.check fun b => ?_) (.pure _)
    cases b with
    | true => exact .pure _
    | false =>
      have operand : Threads w r r' (parseOperand f) (parseOperand f') :=
        (parseOperand_threads f f').mono (by omega) (by omega)
      exact operand.bind fun target =>
        moreTargets_threads r (by omega) r' (by omega) (target :: targets)

theorem parameters_threads : ∀ r ≤ f, ∀ r' ≤ f', ∀ params, Threads w r r'
    (parameters f r params) (parameters f' r' params)
  | 0, _, _, _, _ => .none
  | _ + 1, _, 0, _, _ => .none_woven
  | r + 1, hr, r' + 1, hr', params => by
    refine .check fun b => ?_
    cases b with
    | true => exact .pure _
    | false =>
      refine .expectName fun name => ?_
      dsimp only
      split
      · exact .fail _
      · have value : Threads w (r + 1) (r' + 1) (parseTest f) (parseTest f') :=
          (parseTest_threads f f').mono (by omega) (by omega)
        have again (default : Option Expr) : Threads w (r + 1) (r' + 1)
            (do
              if ← accept Punct.comma then parameters f r (⟨name, default⟩ :: params)
              else pure (Param.mk name default :: params).reverse)
            (do
              if ← accept Punct.comma then parameters f' r' (⟨name, default⟩ :: params)
              else pure (Param.mk name default :: params).reverse) :=
          .accept rfl (parameters_threads r (by omega) r' (by omega) _) (.pure _)
        refine .acceptAny rfl fun b => ?_
        cases b with
        | true => exact (value.map some).bind again
        | false =>
          simp only [Bool.false_eq_true, if_false]
          split
          · exact fun _ => .fail_bind
          · exact .bind (.pure none) again

/-! ## Lines of statements -/

theorem ok_of_map {α β : Type} {p : Parse α} {g : α → β} {b : β}
    (h : (g <$> p) ts = .ok (b, rest)) :
    ∃ a, p ts = .ok (a, rest) ∧ g a = b := by
  rw [map_eq_pure_bind] at h
  obtain ⟨a, mid, hp, h⟩ := ok_of_bind h
  cases h
  exact ⟨a, hp, rfl⟩

theorem exprStatement_line {s : Stmt} (h : exprStatement f n ts = .ok (s, rest)) :
    s.line = n ∧ s.isSimple = true := by
  obtain ⟨first, mid, -, h⟩ := ok_of_bind h
  rw [bind_ok peek_apply] at h
  generalize lexemeOf mid = l at h
  split at h
  · split at h
    · obtain ⟨_, _, -, h⟩ := ok_of_bind h
      obtain ⟨value, -, rfl⟩ := ok_of_map h
      exact ⟨rfl, rfl⟩
    · cases h
  · obtain ⟨sides, last, -, h⟩ := ok_of_bind h
    split at h
    · split at h
      · cases h
        exact ⟨rfl, rfl⟩
      · cases h
    · obtain ⟨l, mid, -, h⟩ := ok_of_bind h
      split at h <;> cases h
  · cases h
    exact ⟨rfl, rfl⟩

/-- A small statement holds no block and carries the line that it starts on. -/
theorem smallStatement_line {s : Stmt} (h : smallStatement f around ts = .ok (s, rest)) :
    s.line = lineOf ts ∧ s.isSimple = true := by
  rw [smallStatement, bind_ok line_apply, bind_ok peek_apply] at h
  generalize lexemeOf ts = l at h
  split at h
  · cases h
    exact ⟨rfl, rfl⟩
  · split at h
    · cases h
      exact ⟨rfl, rfl⟩
    · cases h
  · split at h
    · cases h
      exact ⟨rfl, rfl⟩
    · cases h
  · split at h
    · rw [bind_ok advance_apply, bind_ok peek_apply] at h
      generalize lexemeOf ts.tail = l at h
      split at h
      case h_4 =>
        obtain ⟨value, -, rfl⟩ := ok_of_map h
        exact ⟨rfl, rfl⟩
      all_goals
        cases h
        exact ⟨rfl, rfl⟩
    · cases h
  · rw [bind_ok advance_apply] at h
    obtain ⟨first, mid, -, h⟩ := ok_of_bind h
    obtain ⟨names, -, rfl⟩ := ok_of_map h
    exact ⟨rfl, rfl⟩
  · exact exprStatement_line h

theorem atLineEnd_threads {β : Type} {q q' : Bool → Parse β}
    (h : ∀ b, Threads w f f' (q b) (q' b)) :
    Threads w f f' (atLineEnd >>= q) (atLineEnd >>= q') := by
  rw [atLineEnd, bind_assoc, bind_assoc]
  refine .check fun b => ?_
  rw [bind_assoc, bind_assoc]
  refine .check fun b' => ?_
  exact h _

theorem moreStatements_threads (around : Surrounding) : ∀ r ≤ f, ∀ r' ≤ f', ∀ done,
    Threads w r r' (moreStatements f around r done) (moreStatements f' around r' done)
  | 0, _, _, _, _ => .none
  | _ + 1, _, 0, _, _ => .none_woven
  | r + 1, hr, r' + 1, hr', done => by
    refine ((smallStatement_threads f f' around).mono hr hr').bind fun next => ?_
    refine .accept rfl (atLineEnd_threads fun b => ?_) (.pure _)
    cases b with
    | true => exact .pure _
    | false => exact moreStatements_threads around r (by omega) r' (by omega) (next :: done)

/-- A small statement stays on its line. -/
theorem smallStatement_splits {s : Stmt} (h : smallStatement f around ts = .ok (s, rest))
    (hf : leftOnLine ts < f) :
    ∃ used, ts = used ++ rest ∧ ∀ t ∈ used, t.lexeme.isLayout = false := by
  have threads : Threads id f f _ _ := smallStatement_threads f f around
  obtain ⟨used, hused, hu, -⟩ := threads ts hf hf s rest h
  exact ⟨used, hused, hu⟩

/-- The small statements of a line carry lines that it has tokens on. -/
theorem moreStatements_lines : ∀ (r : Nat) (ts : List Token) (done ss : List Stmt),
    leftOnLine ts < r → r ≤ f → moreStatements f around r done ts = .ok (ss, rest) →
    rest <:+ ts ∧ ∃ new, ss = done.reverse ++ new ∧ new ≠ [] ∧ ∀ s ∈ new, s.isSimple = true ∧
      ∃ mid, mid <:+ ts ∧ rest <:+ mid ∧ s.line = lineOf mid
  | 0, _, _, _, hr, _, _ => absurd hr (Nat.not_lt_zero _)
  | r + 1, ts, done, ss, hr, hf, hread => by
    obtain ⟨next, mid, hnext, h⟩ := ok_of_bind hread
    clear hread
    obtain ⟨hline, hsimple⟩ := smallStatement_line hnext
    obtain ⟨used, rfl, hu⟩ := smallStatement_splits hnext (by omega)
    have one {rest : List Token} (hrest : rest <:+ used ++ mid) : ∀ s ∈ [next], s.isSimple = true ∧
        ∃ mid', mid' <:+ used ++ mid ∧ rest <:+ mid' ∧ s.line = lineOf mid' := by
      intro s hs
      obtain rfl := List.mem_singleton.mp hs
      exact ⟨hsimple, _, List.suffix_rfl, hrest, hline⟩
    have last (hrest : rest <:+ used ++ mid) : rest <:+ used ++ mid ∧
        ∃ new, (next :: done).reverse = done.reverse ++ new ∧ new ≠ [] ∧ ∀ s ∈ new,
          s.isSimple = true ∧ ∃ mid', mid' <:+ used ++ mid ∧ rest <:+ mid' ∧ s.line = lineOf mid' :=
      ⟨hrest, [next], List.reverse_cons, List.cons_ne_nil _ _, one hrest⟩
    by_cases hl : lexemeOf mid = .mark Punct.semicolon
    · cases mid with
      | nil => cases hl
      | cons t mid =>
        have word : t.lexeme.isLayout = false := by
          rw [lexemeOf_cons] at hl
          rw [hl]
          rfl
        have whole : mid <:+ used ++ t :: mid :=
          (List.suffix_cons t mid).trans (List.suffix_append used (t :: mid))
        rw [bind_ok (accept_cons hl)] at h
        obtain ⟨b, mid', hend, h⟩ := ok_of_bind h
        obtain rfl : mid = mid' := by
          cases hend
          rfl
        cases b with
        | true =>
          cases h
          exact last whole
        | false =>
          rw [leftOnLine_append hu, leftOnLine_word word] at hr
          obtain ⟨hrest, new, rfl, -, hnew⟩ := moreStatements_lines r mid (next :: done) ss
            (by omega) (by omega) h
          refine ⟨hrest.trans whole, next :: new, by simp, List.cons_ne_nil _ _, fun s hs => ?_⟩
          rcases List.mem_cons.mp hs with rfl | hs
          · exact one (hrest.trans whole) s (List.mem_cons_self ..)
          · obtain ⟨hsimple, mid', hmid, hrest, hline⟩ := hnew s hs
            exact ⟨hsimple, mid', hmid.trans whole, hrest, hline⟩
    · rw [bind_ok (accept_miss hl)] at h
      cases h
      exact last (List.suffix_append used _)

/-! ## The end of a line -/

theorem lineOf_between {used mid mid' : List Token} (h : mid' <:+ used ++ mid) (hm : mid <:+ mid') :
    lineOf mid' = lineOf mid ∨ ∃ t ∈ used, lineOf mid' = t.line := by
  obtain ⟨front, hfront⟩ := h
  obtain ⟨middle, rfl⟩ := hm
  rw [← List.append_assoc] at hfront
  obtain rfl := List.append_cancel_right hfront
  cases middle with
  | nil => exact .inl rfl
  | cons t middle => exact .inr ⟨t, by simp, rfl⟩

/-- What a line of small statements is, up to its end. -/
theorem simpleLine_ends (w : List Token → List Token) [Weaving w] {ss : List Stmt}
    (h : simpleLine f around ts = .ok (ss, rest)) (hf : leftOnLine ts < f)
    (hf' : leftOnLine ts < f') :
    ∃ used mid, ts = used ++ mid ∧ (∀ t ∈ used, t.lexeme.isLayout = false) ∧
      moreStatements f' around f' [] (w ts) = .ok (ss, w mid) ∧
      ((lexemeOf mid = .mark Layout.newline ∧ rest = mid.tail) ∨
        (lexemeOf mid = .mark Layout.finish ∧ rest = mid)) ∧
      ss ≠ [] ∧ ∀ s ∈ ss, s.isSimple = true ∧
        (s.line = lineOf mid ∨ ∃ t ∈ used, s.line = t.line) := by
  obtain ⟨ss', mid, hread, hend⟩ := ok_of_bind h
  clear h
  rw [bind_ok peek_apply] at hend
  obtain ⟨-, new, hss', hne, hnew⟩ := moreStatements_lines f ts [] ss' hf (Nat.le_refl f) hread
  obtain rfl : ss' = new := hss'
  have threads : Threads w f f' _ _ :=
    moreStatements_threads around f (Nat.le_refl f) f' (Nat.le_refl f') []
  obtain ⟨used, rfl, hu, woven⟩ := threads ts hf hf' _ mid hread
  refine ⟨used, mid, rfl, hu, ?_⟩
  have lines : ∀ s ∈ ss', s.isSimple = true ∧
      (s.line = lineOf mid ∨ ∃ t ∈ used, s.line = t.line) := by
    intro s hs
    obtain ⟨hsimple, mid', hmid', hmid, hline⟩ := hnew s hs
    rw [hline]
    exact ⟨hsimple, lineOf_between hmid' hmid⟩
  generalize lexemeOf mid = l at hend
  split at hend
  · cases hend
    exact ⟨woven, .inl ⟨rfl, rfl⟩, hne, lines⟩
  · cases hend
    exact ⟨woven, .inr ⟨rfl, rfl⟩, hne, lines⟩
  · obtain ⟨l', mid', -, hend⟩ := ok_of_bind hend
    split at hend <;> cases hend

/-- The end of a line with its calls. -/
theorem simpleLine_newline {t : Token} {ss : List Stmt} (ht : t.lexeme = .mark Layout.newline)
    (h : moreStatements f around f [] ts = .ok (ss, t :: rest)) :
    simpleLine f around ts = .ok (ss, rest) := by
  rw [simpleLine, bind_ok h, bind_ok peek_apply, lexemeOf_cons, ht]
  rfl

/-- A line that does not write is read alone. -/
theorem simpleLine_inside {last : Nat} {ss : List Stmt} (hts : Follows writes (.inside last) ts)
    (hf : leftOnLine ts < f) (hf' : leftOnLine ts < f')
    (h : simpleLine f around ts = .ok (ss, rest)) :
    simpleLine f' around (weave writes var ts) = .ok (ss, weave writes var rest) ∧
      Follows writes (.between last) rest ∧ rest.length < ts.length ∧
      (weave writes var rest).length < (weave writes var ts).length ∧
      ∀ s ∈ ss, s.isSimple = true ∧ writes s.line = false := by
  obtain ⟨used, mid, rfl, hu, woven, hend, -, hss⟩ :=
    simpleLine_ends (weave writes var) h hf hf'
  obtain ⟨hmid, hquiet⟩ := hts.inside_append hu
  have layout : (lexemeOf mid).isLayout = true := by
    rcases hend with ⟨hl, -⟩ | ⟨hl, -⟩ <;> rw [hl] <;> rfl
  obtain ⟨t, more, rfl, ht, hw, hrest⟩ := hmid.inside_next layout
  rcases hend with ⟨-, rfl⟩ | ⟨hl, -⟩
  · have quiet : endsWritten writes t = false := by
      rw [endsWritten, hw, Bool.and_false]
    have shorter : (weave writes var (t :: rest)).length ≤
        (weave writes var (used ++ t :: rest)).length := weave_length_append_le
    rw [weave_cons quiet] at woven shorter
    rw [List.length_cons] at shorter
    refine ⟨simpleLine_newline ht woven, hrest, ?_, Nat.lt_of_lt_of_le (Nat.lt_succ_self _) shorter,
      fun s hs => ⟨(hss s hs).1, ?_⟩⟩
    · rw [List.length_append, List.length_cons]
      omega
    · rcases (hss s hs).2 with hline | ⟨u, hmem, hline⟩
      · rw [hline]
        exact hw
      · rw [hline]
        exact hquiet u hmem
  · rw [lexemeOf_cons, ht] at hl
    cases hl

/-- A line that writes is read before the call after it. -/
theorem simpleLine_written {ss : List Stmt} (hn : writes n = true)
    (hts : Follows writes (.written n) ts) (hf : leftOnLine ts < f) (hf' : leftOnLine ts < f')
    (h : simpleLine f around ts = .ok (ss, rest)) :
    simpleLine f' around (weave writes var ts)
        = .ok (ss, (Stmt.logCall n var).tokens ++ weave writes var rest) ∧
      Follows writes (.between n) rest ∧ rest.length < ts.length ∧
      ((Stmt.logCall n var).tokens ++ weave writes var rest).length
        < (weave writes var ts).length ∧
      ss ≠ [] ∧ ∀ s ∈ ss, s.line = n ∧ s.isSimple = true := by
  obtain ⟨used, mid, rfl, hu, woven, hend, hne, hss⟩ :=
    simpleLine_ends (weave writes var) h hf hf'
  obtain ⟨hmid, hlines⟩ := hts.written_append hu
  have layout : (lexemeOf mid).isLayout = true := by
    rcases hend with ⟨hl, -⟩ | ⟨hl, -⟩ <;> rw [hl] <;> rfl
  obtain ⟨t, more, rfl, ht, rfl, hrest⟩ := hmid.written_next layout
  rcases hend with ⟨-, rfl⟩ | ⟨hl, -⟩
  · have ends : endsWritten writes t = true := by
      rw [endsWritten, ht, hn]
      rfl
    have shorter : (weave writes var (t :: rest)).length ≤
        (weave writes var (used ++ t :: rest)).length := weave_length_append_le
    rw [weave, if_pos ends] at woven shorter
    rw [List.length_cons] at shorter
    refine ⟨simpleLine_newline ht woven, hrest, ?_, Nat.lt_of_lt_of_le (Nat.lt_succ_self _) shorter,
      hne, fun s hs => ⟨?_, (hss s hs).1⟩⟩
    · rw [List.length_append, List.length_cons]
      omega
    · rcases (hss s hs).2 with hline | ⟨u, hmem, hline⟩
      · rw [hline]
        rfl
      · rw [hline]
        exact hlines u hmem
  · rw [lexemeOf_cons, ht] at hl
    cases hl

end SortTrace.Script
