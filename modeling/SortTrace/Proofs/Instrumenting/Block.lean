import SortTrace.Proofs.Instrumenting.Line
import SortTrace.Proofs.Instrumenting.Tree
import SortTrace.Proofs.Printing.Program

/-!
# Blocks between logging calls

A block is read line after line. A line that writes is followed by the tokens of its call, which
the next round of the loop reads (`logCall_reads`), so the loop makes the block with calls
(`lines_keep`). `Keeps` says as much of the parsers that read whole blocks.
-/

namespace SortTrace.Script

open Parse

section

variable (writes : Nat → Bool) (var : String)

/-- What a parser of statements reads with the calls put in, where another one reads `ss` without
them: the same statements, with calls in their blocks. When they are on a line that writes, the call
after it is left. -/
inductive LineRead (p' : Parse (List Stmt)) (last : Nat) (ts rest : List Token)
    (ss : List Stmt) : Prop
  | plain (last' : Nat)
    (reads : p' (weave writes var ts)
      = .ok (ss.map (Stmt.logged writes var), weave writes var rest))
    (shorter : (weave writes var rest).length < (weave writes var ts).length)
    (later : last ≤ last') (follows : Follows writes (.between last') rest)
    (quiet : ∀ s ∈ ss, writes s.line = false)
  | written (n : Nat) (hn : writes n = true)
    (reads : p' (weave writes var ts)
      = .ok (ss, (Stmt.logCall n var).tokens ++ weave writes var rest))
    (shorter : ((Stmt.logCall n var).tokens ++ weave writes var rest).length
      < (weave writes var ts).length)
    (later : last < n) (follows : Follows writes (.between n) rest) (nonempty : ss ≠ [])
    (onLine : ∀ s ∈ ss, s.line = n ∧ s.isSimple = true)

/-- The parser of statements reads the same from the beginning of a logical line. -/
def StatementKept (f f' : Nat) (around : Surrounding) : Prop :=
  ∀ last ts ss rest, Follows writes (.between last) ts → (lexemeOf ts).isLayout = false →
    ts.length < f → (weave writes var ts).length < f' →
    parseStatement f around ts = .ok (ss, rest) →
    rest.length < ts.length ∧ LineRead writes var (parseStatement f' around) last ts rest ss

/-- What a parser reads with the calls put in, up to the beginning of a logical line. -/
structure KeptTo {α : Type} (p' : Parse α) (last : Nat) (ts rest : List Token) (a : α) : Prop where
  reads : p' (weave writes var ts) = .ok (a, weave writes var rest)
  shorter : rest.length ≤ ts.length
  shorter' : (weave writes var rest).length ≤ (weave writes var ts).length
  follows : ∃ last', last ≤ last' ∧ Follows writes (.between last') rest

/-- From the given phase on, the parsers read the same up to the calls, for which `g` stands. -/
def Keeps {α β : Type} (f f' : Nat) (phase : Nat → Phase) (p : Parse α) (p' : Parse β)
    (g : α → β) : Prop :=
  ∀ last ts a rest, Follows writes (phase last) ts → ts.length < f →
    (weave writes var ts).length < f' → p ts = .ok (a, rest) →
    KeptTo writes var p' last ts rest (g a)

end

variable {writes : Nat → Bool} {var : String} {around : Surrounding} {f f' n : Nat}
  {rest ts : List Token}

/-! ## Lines -/

theorem logCall_reads (hf : 6 < f) :
    parseStatement f around ((Stmt.logCall n var).tokens ++ rest)
      = .ok ([.logCall n var], rest) := by
  obtain ⟨f, rfl⟩ := Nat.exists_eq_add_one_of_ne_zero (show f ≠ 0 by omega)
  have made : (Stmt.logCall n var).wellFormed around = true := rfl
  have size : (Stmt.logCall n var).tokens.length = 5 := rfl
  exact statements_simple rfl made (by omega)

/-- A loop over the lines of a block or a text makes the block with calls, if it reads every line
with the parser of statements and stops at the same layout. -/
theorem lines_keep {loop loop' : Nat → List Stmt → Parse (List Stmt)}
    (h : StatementKept writes var f f' around)
    (hline : ∀ r done ts, (lexemeOf ts).isLayout = false → loop (r + 1) done ts
      = (parseStatement f around >>= fun next => loop r (next.reverse ++ done)) ts)
    (hline' : ∀ r done ts, (lexemeOf ts).isLayout = false → loop' (r + 1) done ts
      = (parseStatement f' around >>= fun next => loop' r (next.reverse ++ done)) ts)
    (hend : ∀ r r' last ts done ss rest, Follows writes (.between last) ts →
      (lexemeOf ts).isLayout = true → loop (r + 1) done ts = .ok (ss, rest) →
      ss = done.reverse ∧ ∀ done',
        KeptTo writes var (loop' (r' + 1) done') last ts rest done'.reverse) :
    ∀ r ≤ f, ∀ r' ≤ f', ∀ last ts done ss rest, Follows writes (.between last) ts →
      ts.length < r → (weave writes var ts).length < r' → loop r done ts = .ok (ss, rest) →
      ∃ new, ss = done.reverse ++ new ∧
        (∀ done', KeptTo writes var (loop' r' done') last ts rest
          (done'.reverse ++ Stmt.loggedBlock writes var new)) ∧
        ∀ s ∈ new.head?, writes s.line = true → last < s.line
  | 0, _, _, _, _, _, _, _, _, _, hr, _, _ => absurd hr (Nat.not_lt_zero _)
  | _ + 1, _, 0, _, _, _, _, _, _, _, _, hr', _ => absurd hr' (Nat.not_lt_zero _)
  | r + 1, hf, r' + 1, hf', last, ts, done, ss, rest, hts, hr, hr', hread => by
    by_cases layout : (lexemeOf ts).isLayout = true
    · obtain ⟨rfl, hkept⟩ := hend r r' last ts done ss rest hts layout hread
      refine ⟨[], (List.append_nil _).symm, fun done' => ?_, nofun⟩
      rw [Stmt.loggedBlock, List.append_nil]
      exact hkept done'
    · have word : (lexemeOf ts).isLayout = false := Bool.not_eq_true _ ▸ layout
      have word' : (lexemeOf (weave writes var ts)).isLayout = false := by rwa [lexemeOf_weave]
      rw [hline r done ts word] at hread
      obtain ⟨next, mid, hnext, hmore⟩ := ok_of_bind hread
      obtain ⟨shorter, hkept⟩ := h last ts next mid hts word (by omega) (by omega) hnext
      cases hkept with
      | plain last' reads shorter' later follows quiet =>
        obtain ⟨new, rfl, hnew, hhead⟩ := lines_keep h hline hline' hend r (by omega) r' (by omega)
          last' mid (next.reverse ++ done) ss rest follows (by omega) (by omega) hmore
        refine ⟨next ++ new, by simp, fun done' => ?_, ?_⟩
        · have others := hnew ((next.map (Stmt.logged writes var)).reverse ++ done')
          obtain ⟨last'', later', follows'⟩ := others.follows
          refine ⟨?_, Nat.le_trans others.shorter (Nat.le_of_lt shorter),
            Nat.le_trans others.shorter' (Nat.le_of_lt shorter'), last'', Nat.le_trans later later',
            follows'⟩
          rw [hline' r' done' _ word', bind_ok reads, others.reads, loggedBlock_plain quiet]
          simp
        · intro s hs hw
          cases next with
          | nil => exact Nat.lt_of_le_of_lt later (hhead s hs hw)
          | cons s' next =>
            obtain rfl : s' = s := Option.some.inj hs
            rw [quiet s' (List.mem_cons_self ..)] at hw
            cases hw
      | written n hn reads shorter' later follows nonempty onLine =>
        have size : (Stmt.logCall n var).tokens.length = 5 := rfl
        rw [List.length_append, size] at shorter'
        obtain ⟨r', rfl⟩ := Nat.exists_eq_add_one_of_ne_zero (show r' ≠ 0 by omega)
        obtain ⟨new, rfl, hnew, hhead⟩ := lines_keep h hline hline' hend r (by omega) r' (by omega)
          n mid (next.reverse ++ done) ss rest follows (by omega) (by omega) hmore
        refine ⟨next ++ new, by simp, fun done' => ?_, ?_⟩
        · have others := hnew ([.logCall n var].reverse ++ (next.reverse ++ done'))
          obtain ⟨last'', later', follows'⟩ := others.follows
          have wider := others.shorter'
          refine ⟨?_, Nat.le_trans others.shorter (Nat.le_of_lt shorter), by omega, last'',
            by omega, follows'⟩
          have apart : ∀ s ∈ new.head?, s.line ≠ n := by
            intro s hs heq
            have := hhead s hs (by rw [heq, hn])
            omega
          rw [hline' _ done' _ word', bind_ok reads, hline' _ _ _ rfl,
            bind_ok (logCall_reads (by omega)), others.reads,
            loggedBlock_written hn nonempty onLine apart]
          simp
        · intro s hs hw
          cases next with
          | nil => exact absurd rfl nonempty
          | cons s' next =>
            obtain rfl : s' = s := Option.some.inj hs
            rw [(onLine s' (List.mem_cons_self ..)).1]
            exact later

/-! ## Rules -/

namespace Keeps

variable {α β γ δ : Type} {p : Parse α} {p' : Parse β} {q : α → Parse γ} {q' : β → Parse δ}
  {g : α → β} {g' : γ → δ} {phase : Nat → Phase}

theorem pure {a : α} {b : β} (hb : g a = b) :
    Keeps writes var f f' .between (pure a) (pure b) g := by
  subst hb
  intro last ts a rest hts _ _ h
  cases h
  exact ⟨rfl, Nat.le_refl _, Nat.le_refl _, last, Nat.le_refl last, hts⟩

theorem fail (message : String) : Keeps writes var f f' phase (fail message) p' g := by
  intro last ts b rest _ _ _ h
  cases h

theorem mono {h h' : Nat} (hp : Keeps writes var f f' phase p p' g) (hf : h ≤ f) (hf' : h' ≤ f') :
    Keeps writes var h h' phase p p' g :=
  fun last ts a rest hts hlt hlt' => hp last ts a rest hts (by omega) (by omega)

theorem bind (hp : Keeps writes var f f' phase p p' g)
    (hq : ∀ a, Keeps writes var f f' .between (q a) (q' (g a)) g') :
    Keeps writes var f f' phase (p >>= q) (p' >>= q') g' := by
  intro last ts b rest hts hf hf' h
  obtain ⟨a, mid, hfirst, hsecond⟩ := ok_of_bind h
  obtain ⟨first, shorter, wider, last', later, follows⟩ := hp last ts a mid hts hf hf' hfirst
  obtain ⟨second, shorter', wider', last'', later', follows'⟩ :=
    hq a last' mid b rest follows (by omega) (by omega) hsecond
  exact ⟨(bind_ok first).trans second, by omega, by omega, last'', by omega, follows'⟩

theorem map {k : α → γ} {k' : β → δ} (hp : Keeps writes var f f' phase p p' g)
    (hk : ∀ a, k' (g a) = g' (k a)) :
    Keeps writes var f f' phase (k <$> p) (k' <$> p') g' := by
  rw [map_eq_pure_bind, map_eq_pure_bind]
  exact hp.bind fun a => .pure (hk a).symm

/-- A part of the line is read first. -/
theorem bindInside {p p' : Parse α} {q' : α → Parse δ} (hp : Threads (weave writes var) f f' p p')
    (hq : ∀ a, Keeps writes var f f' .inside (q a) (q' a) g') :
    Keeps writes var f f' .inside (p >>= q) (p' >>= q') g' := by
  intro last ts b rest hts hf hf' h
  obtain ⟨a, mid, hfirst, hsecond⟩ := ok_of_bind h
  have left : leftOnLine ts ≤ ts.length := leftOnLine_le
  have left' : leftOnLine (weave writes var ts) ≤ (weave writes var ts).length := leftOnLine_le
  rw [leftOnLine_weave] at left'
  obtain ⟨used, rfl, hu, first⟩ := hp ts (by omega) (by omega) a mid hfirst
  have shorter : (weave writes var mid).length ≤ (weave writes var (used ++ mid)).length :=
    weave_length_append_le
  rw [List.length_append] at hf
  obtain ⟨second, shorter', wider, later⟩ :=
    hq a last mid b rest (hts.inside_append hu).1 (by omega) (by omega) hsecond
  refine ⟨(bind_ok first).trans second, ?_, by omega, later⟩
  rw [List.length_append]
  omega

theorem line {q : Nat → Parse γ} {q' : Nat → Parse δ}
    (hq : ∀ n, Keeps writes var f f' phase (q n) (q' n) g') :
    Keeps writes var f f' phase (line >>= q) (line >>= q') g' := by
  intro last ts b rest hts hf hf' h
  rw [bind_ok line_apply] at h
  have kept := hq _ last ts b rest hts hf hf' h
  refine ⟨?_, kept.shorter, kept.shorter', kept.follows⟩
  rw [bind_ok line_apply, lineOf_weave]
  exact kept.reads

/-- A word that may begin the next part of a compound statement. -/
theorem acceptWord {w : Keyword} {q : Bool → Parse γ} {q' : Bool → Parse δ}
    (hw : w ∈ compoundWords)
    (htrue : Keeps writes var (f - 1) (f' - 1) .inside (q true) (q' true) g')
    (hfalse : Keeps writes var f f' .between (q false) (q' false) g') :
    Keeps writes var f f' .between (accept w >>= q) (accept w >>= q') g' := by
  intro last ts b rest hts hf hf' h
  by_cases hl : lexemeOf ts = .mark w
  · cases ts with
    | nil => cases hl
    | cons t ts =>
      rw [lexemeOf_cons] at hl
      have word : t.lexeme.isLayout = false := by
        rw [hl]
        rfl
      rw [bind_ok (accept_cons hl)] at h
      rw [weave_cons (endsWritten_of_word word)] at hf'
      rw [List.length_cons] at hf hf'
      rcases hts.between_word word with ⟨-, follows⟩ | ⟨-, -, hc, -⟩
      · obtain ⟨reads, shorter, shorter', later⟩ :=
          htrue last ts b rest follows (by omega) (by omega) h
        refine ⟨?_, by simp; omega, ?_, later⟩
        · rw [weave_cons (endsWritten_of_word word), bind_ok (accept_cons hl)]
          exact reads
        · rw [weave_cons (endsWritten_of_word word), List.length_cons]
          omega
      · exact absurd hl (hc w hw)
  · rw [bind_ok (accept_miss hl)] at h
    have kept := hfalse last ts b rest hts hf hf' h
    refine ⟨?_, kept.shorter, kept.shorter', kept.follows⟩
    rw [bind_ok (accept_miss (by rwa [lexemeOf_weave]))]
    exact kept.reads

end Keeps

end SortTrace.Script
