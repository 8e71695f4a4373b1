import SortTrace.Proofs.Instrumenting.Tokens

/-!
# Parsers of parts of a line

A parser that stays inside a logical line reads the same whatever stands behind the line, where
something is done to the tokens there by `w`. `Threads w f f' p p'` says so of the parsers `p` and
`p'`, which may have different bounds on their loops: they are compared where fewer than `f` and
`f'` tokens are left on the line.
-/

namespace SortTrace.Script

open Parse

section

variable (w : List Token → List Token)

/-- What the first parser reads of the tokens, the second reads where others stand behind the line.
No token of the layout is read. -/
def ThreadsOn {α : Type} (f f' : Nat) (p p' : Parse α) (ts : List Token) : Prop :=
  leftOnLine ts < f → leftOnLine ts < f' → ∀ a rest, p ts = .ok (a, rest) →
    ∃ used, ts = used ++ rest ∧ (∀ t ∈ used, t.lexeme.isLayout = false) ∧
      p' (w ts) = .ok (a, w rest)

/-- What the first parser reads of any tokens, the second reads where others stand behind the
line. -/
def Threads {α : Type} (f f' : Nat) (p p' : Parse α) : Prop :=
  ∀ ts, ThreadsOn w f f' p p' ts

/-- As `ThreadsOn`, where at least one token is read. -/
structure TakesOn {α : Type} (f f' : Nat) (p p' : Parse α) (ts : List Token) : Prop where
  threads : ThreadsOn w f f' p p' ts
  shorter : leftOnLine ts < f → leftOnLine ts < f' →
    ∀ a rest, p ts = .ok (a, rest) → rest.length < ts.length

end

variable {w : List Token → List Token} {α β : Type} {f f' : Nat} {p p' : Parse α}
  {q q' : α → Parse β} {ts : List Token} {m : Mark}

namespace ThreadsOn

theorem pure (a : α) : ThreadsOn w f f' (pure a) (pure a) ts := by
  intro _ _ b rest h
  cases h
  exact ⟨[], rfl, nofun, rfl⟩

theorem fail (message : String) : ThreadsOn w f f' (fail message) p' ts := by
  intro _ _ b rest h
  cases h

theorem unexpected : ThreadsOn w f f' Parse.unexpected p' ts := by
  intro _ _ b rest h
  obtain ⟨l, mid, -, h⟩ := ok_of_bind h
  split at h <;> cases h

theorem fail_bind {r : Parse β} {message : String} :
    ThreadsOn w f f' (Parse.fail message >>= q) r ts := by
  intro _ _ b rest h
  obtain ⟨l, mid, hl, -⟩ := ok_of_bind h
  cases hl

theorem unexpected_bind {r : Parse β} :
    ThreadsOn w f f' (Parse.unexpected >>= q) r ts := by
  intro _ _ b rest h
  obtain ⟨l, mid, hl, -⟩ := ok_of_bind h
  obtain ⟨l, mid, -, hl⟩ := ok_of_bind hl
  split at hl <;> cases hl

theorem bind (hp : ThreadsOn w f f' p p' ts)
    (hq : ∀ a, Threads w f f' (q a) (q' a)) :
    ThreadsOn w f f' (p >>= q) (p' >>= q') ts := by
  intro hf hf' b rest h
  obtain ⟨a, mid, hfirst, hsecond⟩ := ok_of_bind h
  obtain ⟨used, rfl, hu, first⟩ := hp hf hf' a mid hfirst
  rw [leftOnLine_append hu] at hf hf'
  obtain ⟨used', rfl, hu', second⟩ := hq a mid (by omega) (by omega) b rest hsecond
  refine ⟨used ++ used', (List.append_assoc ..).symm, ?_, (bind_ok first).trans second⟩
  intro t ht
  rcases List.mem_append.mp ht with ht | ht
  · exact hu t ht
  · exact hu' t ht

variable [Weaving w]

/-- After a token that is known, one token fewer is left. -/
theorem takingOn (hl : (lexemeOf ts).isLayout = false)
    (h : ThreadsOn w (f - 1) (f' - 1) p p' ts.tail) :
    ThreadsOn w f f' (advance >>= fun _ => p) (advance >>= fun _ => p') ts := by
  intro hf hf' a rest hp
  cases ts with
  | nil => cases hl
  | cons t ts =>
    have word : t.lexeme.isLayout = false := hl
    rw [List.tail_cons] at h
    rw [bind_ok advance_apply, List.tail_cons] at hp
    rw [Weaving.cons_word (w := w) ts word]
    rw [leftOnLine_word word] at hf hf'
    obtain ⟨used, rfl, hu, read⟩ := h (by omega) (by omega) a rest hp
    refine ⟨t :: used, rfl, ?_, read⟩
    intro x hx
    rcases List.mem_cons.mp hx with rfl | hx
    · exact word
    · exact hu x hx

theorem taking (hl : (lexemeOf ts).isLayout = false)
    (h : Threads w (f - 1) (f' - 1) p p') :
    ThreadsOn w f f' (advance >>= fun _ => p) (advance >>= fun _ => p') ts :=
  takingOn hl (h ts.tail)

end ThreadsOn

namespace Threads

theorem pure (a : α) : Threads w f f' (pure a) (pure a) :=
  fun _ => .pure a

theorem fail (message : String) : Threads w f f' (fail message) p' :=
  fun _ => .fail message

theorem unexpected : Threads w f f' Parse.unexpected p' :=
  fun _ => .unexpected

theorem bind (hp : Threads w f f' p p')
    (hq : ∀ a, Threads w f f' (q a) (q' a)) :
    Threads w f f' (p >>= q) (p' >>= q') :=
  fun ts => (hp ts).bind hq

theorem map (h : Threads w f f' p p') (g : α → β) :
    Threads w f f' (g <$> p) (g <$> p') := by
  rw [map_eq_pure_bind, map_eq_pure_bind]
  exact h.bind fun a => .pure (g a)

theorem mono {g g' : Nat} (h : Threads w f f' p p') (hg : g ≤ f) (hg' : g' ≤ f') :
    Threads w g g' p p' :=
  fun ts hf hf' => h ts (by omega) (by omega)

/-- After a parser that takes a token, one token fewer is left. -/
theorem bindTaken (hp : ∀ ts, TakesOn w f f' p p' ts)
    (hq : ∀ a, Threads w (f - 1) (f' - 1) (q a) (q' a)) :
    Threads w f f' (p >>= q) (p' >>= q') := by
  intro ts hf hf' b rest h
  obtain ⟨a, mid, hfirst, hsecond⟩ := ok_of_bind h
  have shorter := (hp ts).shorter hf hf' a mid hfirst
  obtain ⟨used, rfl, hu, first⟩ := (hp ts).threads hf hf' a mid hfirst
  cases used with
  | nil => exact absurd shorter (Nat.lt_irrefl _)
  | cons t used =>
    rw [leftOnLine_append hu, List.length_cons] at hf hf'
    obtain ⟨used', rfl, hu', second⟩ := hq a mid (by omega) (by omega) b rest hsecond
    refine ⟨t :: used ++ used', (List.append_assoc ..).symm, ?_, (bind_ok first).trans second⟩
    intro x hx
    rcases List.mem_append.mp hx with hx | hx
    · exact hu x hx
    · exact hu' x hx

variable [Weaving w]

theorem peek {q q' : Lexeme → Parse β}
    (h : ∀ ts, ThreadsOn w f f' (q (lexemeOf ts)) (q' (lexemeOf ts)) ts) :
    Threads w f f' (peek >>= q) (peek >>= q') := by
  intro ts hf hf' b rest hb
  rw [bind_ok peek_apply] at hb ⊢
  rw [Weaving.lexemeOf_eq]
  exact h ts hf hf' b rest hb

theorem line {q q' : Nat → Parse β} (h : ∀ n, Threads w f f' (q n) (q' n)) :
    Threads w f f' (line >>= q) (line >>= q') := by
  intro ts hf hf' b rest hb
  rw [bind_ok line_apply] at hb ⊢
  rw [Weaving.lineOf_eq]
  exact h _ ts hf hf' b rest hb

theorem check {q q' : Bool → Parse β} (h : ∀ b, Threads w f f' (q b) (q' b)) :
    Threads w f f' (check m >>= q) (check m >>= q') := by
  intro ts hf hf' b rest hb
  rw [bind_ok check_eq] at hb ⊢
  rw [Weaving.lexemeOf_eq]
  exact h _ ts hf hf' b rest hb

theorem accept {q q' : Bool → Parse β} (hm : (Lexeme.mark m).isLayout = false)
    (htrue : Threads w (f - 1) (f' - 1) (q true) (q' true))
    (hfalse : Threads w f f' (q false) (q' false)) :
    Threads w f f' (accept m >>= q) (accept m >>= q') := by
  intro ts
  by_cases hl : lexemeOf ts = .mark m
  · have taken : ∀ {ts : List Token}, lexemeOf ts = .mark m →
        Parse.accept m ts = .ok (true, ts.tail) := by
      intro ts hl
      rw [Parse.accept, hl, if_pos (beq_self_eq_true _)]
    intro hf hf' b rest hb
    rw [bind_ok (taken hl)] at hb
    rw [bind_ok (taken ((Weaving.lexemeOf_eq ts).trans hl))]
    exact ThreadsOn.taking (by rw [hl]; exact hm) htrue hf hf' b rest hb
  · intro hf hf' b rest hb
    rw [bind_ok (accept_miss hl)] at hb
    rw [bind_ok (accept_miss (by rwa [Weaving.lexemeOf_eq]))]
    exact hfalse ts hf hf' b rest hb

/-- As `accept`, where the bounds have room. -/
theorem acceptAny {q q' : Bool → Parse β} (hm : (Lexeme.mark m).isLayout = false)
    (h : ∀ b, Threads w f f' (q b) (q' b)) :
    Threads w f f' (Parse.accept m >>= q) (Parse.accept m >>= q') :=
  accept hm ((h true).mono (Nat.sub_le f 1) (Nat.sub_le f' 1)) (h false)

theorem expect {q q' : Unit → Parse β} (hm : (Lexeme.mark m).isLayout = false)
    (h : Threads w f f' (q ()) (q' ())) :
    Threads w f f' (Parse.expect m >>= q) (Parse.expect m >>= q') := by
  rw [Parse.expect, bind_assoc, bind_assoc]
  refine acceptAny hm fun b => ?_
  cases b with
  | true => exact h
  | false => exact fun _ => .unexpected_bind

theorem expectName {q q' : String → Parse β} (h : ∀ s, Threads w f f' (q s) (q' s)) :
    Threads w f f' (Parse.expectName >>= q) (Parse.expectName >>= q') := by
  rw [Parse.expectName, bind_assoc, bind_assoc]
  refine peek fun ts => ?_
  generalize hl : lexemeOf ts = l
  cases l with
  | name s =>
    refine ThreadsOn.taking (by rw [hl]; rfl) ?_
    exact (h s).mono (Nat.sub_le f 1) (Nat.sub_le f' 1)
  | _ => exact ThreadsOn.unexpected_bind

end Threads

namespace TakesOn

theorem unexpected : TakesOn w f f' Parse.unexpected p' ts := by
  refine ⟨.unexpected, fun _ _ a rest h => ?_⟩
  obtain ⟨l, mid, -, h⟩ := ok_of_bind h
  split at h <;> cases h

variable [Weaving w]

theorem taking (hl : (lexemeOf ts).isLayout = false)
    (h : Threads w (f - 1) (f' - 1) p p') :
    TakesOn w f f' (advance >>= fun _ => p) (advance >>= fun _ => p') ts := by
  refine ⟨.taking hl h, fun hf hf' a rest hp => ?_⟩
  cases ts with
  | nil => cases hl
  | cons t ts =>
    have word : t.lexeme.isLayout = false := hl
    rw [bind_ok advance_apply, List.tail_cons] at hp
    rw [leftOnLine_word word] at hf hf'
    rw [List.length_cons]
    obtain ⟨used, rfl, -, -⟩ := h ts (by omega) (by omega) a rest hp
    rw [List.length_append]
    omega

theorem peek {q q' : Lexeme → Parse β}
    (h : TakesOn w f f' (q (lexemeOf ts)) (q' (lexemeOf ts)) ts) :
    TakesOn w f f' (peek >>= q) (peek >>= q') ts := by
  refine ⟨fun hf hf' b rest hb => ?_, fun hf hf' b rest hb => ?_⟩
  · rw [bind_ok peek_apply] at hb ⊢
    rw [Weaving.lexemeOf_eq]
    exact h.threads hf hf' b rest hb
  · rw [bind_ok peek_apply] at hb
    exact h.shorter hf hf' b rest hb

end TakesOn

end SortTrace.Script
