import SortTrace.Proofs.Instrumenting.Program
import SortTrace.Proofs.Silenced

/-!
# Programs beside each other

Logging calls may stand anywhere between the logical lines of a program, at any indentation. Then
the text with the calls need not be a program, and if it is one, the calls need not be where one
would look for them. `Beside` says how the tokens of the two texts go on between two logical lines,
as long as both can still be programs; where one of them cannot be one any more it is `Stuck`. So if
both are programs, they are the same but for the calls: `parseTokens_beside`.
-/

namespace SortTrace.Script

open Parse

/-! ## The same statements but for logging calls -/

/-- The blocks are the same but for statements that only log. -/
def Stmt.SameBlock (ss ss' : List Stmt) : Prop :=
  Stmt.pruneBlock Stmt.onlyLogs ss' = Stmt.pruneBlock Stmt.onlyLogs ss

/-- The cases are the same but for statements that only log. -/
def Stmt.SameCases (cases cases' : List (Expr × List Stmt)) : Prop :=
  Stmt.pruneCases Stmt.onlyLogs cases' = Stmt.pruneCases Stmt.onlyLogs cases

theorem pruneCases_eq_map (out : Stmt → Bool) (cases : List (Expr × List Stmt)) :
    Stmt.pruneCases out cases = cases.map fun c => (c.1, Stmt.pruneBlock out c.2) := by
  induction cases with
  | nil => rfl
  | cons c cases ih =>
    obtain ⟨condition, body⟩ := c
    rw [Stmt.pruneCases, ih, List.map_cons]

section Same

variable {ss ss' last : List Stmt} {cases cases' : List (Expr × List Stmt)} {n : Nat}

theorem Stmt.SameBlock.append {rest rest' : List Stmt} (h : Stmt.SameBlock ss ss')
    (hrest : Stmt.SameBlock rest rest') : Stmt.SameBlock (ss ++ rest) (ss' ++ rest') := by
  rw [Stmt.SameBlock, pruneBlock_append, pruneBlock_append, h, hrest]

theorem Stmt.SameCases.cons {condition : Expr} (hbody : Stmt.SameBlock ss ss')
    (h : Stmt.SameCases cases cases') :
    Stmt.SameCases ((condition, ss) :: cases) ((condition, ss') :: cases') := by
  rw [Stmt.SameCases, Stmt.pruneCases, Stmt.pruneCases, hbody, h]

theorem Stmt.SameCases.reverse (h : Stmt.SameCases cases cases') :
    Stmt.SameCases cases.reverse cases'.reverse := by
  rw [Stmt.SameCases, pruneCases_eq_map, pruneCases_eq_map] at h ⊢
  rw [List.map_reverse, List.map_reverse, h]

/-- Compound statements are the same if their blocks are. -/
theorem Stmt.SameBlock.single {s s' : Stmt} (hs : s.onlyLogs = false) (hs' : s'.onlyLogs = false)
    (h : s'.prune Stmt.onlyLogs = s.prune Stmt.onlyLogs) : Stmt.SameBlock [s] [s'] := by
  simp only [Stmt.SameBlock, Stmt.pruneBlock, hs, hs', h]

end Same

/-! ## The tokens of both texts -/

/-- The tokens of a logging call on line `n` with the end of its line. What is logged is the word
`x`. -/
def callTokens (n : Nat) (x : Lexeme) : List Token :=
  [⟨.name Builtin.logState.name, n⟩, ⟨.mark Punct.lparen, n⟩, ⟨x, n⟩, ⟨.mark Punct.rparen, n⟩,
    ⟨.mark Layout.newline, n⟩]

/-- Is the lexeme a name or a keyword? -/
def Lexeme.isWord : Lexeme → Bool
  | .name _ | .mark (.keyword _) => true
  | _ => false

/-- Does the lexeme begin a further part of a compound statement? -/
def Lexeme.goesOn : Lexeme → Bool
  | .mark (.keyword .elifKw) | .mark (.keyword .elseKw) => true
  | _ => false

theorem Lexeme.eq_of_goesOn {l : Lexeme} (h : l.goesOn = true) :
    l = .mark Keyword.elifKw ∨ l = .mark Keyword.elseKw := by
  unfold Lexeme.goesOn at h
  split at h
  · exact .inl rfl
  · exact .inr rfl
  · cases h

section

variable (x : Lexeme)

/-- No program goes on with the tokens after a statement. There are only calls before a line that is
too deep, or before a further part of a statement that has ended. -/
inductive Stuck : List Token → Prop
  | indent {t : Token} {ts : List Token} (ht : t.lexeme = .mark Layout.indent) : Stuck (t :: ts)
  | dedent {t : Token} {ts : List Token} (ht : t.lexeme = .mark Layout.dedent) (h : Stuck ts) :
    Stuck (t :: ts)
  | call {ts : List Token} (n : Nat) (h : Stuck ts) : Stuck (callTokens n x ++ ts)
  | orphan {t : Token} {ts : List Token} (n : Nat) (ht : t.lexeme.goesOn = true) :
    Stuck (callTokens n x ++ t :: ts)

/-- How the tokens of a text and those of the same text with calls go on after the same logical
line. -/
inductive Beside : List Token → List Token → Prop
  | line {used : List Token} {t : Token} {rest rest' : List Token} (hne : used ≠ [])
    (hu : ∀ y ∈ used, y.lexeme.isLayout = false) (ht : t.lexeme = .mark Layout.newline)
    (h : Beside rest rest') : Beside (used ++ t :: rest) (used ++ t :: rest')
  | call {ts ts' : List Token} (n : Nat) (hts : (lexemeOf ts).goesOn = false) (h : Beside ts ts') :
    Beside ts (callTokens n x ++ ts')
  | dedent {t t' : Token} {ts ts' : List Token} (ht : t.lexeme = .mark Layout.dedent)
    (ht' : t'.lexeme = .mark Layout.dedent) (h : Beside ts ts') : Beside (t :: ts) (t' :: ts')
  | finish {ts ts' : List Token} (hts : lexemeOf ts = .mark Layout.finish)
    (hts' : lexemeOf ts' = .mark Layout.finish) : Beside ts ts'
  | indent {t t' : Token} {ts ts' : List Token} (ht : t.lexeme = .mark Layout.indent)
    (ht' : t'.lexeme = .mark Layout.indent) (h : Beside ts ts') : Beside (t :: ts) (t' :: ts')
  /-- A call opens the block, not as deep as the next line is, or deeper. -/
  | opened {t t' : Token} {ts ts' : List Token} (ht : t.lexeme = .mark Layout.indent)
    (ht' : t'.lexeme = .mark Layout.indent) (h : Stuck x ts') : Beside (t :: ts) (t' :: ts')
  /-- A call stands before the block is opened. -/
  | before {ts ts' : List Token} (hts : lexemeOf ts = .mark Layout.indent)
    (hts' : lexemeOf ts' = .mark Layout.dedent ∨ lexemeOf ts' = .name Builtin.logState.name) :
    Beside ts ts'
  | stuck {ts ts' : List Token} (hts : lexemeOf ts ≠ .mark Layout.indent) (h : Stuck x ts') :
    Beside ts ts'

/-- In a logical line the tokens are the same up to its end. -/
inductive InLine : List Token → List Token → Prop
  | mk {used : List Token} {t : Token} {rest rest' : List Token}
    (hu : ∀ y ∈ used, y.lexeme.isLayout = false) (ht : t.lexeme = .mark Layout.newline)
    (h : Beside x rest rest') : InLine (used ++ t :: rest) (used ++ t :: rest')

end

variable {x : Lexeme} {f f' n : Nat} {t : Token}
  {ts ts' rest rest' used tail : List Token}

/-! ## Other tokens behind the line -/

/-- The tokens up to the end of the line, with others behind. -/
def onwards (tail : List Token) : List Token → List Token
  | [] => []
  | t :: ts => if t.lexeme.isLayout then t :: tail else t :: onwards tail ts

theorem onwards_word (h : t.lexeme.isLayout = false) :
    onwards tail (t :: ts) = t :: onwards tail ts := by
  rw [onwards, h]
  rfl

theorem onwards_append (hu : ∀ y ∈ used, y.lexeme.isLayout = false)
    (ht : t.lexeme = .mark Layout.newline) :
    onwards tail (used ++ t :: rest) = used ++ t :: tail := by
  induction used with
  | nil =>
    rw [List.nil_append, onwards, ht]
    rfl
  | cons y used ih =>
    obtain ⟨hy, hu⟩ := List.forall_mem_cons.mp hu
    rw [List.cons_append, onwards_word hy, ih hu, List.cons_append]

instance : Weaving (onwards tail) where
  lexemeOf_eq ts := by
    cases ts with
    | nil => rfl
    | cons t ts =>
      rw [onwards]
      split <;> rfl
  lineOf_eq ts := by
    cases ts with
    | nil => rfl
    | cons t ts =>
      rw [onwards]
      split <;> rfl
  cons_word _ h := onwards_word h

theorem words_split {first mid : List Token} (hfirst : ∀ y ∈ first, y.lexeme.isLayout = false)
    (ht : t.lexeme = .mark Layout.newline) (h : used ++ t :: rest = first ++ mid) :
    ∃ second, used = first ++ second ∧ mid = second ++ t :: rest := by
  rcases List.append_eq_append_iff.mp h with ⟨more, rfl, hmore⟩ | ⟨second, rfl, rfl⟩
  · cases more with
    | nil => exact ⟨[], by simp, hmore.symm⟩
    | cons y more =>
      obtain ⟨rfl, -⟩ := List.cons.inj hmore
      have word := hfirst t (List.mem_append_right _ (List.mem_cons_self ..))
      rw [ht] at word
      cases word
  · exact ⟨second, rfl, rfl⟩

theorem leftOnLine_end (hu : ∀ y ∈ used, y.lexeme.isLayout = false)
    (ht : t.lexeme = .mark Layout.newline) : leftOnLine (used ++ t :: rest) = used.length := by
  have last : leftOnLine (t :: rest) = 0 := by
    rw [leftOnLine, ht]
    rfl
  rw [leftOnLine_append hu, last, Nat.add_zero]

/-- A part of the line is read in both texts. -/
theorem InLine.read {α : Type} {p p' : Parse α} {a : α} (h : InLine x ts ts')
    (hp : ∀ tail, Threads (onwards tail) f f' p p') (hf : ts.length < f) (hf' : ts'.length < f')
    (hread : p ts = .ok (a, rest)) : ∃ rest', p' ts' = .ok (a, rest') ∧ InLine x rest rest' ∧
      rest.length ≤ ts.length ∧ rest'.length ≤ ts'.length := by
  obtain @⟨used, t, next, next', hu, ht, hnext⟩ := h
  have left : leftOnLine (used ++ t :: next) = used.length := leftOnLine_end hu ht
  rw [List.length_append] at hf hf'
  obtain ⟨first, hsplit, hfirst, hread'⟩ := hp next' _ (by omega) (by omega) a rest hread
  obtain ⟨second, rfl, rfl⟩ := words_split hfirst ht hsplit
  have hsecond : ∀ y ∈ second, y.lexeme.isLayout = false :=
    fun y hy => hu y (List.mem_append_right _ hy)
  rw [onwards_append hu ht, onwards_append hsecond ht] at hread'
  refine ⟨_, hread', ⟨hsecond, ht, hnext⟩, ?_, ?_⟩ <;>
  · simp only [List.length_append]
    omega

/-! ## Parsers beside each other -/

section

variable (x)

/-- When both parsers end, from tokens that go on as `before` says, their results are related by `R`
and the tokens that are left go on as `after` says, or the second ones are stuck. -/
def Joint {α β : Type} (f f' : Nat) (before after : List Token → List Token → Prop)
    (R : α → β → Prop) (p : Parse α) (p' : Parse β) : Prop :=
  ∀ ts ts' a b rest rest', before ts ts' → ts.length < f → ts'.length < f' →
    p ts = .ok (a, rest) → p' ts' = .ok (b, rest') →
    rest'.length ≤ ts'.length ∧ (Stuck x rest' ∨ rest.length ≤ ts.length ∧ R a b ∧ after rest rest')

/-- The parser leaves tokens that are stuck, of such tokens. -/
def Sinks {β : Type} (f' : Nat) (p' : Parse β) : Prop :=
  ∀ ts' b rest', Stuck x ts' → ts'.length < f' → p' ts' = .ok (b, rest') →
    Stuck x rest' ∧ rest'.length ≤ ts'.length

end

theorem Stuck.goesOn (h : Stuck x ts) : (lexemeOf ts).goesOn = false := by
  cases h with
  | indent ht | dedent ht =>
    rw [lexemeOf_cons, ht]
    rfl
  | call | orphan => rfl

theorem ne_of_goesOn {w : Keyword} (h : (lexemeOf ts).goesOn = false)
    (hw : (Lexeme.mark w).goesOn = true) : lexemeOf ts ≠ .mark w := by
  intro heq
  rw [← heq, h] at hw
  cases hw

/-- A word that begins a further part in the first text is in the second one too, if that is not
stuck. -/
theorem Beside.hit {w : Keyword} (h : Beside x ts ts') (hw : (Lexeme.mark w).goesOn = true)
    (hl : lexemeOf ts = .mark w) : Stuck x ts' ∨ ∃ y next next', y.lexeme = .mark w ∧
      ts = y :: next ∧ ts' = y :: next' ∧ InLine x next next' := by
  cases h with
  | @line used t next next' hne hu ht h =>
    cases used with
    | nil => exact absurd rfl hne
    | cons y used =>
      have inside : InLine x (used ++ t :: next) (used ++ t :: next') :=
        ⟨fun y hy => hu y (List.mem_cons_of_mem _ hy), ht, h⟩
      exact .inr ⟨y, _, _, hl, rfl, rfl, inside⟩
  | call n hts h => exact absurd hl (ne_of_goesOn hts hw)
  | dedent ht | indent ht | opened ht =>
    rw [lexemeOf_cons, ht] at hl
    cases hl
  | finish hts | before hts =>
    rw [hts] at hl
    cases hl
  | stuck hts h => exact .inl h

/-- A word that begins a further part is not in the second text if it is not in the first. -/
theorem Beside.miss {w : Keyword} (h : Beside x ts ts') (hw : (Lexeme.mark w).goesOn = true)
    (hl : lexemeOf ts ≠ .mark w) : lexemeOf ts' ≠ .mark w := by
  cases h with
  | @line used t next next' hne hu ht h =>
    cases used with
    | nil => exact absurd rfl hne
    | cons y used => exact hl
  | call => nofun
  | dedent _ ht' | indent _ ht' | opened _ ht' =>
    rw [lexemeOf_cons, ht']
    nofun
  | finish _ hts' =>
    rw [hts']
    nofun
  | before _ hts' =>
    rcases hts' with hts' | hts' <;>
    · rw [hts']
      nofun
  | stuck _ h => exact ne_of_goesOn h.goesOn hw

namespace Sinks

variable {α β : Type} {p : Parse α} {q : α → Parse β}

theorem pure {a : α} : Sinks x f (pure a : Parse α) := by
  intro ts' b rest' h _ hread
  cases hread
  exact ⟨h, Nat.le_refl _⟩

theorem bind (hp : Sinks x f p) (hq : ∀ a, Sinks x f (q a)) : Sinks x f (p >>= q) := by
  intro ts' b rest' h hf hread
  obtain ⟨a, mid, hfirst, hsecond⟩ := ok_of_bind hread
  obtain ⟨hmid, shorter⟩ := hp ts' a mid h hf hfirst
  obtain ⟨hrest, shorter'⟩ := hq a mid b rest' hmid (by omega) hsecond
  exact ⟨hrest, by omega⟩

theorem map {g : α → β} (hp : Sinks x f p) : Sinks x f (g <$> p) := by
  rw [map_eq_pure_bind]
  exact hp.bind fun a => .pure

theorem mono {g : Nat} (hp : Sinks x f p) (hg : g ≤ f) : Sinks x g p :=
  fun ts' b rest' h hf => hp ts' b rest' h (by omega)

theorem line {q : Nat → Parse β} (hq : ∀ n, Sinks x f (q n)) : Sinks x f (line >>= q) := by
  intro ts' b rest' h hf hread
  rw [bind_ok line_apply] at hread
  exact hq _ ts' b rest' h hf hread

/-- A further part of a statement is not there. -/
theorem acceptWord {w : Keyword} {q : Bool → Parse β} (hw : (Lexeme.mark w).goesOn = true)
    (hq : Sinks x f (q false)) : Sinks x f (accept w >>= q) := by
  intro ts' b rest' h hf hread
  rw [bind_ok (accept_miss (ne_of_goesOn h.goesOn hw))] at hread
  exact hq ts' b rest' h hf hread

end Sinks

namespace Joint

variable {α β γ δ : Type} {p : Parse α} {p' : Parse β} {q : α → Parse γ} {q' : β → Parse δ}
  {R : α → β → Prop} {S : γ → δ → Prop} {before after : List Token → List Token → Prop}

theorem pure {a : α} {b : β} (h : R a b) :
    Joint x f f' before before R (Pure.pure a) (Pure.pure b) := by
  intro ts ts' a' b' rest rest' hts _ _ hread hread'
  cases hread
  cases hread'
  exact ⟨Nat.le_refl _, .inr ⟨Nat.le_refl _, h, hts⟩⟩

theorem fail (message : String) : Joint x f f' before after R (fail message) p' := by
  intro ts ts' a b rest rest' _ _ _ hread
  cases hread

theorem mono {g g' : Nat} (h : Joint x f f' before after R p p') (hg : g ≤ f) (hg' : g' ≤ f') :
    Joint x g g' before after R p p' :=
  fun ts ts' a b rest rest' hts hf hf' => h ts ts' a b rest rest' hts (by omega) (by omega)

theorem bind {mid : List Token → List Token → Prop} (h : Joint x f f' before mid R p p')
    (hq : ∀ a b, R a b → Joint x f f' mid after S (q a) (q' b)) (hs : ∀ b, Sinks x f' (q' b)) :
    Joint x f f' before after S (p >>= q) (p' >>= q') := by
  intro ts ts' c d rest rest' hts hf hf' hread hread'
  obtain ⟨a, next, hfirst, hsecond⟩ := ok_of_bind hread
  obtain ⟨b, next', hfirst', hsecond'⟩ := ok_of_bind hread'
  obtain ⟨shorter', stuck | ⟨shorter, hab, hnext⟩⟩ :=
    h ts ts' a b next next' hts hf hf' hfirst hfirst'
  · obtain ⟨hrest, shorter''⟩ := hs b next' d rest' stuck (by omega) hsecond'
    exact ⟨by omega, .inl hrest⟩
  · obtain ⟨wider', goesOn⟩ := hq a b hab next next' c d rest rest' hnext (by omega) (by omega)
      hsecond hsecond'
    refine ⟨by omega, goesOn.imp_right fun ⟨wider, hcd, hrest⟩ => ⟨by omega, hcd, hrest⟩⟩

theorem map {g : α → γ} {g' : β → δ} (h : Joint x f f' before after R p p')
    (hg : ∀ a b, R a b → S (g a) (g' b)) : Joint x f f' before after S (g <$> p) (g' <$> p') := by
  rw [map_eq_pure_bind, map_eq_pure_bind]
  exact h.bind (fun a b hab => .pure (hg a b hab)) fun b => .pure

/-- A part of the line is read first. -/
theorem bindLine {p p' : Parse α} {q' : α → Parse δ}
    (hp : ∀ tail, Threads (onwards tail) f f' p p')
    (hq : ∀ a, Joint x f f' (InLine x) after S (q a) (q' a)) :
    Joint x f f' (InLine x) after S (p >>= q) (p' >>= q') := by
  intro ts ts' c d rest rest' hts hf hf' hread hread'
  obtain ⟨a, next, hfirst, hsecond⟩ := ok_of_bind hread
  obtain ⟨next', hfirst', hnext, shorter, shorter'⟩ := hts.read hp hf hf' hfirst
  rw [bind_ok hfirst'] at hread'
  obtain ⟨wider', goesOn⟩ := hq a next next' c d rest rest' hnext (by omega) (by omega) hsecond
    hread'
  refine ⟨by omega, goesOn.imp_right fun ⟨wider, hcd, hrest⟩ => ⟨by omega, hcd, hrest⟩⟩

theorem line {q : Nat → Parse γ} {q' : Nat → Parse δ}
    (hq : ∀ n n', Joint x f f' before after S (q n) (q' n')) :
    Joint x f f' before after S (line >>= q) (line >>= q') := by
  intro ts ts' c d rest rest' hts hf hf' hread hread'
  rw [bind_ok line_apply] at hread hread'
  exact hq _ _ ts ts' c d rest rest' hts hf hf' hread hread'

/-- A word that may begin a further part of a compound statement. -/
theorem acceptWord {w : Keyword} {q : Bool → Parse γ} {q' : Bool → Parse δ}
    (hw : (Lexeme.mark w).goesOn = true)
    (htrue : Joint x (f - 1) (f' - 1) (InLine x) (Beside x) S (q true) (q' true))
    (hfalse : Joint x f f' (Beside x) (Beside x) S (q false) (q' false))
    (hs : Sinks x f' (q' false)) :
    Joint x f f' (Beside x) (Beside x) S (accept w >>= q) (accept w >>= q') := by
  intro ts ts' c d rest rest' hts hf hf' hread hread'
  by_cases hl : lexemeOf ts = .mark w
  · rcases hts.hit hw hl with stuck | ⟨y, next, next', word, rfl, rfl, inside⟩
    · rw [bind_ok (accept_miss (ne_of_goesOn stuck.goesOn hw))] at hread'
      obtain ⟨hrest, shorter'⟩ := hs _ d rest' stuck hf' hread'
      exact ⟨shorter', .inl hrest⟩
    · rw [bind_ok (accept_cons word)] at hread hread'
      simp only [List.length_cons] at hf hf' ⊢
      obtain ⟨shorter', goesOn⟩ := htrue _ _ c d rest rest' inside (by omega) (by omega) hread
        hread'
      exact ⟨by omega, goesOn.imp_right fun ⟨wider, hcd, hrest⟩ => ⟨by omega, hcd, hrest⟩⟩
  · rw [bind_ok (accept_miss hl)] at hread
    rw [bind_ok (accept_miss (hts.miss hw hl))] at hread'
    exact hfalse ts ts' c d rest rest' hts hf hf' hread hread'

end Joint

end SortTrace.Script
