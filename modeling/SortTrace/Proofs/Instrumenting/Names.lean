import SortTrace.Proofs.Grammar
import SortTrace.Proofs.Instrumenting.Lines
import SortTrace.Proofs.Instrumenting.Origins
import SortTrace.Proofs.Silenced

/-!
# Names of a source

Every name among the tokens of a source occurs in its text (`tokenize_names`). So a source in which
the name of the logging builtin does not occur is a program that neither binds this name nor logs
anything (`parseTokens_unlogged`).
-/

namespace SortTrace.Script

namespace Scan

variable {map : Array Nat} {c : Char} {cs text : List Char} {l : Lexeme} {n : Nat}
  {s t u : Scan}

/-! ## Names among the tokens -/

/-- The tokens are those of `old` but for new ones, and a name among these is written in `cs`. -/
def NamesIn (cs : List Char) (old tokens : List Token) : Prop :=
  ∀ x ∈ tokens, x ∈ old ∨ ∀ name ∈ x.lexeme.name?, name.toList <:+: cs

theorem NamesIn.refl (cs : List Char) (tokens : List Token) : NamesIn cs tokens tokens :=
  fun _ hx => .inl hx

theorem NamesIn.push (h : ∀ name ∈ l.name?, name.toList <:+: cs) :
    NamesIn cs s.tokens (s.push map l).tokens := by
  intro x hx
  rcases List.mem_cons.mp hx with rfl | hx
  · exact .inr h
  · exact .inl hx

theorem NamesIn.endLine : NamesIn cs s.tokens (s.endLine map).tokens := by
  rw [Scan.endLine]
  split
  · exact .refl _ _
  · exact .push fun name hname => by cases hname

theorem numberLexeme_name? {digits : List Char} {real : Bool}
    (h : numberLexeme map n digits real = .ok l) : l.name? = none := by
  unfold numberLexeme at h
  dsimp only at h
  split at h
  · split at h <;> cases h
    rfl
  · split at h <;> cases h
    rfl

theorem readString_names (h : s.readString map c cs = .ok t) :
    NamesIn (c :: cs) s.tokens t.tokens := by
  unfold readString at h
  split at h
  · cases h
    exact .push nofun
  · cases h

theorem readNumber_names (h : s.readNumber map c cs = .ok t) :
    NamesIn (c :: cs) s.tokens t.tokens := by
  unfold readNumber at h
  dsimp only at h
  split at h
  · cases h
  · cases hl : numberLexeme map s.line (numberBody cs (c == '.') [c]).1
      (numberBody cs (c == '.') [c]).2.1 with
    | error e =>
      rw [hl] at h
      cases h
    | ok l =>
      rw [hl] at h
      cases h
      refine .push ?_
      rw [numberLexeme_name? hl]
      exact nofun

theorem readWord_names : NamesIn (c :: cs) s.tokens (s.readWord map c cs).tokens := by
  refine .push fun name hname => ?_
  split at hname
  · cases hname
  · obtain rfl := Option.some.inj hname
    rw [String.toList_ofList]
    exact (List.prefix_cons_inj c |>.mpr (List.takeWhile_prefix _)).isInfix

theorem readOperator_names (h : s.readOperator map c cs = .ok t) :
    NamesIn (c :: cs) s.tokens t.tokens := by
  unfold readOperator at h
  split at h
  · next l rest hop =>
    obtain ⟨p, more, hp, -, hl⟩ := operator?_spelling hop
    obtain ⟨rfl, -⟩ := Prod.mk.inj hl
    cases hd : s.nest map c p.2 with
    | error e =>
      rw [hd] at h
      cases h
    | ok depth =>
      rw [hd] at h
      cases h
      refine .push ?_
      rw [spellings_name? p (List.mem_of_find?_eq_some hp)]
      exact nofun
  · cases h

theorem readToken_names (h : s.readToken map c cs = .ok t) :
    NamesIn (c :: cs) s.tokens t.tokens := by
  unfold readToken at h
  split at h
  · cases h
    dsimp only
    split
    · exact .endLine
    · exact .refl _ _
  split at h
  · cases h
    exact .refl _ _
  split at h
  · cases h
    exact .refl _ _
  split at h
  · cases h
    exact .refl _ _
  split at h
  · exact readString_names h
  split at h
  · exact readNumber_names h
  split at h
  · cases h
    exact readWord_names
  · exact readOperator_names h

/-- The names among the tokens are written in the text, of which the rest is still to be read. -/
structure Named (text : List Char) (s : Scan) : Prop where
  rest : s.rest <:+ text
  names : ∀ x ∈ s.tokens, ∀ name ∈ x.lexeme.name?, name.toList <:+: text

theorem Named.extend (h : Named text s) {old : List Token} {cs : List Char}
    (hold : ∀ x ∈ old, ∀ name ∈ x.lexeme.name?, name.toList <:+: text) (hcs : cs <:+ s.rest)
    (hrest : t.rest <:+ cs) (ht : NamesIn cs old t.tokens) : Named text t := by
  have within : cs <:+ text := hcs.trans h.rest
  refine ⟨hrest.trans within, fun x hx name hname => ?_⟩
  rcases ht x hx with hx | hx
  · exact hold x hx name hname
  · exact (hx name hname).trans within.isInfix

theorem Named.step (h : Named text s) (hne : s.rest ≠ []) (hs : s.step map = .ok t) :
    Named text t := by
  have reads {v : Scan} {cs : List Char} (hv : ∀ x ∈ v.tokens, ∀ name ∈ x.lexeme.name?,
      name.toList <:+: text) (hcs : cs <:+ s.rest) (hc : cs ≠ [])
      (hread : readNext map cs v = .ok t) : Named text t := by
    cases cs with
    | nil => exact absurd rfl hc
    | cons c cs =>
      have hread : readToken map c cs { v with fresh := false } = .ok t := hread
      have names : NamesIn (c :: cs) v.tokens t.tokens :=
        readToken_names (s := { v with fresh := false }) hread
      exact h.extend hv hcs (readToken_reading hread).suffix names
  unfold Scan.step at hs
  split at hs
  · have hmargin := (margin_splits 0 s.rest).suffix
    dsimp only at hs
    split at hs
    · next next hblank =>
      cases hs
      obtain ⟨m, rest, hcuts, -, -, rfl⟩ := blankLine?_skips hblank
      exact ⟨(hcuts.suffix.trans hmargin).trans h.rest, h.names⟩
    · next hblank =>
      cases hi : s.indent map (margin 0 s.rest).1 with
      | error e =>
        rw [hi] at hs
        cases hs
      | ok u =>
        rw [hi] at hs
        obtain ⟨shifts, widths, rfl, -, hshifts⟩ := indent_shifts hi
        refine reads (fun x hx => ?_) hmargin (fun hnil => ?_) hs
        · rcases List.mem_append.mp hx with hx | hx
          · rcases hshifts x hx with rfl | rfl <;> exact nofun
          · exact h.names x hx
        · rw [hnil] at hblank
          cases hblank
  · exact reads h.names List.suffix_rfl hne hs

/-- A name among the tokens of a text is written in it. -/
theorem run_names (h : (start text).run map = .ok t) :
    ∀ x ∈ t.finish map, ∀ name ∈ x.lexeme.name?, name.toList <:+: text := by
  have first : Named text (start text) := ⟨List.suffix_rfl, nofun⟩
  obtain ⟨named, -⟩ := run_induction (P := Named text)
    (fun u v hne hstep hu => hu.step hne hstep) h first
  intro x hx name hname
  rw [finish_eq] at hx
  rcases List.mem_append.mp hx with hx | hx
  · have ended : NamesIn text t.tokens (t.endLine map).tokens := .endLine
    rcases ended x (List.mem_reverse.mp hx) with hx | hx
    · exact named.names x hx name hname
    · exact hx name hname
  · obtain ⟨l, hl, -⟩ := lastTokens_layout _ _ x hx
    rw [hl] at hname
    cases hname

end Scan

theorem tokenize_names {text : String} {map : Array Nat} {ts : List Token}
    (h : tokenize text map = .ok ts) :
    ∀ t ∈ ts, ∀ name ∈ t.lexeme.name?, name.toList <:+: text.toList := by
  obtain ⟨s, hrun, rfl⟩ := Scan.run_of_tokenize h
  exact Scan.run_names hrun

/-! ## Programs without a name -/

/-- The expression neither binds the name of the logging builtin nor is a call of it. -/
def Expr.Unlogged (e : Expr) : Prop :=
  e.binds Builtin.logState.name = false ∧
    ∀ args keywords, e ≠ .call (.name Builtin.logState.name) args keywords

/-- The token is not the name of the logging builtin. -/
def Token.IsOther (t : Token) : Prop :=
  t.lexeme ≠ .name Builtin.logState.name

theorem Parse.IsName.ne {name : String} (h : Parse.IsName (Parse.Only Token.IsOther) name) :
    name ≠ Builtin.logState.name := by
  obtain ⟨t, ts, hother, hname⟩ := h
  rintro rfl
  exact hother t List.mem_cons_self hname

theorem anyBinds_of_forall {name : String} {es : List Expr} (h : ∀ e ∈ es, e.binds name = false) :
    Expr.anyBinds name es = false := by
  induction es with
  | nil => rfl
  | cons e es ih =>
    obtain ⟨he, hes⟩ := List.forall_mem_cons.mp h
    rw [Expr.anyBinds, he, ih hes]
    rfl

theorem unlogged_exprs : ExprGrammar (Parse.Only Token.IsOther) Expr.Unlogged where
  name h := ⟨beq_eq_false_iff_ne.mpr h.ne, nofun⟩
  list h := ⟨anyBinds_of_forall fun e he => (h e he).1, nofun⟩
  tuple h := ⟨anyBinds_of_forall fun e he => (h e he).1, nofun⟩
  call args keywords h := by
    refine ⟨rfl, fun args' keywords' heq => ?_⟩
    obtain ⟨rfl, -, -⟩ := Expr.call.inj heq
    exact absurd h.1 (by rw [Expr.binds, beq_self_eq_true]; exact Bool.noConfusion)
  closed {e} h := by
    cases e with
    | name | list | tuple | call => cases h
    | _ => exact ⟨rfl, nofun⟩

/-- The statement neither binds the name of the logging builtin nor only logs something. -/
def Stmt.Unlogged (s : Stmt) : Prop :=
  s.binds Builtin.logState.name = false ∧ s.onlyLogs = false

theorem Expr.Unlogged.onlyLogs {e : Expr} (h : e.Unlogged) (line : Nat) :
    (Stmt.expr line e).onlyLogs = false := by
  cases hlogs : (Stmt.expr line e).onlyLogs with
  | false => rfl
  | true =>
    obtain ⟨n, arg, heq, -⟩ := Stmt.eq_logs hlogs
    exact absurd (Stmt.expr.inj heq).2 (h.2 _ _)

theorem exprStatement_unlogged {fuel : Nat} (line : Nat) :
    Parse.Makes (Parse.Only Token.IsOther) (fun s => s.Unlogged ∧ s.inner = [])
      (exprStatement fuel line) := by
  have testlist : Parse.Makes (Parse.Only Token.IsOther) Expr.Unlogged (parseTestList fuel) :=
    unlogged_exprs.parseTestList
  refine testlist.bind fun first hfirst => .after fun l => ?_
  split
  · exact .ite (fun _ => .after fun _ => .mapAny fun _ => ⟨⟨hfirst.1, rfl⟩, rfl⟩) fun _ => .fail _
  · have single : ∀ e ∈ [first], e.Unlogged := List.forall_mem_singleton.mpr hfirst
    refine (moreAssigned_makes testlist fuel [first] single).bind fun sides hsides => ?_
    split
    · refine .ite (fun _ => .pure ⟨⟨anyBinds_of_forall fun e he => ?_, rfl⟩, rfl⟩) fun _ => .fail _
      exact (hsides e (List.mem_cons_of_mem _ (List.mem_reverse.mp he))).1
    · exact .unexpected
  · exact .pure ⟨⟨rfl, hfirst.onlyLogs line⟩, rfl⟩

theorem smallStatement_unlogged {fuel : Nat} (around : Surrounding) :
    Parse.Makes (Parse.Only Token.IsOther) (fun s => s.Unlogged ∧ s.inner = [])
      (smallStatement fuel around) := by
  have plain {s : Stmt} (hs : s.binds Builtin.logState.name = false) (ho : s.onlyLogs = false)
      (hi : s.inner = []) : s.Unlogged ∧ s.inner = [] := ⟨⟨hs, ho⟩, hi⟩
  refine .after fun line => .after fun l => ?_
  split
  · exact .after fun _ => .pure (plain rfl rfl rfl)
  · exact .ite (fun _ => .after fun _ => .pure (plain rfl rfl rfl)) fun _ => .fail _
  · exact .ite (fun _ => .after fun _ => .pure (plain rfl rfl rfl)) fun _ => .fail _
  · refine .ite (fun _ => .after fun _ => .after fun l => ?_) fun _ => .fail _
    split
    · exact .pure (plain rfl rfl rfl)
    · exact .pure (plain rfl rfl rfl)
    · exact .pure (plain rfl rfl rfl)
    · exact .mapAny fun _ => plain rfl rfl rfl
  · exact .after fun _ => .after fun _ => .mapAny fun _ => plain rfl rfl rfl
  · exact exprStatement_unlogged line

theorem anyBinds_append {name : String} {ss rest : List Stmt} : Stmt.anyBinds name (ss ++ rest)
    = (Stmt.anyBinds name ss || Stmt.anyBinds name rest) := by
  induction ss with
  | nil => rfl
  | cons s ss ih => rw [List.cons_append, Stmt.anyBinds, ih, Stmt.anyBinds, Bool.or_assoc]

/-- The block does not bind the name of the logging builtin, and no statement of it, at any depth,
only logs something. -/
structure Stmt.UnloggedBlock (ss : List Stmt) : Prop where
  binds : Stmt.anyBinds Builtin.logState.name ss = false
  logs : ∀ s ∈ Stmt.inBlock ss, s.onlyLogs = false

theorem Stmt.unloggedBlock_append {ss rest : List Stmt} : Stmt.UnloggedBlock (ss ++ rest)
    ↔ Stmt.UnloggedBlock ss ∧ Stmt.UnloggedBlock rest := by
  have split : Stmt.UnloggedBlock (ss ++ rest) ↔
      (Stmt.anyBinds Builtin.logState.name ss = false ∧
        Stmt.anyBinds Builtin.logState.name rest = false) ∧
      (∀ s ∈ Stmt.inBlock ss, s.onlyLogs = false) ∧
        ∀ s ∈ Stmt.inBlock rest, s.onlyLogs = false := by
    rw [← Bool.or_eq_false_iff, ← anyBinds_append, ← List.forall_mem_append, ← inBlock_append]
    exact ⟨fun h => ⟨h.binds, h.logs⟩, fun h => ⟨h.1, h.2⟩⟩
  rw [split]
  exact ⟨fun h => ⟨⟨h.1.1, h.2.1⟩, h.1.2, h.2.2⟩,
    fun h => ⟨⟨h.1.binds, h.2.binds⟩, h.1.logs, h.2.logs⟩⟩

/-- A single statement, told from what is inside of it. -/
theorem Stmt.unloggedBlock_singleton {s : Stmt} (hbinds : s.binds Builtin.logState.name = false)
    (hlogs : s.onlyLogs = false) (hinner : ∀ p ∈ s.inner, p.onlyLogs = false) :
    Stmt.UnloggedBlock [s] := by
  refine ⟨by rw [Stmt.anyBinds, hbinds]; rfl, fun p hp => ?_⟩
  rcases List.mem_cons.mp hp with rfl | hp
  · exact hlogs
  · rw [Stmt.inBlock, List.append_nil] at hp
    exact hinner p hp

theorem Stmt.unlogged_cases {cases : List (Expr × List Stmt)}
    (h : ∀ c ∈ cases, Stmt.UnloggedBlock c.2) :
    Stmt.caseBinds Builtin.logState.name cases = false ∧
      ∀ s ∈ Stmt.inCases cases, s.onlyLogs = false := by
  induction cases with
  | nil => exact ⟨rfl, nofun⟩
  | cons c cases ih =>
    obtain ⟨hbody, hrest⟩ := List.forall_mem_cons.mp h
    obtain ⟨condition, body⟩ := c
    obtain ⟨binds, logs⟩ := ih hrest
    refine ⟨Bool.or_eq_false_iff.mpr ⟨hbody.binds, binds⟩, ?_⟩
    rw [Stmt.inCases, List.forall_mem_append]
    exact ⟨hbody.logs, logs⟩

theorem Stmt.UnloggedBlock.both {ss rest : List Stmt} (h : Stmt.UnloggedBlock ss)
    (h' : Stmt.UnloggedBlock rest) :
    ∀ s ∈ Stmt.inBlock ss ++ Stmt.inBlock rest, s.onlyLogs = false :=
  List.forall_mem_append.mpr ⟨h.logs, h'.logs⟩

/-- Without tokens that are the name of the logging builtin no program is made that binds it or logs
anything. -/
theorem unlogged_grammar :
    Grammar (Parse.Only Token.IsOther) Expr.Unlogged fun _ ss => Stmt.UnloggedBlock ss where
  exprs := ⟨_, unlogged_exprs.exprParts⟩
  nil _ := ⟨rfl, nofun⟩
  append := Stmt.unloggedBlock_append
  small fuel around := by
    refine (smallStatement_unlogged around).weaken fun s hs => ?_
    exact Stmt.unloggedBlock_singleton hs.1.1 hs.1.2 (by rw [hs.2]; exact nofun)
  branch _ _ hcases hlast := by
    obtain ⟨binds, logs⟩ := Stmt.unlogged_cases hcases
    exact Stmt.unloggedBlock_singleton (Bool.or_eq_false_iff.mpr ⟨binds, hlast.binds⟩) rfl
      (List.forall_mem_append.mpr ⟨logs, hlast.logs⟩)
  whileLoop _ _ hbody hlast :=
    Stmt.unloggedBlock_singleton (Bool.or_eq_false_iff.mpr ⟨hbody.binds, hlast.binds⟩) rfl
      (hbody.both hlast)
  forLoop _ _ hfine _ hbody hlast := by
    have front := Bool.or_eq_false_iff.mpr ⟨hfine.1, hbody.binds⟩
    exact Stmt.unloggedBlock_singleton (Bool.or_eq_false_iff.mpr ⟨front, hlast.binds⟩) rfl
      (hbody.both hlast)
  define {around name params body} _ hname hparams hbody := by
    have named : (name == Builtin.logState.name) = false := beq_eq_false_iff_ne.mpr hname.ne
    have given : (params.any fun p => p.name == Builtin.logState.name) = false :=
      List.any_eq_false.mpr fun p hp => by
        rw [beq_eq_false_iff_ne.mpr (hparams.names p hp).ne]
        exact Bool.false_ne_true
    have front := Bool.or_eq_false_iff.mpr ⟨named, given⟩
    exact Stmt.unloggedBlock_singleton (Bool.or_eq_false_iff.mpr ⟨front, hbody.binds⟩) rfl
      hbody.logs

/-- A source in which the name of the logging builtin does not occur logs nothing. -/
theorem parseTokens_unlogged {source : String} {map : Array Nat} {ts : List Token}
    {program : List Stmt}
    (hsource : Text.occurs Builtin.logState.name.toList source.toList = false)
    (htokens : tokenize source map = .ok ts) (hread : parseTokens ts = .ok program) :
    Stmt.UnloggedBlock program := by
  refine unlogged_grammar.parseTokens (fun t ht hname => ?_) hread
  have found := tokenize_names htokens t ht Builtin.logState.name (by rw [hname]; rfl)
  rw [Text.occurs_of_infix found] at hsource
  cases hsource

end SortTrace.Script
