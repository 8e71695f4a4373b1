import SortTrace.Proofs.Scanning.Pieces
import SortTrace.Proofs.Written.Lexemes

/-!
# Well-formed layout

The lexemes of a text are arranged by its layout: blocks are opened and closed between logical lines
and never more than `maxBlocks` deep, brackets never more than `maxBrackets` deep, and as long as a
bracket is open there is no layout, unless the text ends there. `Arranged` says this lexeme by
lexeme, so that a step of the scanner adds to it what the step adds to the tokens (`InOrder.step`),
and `tokenize_wellLaidOut` says of whole texts what follows from it.
-/

namespace SortTrace.Script

open Scan

/-- The layout of a whole text is well formed. -/
structure WellLaidOut (ls : List Lexeme) : Prop where
  /-- The end of the text comes last and nowhere else. -/
  finish : ∃ front, ls = front ++ [.mark Layout.finish] ∧ .mark Layout.finish ∉ front
  /-- No block is closed that is not open, and never too many are open. -/
  blocks : ∀ front, front <+: ls →
    front.count (.mark Layout.dedent) ≤ front.count (.mark Layout.indent) ∧
      front.count (.mark Layout.indent) ≤ front.count (.mark Layout.dedent) + maxBlocks
  /-- At the end all blocks are closed. -/
  closed : ls.count (.mark Layout.indent) = ls.count (.mark Layout.dedent)
  /-- A logical line ends behind something that is no layout. -/
  newline : ∀ front back, ls = front ++ .mark Layout.newline :: back →
    ∃ last, front.getLast? = some last ∧ last.isLayout = false
  /-- A block is opened at the start of the text or behind other layout. -/
  indent : ∀ front back, ls = front ++ .mark Layout.indent :: back →
    ∀ last ∈ front.getLast?, last.isLayout = true
  /-- No bracket is closed that is not open, and never too many are open. -/
  brackets : BracketsFit 0 ls
  /-- Where a bracket is open there is no layout before the layout at the end of the text. -/
  suspended : ∀ front l back, ls = front ++ l :: back → l.isLayout = true →
    front.countP Lexeme.closes < front.countP Lexeme.opens → ∀ x ∈ back, x.isLayout = true

/-- A lexeme opens a bracket, closes one or does neither. -/
theorem Scan.depthAfter_cases (l : Lexeme) (n : Nat) :
    (l.opens = true ∧ l.closes = false ∧ depthAfter l n = n + 1) ∨
      (l.closes = true ∧ l.opens = false ∧ depthAfter l n = n - 1) ∨
      (l.opens = false ∧ l.closes = false ∧ depthAfter l n = n) := by
  cases l with
  | mark m =>
    cases m with
    | punct p => cases p <;> simp [Lexeme.opens, Lexeme.closes, depthAfter]
    | _ => exact .inr (.inr ⟨rfl, rfl, rfl⟩)
  | _ => exact .inr (.inr ⟨rfl, rfl, rfl⟩)

/-- The lexemes, which are given newest first, are arranged in logical lines and blocks, and so
many blocks and brackets are open behind them. Once the text has ended only layout is added, whether
brackets are open or not. -/
inductive Arranged : (ended : Bool) → (blocks brackets : Nat) → List Lexeme → Prop
  | start : Arranged false 0 0 []
  | word {blocks brackets : Nat} {l : Lexeme} {ls : List Lexeme}
    (h : Arranged false blocks brackets ls) (hl : l.isLayout = false)
    (hopens : l.opens = true → brackets < maxBrackets)
    (hcloses : l.closes = true → brackets ≠ 0) :
    Arranged false blocks (depthAfter l brackets) (l :: ls)
  | newline {ended : Bool} {blocks brackets : Nat} {l : Lexeme} {ls : List Lexeme}
    (h : Arranged ended blocks brackets (l :: ls)) (hd : ended = false → brackets = 0)
    (hl : l.isLayout = false) :
    Arranged ended blocks brackets (.mark Layout.newline :: l :: ls)
  | indent {blocks : Nat} {ls : List Lexeme} (h : Arranged false blocks 0 ls)
    (hb : blocks < maxBlocks) (hls : ∀ l ∈ ls.head?, l.isLayout = true) :
    Arranged false (blocks + 1) 0 (.mark Layout.indent :: ls)
  | dedent {ended : Bool} {blocks brackets : Nat} {ls : List Lexeme}
    (h : Arranged ended (blocks + 1) brackets ls) (hd : ended = false → brackets = 0) :
    Arranged ended blocks brackets (.mark Layout.dedent :: ls)
  | ends {blocks brackets : Nat} {ls : List Lexeme} (h : Arranged false blocks brackets ls) :
    Arranged true blocks brackets ls

namespace Arranged

variable {ended : Bool} {blocks brackets : Nat} {l : Lexeme} {ls older newer : List Lexeme}

/-- Layout of one kind is not counted as layout of another. -/
theorem count_layout (k : Layout) {k' : Layout} (hk : k ≠ k') (ls : List Lexeme) :
    (.mark k :: ls).count (.mark k') = ls.count (.mark k') :=
  List.count_cons_of_ne fun h => hk (Mark.layout.inj (Lexeme.mark.inj h))

theorem count_blocks (h : Arranged ended blocks brackets ls) :
    ls.count (.mark Layout.indent) = ls.count (.mark Layout.dedent) + blocks := by
  induction h with
  | start => rfl
  | word _ hl _ _ ih =>
    rw [List.count_cons_of_ne, List.count_cons_of_ne, ih]
    · rintro rfl
      cases hl
    · rintro rfl
      cases hl
  | newline _ _ _ ih =>
    rw [count_layout .newline (by decide), count_layout .newline (by decide), ih]
  | indent _ _ _ ih =>
    rw [List.count_cons_self, count_layout .indent (by decide), ih, Nat.add_assoc]
  | dedent _ _ ih =>
    rw [List.count_cons_self, count_layout .dedent (by decide), ih]
    omega
  | ends _ ih => exact ih

/-- Layout is no bracket. -/
theorem countP_layout {p : Lexeme → Bool} (hp : ∀ k : Layout, p (.mark k) = false) (k : Layout)
    (ls : List Lexeme) : (.mark k :: ls).countP p = ls.countP p :=
  List.countP_cons_of_neg (by rw [hp k]; exact Bool.false_ne_true)

theorem count_brackets (h : Arranged ended blocks brackets ls) :
    ls.countP Lexeme.opens = ls.countP Lexeme.closes + brackets := by
  have opens : ∀ (k : Layout) (ls : List Lexeme),
      (Lexeme.mark k :: ls).countP Lexeme.opens = ls.countP Lexeme.opens :=
    countP_layout fun _ => rfl
  have closes : ∀ (k : Layout) (ls : List Lexeme),
      (Lexeme.mark k :: ls).countP Lexeme.closes = ls.countP Lexeme.closes :=
    countP_layout fun _ => rfl
  induction h with
  | start => rfl
  | @word _ brackets l ls _ _ hopens hcloses ih =>
    rw [List.countP_cons, List.countP_cons, ih]
    rcases depthAfter_cases l brackets with ⟨hl, hl', hd⟩ | ⟨hl, hl', hd⟩ | ⟨hl, hl', hd⟩
    · simp only [hl, hl', hd, if_true, Bool.false_eq_true, if_false]
      omega
    · have positive := hcloses hl
      simp only [hl, hl', hd, if_true, Bool.false_eq_true, if_false]
      omega
    · simp only [hl, hl', hd, Bool.false_eq_true, if_false, Nat.add_zero]
  | newline _ _ _ ih | indent _ _ _ ih | dedent _ _ ih => rw [opens, closes, ih]
  | ends _ ih => exact ih

theorem blocks_le (h : Arranged ended blocks brackets ls) : blocks ≤ maxBlocks := by
  induction h with
  | start => exact Nat.zero_le _
  | indent _ hb => exact hb
  | dedent _ _ ih => exact Nat.le_of_succ_le ih
  | word _ _ _ _ ih | newline _ _ _ ih | ends _ ih => exact ih

theorem brackets_le (h : Arranged ended blocks brackets ls) : brackets ≤ maxBrackets := by
  induction h with
  | start => exact Nat.zero_le _
  | @word _ brackets l _ _ _ hopens _ ih =>
    rcases depthAfter_cases l brackets with ⟨hl, -, hd⟩ | ⟨-, -, hd⟩ | ⟨-, -, hd⟩
    · have room := hopens hl
      omega
    · omega
    · omega
  | indent => exact Nat.zero_le _
  | newline _ _ _ ih | dedent _ _ ih | ends _ ih => exact ih

theorem finish_notMem (h : Arranged ended blocks brackets ls) :
    .mark Layout.finish ∉ ls := by
  induction h with
  | start => exact List.not_mem_nil
  | word _ hl _ _ ih =>
    intro hmem
    rcases List.mem_cons.mp hmem with rfl | hmem
    · cases hl
    · exact ih hmem
  | newline _ _ _ ih | indent _ _ _ ih | dedent _ _ ih =>
    exact fun hmem => ih ((List.mem_cons.mp hmem).resolve_left (by decide))
  | ends _ ih => exact ih

/-- What stands before a lexeme is arranged as well. -/
theorem suffix (h : Arranged ended blocks brackets ls) (hs : older <:+ ls) :
    ∃ ended blocks brackets, Arranged ended blocks brackets older := by
  induction h with
  | start =>
    rw [List.suffix_nil.mp hs]
    exact ⟨_, _, _, .start⟩
  | ends _ ih => exact ih hs
  | word h hl hopens hcloses ih =>
    rcases List.suffix_cons_iff.mp hs with rfl | hs
    · exact ⟨_, _, _, .word h hl hopens hcloses⟩
    · exact ih hs
  | newline h hd hl ih =>
    rcases List.suffix_cons_iff.mp hs with rfl | hs
    · exact ⟨_, _, _, .newline h hd hl⟩
    · exact ih hs
  | indent h hb hls ih =>
    rcases List.suffix_cons_iff.mp hs with rfl | hs
    · exact ⟨_, _, _, .indent h hb hls⟩
    · exact ih hs
  | dedent h hd ih =>
    rcases List.suffix_cons_iff.mp hs with rfl | hs
    · exact ⟨_, _, _, .dedent h hd⟩
    · exact ih hs

theorem before_newline (h : Arranged ended blocks brackets (.mark Layout.newline :: older)) :
    ∃ last, older.head? = some last ∧ last.isLayout = false := by
  generalize hls : Lexeme.mark Layout.newline :: older = ls at h
  induction h with
  | start => cases hls
  | word _ hl =>
    cases hls
    cases hl
  | newline _ _ hl =>
    cases hls
    exact ⟨_, rfl, hl⟩
  | indent => cases hls
  | dedent => cases hls
  | ends _ ih => exact ih hls

theorem before_indent (h : Arranged ended blocks brackets (.mark Layout.indent :: older)) :
    ∀ last ∈ older.head?, last.isLayout = true := by
  generalize hls : Lexeme.mark Layout.indent :: older = ls at h
  induction h with
  | start => cases hls
  | word _ hl =>
    cases hls
    cases hl
  | newline => cases hls
  | indent _ _ hlayout =>
    cases hls
    exact hlayout
  | dedent => cases hls
  | ends _ ih => exact ih hls

/-- Layout behind an open bracket is layout at the end of the text. -/
theorem layout_suspended (h : Arranged ended blocks brackets (newer ++ l :: older))
    (hl : l.isLayout = true) (ho : older.countP Lexeme.closes < older.countP Lexeme.opens) :
    ended = true ∧ ∀ x ∈ newer, x.isLayout = true := by
  generalize hls : newer ++ l :: older = ls at h
  have first {ended : Bool} {blocks brackets : Nat} {ls : List Lexeme}
      (h : Arranged ended blocks brackets ls) (heq : older = ls)
      (hd : ended = false → brackets = 0) : ended = true := by
    subst heq
    cases ended with
    | true => rfl
    | false =>
      have balanced := h.count_brackets
      have none := hd rfl
      omega
  induction h generalizing newer with
  | start => simp at hls
  | ends _ ih => exact ⟨rfl, (ih hls).2⟩
  | word h hword _ _ ih =>
    cases newer with
    | nil =>
      cases hls
      rw [hword] at hl
      cases hl
    | cons x newer =>
      obtain ⟨-, hls⟩ := List.cons.inj hls
      cases (ih hls).1
  | newline h hd _ ih =>
    cases newer with
    | nil => exact ⟨first h (List.cons.inj hls).2 hd, List.forall_mem_nil _⟩
    | cons x newer =>
      obtain ⟨rfl, htail⟩ := List.cons.inj hls
      obtain ⟨last, layout⟩ := ih htail
      exact ⟨last, List.forall_mem_cons.mpr ⟨rfl, layout⟩⟩
  | indent h _ _ ih =>
    cases newer with
    | nil => exact ⟨first h (List.cons.inj hls).2 fun _ => rfl, List.forall_mem_nil _⟩
    | cons x newer => cases (ih (List.cons.inj hls).2).1
  | dedent h hd ih =>
    cases newer with
    | nil => exact ⟨first h (List.cons.inj hls).2 hd, List.forall_mem_nil _⟩
    | cons x newer =>
      obtain ⟨rfl, htail⟩ := List.cons.inj hls
      obtain ⟨last, layout⟩ := ih htail
      exact ⟨last, List.forall_mem_cons.mpr ⟨rfl, layout⟩⟩

/-! ## Whole texts -/

/-- What stands before a place of the whole text is arranged, and the end of the text may follow. -/
theorem front (h : Arranged ended blocks brackets ls) {front : List Lexeme}
    (hfront : front <+: ls.reverse ++ [.mark Layout.finish]) :
    ∃ ended blocks brackets older, Arranged ended blocks brackets older ∧
      ∀ p : Lexeme → Bool, p (.mark Layout.finish) = false → front.countP p = older.countP p := by
  rcases List.prefix_concat_iff.mp hfront with rfl | hfront
  · refine ⟨_, _, _, ls, h, fun p hp => ?_⟩
    rw [List.countP_append, List.countP_reverse, List.countP_singleton, hp]
    rfl
  · have before : front.reverse <:+ ls := by
      rw [← List.reverse_reverse ls]
      exact List.reverse_suffix.mpr hfront
    obtain ⟨_, _, _, arranged⟩ := h.suffix before
    exact ⟨_, _, _, _, arranged, fun p _ => List.countP_reverse.symm⟩

/-- A lexeme of the whole text that is not its end stands among the lexemes before it. -/
theorem place {front back : List Lexeme}
    (h : ls.reverse ++ [.mark Layout.finish] = front ++ l :: back)
    (hl : l ≠ .mark Layout.finish) :
    ∃ newer, back = newer.reverse ++ [.mark Layout.finish] ∧ ls = newer ++ l :: front.reverse := by
  rcases List.eq_nil_or_concat back with rfl | ⟨more, x, rfl⟩
  · obtain ⟨-, heq⟩ := List.append_inj' h rfl
    exact absurd (List.cons.inj heq).1.symm hl
  · rw [List.concat_eq_append, ← List.cons_append, ← List.append_assoc] at h
    obtain ⟨hls, heq⟩ := List.append_inj' h rfl
    refine ⟨more.reverse, ?_, ?_⟩
    · rw [List.concat_eq_append, List.reverse_reverse, heq]
    · rw [← List.reverse_reverse ls, hls, List.reverse_append, List.reverse_cons, List.append_assoc]
      rfl

/-- Arranged lexemes with all blocks closed are well formed layout. -/
theorem wellLaidOut (h : Arranged true 0 brackets ls) :
    WellLaidOut (ls.reverse ++ [.mark Layout.finish]) where
  finish := ⟨ls.reverse, rfl, fun hmem => h.finish_notMem (List.mem_reverse.mp hmem)⟩
  blocks := by
    intro front hfront
    obtain ⟨_, _, _, older, arranged, same⟩ := h.front hfront
    have indents := same (· == .mark Layout.indent) rfl
    have dedents := same (· == .mark Layout.dedent) rfl
    have count := arranged.count_blocks
    have deepest := arranged.blocks_le
    rw [List.count, List.count] at count ⊢
    omega
  closed := by
    rw [List.count_append, List.count_append, List.count_reverse, List.count_reverse,
      h.count_blocks]
    rfl
  newline := by
    intro front back heq
    obtain ⟨newer, -, hls⟩ := place heq (by decide)
    obtain ⟨_, _, _, arranged⟩ := h.suffix (hls ▸ List.suffix_append newer _)
    obtain ⟨last, hlast, word⟩ := arranged.before_newline
    exact ⟨last, List.head?_reverse ▸ hlast, word⟩
  indent := by
    intro front back heq last hlast
    obtain ⟨newer, -, hls⟩ := place heq (by decide)
    obtain ⟨_, _, _, arranged⟩ := h.suffix (hls ▸ List.suffix_append newer _)
    exact arranged.before_indent last (List.head?_reverse ▸ hlast)
  brackets := by
    intro front hfront
    obtain ⟨_, _, brackets, older, arranged, same⟩ := h.front hfront
    have opens := same Lexeme.opens rfl
    have closes := same Lexeme.closes rfl
    have count := arranged.count_brackets
    have deepest := arranged.brackets_le
    omega
  suspended := by
    intro front l back heq hl ho
    by_cases hfinish : l = .mark Layout.finish
    · subst hfinish
      -- The end of the text has nothing behind it.
      cases back with
      | nil => exact List.forall_mem_nil _
      | cons x back =>
        have early : .mark Layout.finish ∈ ls := by
          rcases List.eq_nil_or_concat (x :: back) with hnil | ⟨more, y, hmore⟩
          · cases hnil
          · rw [hmore, List.concat_eq_append, ← List.cons_append, ← List.append_assoc] at heq
            have hls := (List.append_inj' heq rfl).1
            exact List.mem_reverse.mp (hls ▸ by simp)
        exact absurd early h.finish_notMem
    · obtain ⟨newer, rfl, hls⟩ := place heq hfinish
      rw [← List.countP_reverse (l := front), ← List.countP_reverse (l := front)] at ho
      have layout := ((hls ▸ h).layout_suspended hl ho).2
      intro x hx
      rcases List.mem_append.mp hx with hx | hx
      · exact layout x (List.mem_reverse.mp hx)
      · rw [List.mem_singleton.mp hx]
        rfl

end Arranged

/-! ## The scanner -/

namespace Scan

variable {map : Array Nat} {c : Char} {cs : List Char} {l : Lexeme} {ended : Bool}
  {blocks brackets depth width : Nat} {s t u : Scan}

/-- The lexemes of the tokens read so far, newest first. -/
def lexemes (s : Scan) : List Lexeme :=
  s.tokens.map Token.lexeme

/-- Between two steps the tokens are arranged, and where a line is to be measured no bracket is open
and the line before has ended. -/
structure InOrder (s : Scan) : Prop where
  arranged : Arranged false s.widths.length s.depth s.lexemes
  depth : s.fresh = true → s.depth = 0
  atLayout : s.fresh = true → s.atLayout = true

theorem layout_of_atLayout (h : s.atLayout = true) : ∀ l ∈ s.lexemes.head?, l.isLayout = true := by
  intro l hl
  rw [lexemes, List.head?_map] at hl
  obtain ⟨t, ht, rfl⟩ := Option.map_eq_some_iff.mp hl
  obtain ⟨older, hs⟩ := List.head?_eq_some_iff.mp ht
  rw [Scan.atLayout, hs] at h
  dsimp only at h
  split at h
  · cases h
  · next hl => rw [hl]; rfl
  · cases h

theorem word_of_atLayout (h : ¬ s.atLayout = true) (hs : .mark Layout.finish ∉ s.lexemes) :
    ∃ l older, s.lexemes = l :: older ∧ l.isLayout = false := by
  rw [lexemes] at hs ⊢
  rw [Scan.atLayout] at h
  cases ht : s.tokens with
  | nil => rw [ht] at h; exact absurd rfl h
  | cons t older =>
    rw [ht] at h hs
    refine ⟨t.lexeme, older.map Token.lexeme, rfl, ?_⟩
    rw [← Bool.not_eq_true]
    intro layout
    obtain ⟨k, hk⟩ := Lexeme.eq_of_isLayout layout
    cases k with
    | finish => exact hs (hk ▸ List.mem_cons_self ..)
    | newline | indent | dedent =>
      dsimp only at h
      rw [hk] at h
      exact h rfl

theorem lexemes_push : (s.push map l).lexemes = l :: s.lexemes := rfl

/-- The end of a logical line is added where no bracket is open, or where the text ends. -/
theorem arranged_endLine (h : Arranged ended blocks brackets s.lexemes)
    (hd : ended = false → brackets = 0) :
    Arranged ended blocks brackets (s.endLine map).lexemes := by
  rw [endLine]
  split
  · exact h
  · next hlayout =>
    obtain ⟨l, older, hls, word⟩ := word_of_atLayout hlayout h.finish_notMem
    rw [lexemes_push, hls]
    exact .newline (hls ▸ h) hd word

/-- Each block that is closed has a token of its own. -/
theorem arranged_close (width : Nat) (ws : List Nat) (h : Arranged false ws.length 0 s.lexemes) :
    Arranged false (s.close map width ws).widths.length 0 (s.close map width ws).lexemes := by
  induction ws generalizing s with
  | nil => exact h
  | cons w ws ih =>
    rw [close]
    split
    · exact ih (s := s.push map (.mark Layout.dedent)) (.dedent h fun _ => rfl)
    · exact h

theorem arranged_indent (h : Arranged false s.widths.length 0 s.lexemes)
    (hlayout : s.atLayout = true) (hu : s.indent map width = .ok u) :
    Arranged false u.widths.length 0 u.lexemes := by
  unfold indent at hu
  dsimp only at hu
  split at hu
  · split at hu
    · cases hu
    · next room =>
      cases hu
      exact .indent h (Nat.lt_of_not_le room) (layout_of_atLayout hlayout)
  · split at hu
    · cases hu
      exact arranged_close width s.widths h
    · cases hu

/-- A bracket is opened where there is room for it, and closed where one is open. -/
theorem nest_room (h : s.nest map c l = .ok depth) :
    (l.opens = true → s.depth < maxBrackets) ∧ (l.closes = true → s.depth ≠ 0) := by
  unfold nest at h
  unfold Lexeme.opens Lexeme.closes
  split at h
  case h_1 | h_2 | h_3 =>
    split at h
    · cases h
    · next room => exact ⟨fun _ => Nat.lt_of_not_le room, nofun⟩
  case h_4 | h_5 | h_6 =>
    split at h
    · cases h
    · next inside => exact ⟨nofun, fun _ => inside⟩
  case h_7 =>
    refine ⟨fun hl => ?_, fun hl => ?_⟩
    · split at hl <;> simp_all
    · split at hl <;> simp_all

namespace InOrder

theorem start (text : List Char) : (Scan.start text).InOrder :=
  ⟨.start, fun _ => rfl, fun _ => rfl⟩

/-- Inside a line a word is added, or the line is ended where no bracket is open. -/
theorem read (h : Arranged false s.widths.length s.depth s.lexemes) (hfresh : s.fresh = false)
    (ht : s.readToken map c cs = .ok t) : t.InOrder := by
  have inside {p : Prop} {u : Scan} (hu : u.fresh = s.fresh) (fresh : u.fresh = true) : p := by
    rw [hu, hfresh] at fresh
    cases fresh
  rw [readToken_eq] at ht
  cases hpiece : piece c cs with
  | lineEnd rest =>
    rw [hpiece] at ht
    cases ht
    by_cases hdepth : s.depth = 0
    · have ended : Arranged false s.widths.length s.depth (s.endLine map).lexemes :=
        arranged_endLine h fun _ => hdepth
      rw [passLine, if_pos hdepth]
      refine ⟨?_, fun _ => depth_endLine.trans hdepth, fun _ => atLayout_endLine⟩
      have widths : (s.endLine map).widths = s.widths := widths_endLine
      have depth : (s.endLine map).depth = s.depth := depth_endLine
      rw [← widths, ← depth] at ended
      exact ended
    · rw [passLine, if_neg hdepth]
      exact ⟨h, inside rfl, inside rfl⟩
  | gap n rest =>
    rw [hpiece] at ht
    cases ht
    exact ⟨h, inside rfl, inside rfl⟩
  | word l n rest =>
    rw [hpiece, Piece.add] at ht
    cases hdepth : s.nest map c l with
    | error e =>
      rw [hdepth] at ht
      cases ht
    | ok depth =>
      rw [hdepth] at ht
      cases ht
      obtain ⟨opens, closes⟩ := nest_room hdepth
      obtain rfl := depthAfter_of_nest hdepth
      exact ⟨.word h (isLayout_of_piece hpiece) opens closes, inside rfl, inside rfl⟩
  | malformed message =>
    rw [hpiece] at ht
    cases ht
  | oversize =>
    rw [hpiece] at ht
    cases ht

theorem readNext (h : Arranged false s.widths.length s.depth s.lexemes) (hcs : cs ≠ [])
    (ht : s.readNext map cs = .ok t) : t.InOrder := by
  cases cs with
  | nil => exact absurd rfl hcs
  | cons c cs => exact read (s := { s with fresh := false }) h rfl ht

/-- A step keeps the tokens in order. -/
theorem step (h : s.InOrder) (hs : s.rest ≠ []) (ht : s.step map = .ok t) : t.InOrder := by
  by_cases hfresh : s.fresh = true
  · rw [step_fresh hfresh] at ht
    split at ht
    · cases ht
      exact ⟨h.arranged, h.depth, h.atLayout⟩
    · next hblank =>
      cases hu : s.indent map (margin 0 s.rest).1 with
      | error e =>
        rw [hu] at ht
        cases ht
      | ok u =>
        rw [hu] at ht
        obtain ⟨_, _, hshifts, -, -⟩ := indent_shifts hu
        have depth : u.depth = 0 := by
          rw [hshifts]
          exact h.depth hfresh
        have arranged := arranged_indent (h.depth hfresh ▸ h.arranged) (h.atLayout hfresh) hu
        refine readNext (depth.symm ▸ arranged) (fun hnil => ?_) ht
        rw [hnil] at hblank
        cases hblank
  · rw [Scan.step, if_neg hfresh] at ht
    exact readNext h.arranged hs ht

/-- At the end of the text the line and the blocks are closed. -/
theorem finish (h : s.InOrder) : WellLaidOut ((s.finish map).map Token.lexeme) := by
  have ended : Arranged true s.widths.length s.depth (s.endLine map).lexemes :=
    arranged_endLine (.ends h.arranged) Bool.noConfusion
  have closed (n : Nat) {blocks : Nat} {ls : List Lexeme}
      (h : Arranged true (blocks + n) s.depth ls) :
      Arranged true blocks s.depth (List.replicate n (.mark Layout.dedent) ++ ls) := by
    induction n generalizing blocks with
    | zero => exact h
    | succ n ih => exact .dedent (ih (by rwa [Nat.add_right_comm])) Bool.noConfusion
  have whole := (closed s.widths.length (by rwa [Nat.zero_add])).wellLaidOut
  rw [finish_eq, lastTokens, List.map_append, List.map_append, List.map_reverse, List.map_replicate,
    ← List.append_assoc]
  rwa [List.reverse_append, List.reverse_replicate] at whole

/-- The tokens of a text are those of a scan that is in order. -/
theorem of_tokenize {text : String} {ts : List Token} (h : tokenize text map = .ok ts) :
    ∃ s : Scan, s.InOrder ∧ s.finish map = ts := by
  obtain ⟨s, hrun, hts⟩ := run_of_tokenize h
  have inOrder : s.InOrder :=
    (run_induction (P := InOrder) (fun _ _ hs ht h => h.step hs ht) hrun (.start _)).1
  exact ⟨s, inOrder, hts⟩

end InOrder

end Scan

/-- The layout of a text is well formed, if the text can be scanned at all. -/
theorem tokenize_wellLaidOut {text : String} {map : Array Nat} {ts : List Token}
    (h : tokenize text map = .ok ts) : WellLaidOut (ts.map Token.lexeme) := by
  obtain ⟨s, inOrder, rfl⟩ := InOrder.of_tokenize h
  exact inOrder.finish

/-- Two blocks are opened behind each other, one of them by a line of nothing but a backslash, and
the text ends inside a bracket. -/
theorem tokenize_wellLaidOut_open :
    let ls : List Lexeme := [.mark Layout.indent, .mark Layout.indent, .name "x",
      .mark Punct.lparen, .mark Layout.newline, .mark Layout.dedent, .mark Layout.dedent,
      .mark Layout.finish]
    (∃ ts, tokenize " \\\n\n  x (\n" #[] = .ok ts ∧ ts.map Token.lexeme = ls) ∧
      WellLaidOut ls := by
  have tokens : tokenize " \\\n\n  x (\n" #[] = .ok [⟨.mark Layout.indent, 1⟩,
      ⟨.mark Layout.indent, 3⟩, ⟨.name "x", 3⟩, ⟨.mark Punct.lparen, 3⟩, ⟨.mark Layout.newline, 4⟩,
      ⟨.mark Layout.dedent, 4⟩, ⟨.mark Layout.dedent, 4⟩, ⟨.mark Layout.finish, 4⟩] := by
    decide +kernel
  exact ⟨⟨_, tokens, rfl⟩, tokenize_wellLaidOut tokens⟩

end SortTrace.Script
