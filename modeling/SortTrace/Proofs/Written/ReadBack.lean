import SortTrace.Proofs.Literals
import SortTrace.Proofs.Printing.Expr
import SortTrace.Proofs.Written.Datum

/-!
# Written forms are read back

The written form of a datum is read as the lexemes of its expression: strings with their quotes and
escapes (`Scan.Reads.quoted`), integers with their signs, ranges as calls. The expression has no
brackets but those of its text, so it is not too deep for the parser, and evaluating it makes the
datum again (`Datum.written_readBack`).
-/

namespace SortTrace.Script.Scan

open Text

variable {c quote : Char} {cs content tail : List Char} {l : Lexeme} {d lines : Nat}

/-! ## Strings -/

theorem stringBody_quoteChar (hq : quote = '\'' ∨ quote = '"') :
    stringBody quote (quoteChar quote c ++ tail) content lines
      = stringBody quote tail (c :: content) lines := by
  by_cases hback : c = '\\'
  · subst hback
    rcases hq with rfl | rfl <;> simp [quoteChar, stringBody]
  by_cases hnewline : c = '\n'
  · subst hnewline
    rcases hq with rfl | rfl <;> simp [quoteChar, stringBody]
  by_cases htab : c = '\t'
  · subst htab
    rcases hq with rfl | rfl <;> simp [quoteChar, stringBody]
  by_cases hreturn : c = '\r'
  · subst hreturn
    rcases hq with rfl | rfl <;> simp [quoteChar, stringBody]
  by_cases hquote : c = quote
  · subst hquote
    rcases hq with rfl | rfl <;> simp [quoteChar, stringBody]
  · have itself : quoteChar quote c = [c] := by
      simp only [quoteChar, hback, hnewline, htab, hreturn, hquote, if_false]
    rw [itself, List.singleton_append, stringBody.eq_def]
    simp only [hback, hnewline, hquote, if_false]

/-- The characters of a string come back from between its quotes. -/
theorem stringBody_quoted (hq : quote = '\'' ∨ quote = '"') :
    stringBody quote (cs.flatMap (quoteChar quote) ++ quote :: tail) content lines
      = some (content.reverse ++ cs, lines, tail) := by
  induction cs generalizing content with
  | nil =>
    rw [List.flatMap_nil, List.nil_append, List.append_nil, stringBody.eq_def]
    rcases hq with rfl | rfl <;> rfl
  | cons c cs ih =>
    rw [List.flatMap_cons, List.append_assoc, stringBody_quoteChar hq, ih, List.reverse_cons,
      List.append_assoc]
    rfl

theorem quoteFor_cases (cs : List Char) : quoteFor cs = '\'' ∨ quoteFor cs = '"' := by
  rw [quoteFor]
  split
  · exact .inr rfl
  · exact .inl rfl

/-- A quoted string is read as that string. -/
theorem Reads.quoted (cs : List Char) :
    Reads d (quoted cs) [.str (String.ofList cs)] tail := by
  have quotes := quoteFor_cases cs
  rw [Text.quoted]
  generalize quoteFor cs = quote at quotes
  refine .token fun map s => ?_
  have token (more : List Char) :
      s.readToken map quote more = s.readString map quote more := by
    rcases quotes with rfl | rfl <;> rfl
  have body : stringBody quote (cs.flatMap (quoteChar quote) ++ quote :: tail) [] 0
      = some (cs, 0, tail) := stringBody_quoted quotes
  change s.readToken map quote (cs.flatMap (quoteChar quote) ++ [quote] ++ tail) = _
  rw [List.append_assoc, List.singleton_append, token, readString, body]
  rfl

/-! ## Words -/

/-- A word is read up to where it does not go on. -/
theorem Reads.word (hc : startsWord c = true) (hcs : cs.all continuesWord = true)
    (ht : tail.head?.any continuesWord = false) :
    Reads d (c :: cs) [wordLexeme (String.ofList (c :: cs))] tail := by
  refine .token fun map s => ?_
  have word : ∀ x ∈ cs, continuesWord x = true := List.all_eq_true.mp hcs
  have stops : tail.takeWhile continuesWord = [] ∧ tail.dropWhile continuesWord = tail := by
    cases tail with
    | nil => exact ⟨rfl, rfl⟩
    | cons c tail =>
      have stop : ¬ continuesWord c = true := Bool.not_eq_true _ ▸ ht
      exact ⟨List.takeWhile_cons_of_neg stop, List.dropWhile_cons_of_neg stop⟩
  rw [readToken_word hc, readWord, List.takeWhile_append_of_pos word,
    List.dropWhile_append_of_pos word, stops.1, stops.2, List.append_nil]
  rfl

theorem Delimited.continuesWord (ht : Delimited tail) :
    tail.head?.any Text.continuesWord = false := by
  cases tail with
  | nil => rfl
  | cons c tail => rcases ht c rfl with rfl | rfl | rfl | rfl <;> rfl

end SortTrace.Script.Scan

namespace SortTrace.Script.Scan

open Text

variable {map : Array Nat} {c : Char} {cs : List Char} {s t : Scan}

/-! ## Texts of a single line -/

theorem run_congr (hs : s.rest ≠ []) (ht : t.rest ≠ []) (h : s.step map = t.step map) :
    s.run map = t.run map := by
  rw [run, dif_neg hs, run, dif_neg ht]
  split <;> split <;> simp_all

/-- The characters that a line may not begin with if its indentation is to be none and it is to
hold a token. -/
def leads : List Char := [' ', '\t', '\x0c', '\n', '\r', '#']

/-- A text that begins at the margin is read as if inside a line. -/
theorem run_start (hc : c ∉ leads) :
    (start (c :: cs)).run map = ({ start (c :: cs) with fresh := false } : Scan).run map := by
  simp only [leads, List.mem_cons, List.not_mem_nil, or_false, not_or] at hc
  obtain ⟨hblank, htab, hfeed, hnewline, hreturn, hcomment⟩ := hc
  have width : margin 0 (c :: cs) = (0, c :: cs) :=
    margin_stops (decide_eq_false (by simp only [hblank, htab, hfeed, or_self, not_false_eq_true]))
  have words : (start (c :: cs)).blankLine? (c :: cs) = none := by
    rw [blankLine?]
    all_goals
      intros
      simp_all
  have measured : (start (c :: cs)).step map
      = ((start (c :: cs)).indent map 0).bind (readNext map (c :: cs)) := by
    have rest : (start (c :: cs)).rest = c :: cs := rfl
    have fresh : (start (c :: cs)).fresh = true := rfl
    rw [step, if_pos fresh, rest, width]
    dsimp only
    rw [words]
  have inside : (start (c :: cs)).indent map 0 = .ok (start (c :: cs)) := rfl
  refine run_congr (List.cons_ne_nil c cs) (List.cons_ne_nil c cs) ?_
  have read : ({ start (c :: cs) with fresh := false } : Scan).step map
      = ({ start (c :: cs) with fresh := false } : Scan).readToken map c cs := step_inside rfl rfl
  rw [measured, inside, read]
  rfl

/-- A text of a single line has the tokens that are read on it, with the ends of the line and of the
text behind them. -/
theorem tokenize_of_run {text : String} {ls : List Lexeme}
    (begins : ∃ c cs, text.toList = c :: cs ∧ c ∉ leads)
    (ends : ∃ front l, ls = front ++ [l] ∧ l.isLayout = false)
    (read : ∃ depth, ({ start text.toList with fresh := false } : Scan).run #[]
      = .ok { start text.toList with
        fresh := false
        rest := []
        depth
        tokens := (onLine 1 ls).reverse }) :
    tokenize text #[] = .ok (onLine 1 (ls ++ [.mark Layout.newline, .mark Layout.finish])) := by
  obtain ⟨c, cs, chars, hc⟩ := begins
  obtain ⟨front, last, rfl, word⟩ := ends
  obtain ⟨depth, read⟩ := read
  rw [chars] at read
  rw [tokenize, chars, run_start hc, read]
  change Except.ok (Scan.finish _ _) = _
  rw [finish_eq, endLine, if_neg]
  · simp [push, lastTokens, start, onLine, reportedLine]
  · rw [Bool.not_eq_true, onLine_append, List.reverse_append]
    exact atLayout_word rfl word

theorem tokenize_of_reads {text : String} {d : Nat} {ls : List Lexeme}
    (begins : ∃ c cs, text.toList = c :: cs ∧ c ∉ leads)
    (ends : ∃ front l, ls = front ++ [l] ∧ l.isLayout = false)
    (read : Reads d text.toList ls []) (room : d ≤ maxBrackets) :
    tokenize text #[] = .ok (onLine 1 (ls ++ [.mark Layout.newline, .mark Layout.finish])) := by
  have read := read #[] { start text.toList with fresh := false } rfl
    ((Nat.zero_add _).trans_le room) (List.append_nil _).symm
  refine tokenize_of_run begins ends ⟨0, ?_⟩
  rw [read, run_of_rest rfl, start, List.append_nil]
  rfl

end SortTrace.Script.Scan

namespace SortTrace.Datum

open Script Scan

variable {h : Heap} {d : Datum} {ds : List Datum} {v : Value} {tail : List Char}

/-! ## Data within bounds -/

mutual

/-- Every integer in the datum is greater than the least one of 64 bits, and so are the bounds and
steps of ranges. -/
def AboveLeast : Datum → Prop
  | none | bool _ | str _ => True
  | int n => n ≠ Int64.minValue
  | list ds | tuple ds => AllAboveLeast ds
  | range s => s.start ≠ Int64.minValue ∧ s.stop ≠ Int64.minValue ∧ s.step ≠ Int64.minValue

/-- Every integer in the data is greater than the least one of 64 bits. -/
def AllAboveLeast : List Datum → Prop
  | [] => True
  | d :: ds => AboveLeast d ∧ AllAboveLeast ds

end

mutual

/-- How many brackets the written form opens at once. -/
def brackets : Datum → Nat
  | list ds | tuple ds => bracketsIn ds + 1
  | range _ => 1
  | _ => 0

/-- How many brackets the written forms open at once, one after the other. -/
def bracketsIn : List Datum → Nat
  | [] => 0
  | d :: ds => max (brackets d) (bracketsIn ds)

end

/-! ## The lexemes of a written form -/

theorem reads_int {n : Int64} (hn : n ≠ Int64.minValue) (ht : Delimited tail) :
    Reads 0 (toString n.toInt).toList (Expr.literal (.int n)).lexemes tail := by
  have read := Reads.integer (d := 0) (small_toInt hn) ht
  rwa [Int64.ofInt_toInt] at read

theorem texts_eq : ∀ ds : List Datum, texts ds = ds.map text
  | [] => rfl
  | _ :: ds => congrArg (_ :: ·) (texts_eq ds)

theorem groups_exprs : ∀ ds : List Datum, Expr.groups (exprs ds) = ds.map fun d => d.expr.lexemes
  | [] => rfl
  | _ :: ds => congrArg (_ :: ·) (groups_exprs ds)

section Items

variable {depth : Nat}
  (items : ∀ d ∈ ds, ∀ tail, Delimited tail → Reads depth d.text.toList d.expr.lexemes tail)

include items

/-- Data with commas between them. -/
theorem reads_commas (ht : Delimited tail) :
    Reads depth (", ".intercalate (texts ds)).toList (separated (Expr.groups (exprs ds))) tail := by
  let pieces := ds.map fun d => (d.text.toList, d.expr.lexemes)
  have texts : (", ".intercalate (texts ds)).toList
      = List.intercalate [',', ' '] (pieces.map Prod.fst) := by
    rw [String.toList_intercalate, texts_eq, List.map_map, List.map_map]
    rfl
  have groups : Expr.groups (exprs ds) = pieces.map Prod.snd := by
    rw [groups_exprs, List.map_map]
    rfl
  rw [texts, groups]
  refine .commas (fun p hp tail ht => ?_) ht
  obtain ⟨d, hd, rfl⟩ := List.mem_map.mp hp
  exact items d hd tail ht

theorem reads_list : Reads (depth + 1) (text (list ds)).toList (expr (list ds)).lexemes tail := by
  have lexemes : (expr (list ds)).lexemes = .mark Punct.lbracket ::
      (separated (Expr.groups (exprs ds)) ++ [.mark Punct.rbracket]) := by
    rw [expr, Expr.lexemes]
  have text : (text (list ds)).toList
      = '[' :: ((", ".intercalate (texts ds)).toList ++ [']']) := by
    rw [text, String.toList_append, String.toList_append]
    rfl
  rw [lexemes, text]
  exact (reads_commas items (.cons (by simp))).brackets

theorem reads_tuple :
    Reads (depth + 1) (text (tuple ds)).toList (expr (tuple ds)).lexemes tail := by
  have lexemes : (expr (tuple ds)).lexemes = inParens (tupleItems (Expr.groups (exprs ds))) := by
    rw [expr, Expr.lexemes]
  have chars : (text (tuple ds)).toList = '(' :: ((", ".intercalate (texts ds)).toList
      ++ (if (texts ds).length = 1 then [','] else []) ++ [')']) := by
    rw [text, Value.tupleText, String.toList_append, String.toList_append]
    split <;> simp
  have inner {tail : List Char} (ht : Delimited tail) := reads_commas items ht
  rw [lexemes, chars]
  refine Reads.parens ?_
  rcases ds with _ | ⟨d, _ | ⟨d', ds⟩⟩
  · exact .nil
  · have sign : Reads depth [','] [.mark Punct.comma] (')' :: tail) := .comma .nil
    exact (inner (.cons (.inl rfl))).append sign
  · rw [texts, texts, if_neg (by simp), List.append_nil]
    exact inner (.cons (by simp))

end Items

/-- The text of a range is that of a call. -/
theorem rangeText_eq (s : Span) : Value.rangeText s
    = "range(" ++ ", ".intercalate (texts ((bounds s).map int)) ++ ")" := by
  rw [Value.rangeText, bounds]
  split
  · rfl
  · change "range(" ++ (_ ++ ", " ++ _) ++ ", " ++ _ ++ ")" = _
    simp [texts, text, String.append_assoc]

/-- A range is read as a call of the builtin. -/
theorem reads_range {s : Span} (hs : (range s).AboveLeast) :
    Reads 1 (text (range s)).toList (expr (range s)).lexemes tail := by
  let ints := (bounds s).map int
  have items : ∀ d ∈ ints, ∀ tail, Delimited tail →
      Reads 0 d.text.toList d.expr.lexemes tail := by
    intro d hd tail ht
    obtain ⟨n, hn, rfl⟩ := List.mem_map.mp hd
    refine reads_int ?_ ht
    obtain ⟨start, stop, step⟩ := hs
    rw [bounds] at hn
    split at hn <;> simp only [List.mem_cons, List.not_mem_nil, or_false] at hn
    · rcases hn with rfl | rfl <;> assumption
    · rcases hn with rfl | rfl | rfl <;> assumption
  have name : Reads 1 "range".toList [.name "range"]
      ('(' :: ((", ".intercalate (texts ints)).toList ++ [')'] ++ tail)) :=
    .word (by decide) (by decide) rfl
  have chars : (text (range s)).toList
      = "range".toList ++ '(' :: ((", ".intercalate (texts ints)).toList ++ [')']) := by
    change (Value.rangeText s).toList = _
    rw [rangeText_eq, String.toList_append, String.toList_append]
    rfl
  have lexemes : (expr (range s)).lexemes
      = [.name "range"] ++ inParens (separated (Expr.groups (exprs ints))) := by
    dsimp only [ints]
    rw [expr, bounds]
    split <;> rfl
  rw [chars, lexemes]
  exact name.append (reads_commas items (.cons (by simp))).parens

mutual

/-- The written form of a datum is read as the lexemes of its expression. -/
theorem reads : ∀ {d : Datum}, d.AboveLeast → ∀ tail, Delimited tail →
    Reads d.brackets d.text.toList d.expr.lexemes tail
  | none, _, _, ht | bool true, _, _, ht | bool false, _, _, ht =>
    .word (by decide) (by decide) ht.continuesWord
  | int _, hd, _, ht => reads_int hd ht
  | str s, _, tail, _ => by
    have read : Reads 0 (Text.quoted s.toList) [.str (String.ofList s.toList)] tail :=
      .quoted s.toList
    rw [String.ofList_toList] at read
    change Reads 0 (Text.quote s).toList [.str s] tail
    rwa [Text.quote, String.toList_ofList]
  | list ds, hd, _, _ => by
    rw [AboveLeast] at hd
    rw [brackets]
    exact reads_list (reads_items hd)
  | tuple ds, hd, _, _ => by
    rw [AboveLeast] at hd
    rw [brackets]
    exact reads_tuple (reads_items hd)
  | range _, hd, _, _ => reads_range hd

theorem reads_items : ∀ {ds : List Datum}, AllAboveLeast ds → ∀ d ∈ ds, ∀ tail, Delimited tail →
    Reads (bracketsIn ds) d.text.toList d.expr.lexemes tail
  | [], _, _, hd, _, _ => nomatch hd
  | d :: ds, hds, x, hx, tail, ht => by
    simp only [AllAboveLeast] at hds
    rcases List.mem_cons.mp hx with heq | hx
    · rw [heq]
      exact (reads hds.1 tail ht).mono (Nat.le_max_left _ _)
    · exact (reads_items hds.2 x hx tail ht).mono (Nat.le_max_right _ _)

end

/-! ## The expression of a written form -/

mutual

/-- Every level of the expression has brackets of its own. -/
theorem height_le_brackets : ∀ d : Datum, d.expr.height ≤ d.brackets
  | none | bool _ | int _ | str _ => Nat.le_refl 0
  | list ds | tuple ds => itemsHeight_le_brackets ds
  | range s => by
    have calls : ∀ ns : List Int64,
        Expr.itemsHeight (ns.map fun n => Expr.literal (.int n)) ≤ 1 := by
      intro ns
      induction ns with
      | nil => exact Nat.zero_le _
      | cons n ns ih => exact Nat.max_le.mpr ⟨Nat.le_refl _, ih⟩
    exact Nat.max_le.mpr ⟨Nat.le_refl _, Nat.max_le.mpr ⟨calls (bounds s), Nat.zero_le _⟩⟩

theorem itemsHeight_le_brackets : ∀ ds : List Datum,
    Expr.itemsHeight (exprs ds) ≤ bracketsIn ds + 1
  | [] => Nat.zero_le _
  | d :: ds => by
    have first := height_le_brackets d
    have others := itemsHeight_le_brackets ds
    rw [exprs, Expr.itemsHeight, bracketsIn]
    omega

end

mutual

theorem wellFormed_expr : ∀ d : Datum, d.expr.wellFormed = true
  | none | bool _ | int _ | str _ => rfl
  | list ds | tuple ds => wellFormed_exprs ds
  | range s => by
    have literals : ∀ ns : List Int64,
        Expr.allWellFormed (ns.map fun n => Expr.literal (.int n)) = true := by
      intro ns
      induction ns with
      | nil => rfl
      | cons n ns ih => exact ih
    rw [expr, Expr.wellFormed, literals]
    rfl

theorem wellFormed_exprs : ∀ ds : List Datum, Expr.allWellFormed (exprs ds) = true
  | [] => rfl
  | d :: ds => by
    rw [exprs, Expr.allWellFormed, wellFormed_expr d, wellFormed_exprs ds]
    rfl

end

/-- The last lexeme is not one of layout. -/
theorem lexemes_end (d : Datum) :
    ∃ front l, d.expr.lexemes = front ++ [l] ∧ l.isLayout = false := by
  cases d with
  | none | str => exact ⟨[], _, rfl, rfl⟩
  | bool b => cases b <;> exact ⟨[], _, rfl, rfl⟩
  | int n =>
    rw [expr, Expr.lexemes, Literal.lexemes]
    split
    · exact ⟨[_], _, rfl, rfl⟩
    · exact ⟨[], _, rfl, rfl⟩
  | list ds => exact ⟨_ :: _, _, rfl, rfl⟩
  | tuple ds => exact ⟨_ :: _, _, rfl, rfl⟩
  | range s => exact ⟨_ :: _ :: _, _, rfl, rfl⟩

/-- A written form begins at the margin. -/
theorem text_starts (d : Datum) : ∃ c cs, d.text.toList = c :: cs ∧ c ∉ leads := by
  have append {s t u : String} (h : ∃ c cs, s.toList = c :: cs ∧ c ∉ leads) (heq : u = s ++ t) :
      ∃ c cs, u.toList = c :: cs ∧ c ∉ leads := by
    obtain ⟨c, cs, hs, hc⟩ := h
    exact ⟨c, cs ++ t.toList, by rw [heq, String.toList_append, hs, List.cons_append], hc⟩
  have digits (n : Nat) : ∃ c cs, (Nat.repr n).toList = c :: cs ∧ c ∉ leads := by
    rw [Nat.toList_repr]
    cases hd : Nat.toDigits 10 n with
    | nil => exact absurd hd Nat.toDigits_ne_nil
    | cons c cs =>
      refine ⟨c, cs, rfl, ?_⟩
      have digit : c.isDigit = true := Nat.isDigit_of_mem_toDigits (b := 10) (by decide) (by decide)
        (hd ▸ List.mem_cons_self ..)
      have digit := digit_cases digit
      fin_cases digit <;> decide
  cases d with
  | none => exact ⟨'N', _, rfl, by decide⟩
  | bool b => cases b <;> exact ⟨_, _, rfl, by decide⟩
  | str s =>
    change ∃ c cs, (Text.quote s).toList = c :: cs ∧ c ∉ leads
    rw [Text.quote, String.toList_ofList]
    refine ⟨_, _, rfl, ?_⟩
    rcases quoteFor_cases s.toList with hq | hq <;> rw [hq] <;> decide
  | int n =>
    change ∃ c cs, (toString n.toInt).toList = c :: cs ∧ c ∉ leads
    rw [Int.toString_eq_repr, Int.repr_eq_if]
    split
    · exact digits _
    · exact append ⟨'-', [], rfl, by decide⟩ rfl
  | list ds =>
    exact append ⟨'[', [], rfl, by decide⟩ (String.append_assoc ..)
  | tuple ds =>
    exact append ⟨'(', [], rfl, by decide⟩ (String.append_assoc ..)
  | range s =>
    exact append ⟨'r', "ange(".toList, rfl, by decide⟩
      ((rangeText_eq s).trans (String.append_assoc ..))

/-- The tokens at the end of a text of a single line. -/
def ending : List Token :=
  onLine 1 [.mark Layout.newline, .mark Layout.finish]

/-- The tokens of a written form are those of its expression on a line of their own. -/
theorem tokenize_text (hd : d.AboveLeast) (room : d.brackets ≤ maxBrackets) :
    tokenize d.text #[] = .ok (onLine 1 d.expr.lexemes ++ ending) := by
  rw [ending, ← onLine_append]
  exact tokenize_of_reads (text_starts d) (lexemes_end d) (reads hd [] .nil) room

/-- The expression is made of its tokens, which are left to the parser up to the end of the line. -/
theorem parseTest_expr (room : d.brackets ≤ maxBrackets) {fuel : Nat}
    (hf : d.expr.lexemes.length + 1 < fuel) :
    parseTest fuel (onLine 1 d.expr.lexemes ++ ending) = .ok (d.expr, ending) := by
  have height := height_le_brackets d
  have shallow : maxBrackets < maxNesting := by decide
  exact parseTest_reads (wellFormed_expr d) (by omega) hf (.of_none rfl)

/-- The written form of a value that shows a datum is read as a line with one expression, and that
makes on any fresh machine a value showing the same datum. -/
theorem written_readBack (hd : d.Shows h v) (made : d.Made) (least : d.AboveLeast)
    (room : d.brackets ≤ maxBrackets) (user : UserCall) (session : Session) :
    ∃ ts e v' m', tokenize (v.written h) #[] = .ok (ts ++ ending) ∧
      parseTest ((ts ++ ending).length + 1) (ts ++ ending) = .ok (e, ending) ∧
      eval user e (Machine.start session) = .ok v' m' ∧ d.Shows m'.heap v' := by
  obtain ⟨v', m', evaluated, shows, -, -⟩ : ∃ v' m', eval user d.expr (Machine.start session)
      = .ok v' m' ∧ d.Shows m'.heap v' ∧ _ := eval_expr made rfl
  refine ⟨onLine 1 d.expr.lexemes, d.expr, v', m', ?_, parseTest_expr room ?_, evaluated, shows⟩
  · rw [hd.written]
    exact tokenize_text least room
  · rw [List.length_append, length_onLine]
    change _ < _ + 2 + 1
    omega

/-- A list of an integer, a tuple of one string with a quote in it, and a range with a step. -/
theorem written_readBack_nested :
    let d := list [int (-1), tuple [str "it's"], range ⟨7, 0, -2⟩]
    let h : Heap := ⟨#[#[.int (-1), .tuple 0 [.str "it's"], .range ⟨7, 0, -2⟩]], 1⟩
    d.Shows h (.list 0) ∧ d.Made ∧ d.AboveLeast ∧ d.brackets ≤ maxBrackets ∧
      ∃ ts e v' m', tokenize ((Value.list 0).written h) #[] = .ok (ts ++ ending) ∧
        parseTest ((ts ++ ending).length + 1) (ts ++ ending) = .ok (e, ending) ∧
        eval (fun _ _ _ _ => pure .none) e (Machine.start default) = .ok v' m' ∧
        d.Shows m'.heap v' := by
  intro d h
  have tuple : (tuple [str "it's"]).Shows h (.tuple 0 [.str "it's"]) :=
    ⟨0, _, rfl, _, _, rfl, rfl, rfl⟩
  have shows : d.Shows h (.list 0) :=
    ⟨0, rfl, by decide, _, _, rfl, rfl, _, _, rfl, tuple, _, _, rfl, rfl, rfl⟩
  have made : d.Made := ⟨trivial, ⟨trivial, trivial⟩, ⟨[7, 0, -2], rfl⟩, trivial⟩
  have least : d.AboveLeast := by
    simp only [d, AboveLeast, AllAboveLeast]
    decide
  have room : d.brackets ≤ maxBrackets := by decide
  exact ⟨shows, made, least, room, written_readBack shows made least room _ default⟩

end SortTrace.Datum
