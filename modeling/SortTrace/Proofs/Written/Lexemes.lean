import Mathlib.Data.List.Infix
import SortTrace.Proofs.Written.ReadBack

/-!
# Lexemes in a row

Every lexeme that is neither a double nor layout is written in one way (`Lexeme.text`). Lexemes
written on one line, with a blank between neighbours, are read back one by one, as long as their
brackets are such as the scanner admits (`tokenize_texts`). Between blanks a number and a word end
where their text does, and so does an operator: no spelling has a blank in it, longer spellings are
tried before shorter ones, and no two lexemes are spelled alike (`Scan.operator?_spelled`).
-/

namespace SortTrace.Script

/-! ## Written lexemes -/

namespace Lexeme

/-- The text of a lexeme. Layout has none of its own. -/
def text : Lexeme → String
  | name s => s
  | int n => toString n.toInt
  | float x => Decimal.scriptText x
  | str s => Text.quote s
  | op o => o.symbol
  | augment o => o.symbol ++ "="
  | mark (.keyword k) => k.text
  | mark (.punct p) => p.text
  | mark (.layout _) => ""

/-- Is the lexeme an operator or a piece of punctuation? -/
def IsSign : Lexeme → Prop
  | op _ | augment _ | mark (.punct _) => True
  | _ => False

instance : DecidablePred IsSign
  | op _ | augment _ | mark (.punct _) => inferInstanceAs (Decidable True)
  | name _ | int _ | float _ | str _ | mark (.keyword _) | mark (.layout _) =>
    inferInstanceAs (Decidable False)

/-- Is the lexeme what its text says? A name is not spelled as a keyword, and a number has no
sign. -/
def IsWritten : Lexeme → Prop
  | name s => isIdentifier s = true ∧ Keyword.ofText? s = none
  | int n => 0 ≤ n
  | str _ | op _ | augment _ | mark (.keyword _) | mark (.punct _) => True
  | float _ | mark (.layout _) => False

instance : DecidablePred IsWritten
  | name s => inferInstanceAs (Decidable (isIdentifier s = true ∧ Keyword.ofText? s = none))
  | int n => inferInstanceAs (Decidable (0 ≤ n))
  | str _ | op _ | augment _ | mark (.keyword _) | mark (.punct _) =>
    inferInstanceAs (Decidable True)
  | float _ | mark (.layout _) => inferInstanceAs (Decidable False)

theorem IsWritten.isLayout {l : Lexeme} (hl : l.IsWritten) : l.isLayout = false := by
  cases l with
  | mark m =>
    cases m with
    | layout => cases hl
    | _ => rfl
  | _ => rfl

/-- Does the lexeme open a bracket? -/
def opens : Lexeme → Bool
  | mark (.punct .lparen) | mark (.punct .lbracket) | mark (.punct .lbrace) => true
  | _ => false

/-- Does the lexeme close a bracket? -/
def closes : Lexeme → Bool
  | mark (.punct .rparen) | mark (.punct .rbracket) | mark (.punct .rbrace) => true
  | _ => false

end Lexeme

/-- Behind `depth` open brackets the lexemes close none that is not open and have never more than
`maxBrackets` open at once. -/
def BracketsFit (depth : Nat) (ls : List Lexeme) : Prop :=
  ∀ front, front <+: ls →
    front.countP Lexeme.closes ≤ depth + front.countP Lexeme.opens ∧
      depth + front.countP Lexeme.opens ≤ front.countP Lexeme.closes + maxBrackets

instance (depth : Nat) (ls : List Lexeme) : Decidable (BracketsFit depth ls) :=
  decidable_of_iff (∀ front ∈ ls.inits, front.countP Lexeme.closes
      ≤ depth + front.countP Lexeme.opens ∧
    depth + front.countP Lexeme.opens ≤ front.countP Lexeme.closes + maxBrackets)
    (by simp only [BracketsFit, List.mem_inits])

namespace BracketsFit

variable {depth : Nat} {l : Lexeme} {ls : List Lexeme}

theorem opening (h : BracketsFit depth (l :: ls)) (hl : l.opens = true) : depth < maxBrackets := by
  have first := (h [l] (List.cons_prefix_cons.mpr ⟨rfl, List.nil_prefix⟩)).2
  have plain : l.closes = false := by
    unfold Lexeme.opens at hl
    split at hl <;> first | rfl | cases hl
  simp [hl, plain] at first
  omega

theorem closing (h : BracketsFit depth (l :: ls)) (hl : l.closes = true) : depth ≠ 0 := by
  have first := (h [l] (List.cons_prefix_cons.mpr ⟨rfl, List.nil_prefix⟩)).1
  have plain : l.opens = false := by
    unfold Lexeme.closes at hl
    split at hl <;> first | rfl | cases hl
  simp [hl, plain] at first
  omega

open Scan in
/-- The lexemes that follow fit behind the brackets that are open then. -/
theorem tail (h : BracketsFit depth (l :: ls)) : BracketsFit (depthAfter l depth) ls := by
  intro front hfront
  have longer := h (l :: front) (List.cons_prefix_cons.mpr ⟨rfl, hfront⟩)
  have opening := h.opening
  have closing := h.closing
  rw [List.countP_cons, List.countP_cons] at longer
  unfold Lexeme.opens Lexeme.closes at *
  unfold depthAfter
  split <;> simp_all <;> omega

/-- Behind lexemes that close as many brackets as they open, others fit as they did before. -/
theorem append {ms : List Lexeme} (h : BracketsFit depth ls)
    (hc : ls.countP Lexeme.closes = ls.countP Lexeme.opens) (hms : BracketsFit depth ms) :
    BracketsFit depth (ls ++ ms) := by
  intro front hfront
  rcases List.prefix_or_prefix_of_prefix hfront (List.prefix_append ls ms) with inside | ⟨more, rfl⟩
  · exact h front inside
  · have fits := hms more ((List.prefix_append_right_inj ls).mp hfront)
    rw [List.countP_append, List.countP_append, hc]
    omega

end BracketsFit

namespace Scan

open Text

variable {map : Array Nat} {c : Char} {cs tail : List Char} {s : Scan} {l : Lexeme}
  {ls : List Lexeme}

theorem nest_of_fits (h : BracketsFit s.depth (l :: ls)) :
    s.nest map c l = .ok (depthAfter l s.depth) := by
  have opening := h.opening
  have closing := h.closing
  unfold nest depthAfter
  unfold Lexeme.opens at opening
  unfold Lexeme.closes at closing
  split
  case h_1 | h_2 | h_3 => exact if_neg (Nat.not_le.mpr (opening rfl))
  case h_4 | h_5 | h_6 => exact if_neg (closing rfl)
  case h_7 => split <;> simp_all

/-! ## Between blanks -/

/-- The text is at its end, or a blank comes next. -/
def Apart (tail : List Char) : Prop :=
  ∀ c ∈ tail.head?, c = ' '

theorem Apart.nil : Apart [] := nofun

theorem Apart.endsNumber (ht : Apart tail) : EndsNumber tail := by
  intro c hc
  rw [ht c hc]
  decide

theorem Apart.continuesWord (ht : Apart tail) : tail.head?.any Text.continuesWord = false := by
  cases tail with
  | nil => rfl
  | cons c tail =>
    rw [ht c rfl]
    rfl

/-! ## Operators and punctuation -/

theorem spellings_lengths : spellingsByLength.Pairwise fun p q => q.1.length ≤ p.1.length := by
  decide

theorem spellings_differ : (spellingsByLength.map Prod.fst).Nodup := by
  decide

theorem spellings_blank : ∀ p ∈ spellingsByLength, ' ' ∉ p.1 := by
  decide

/-- The table holds the operators and the punctuation with their texts, and nothing else. -/
theorem mem_spellingsByLength_iff {word : List Char} :
    (word, l) ∈ spellingsByLength ↔ l.IsSign ∧ word = l.text.toList := by
  have listed : ∀ p ∈ spellingsByLength, p.2.IsSign ∧ p.1 = p.2.text.toList := by decide
  refine ⟨listed (word, l), ?_⟩
  rintro ⟨sign, rfl⟩
  cases l with
  | op o => cases o <;> decide
  | augment o => cases o <;> decide
  | mark m =>
    cases m with
    | punct p => cases p <;> decide
    | _ => cases sign
  | _ => cases sign

/-- In front of a blank an operator is read as it is spelled. A spelling that is tried before is no
shorter, so it could only match with the blank in it or by being the same. -/
theorem operator?_spelled {p : List Char × Lexeme} (hp : p ∈ spellingsByLength)
    (hc : p.1 = c :: cs) (ht : Apart tail) : operator? c (cs ++ tail) = some (p.2, tail) := by
  obtain ⟨before, behind, split⟩ := List.append_of_mem hp
  have found : spellingsByLength.find? (fun q => q.1.isPrefixOf (c :: (cs ++ tail))) = some p := by
    rw [← List.cons_append, ← hc]
    refine List.find?_eq_some_iff_append.mpr
      ⟨by simp, before, behind, split, fun q hq => ?_⟩
    have tried : q ∈ spellingsByLength := by
      rw [split]
      exact List.mem_append_left _ hq
    have longer : p.1.length ≤ q.1.length := by
      have sorted := spellings_lengths
      rw [split] at sorted
      exact (List.pairwise_append.mp sorted).2.2 q hq p (List.mem_cons_self ..)
    have differs : q.1 ≠ p.1 := by
      have distinct := spellings_differ
      rw [split, List.map_append] at distinct
      exact (List.nodup_append.mp distinct).2.2 _ (List.mem_map_of_mem hq) _
        (List.mem_cons_self ..)
    rw [Bool.not_eq_true', ← Bool.not_eq_true, List.isPrefixOf_iff_prefix]
    intro front
    obtain ⟨more, hmore⟩ := List.prefix_of_prefix_length_le (List.prefix_append _ _) front longer
    cases more with
    | nil => exact differs (by simpa using hmore.symm)
    | cons x more =>
      rw [← hmore, List.prefix_append_right_inj] at front
      obtain ⟨rest, rfl⟩ := front
      rw [ht x rfl] at hmore
      refine spellings_blank q tried ?_
      rw [← hmore]
      simp
  rw [operator?, found, Option.map_some, hc, List.length_cons, Nat.add_sub_cancel, List.drop_left]

/-- How a spelling begins: not like anything else that stands inside a line. -/
theorem spellings_begin : ∀ p ∈ spellingsByLength, ∀ c ∈ p.1.head?,
    c ∉ leads ∧ c ∉ ['\\', '"', '\''] ∧ c.isDigit = false ∧ startsWord c = false ∧
      (c = '.' → p.1.tail = []) := by
  have table : ∀ p ∈ spellingsByLength, p.1.head?.all fun c =>
      c ∉ leads ∧ c ∉ ['\\', '"', '\''] ∧ c.isDigit = false ∧ startsWord c = false ∧
        (c = '.' → p.1.tail = []) := by
    decide
  intro p hp c hc
  have begins := table p hp
  rw [Option.mem_def.mp hc] at begins
  exact of_decide_eq_true begins

theorem readToken_sign {p : List Char × Lexeme} (hp : p ∈ spellingsByLength) (hc : p.1 = c :: cs)
    (ht : Apart tail) (hfits : BracketsFit s.depth (p.2 :: ls)) :
    s.readToken map c (cs ++ tail)
      = .ok ({ s with rest := tail, depth := depthAfter p.2 s.depth }.push map p.2) := by
  obtain ⟨lead, quote, digit, word, point⟩ := spellings_begin p hp c (by rw [hc]; rfl)
  simp only [leads, List.mem_cons, List.not_mem_nil, or_false, not_or] at lead quote
  have number : ¬ (c.isDigit = true ∨ c = '.' ∧ (cs ++ tail).head?.any Char.isDigit = true) := by
    rw [digit]
    rintro (h | ⟨rfl, h⟩)
    · cases h
    · rw [hc, List.tail_cons] at point
      rw [point rfl, List.nil_append] at h
      cases tail with
      | nil => cases h
      | cons x tail =>
        rw [ht x rfl] at h
        cases h
  rw [readToken, if_neg (by simp [lead]), if_neg (by simp [lead]), if_neg (by simp [lead]),
    if_neg (by simp [quote]), if_neg (by simp [quote]), if_neg number, if_neg (by simp [word]),
    readOperator, operator?_spelled hp hc ht]
  exact congrArg (Except.map _) (nest_of_fits hfits)

/-! ## One lexeme -/

theorem keyword_word (k : Keyword) : ∃ c cs, k.text.toList = c :: cs ∧ startsWord c = true ∧
    cs.all continuesWord = true ∧ wordLexeme k.text = .mark k := by
  have lexeme : wordLexeme k.text = .mark k := by
    rw [wordLexeme, Keyword.ofText?_eq_some_iff.mpr rfl]
  cases k <;> exact ⟨_, _, rfl, rfl, rfl, lexeme⟩

/-- A lexeme that is no bracket and is read up to a blank, or to the end of the text. -/
structure ReadsApart (l : Lexeme) : Prop where
  begins : ∃ c cs, l.text.toList = c :: cs ∧ c ∉ leads
  plain : ∀ depth, depthAfter l depth = depth
  reads : ∀ tail, Apart tail → Reads 0 l.text.toList [l] tail

theorem readsApart_word {word : String} (chars : word.toList = c :: cs) (hc : startsWord c = true)
    (hcs : cs.all continuesWord = true) (ht : (wordLexeme word).text = word) :
    ReadsApart (wordLexeme word) where
  begins := by
    refine ⟨c, cs, by rw [ht, chars], fun lead => ?_⟩
    simp only [leads, List.mem_cons, List.not_mem_nil, or_false] at lead
    rcases lead with rfl | rfl | rfl | rfl | rfl | rfl <;> cases hc
  plain := depthAfter_word word
  reads tail htail := by
    have read := Reads.word (d := 0) hc hcs htail.continuesWord
    rw [← chars, String.ofList_toList] at read
    rwa [ht]

theorem readsApart_int {n : Int64} (hn : 0 ≤ n) : ReadsApart (.int n) := by
  have low : 0 ≤ n.toInt := Int64.le_iff_toInt_le.mp hn
  have high := n.toInt_lt
  have value : Int64.ofNat n.toInt.toNat = n := by
    rw [← Int64.ofInt_eq_ofNat, Int.toNat_of_nonneg low, Int64.ofInt_toInt]
  have digits : (Lexeme.text (.int n)).toList = Nat.toDigits 10 n.toInt.toNat := by
    rw [Lexeme.text, Int.toString_eq_repr, Int.repr_eq_if, if_pos low, Nat.toList_repr]
  refine ⟨?_, fun _ => rfl, fun tail ht => ?_⟩
  · obtain ⟨c, cs, hd⟩ := List.exists_cons_of_ne_nil (Nat.toDigits_ne_nil (n := n.toInt.toNat))
    have digit : c.isDigit = true := Nat.isDigit_of_mem_toDigits (b := 10) (by decide) (by decide)
      (hd ▸ List.mem_cons_self ..)
    have digit := digit_cases digit
    refine ⟨c, cs, digits.trans hd, ?_⟩
    fin_cases digit <;> decide
  · have read := Reads.natural (d := 0) (n := n.toInt.toNat) (by omega) ht.endsNumber
    rwa [value, ← digits] at read

theorem readsApart_str (content : String) : ReadsApart (.str content) := by
  have chars : (Lexeme.text (.str content)).toList = quoted content.toList := by
    rw [Lexeme.text, Text.quote, String.toList_ofList]
  refine ⟨⟨quoteFor content.toList, _, chars, ?_⟩, fun _ => rfl, fun tail _ => ?_⟩
  · rcases quoteFor_cases content.toList with hq | hq <;> rw [hq] <;> decide
  · have read : Reads 0 (quoted content.toList) [.str (String.ofList content.toList)] tail :=
      .quoted content.toList
    rwa [String.ofList_toList, ← chars] at read

/-- A written lexeme is an operator or punctuation, or a word, a number or a string. -/
theorem spelled_or_apart (hl : l.IsWritten) :
    l.IsSign ∨ ReadsApart l := by
  cases l with
  | name word =>
    obtain ⟨identifier, free⟩ := hl
    obtain ⟨c, cs, chars, hc, hcs⟩ := word_of_isIdentifier identifier
    have text : (wordLexeme word).text = word := by
      rw [wordLexeme_name free]
      rfl
    rw [← wordLexeme_name free]
    exact .inr (readsApart_word chars hc (List.all_eq_true.mpr hcs) text)
  | int n => exact .inr (readsApart_int hl)
  | str content => exact .inr (readsApart_str content)
  | op | augment => exact .inl trivial
  | mark m =>
    cases m with
    | keyword k =>
      obtain ⟨c, cs, chars, hc, hcs, lexeme⟩ := keyword_word k
      rw [← lexeme]
      exact .inr (readsApart_word chars hc hcs (by rw [lexeme]; rfl))
    | punct => exact .inl trivial
    | layout => cases hl
  | float => cases hl

theorem begins_of_isWritten (hl : l.IsWritten) :
    ∃ c cs, l.text.toList = c :: cs ∧ c ∉ leads := by
  rcases spelled_or_apart hl with sign | apart
  · have member := mem_spellingsByLength_iff.mpr ⟨sign, rfl⟩
    obtain ⟨c, cs, hc⟩ := List.exists_cons_of_ne_nil (spellings_ne_nil _ member)
    exact ⟨c, cs, hc, (spellings_begin _ member c (by rw [hc]; rfl)).1⟩
  · exact apart.begins

/-- A written lexeme is read where its brackets fit. -/
theorem run_text (hl : l.IsWritten) (ht : Apart tail) (hfits : BracketsFit s.depth (l :: ls))
    (hfresh : s.fresh = false) (hrest : s.rest = l.text.toList ++ tail) :
    s.run map = ({ s with
      rest := tail
      depth := depthAfter l s.depth }.push map l).run map := by
  rcases spelled_or_apart hl with sign | apart
  · have member := mem_spellingsByLength_iff.mpr ⟨sign, rfl⟩
    obtain ⟨c, cs, hc⟩ := List.exists_cons_of_ne_nil (spellings_ne_nil _ member)
    dsimp only at hc
    rw [hc, List.cons_append] at hrest
    exact run_of_step (by rw [hrest]; exact List.cons_ne_nil _ _)
      ((step_inside hfresh hrest).trans (readToken_sign member hc ht hfits))
  · have room := (hfits [] List.nil_prefix).2
    simp only [List.countP_nil, Nat.add_zero, Nat.zero_add] at room
    rw [apart.reads tail ht map s hfresh room hrest, apart.plain]
    rfl

/-! ## Lexemes in a row -/

/-- The texts of the lexemes with a blank between neighbours. -/
def rowText (ls : List Lexeme) : List Char :=
  [' '].intercalate (ls.map fun l => l.text.toList)

/-- Written lexemes in a row are read as they are. -/
theorem run_row (map : Array Nat) (hls : ∀ l ∈ ls, l.IsWritten) (hfits : BracketsFit s.depth ls)
    (hfresh : s.fresh = false) (hrest : s.rest = rowText ls) :
    ∃ depth, s.run map = .ok { s with
      rest := []
      depth
      tokens := (onLine (reportedLine map s.line) ls).reverse ++ s.tokens } := by
  induction ls generalizing s with
  | nil =>
    refine ⟨s.depth, (run_of_rest hrest).trans ?_⟩
    rw [← show s.rest = [] from hrest]
    rfl
  | cons l ls ih =>
    obtain ⟨hl, hls⟩ := List.forall_mem_cons.mp hls
    have tokens : (onLine (reportedLine map s.line) (l :: ls)).reverse ++ s.tokens
        = (onLine (reportedLine map s.line) ls).reverse
          ++ ⟨l, reportedLine map s.line⟩ :: s.tokens := by
      rw [onLine_cons, List.reverse_cons, List.append_assoc]
      rfl
    rw [tokens]
    cases ls with
    | nil =>
      rw [rowText, List.map_singleton, List.intercalate_singleton, ← List.append_nil l.text.toList]
        at hrest
      rw [run_text hl .nil hfits hfresh hrest]
      exact ⟨_, run_of_rest rfl⟩
    | cons next ls =>
      have row : rowText (l :: next :: ls) = l.text.toList ++ ' ' :: rowText (next :: ls) := by
        simp only [rowText, List.map_cons, List.intercalate_cons_cons, List.append_assoc]
        rfl
      have apart : Apart (' ' :: rowText (next :: ls)) := by
        rintro _ ⟨⟩
        rfl
      rw [run_text hl apart hfits hfresh (hrest.trans row)]
      generalize hu : push map l _ = u
      have rest : u.rest = ' ' :: rowText (next :: ls) := by
        subst hu
        rfl
      have blank : u.step map = .ok { u with rest := rowText (next :: ls) } :=
        step_inside (by subst hu; exact hfresh) rest
      rw [run_of_step (by rw [rest]; exact List.cons_ne_nil _ _) blank]
      subst hu
      exact ih hls hfits.tail hfresh rfl

theorem begins_row (hne : ls ≠ []) (hls : ∀ l ∈ ls, l.IsWritten) :
    ∃ c cs, rowText ls = c :: cs ∧ c ∉ leads := by
  obtain ⟨l, ls, rfl⟩ := List.exists_cons_of_ne_nil hne
  obtain ⟨c, cs, hc, begins⟩ := begins_of_isWritten (hls l (List.mem_cons_self ..))
  have front : ∃ more, rowText (l :: ls) = l.text.toList ++ more := by
    cases ls with
    | nil => exact ⟨[], by simp [rowText]⟩
    | cons next ls => exact ⟨_, by rw [rowText, List.map_cons, List.map_cons,
        List.intercalate_cons_cons, List.append_assoc]⟩
  obtain ⟨more, row⟩ := front
  exact ⟨c, cs ++ more, by rw [row, hc, List.cons_append], begins⟩

/-- A text of written lexemes in a row is read as they are, with the ends of the line and of the
text behind them. -/
theorem tokenize_row {text : String} (hne : ls ≠ []) (hls : ∀ l ∈ ls, l.IsWritten)
    (hfits : BracketsFit 0 ls) (chars : text.toList = rowText ls) :
    tokenize text #[] = .ok (onLine 1 (ls ++ [.mark Layout.newline, .mark Layout.finish])) := by
  obtain ⟨front, last, split⟩ := (List.eq_nil_or_concat' ls).resolve_left hne
  have word : last.isLayout = false := (hls last (by simp [split])).isLayout
  obtain ⟨depth, read⟩ := run_row #[] (s := { start text.toList with fresh := false })
    hls hfits rfl chars
  refine tokenize_of_run (chars ▸ begins_row hne hls) ⟨front, last, split, word⟩ ⟨depth, ?_⟩
  rw [read, start, List.append_nil]
  rfl

end Scan

open Scan

variable {ls : List Lexeme}

/-- Lexemes that are written on one line with a blank between neighbours are read as they are, with
the ends of the line and of the text behind them. -/
theorem tokenize_texts (hne : ls ≠ []) (hls : ∀ l ∈ ls, l.IsWritten) (hfits : BracketsFit 0 ls) :
    tokenize (" ".intercalate (ls.map Lexeme.text)) #[]
      = .ok (onLine 1 (ls ++ [.mark Layout.newline, .mark Layout.finish])) := by
  refine tokenize_row hne hls hfits ?_
  rw [String.toList_intercalate, List.map_map]
  rfl

/-- Lexemes that would run together without the blanks, and brackets that stay open. -/
theorem tokenize_texts_apart :
    let ls : List Lexeme := [.mark Punct.dot, .int 5, .name "e5", .augment .floorDiv, .op .div,
      .mark Punct.assign, .mark Punct.eq, .mark Punct.lparen, .mark Keyword.notKw, .str "it's\n"]
    ls ≠ [] ∧ (∀ l ∈ ls, l.IsWritten) ∧ BracketsFit 0 ls ∧
      tokenize ". 5 e5 //= / = == ( not \"it's\\n\"" #[]
        = .ok (onLine 1 (ls ++ [.mark Layout.newline, .mark Layout.finish])) := by
  intro ls
  have hne : ls ≠ [] := List.cons_ne_nil _ _
  have hls : ∀ l ∈ ls, l.IsWritten := by decide
  have hfits : BracketsFit 0 ls := by decide
  have text : " ".intercalate (ls.map Lexeme.text) = ". 5 e5 //= / = == ( not \"it's\\n\"" := by
    decide
  exact ⟨hne, hls, hfits, text ▸ tokenize_texts hne hls hfits⟩

end SortTrace.Script
