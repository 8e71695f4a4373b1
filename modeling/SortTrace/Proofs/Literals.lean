import Mathlib.Tactic.FinCases
import SortTrace.Proofs.Instrumenting.Lines
import SortTrace.Proofs.Instrumenting.Origins
import SortTrace.Proofs.Integers
import SortTrace.Proofs.Printing.Layout
import SortTrace.Proofs.Printing.Reading

/-!
# Scanning literals

The scanner reads the decimal text of a 64-bit integer as the lexemes of a literal, and the written
form of a list of integers as those of a list expression. `Reads` says this of a piece of text
inside a line, wherever it stands, and is composed along the pieces.
-/

namespace SortTrace.Script.Scan

open Text Decimal

variable {map : Array Nat} {c : Char} {cs text text' tail : List Char} {s : Scan} {l : Lexeme}
  {ls ls' : List Lexeme} {d n : Nat}

/-- Inside a line, the text before `tail` is read as the given lexemes. It opens at most `d`
brackets at once. -/
def Reads (d : Nat) (text : List Char) (ls : List Lexeme) (tail : List Char) : Prop :=
  ∀ (map : Array Nat) (s : Scan), s.fresh = false → s.depth + d ≤ maxBrackets →
    s.rest = text ++ tail →
    s.run map = ({ s with
      rest := tail
      tokens := (onLine (reportedLine map s.line) ls).reverse ++ s.tokens } : Scan).run map

namespace Reads

theorem append (h : Reads d text ls (text' ++ tail)) (h' : Reads d text' ls' tail) :
    Reads d (text ++ text') (ls ++ ls') tail := by
  intro map s hfresh hdepth hrest
  rw [h map s hfresh hdepth (by rw [hrest, List.append_assoc])]
  generalize hu : ({ s with rest := text' ++ tail, tokens := _ } : Scan) = u
  rw [h' map u (by subst hu; exact hfresh) (by subst hu; exact hdepth) (by subst hu; rfl)]
  subst hu
  rw [onLine_append, List.reverse_append, List.append_assoc]

theorem nil : Reads d [] [] tail := by
  intro map s _ _ hrest
  rw [List.nil_append] at hrest
  rw [← hrest]
  rfl

/-- A piece of text that one step reads. -/
theorem token (h : ∀ (map : Array Nat) (s : Scan),
      s.readToken map c (cs ++ tail) = .ok ({ s with rest := tail }.push map l)) :
    Reads d (c :: cs) [l] tail := by
  intro map s hfresh _ hrest
  have step : s.step map = .ok ({ s with rest := tail }.push map l) :=
    (step_inside hfresh hrest).trans (h map s)
  rw [run_of_step (by rw [hrest]; exact List.cons_ne_nil _ _) step]
  rfl

theorem blank (h : Reads d text ls tail) : Reads d (' ' :: text) ls tail := by
  intro map s hfresh hdepth hrest
  have step : s.step map = .ok { s with rest := text ++ tail } := step_inside hfresh hrest
  rw [run_of_step (by rw [hrest]; exact List.cons_ne_nil _ _) step]
  exact h map { s with rest := text ++ tail } hfresh hdepth rfl

theorem comma (h : Reads d text ls tail) :
    Reads d (',' :: text) (.mark Punct.comma :: ls) tail :=
  have sign : Reads d [','] [.mark Punct.comma] (text ++ tail) := token fun _ _ => rfl
  sign.append h

/-- A text in brackets of one kind, behind the scan of what stands in them. -/
theorem enclosed {left right : Char} {p q : Punct}
    (opens : ∀ (map : Array Nat) (s : Scan) (cs : List Char), s.depth < maxBrackets →
      s.readToken map left cs
        = .ok ({ s with rest := cs, depth := s.depth + 1 }.push map (.mark p)))
    (closes : ∀ (map : Array Nat) (s : Scan) (cs : List Char), s.depth ≠ 0 →
      s.readToken map right cs
        = .ok ({ s with rest := cs, depth := s.depth - 1 }.push map (.mark q)))
    (h : Reads d text ls (right :: tail)) :
    Reads (d + 1) (left :: (text ++ [right])) (.mark p :: (ls ++ [.mark q])) tail := by
  intro map s hfresh hdepth hrest
  have opened : s.step map = .ok ({ s with
      rest := text ++ right :: tail
      depth := s.depth + 1 }.push map (.mark p)) :=
    (step_inside hfresh (by rw [hrest]; simp)).trans (opens map s _ (by omega))
  rw [run_of_step (by rw [hrest]; simp) opened]
  have room : s.depth + 1 + d ≤ maxBrackets := by omega
  generalize hv : push map _ _ = v
  rw [h map v (by subst hv; exact hfresh) (by subst hv; exact room) (by subst hv; rfl)]
  subst hv
  generalize hu : ({ push map _ _ with rest := right :: tail, tokens := _ } : Scan) = u
  have depth : u.depth = s.depth + 1 := by
    subst hu
    rfl
  have closed : u.step map = .ok ({ u with
      rest := tail
      depth := u.depth - 1 }.push map (.mark q)) :=
    (step_inside (by subst hu; exact hfresh) (by subst hu; rfl)).trans
      (closes map u tail (by omega))
  rw [run_of_step (by subst hu; simp) closed, depth]
  subst hu
  simp [push]

/-- An opening bracket is read where there is room for it. -/
theorem opens_of_nest {left : Char} {l : Lexeme}
    (read : s.readToken map left cs = (s.nest map left l).map fun depth =>
      { s with rest := cs, depth }.push map l)
    (nest : s.nest map left l = if maxBrackets ≤ s.depth
      then fail map "too many nested parentheses" s.line else .ok (s.depth + 1))
    (room : s.depth < maxBrackets) :
    s.readToken map left cs = .ok ({ s with rest := cs, depth := s.depth + 1 }.push map l) := by
  rw [read, nest, if_neg (by omega)]
  rfl

/-- A closing bracket is read where one is open. -/
theorem closes_of_nest {right : Char} {l : Lexeme} {message : String}
    (read : s.readToken map right cs = (s.nest map right l).map fun depth =>
      { s with rest := cs, depth }.push map l)
    (nest : s.nest map right l
      = if s.depth = 0 then fail map message s.line else .ok (s.depth - 1))
    (inside : s.depth ≠ 0) :
    s.readToken map right cs = .ok ({ s with rest := cs, depth := s.depth - 1 }.push map l) := by
  rw [read, nest, if_neg inside]
  rfl

theorem brackets (h : Reads d text ls (']' :: tail)) :
    Reads (d + 1) ('[' :: (text ++ [']']))
      (.mark Punct.lbracket :: (ls ++ [.mark Punct.rbracket])) tail :=
  h.enclosed (fun _ _ _ => opens_of_nest rfl rfl) fun _ _ _ => closes_of_nest rfl rfl

theorem parens (h : Reads d text ls (')' :: tail)) :
    Reads (d + 1) ('(' :: (text ++ [')'])) (inParens ls) tail :=
  h.enclosed (fun _ _ _ => opens_of_nest rfl rfl) fun _ _ _ => closes_of_nest rfl rfl

/-- A text may open more brackets than it does. -/
theorem mono {d' : Nat} (h : Reads d text ls tail) (hd : d ≤ d') : Reads d' text ls tail :=
  fun map s hfresh hdepth hrest => h map s hfresh (by omega) hrest

end Reads

/-! ## Numbers -/

/-- A text that does not go on with a number or a word in front of it. -/
def Delimited (tail : List Char) : Prop :=
  ∀ c ∈ tail.head?, c = ',' ∨ c = ']' ∨ c = ')' ∨ c = '\n'

theorem Delimited.nil : Delimited [] := nofun

theorem Delimited.cons {cs : List Char} (hc : c = ',' ∨ c = ']' ∨ c = ')' ∨ c = '\n') :
    Delimited (c :: cs) := by
  intro c' hc'
  cases hc'
  exact hc

/-- A text in front of which a number ends. -/
def EndsNumber (tail : List Char) : Prop :=
  ∀ c ∈ tail.head?, c.isDigit = false ∧ c ≠ '.' ∧ startsWord c = false

theorem Delimited.endsNumber (h : Delimited tail) : EndsNumber tail := by
  intro c hc
  rcases h c hc with rfl | rfl | rfl | rfl <;> decide

theorem EndsNumber.startsWord (h : EndsNumber tail) : tail.head?.any startsWord = false := by
  cases tail with
  | nil => rfl
  | cons c tail => exact (h c rfl).2.2

/-- Digits and underscores make the extent of a number. -/
theorem numberBody_digits {taken : List Char} (h : ∀ c ∈ cs, c.isDigit = true ∨ c = '_')
    (ht : EndsNumber tail) :
    numberBody (cs ++ tail) false taken = (taken.reverse ++ cs, false, tail) := by
  induction cs generalizing taken with
  | nil =>
    rw [List.append_nil, List.nil_append]
    cases tail with
    | nil => rfl
    | cons c tail =>
      obtain ⟨hdigit, hpoint, hword⟩ := ht c rfl
      have letter (d : Char) (hd : Text.startsWord d = true) : c ≠ d := by
        rintro rfl
        rw [hword] at hd
        cases hd
      rw [numberBody.eq_def]
      simp [hdigit, hpoint, letter '_' rfl, letter 'e' rfl, letter 'E' rfl]
  | cons c cs ih =>
    obtain ⟨hc, hcs⟩ := List.forall_mem_cons.mp h
    rw [List.cons_append, numberBody.eq_def]
    simp only [if_pos hc]
    rw [ih hcs, List.reverse_cons, List.append_assoc]
    rfl

theorem digit_cases (h : c.isDigit = true) :
    c ∈ ['0', '1', '2', '3', '4', '5', '6', '7', '8', '9'] := by
  obtain ⟨low, high⟩ := digit_bounds h
  have digit : ∀ n : Fin 10,
      Char.ofNat (48 + n) ∈ ['0', '1', '2', '3', '4', '5', '6', '7', '8', '9'] := by
    decide
  have same : Char.ofNat c.toNat = c := Char.ofNat_toNat c
  rw [← same]
  have place := digit ⟨c.toNat - 48, by omega⟩
  simpa [Nat.add_sub_cancel' low] using place

theorem readToken_digit (h : c.isDigit = true) :
    s.readToken map c cs = s.readNumber map c cs := by
  have digit := digit_cases h
  fin_cases digit <;> rfl

/-- The value of the decimal digits of a number. -/
theorem readNat?_toDigits (n : Nat) : readNat? (Nat.toDigits 10 n) = some n := by
  have digits : ∀ c ∈ Nat.toDigits 10 n, c.isDigit = true := fun c hc =>
    Nat.isDigit_of_mem_toDigits (by decide) (by decide) hc
  have value : digitsValue (Nat.toDigits 10 n) = n := by
    have read := Nat.ofDigitChars_ten_toDigits (n := n)
    rwa [Nat.ofDigitChars_eq_foldl] at read
  rw [readNat?, if_neg, value]
  simpa [Nat.toDigits_ne_nil] using digits

theorem readInt?_toDigits (n : Nat) : readInt? (Nat.toDigits 10 n) = some (n : Int) := by
  have unsigned : takeSign (Nat.toDigits 10 n) = (false, Nat.toDigits 10 n) := by
    cases hd : Nat.toDigits 10 n with
    | nil => rfl
    | cons c cs =>
      have mem : c ∈ Nat.toDigits 10 n := by rw [hd]; exact List.mem_cons_self ..
      have digit := digit_cases (Nat.isDigit_of_mem_toDigits (by decide) (by decide) mem)
      fin_cases digit <;> rfl
  rw [readInt?, unsigned]
  dsimp only
  rw [readNat?_toDigits]
  rfl

theorem readInt64?_toDigits (hn : n < 2 ^ 63) :
    readInt64? (Nat.toDigits 10 n) = some (Int64.ofNat n) := by
  rw [readInt64?, readInt?_toDigits]
  exact if_pos (Int64.toInt_ofNat_of_lt hn)

theorem readInt64?_toDigits_of_le (hn : 2 ^ 63 ≤ n) : readInt64? (Nat.toDigits 10 n) = none := by
  rw [readInt64?, readInt?_toDigits]
  refine if_neg fun fits => ?_
  have below := Int64.toInt_lt (Int64.ofInt n)
  rw [fits] at below
  omega

/-- The characters are the decimal digits of the number, but for underscores behind the first. -/
structure AreDigits (n : Nat) (cs : List Char) : Prop where
  digits : cs.filter (fun c => c != '_') = Nat.toDigits 10 n
  begins : cs.head? ≠ some '_'

theorem areDigits_toDigits (n : Nat) : AreDigits n (Nat.toDigits 10 n) := by
  have plain : ∀ c ∈ Nat.toDigits 10 n, c ≠ '_' := by
    rintro _ hc rfl
    have digit := Nat.isDigit_of_mem_toDigits (by decide) (by decide) hc
    cases digit
  constructor
  · exact List.filter_eq_self.mpr fun c hc => bne_iff_ne.mpr (plain c hc)
  · exact fun first => plain '_' (List.mem_of_mem_head? first) rfl

namespace AreDigits

/-- The first is a digit, and what comes behind it are digits and underscores. -/
theorem eq_cons (hcs : AreDigits n cs) : ∃ c rest, cs = c :: rest ∧ c.isDigit = true ∧
    ∀ x ∈ rest, x.isDigit = true ∨ x = '_' := by
  have digit {x : Char} (hx : x ∈ cs) (other : x ≠ '_') : x.isDigit = true := by
    have kept : x ∈ cs.filter (fun c => c != '_') :=
      List.mem_filter.mpr ⟨hx, bne_iff_ne.mpr other⟩
    rw [hcs.digits] at kept
    exact Nat.isDigit_of_mem_toDigits (by decide) (by decide) kept
  cases cs with
  | nil => exact absurd hcs.digits.symm Nat.toDigits_ne_nil
  | cons c rest =>
    refine ⟨c, rest, rfl,
      digit (List.mem_cons_self ..) fun first => hcs.begins (by rw [first]; rfl), fun x hx => ?_⟩
    by_cases underscore : x = '_'
    · exact .inr underscore
    · exact .inl (digit (List.mem_cons_of_mem c hx) underscore)

/-- The digits of a number make one token, if 64 bits hold the number. -/
theorem readToken (hcs : AreDigits n (c :: cs)) (ht : EndsNumber tail) (map : Array Nat)
    (s : Scan) : s.readToken map c (cs ++ tail)
      = match readInt64? (Nat.toDigits 10 n) with
        | some k => .ok ({ s with rest := tail }.push map (.int k))
        | none => .error .overflow := by
  obtain ⟨_, _, ⟨⟩, hc, hrest⟩ := hcs.eq_cons
  have body : numberBody (cs ++ tail) false [c] = (c :: cs, false, tail) :=
    numberBody_digits hrest ht
  have point : (c == '.') = false := by
    rw [beq_eq_false_iff_ne]
    rintro rfl
    cases hc
  rw [readToken_digit hc, readNumber, point, body]
  simp only [ht.startsWord, numberLexeme, hcs.digits]
  cases readInt64? (Nat.toDigits 10 n) <;> rfl

/-- The digits of a number are read as that number. -/
theorem reads (hcs : AreDigits n cs) (hn : n < 2 ^ 63) (ht : EndsNumber tail) :
    Reads d cs [.int (Int64.ofNat n)] tail := by
  obtain ⟨c, rest, rfl, -⟩ := hcs.eq_cons
  refine .token fun map s => ?_
  rw [hcs.readToken ht, readInt64?_toDigits hn]

/-- A number that 64 bits do not hold is not read. -/
theorem run_overflow (hcs : AreDigits n cs) (hn : 2 ^ 63 ≤ n) (ht : EndsNumber tail)
    (hfresh : s.fresh = false) (hrest : s.rest = cs ++ tail) : s.run map = .error .overflow := by
  obtain ⟨c, rest, rfl, -⟩ := hcs.eq_cons
  rw [List.cons_append] at hrest
  have step : s.step map = .error .overflow := by
    rw [step_inside hfresh hrest, hcs.readToken ht, readInt64?_toDigits_of_le hn]
  exact run_of_error (by rw [hrest]; exact List.cons_ne_nil _ _) step

end AreDigits

/-- The decimal text of a number is read as that number. -/
theorem Reads.natural (hn : n < 2 ^ 63) (ht : EndsNumber tail) :
    Reads d (Nat.toDigits 10 n) [.int (Int64.ofNat n)] tail :=
  (areDigits_toDigits n).reads hn ht

theorem operator?_minus (h : c.isDigit = true) :
    operator? '-' (c :: cs) = some (.op .sub, c :: cs) := by
  have digit := digit_cases h
  fin_cases digit <;> rfl

/-- A minus in front of a digit is an operator of its own. -/
theorem Reads.minus (h : c.isDigit = true) : Reads d ['-'] [.op .sub] (c :: cs) := by
  refine .token fun map s => ?_
  have token : s.readToken map '-' (c :: cs) = s.readOperator map '-' (c :: cs) := rfl
  rw [List.nil_append, token, readOperator, operator?_minus h]
  rfl

theorem AreDigits.minus (hcs : AreDigits n cs) : Reads d ['-'] [.op .sub] (cs ++ tail) := by
  obtain ⟨c, rest, rfl, digit, -⟩ := hcs.eq_cons
  exact .minus digit

/-! ## Integers and their lists -/

theorem lexemes_ofInt {x : Int} (h : Small x) : (Literal.int (Int64.ofInt x)).lexemes
    = if x < 0 then [.op .sub, .int (Int64.ofNat (-x).toNat)]
      else [.int (Int64.ofNat x.toNat)] := by
  have negative : Int64.ofInt x < 0 ↔ x < 0 := by
    rw [Int64.lt_iff_toInt_lt, h.toInt]
    rfl
  simp only [Literal.lexemes, negative]
  split
  · have magnitude : -Int64.ofInt x = Int64.ofNat (-x).toNat := by
      rw [← Int64.ofInt_neg, ← Int64.ofInt_eq_ofNat]
      congr 1
      omega
    rw [magnitude]
  · have magnitude : Int64.ofInt x = Int64.ofNat x.toNat := by
      rw [← Int64.ofInt_eq_ofNat]
      congr 1
      omega
    rw [magnitude]

/-- The text of an integer is read as a literal, with a sign of its own where it has one. -/
theorem Reads.integer {x : Int} (h : Small x) (ht : Delimited tail) :
    Reads d (toString x).toList (Literal.int (Int64.ofInt x)).lexemes tail := by
  rw [lexemes_ofInt h, Int.toString_eq_repr, Int.repr_eq_if]
  rw [Small] at h
  by_cases hx : x < 0
  · have digits := Reads.natural (d := d) (n := (-x).toNat) (by omega) ht.endsNumber
    rw [if_neg (by omega), if_pos hx, String.toList_append, Nat.toList_repr]
    exact (areDigits_toDigits _).minus.append digits
  · rw [if_pos (by omega), if_neg hx, Nat.toList_repr]
    exact .natural (by omega) ht.endsNumber

/-- Pieces of text with a comma and a blank between neighbours. -/
theorem Reads.commas {pieces : List (List Char × List Lexeme)}
    (h : ∀ p ∈ pieces, ∀ tail, Delimited tail → Reads d p.1 p.2 tail) (ht : Delimited tail) :
    Reads d (List.intercalate [',', ' '] (pieces.map Prod.fst))
      (separated (pieces.map Prod.snd)) tail := by
  induction pieces with
  | nil => exact .nil
  | cons p pieces ih =>
    obtain ⟨first, others⟩ := List.forall_mem_cons.mp h
    cases pieces with
    | nil =>
      rw [List.map_cons, List.map_nil, List.intercalate_singleton]
      exact first tail ht
    | cons q pieces =>
      simp only [List.map_cons, List.intercalate_cons_cons, separated] at ih ⊢
      rw [List.append_assoc]
      exact Reads.append (first _ (.cons (.inl rfl))) (.comma (.blank (ih others)))

end SortTrace.Script.Scan

namespace SortTrace.Script

namespace Scan

variable {map : Array Nat} {tail : List Char} {xs : List Int}

theorem groups_ofInt (xs : List Int) : Expr.groups (xs.map Expr.ofInt)
    = xs.map fun x => (Literal.int (Int64.ofInt x)).lexemes := by
  induction xs with
  | nil => rfl
  | cons x xs ih =>
    rw [List.map_cons, List.map_cons, Expr.groups, ih]
    rfl

/-- The text of a list of integers is read as a list expression. -/
theorem Reads.ints (h : ∀ x ∈ xs, Small x) :
    Reads 1 (Value.intsText xs).toList (Expr.ofInts xs).lexemes tail := by
  let pieces := xs.map fun x => ((toString x).toList, (Literal.int (Int64.ofInt x)).lexemes)
  have items : Reads 0 (List.intercalate [',', ' '] (pieces.map Prod.fst))
      (separated (pieces.map Prod.snd)) (']' :: tail) := by
    refine .commas (fun p hp tail ht => ?_) (.cons (by simp))
    obtain ⟨x, hx, rfl⟩ := List.mem_map.mp hp
    exact .integer (h x hx) ht
  have text : (Value.intsText xs).toList
      = '[' :: (List.intercalate [',', ' '] (pieces.map Prod.fst) ++ [']']) := by
    rw [Value.intsText, String.toList_append, String.toList_append, String.toList_intercalate,
      List.map_map, List.map_map]
    rfl
  have lexemes : (Expr.ofInts xs).lexemes = .mark Punct.lbracket ::
      (separated (pieces.map Prod.snd) ++ [.mark Punct.rbracket]) := by
    rw [Expr.ofInts, Expr.lexemes, groups_ofInt, List.map_map]
    rfl
  rw [text, lexemes]
  exact items.brackets

/-- The rest of a line that ends behind a bracket. -/
theorem run_restOfLine {s : Scan} {text : List Char} {ls : List Lexeme} {d : Nat}
    (h : Reads d text ls ('\n' :: tail)) (hlast : ls.getLast? = some (.mark Punct.rbracket))
    (hfresh : s.fresh = false) (hdepth : s.depth = 0) (hd : d ≤ maxBrackets)
    (hrest : s.rest = text ++ '\n' :: tail) :
    s.run map = ({ s with
      rest := tail
      line := s.line + 1
      fresh := true
      tokens := (onLine (reportedLine map s.line) (ls ++ [.mark Layout.newline])).reverse
        ++ s.tokens } : Scan).run map := by
  obtain ⟨front, rfl⟩ := List.getLast?_eq_some_iff.mp hlast
  rw [h map s hfresh (by omega) hrest]
  generalize hu : ({ s with rest := '\n' :: tail, tokens := _ } : Scan) = u
  have ended : u.endLine map = u.push map (.mark Layout.newline) := by
    subst hu
    rw [endLine, if_neg]
    simp [Scan.atLayout]
  have stale : u.fresh = false := by
    subst hu
    exact hfresh
  rw [run_newline (by subst hu; exact hdepth)
    (fun fresh => absurd (stale.symm.trans fresh) Bool.false_ne_true) (by subst hu; rfl), nextLine,
    ended]
  subst hu
  simp [push]

/-- The first line of a text that binds a list of integers. -/
theorem run_ints (map : Array Nat) (tail : List Char) (h : ∀ x ∈ xs, Small x) :
    (start ("arr = ".toList ++ ((Value.intsText xs).toList ++ '\n' :: tail))).run map
      = ({ start tail with
          line := 2
          tokens := (onLine (reportedLine map 1)
            (sideLexemes [.name "arr"] (Expr.ofInts xs) ++ [.mark Layout.newline])).reverse
            } : Scan).run map := by
  let behindName : Scan :=
    { start (" = ".toList ++ ((Value.intsText xs).toList ++ '\n' :: tail)) with
    fresh := false
    tokens := [⟨.name "arr", reportedLine map 1⟩] }
  have word : (start ("arr = ".toList ++ ((Value.intsText xs).toList ++ '\n' :: tail))).step map
      = .ok behindName := rfl
  have sign : Reads 1 ['='] [.mark Punct.assign]
      (' ' :: ((Value.intsText xs).toList ++ '\n' :: tail)) := .token fun _ _ => rfl
  have list : Reads 1 (' ' :: (Value.intsText xs).toList) (Expr.ofInts xs).lexemes
      ('\n' :: tail) := .blank (.ints h)
  have line := Reads.blank (sign.append list)
  have last : (([.mark Punct.assign] : List Lexeme) ++ (Expr.ofInts xs).lexemes).getLast?
      = some (.mark Punct.rbracket) :=
    List.getLast?_eq_some_iff.mpr ⟨.mark Punct.assign :: .mark Punct.lbracket :: separated _, rfl⟩
  have room : 1 ≤ maxBrackets := by decide
  rw [run_of_step (by simp [start]) word,
    run_restOfLine line last rfl rfl room (by simp [behindName, start])]
  simp [behindName, sideLexemes, Expr.ofInts, Expr.lexemes, start]

/-- What is scanned behind other tokens that end a line is scanned as it is by itself. -/
theorem finish_behind {s : Scan} {base ts : List Token} (hb : AtLayout base) (hs : s.tokens = [])
    (h : (s.run map).map (fun t => t.finish map) = .ok ts) :
    (({ s with tokens := base } : Scan).run map).map (fun t => t.finish map)
      = .ok (base.reverse ++ ts) := by
  cases hrun : s.run map with
  | error e =>
    rw [hrun] at h
    cases h
  | ok t =>
    rw [hrun] at h
    obtain rfl : t.finish map = ts := Except.ok.inj h
    have behind : Mirrors 0 [] [] base s { s with tokens := base } :=
      ⟨(List.append_nil _).symm, rfl, rfl, rfl, rfl, [], hs, rfl⟩
    obtain ⟨hrest, t', mirrored, hrun'⟩ := run_mirrors behind rfl hb .nil (fun _ _ _ => rfl) hrun
    have ended : t'.rest = [] := by rw [mirrored.rest, hrest, List.append_nil]
    have line : reportedLine map t'.line = reportedLine map t.line := by
      rw [mirrored.line, Nat.add_zero]
    obtain ⟨new, htokens, htokens'⟩ := (mirrored.endLine rfl hb line).tokens
    have finished : t'.finish map = base.reverse ++ t.finish map := by
      rw [finish_eq, finish_eq, htokens, htokens', mirrored.widths, line, List.reverse_append,
        List.append_nil, List.append_assoc]
    rw [hrun', run_of_rest ended]
    exact congrArg Except.ok finished

end Scan

/-- The tokens of a text whose first line binds a list of integers. -/
theorem tokenize_ints {map : Array Nat} {xs : List Int} {lines : List String} {ts : List Token}
    (hxs : ∀ x ∈ xs, Small x) (hmap : reportedLine map 1 = 1) (hne : lines ≠ [])
    (hlines : (({ Scan.start (Text.joined lines) with line := 2 } : Scan).run map).map
      (fun s => s.finish map) = .ok ts) :
    tokenize (Text.unlines (("arr = " ++ Value.intsText xs) :: lines)) map
      = .ok ((Stmt.assign 1 [.name "arr"] (.ofInts xs)).tokens ++ ts) := by
  have first := Scan.run_ints map (Text.joined lines) hxs
  rw [hmap] at first
  have ends : Scan.AtLayout
      (onLine 1 (sideLexemes [.name "arr"] (.ofInts xs) ++ [.mark Layout.newline])).reverse := by
    rw [onLine_append, List.reverse_append]
    rfl
  have chars : (Text.unlines (("arr = " ++ Value.intsText xs) :: lines)).toList
      = "arr = ".toList ++ ((Value.intsText xs).toList ++ '\n' :: Text.joined lines) := by
    rw [Text.toList_unlines, Text.joined_cons hne, String.toList_append, List.append_assoc]
  rw [tokenize, chars, first]
  refine (Scan.finish_behind ends rfl hlines).trans ?_
  rw [List.reverse_reverse, onLine_append, Stmt.tokens, ended]
  rfl

end SortTrace.Script
